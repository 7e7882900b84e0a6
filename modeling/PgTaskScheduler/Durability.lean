import PgTaskScheduler.Coupling

/-!
# Runs are durable, and terminal runs are final

A run stays until `prune_terminal` deletes it, and it is deleted only when it is terminal and old
enough. Until then a terminal run and its attempts stay exactly as they are.
-/

namespace PgTaskScheduler

open Tables ReadCommitted Histories

variable {K : Croner}

/-! ## Pruning -/

/-- The event is a pruning that deletes the run with the given id, which is terminal and finished
before the retention bound. -/
def PrunedBy (w : World) (e : Event K) (id : RunId) : Prop :=
  ∃ before limit r f, e.call = .pruneTerminal before limit ∧
    lookup Run.id id w.store.runs = some r ∧ r.state.Terminal ∧ r.finishedAt = some f ∧
    f < before.val ∧ ((scheduler K).after w e).store.view id = ⟨none, []⟩

/-- Along the events a run and its attempts are as they were in `w`, at least until a pruning
deletes them. -/
def KeptUntilPruned (w : World) (id : RunId) (es : List (Event K)) (w' : World) : Prop :=
  w'.store.view id = w.store.view id ∨ ∃ es₁ e es₂ w₁, es = es₁ ++ e :: es₂ ∧
    Reaches (scheduler K) w es₁ w₁ ∧ w₁.store.view id = w.store.view id ∧ PrunedBy w₁ e id

section Prune

variable {w w' : World} {e : Event K} {es : List (Event K)} {id : RunId} {r : Run}

/-- A run disappears only by being pruned. -/
theorem World.Sane.pruned_of_absent (hw : w.Sane) (he : (scheduler K).allowed w e)
    (hr : lookup Run.id id w.store.runs = some r)
    (hnone : lookup Run.id id ((scheduler K).after w e).store.runs = none) : PrunedBy w e id := by
  have hchange := hw.change he id
  rw [Store.view_eq_some hr] at hchange
  obtain ⟨before, limit, hcall, hdoomed⟩ := hchange.of_absent hnone
  obtain ⟨hterminal, f, hf, hlt⟩ := Run.of_doomed hdoomed
  have horphan := ((hw.after he).inv.coupled id).orphan hnone
  exact ⟨before, limit, r, f, hcall, hr, hterminal, hf, hlt, congrArg₂ RunView.mk hnone horphan⟩

/-- A terminal run changes only by being pruned. -/
theorem World.Sane.terminal_step (hw : w.Sane) (he : (scheduler K).allowed w e)
    (hr : lookup Run.id id w.store.runs = some r) (hs : r.state.Terminal) :
    ((scheduler K).after w e).store.view id = w.store.view id ∨ PrunedBy w e id := by
  have hchange := hw.change he id
  rw [Store.view_eq_some hr] at hchange
  rcases hchange.of_terminal hs with h | ⟨h, -⟩
  · exact Or.inl (h.trans (Store.view_eq_some hr).symm)
  · exact Or.inr (hw.pruned_of_absent he hr (congrArg RunView.run h))

/-- A terminal run is final. -/
theorem World.Sane.terminal_run (hw : w.Sane) (h : Reaches (scheduler K) w es w')
    (hr : lookup Run.id id w.store.runs = some r) (hs : r.state.Terminal) :
    KeptUntilPruned w id es w' := by
  rcases h.first_change fun w => w.store.view id with h | ⟨es₁, e, es₂, w₁, he, h₁, hallowed, heq,
    hne, -⟩
  · exact Or.inl h
  · have hw₁ : w₁.Sane := hw.reaches h₁
    have hr₁ : lookup Run.id id w₁.store.runs = some r := (congrArg RunView.run heq).trans hr
    rcases hw₁.terminal_step hallowed hr₁ hs with h | h
    · exact absurd (h.trans heq) hne
    · exact Or.inr ⟨es₁, e, es₂, w₁, he, h₁, heq, h⟩

/-- A run is there until it is pruned. -/
theorem World.Sane.present_run (hw : w.Sane) (h : Reaches (scheduler K) w es w')
    (hr : (lookup Run.id id w.store.runs).isSome) :
    (lookup Run.id id w'.store.runs).isSome ∨ ∃ es₁ e es₂ w₁, es = es₁ ++ e :: es₂ ∧
      Reaches (scheduler K) w es₁ w₁ ∧ PrunedBy w₁ e id := by
  rcases h.first_change fun w => (lookup Run.id id w.store.runs).isSome with
    h | ⟨es₁, e, es₂, w₁, he, h₁, hallowed, heq, hne, -⟩
  · exact Or.inl (h.trans hr)
  · obtain ⟨r₁, hr₁⟩ := Option.isSome_iff_exists.mp (heq.trans hr)
    rw [hr, ne_eq, Bool.not_eq_true, Option.isSome_eq_false_iff, Option.isNone_iff_eq_none] at hne
    exact Or.inr ⟨es₁, e, es₂, w₁, he, h₁, (hw.reaches h₁).pruned_of_absent hallowed hr₁ hne⟩

end Prune

/-! ## A cancelled task -/

/-- `cancel` answers `Cancelled` only when it has cancelled the task. -/
theorem cancel_exec_cancelled {s : Store} {id : RunId} {env : ℕ → Env}
    (h : ((cancel id).exec db env s s).1 = .ok .cancelled) :
    ∃ r, lookup Run.id id ((cancel id).exec db env s s).2.runs = some r ∧
      r.state = .cancelled := by
  unfold cancel at h ⊢
  rcases hq : (cancelQuery id).run (env 0) s s with e | ⟨w, changed⟩
  · rw [Prog.exec_stmt_error hq] at h
    simp at h
  rw [Prog.exec_stmt_ok hq] at h ⊢
  simp only [Prog.exec] at h ⊢
  by_cases hc : changed = []
  · -- nothing was changed: the answer comes from the query that follows
    rw [if_neg (by simpa using hc)] at h
    rcases hx : (taskExists id).run (env 1) (db.apply w s) (db.apply w s) with e | ⟨w', found⟩
    · rw [Prog.exec_stmt_error hx] at h
      simp at h
    · rw [Prog.exec_stmt_ok hx] at h
      cases found <;> simp [Prog.exec] at h
  rw [if_pos hc]
  obtain ⟨-, -, rfl⟩ | ⟨t, ht, rfl, rfl, -, -⟩ := cancelQuery_ok hq
  · exact absurd rfl hc
  have hl := (cancelTarget_some ht).1
  have hcan : t.cancellable (cancelClosed (env 0) t s s) := by
    by_contra hcan
    exact hc (by simp [cancelPatch, hcan])
  refine ⟨t.cancel (env 0), ?_, rfl⟩
  have hkey : t.id = id := key_of_lookup hl
  show lookup Run.id id ((cancelPatch (env 0) t (cancelClosed (env 0) t s s)).runs.apply
    Run.id s.runs) = _
  rw [cancelPatch, if_pos hcan, Edit.lookup_apply_update,
    if_pos (show (t.cancel (env 0)).id = id from hkey), hl]
  rfl

/-- **Runs are durable and terminal runs are final.** A run disappears only by being pruned; until
then a terminal run and its attempts are left alone by every operation; and what `cancel` reports as
cancelled stays so. -/
theorem durability {w : World} (h : w.Reachable K) :
    (∀ e : Event K, (scheduler K).allowed w e → ∀ id,
      (lookup Run.id id w.store.runs).isSome →
      lookup Run.id id ((scheduler K).after w e).store.runs = none → PrunedBy w e id) ∧
    (∀ (es : List (Event K)) w', Reaches (scheduler K) w es w' → ∀ id,
      (lookup Run.id id w.store.runs).isSome →
      (lookup Run.id id w'.store.runs).isSome ∨ ∃ es₁ e es₂ w₁, es = es₁ ++ e :: es₂ ∧
        Reaches (scheduler K) w es₁ w₁ ∧ PrunedBy w₁ e id) ∧
    (∀ (es : List (Event K)) w', Reaches (scheduler K) w es w' → ∀ r ∈ w.store.runs,
      r.state.Terminal → KeptUntilPruned w r.id es w') ∧
    ∀ e : Event K, (scheduler K).allowed w e → ∀ id, e.call = .cancel id →
      (e.outcome w.store).1 = .ok (.cancelled .cancelled) →
      (∃ r, lookup Run.id id ((scheduler K).after w e).store.runs = some r ∧
        r.state = .cancelled) ∧
      ∀ es w', Reaches (scheduler K) ((scheduler K).after w e) es w' →
        KeptUntilPruned ((scheduler K).after w e) id es w' := by
  have hw := h.sane
  refine ⟨fun e he id hr hnone => ?_, fun es w' hreach id hr => hw.present_run hreach hr,
    fun es w' hreach r hr hs => hw.terminal_run hreach (lookup_of_mem hw.inv.runIds hr) hs,
    fun e he id hcall hanswer => ?_⟩
  · obtain ⟨r, hr⟩ := Option.isSome_iff_exists.mp hr
    exact hw.pruned_of_absent he hr hnone
  · have hcancelled : ∃ r, lookup Run.id id ((scheduler K).after w e).store.runs = some r ∧
        r.state = .cancelled := by
      simp only [Event.outcome, hcall, program, Prog.exec_map] at hanswer
      have hafter : ((scheduler K).after w e).store =
          ((cancel id).exec db e.env w.store w.store).2 := by
        show (e.outcome w.store).2 = _
        simp only [Event.outcome, hcall, program, Prog.exec_map]
      rw [hafter]
      refine cancel_exec_cancelled ?_
      rcases hx : ((cancel id).exec db e.env w.store w.store).1 with x | x
      · rw [hx] at hanswer
        exact nomatch hanswer
      · rw [hx] at hanswer
        cases Except.ok.inj hanswer
        rfl
    refine ⟨hcancelled, fun es w' hreach => ?_⟩
    obtain ⟨r, hr, hs⟩ := hcancelled
    exact (hw.after he).terminal_run hreach hr (by rw [hs]; trivial)

/-- A task that was cancelled before any worker claimed it. -/
def cancelledWhilePending : List (Call .everySecond) :=
  [mail .standard, .cancel ⟨1⟩]

theorem durability_cancelled : ∃ r ∈ (World.play cancelledWhilePending).store.runs,
    r.state = .cancelled ∧ ∀ es w',
      Reaches (scheduler .everySecond) (World.play cancelledWhilePending) es w' →
        KeptUntilPruned (World.play cancelledWhilePending) r.id es w' := by
  obtain ⟨r, hr⟩ : ∃ r, (World.play cancelledWhilePending).store.runs = [r] :=
    List.length_eq_one_iff.mp (by decide +kernel)
  have hstate : (World.play cancelledWhilePending).store.runs.map Run.state = [.cancelled] := by
    decide +kernel
  rw [hr] at hstate
  have hs : r.state = .cancelled := by simpa using hstate
  have hmem : r ∈ (World.play cancelledWhilePending).store.runs := by
    rw [hr]
    exact List.mem_singleton_self r
  have h := durability (play_reachable cancelledWhilePending)
  exact ⟨r, hmem, hs, fun es w' hreach => h.2.2.1 es w' hreach r hmem (by rw [hs]; trivial)⟩

end PgTaskScheduler
