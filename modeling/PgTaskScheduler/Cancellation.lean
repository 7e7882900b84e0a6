import PgTaskScheduler.Sessions

/-!
# `cancel` in a race

`CANCEL` locks the newest version of the run but looks for its open attempt in a snapshot that may
be older. When a worker claims the run in between, nothing is cancelled, and `cancel` reports a
terminal task. When the snapshot shows the open attempt of a running run, `cancel` tells the truth,
whatever claims, completions, failures, renewals and recoveries it races with.
-/

namespace PgTaskScheduler

open Tables ReadCommitted

variable {K : Croner}

/-! ## The statement -/

section Statement

variable {env : Env} {id : RunId} {snap cur : Store} {t : Run}

/-- What `CANCEL` does to a pending or running run and its open attempt. -/
def Cancels (env : Env) (v v' : RunView) : Prop :=
  ∃ t, v.run = some t ∧ v'.run = some (t.cancel env) ∧
    (t.state = .pending ∧ v'.attempts = v.attempts ∨
      t.state = .running ∧ ∃ prev a, v.attempts = prev ++ [a] ∧ a.isOpen ∧
        v'.attempts = prev ++ [a.close env .cancelled none])

theorem Run.cancel_check (h : t.check = .ok ()) : (t.cancel env).check = .ok () := by
  obtain ⟨hcount, hmax, havail, -, ⟨hnonneg, hone, hle, -⟩, hkey, hname, -, -⟩ :=
    Run.check_eq_ok_iff.mp h
  exact Run.check_eq_ok_iff.mpr ⟨hcount, hmax, havail, nofun, ⟨hnonneg, hone, hle, Or.inl nofun⟩,
    hkey, hname, rfl, nofun⟩

/-- `CANCEL` does not fail on a store that satisfies the invariant. -/
theorem cancelQuery_run (hcur : Inv cur) : (cancelQuery id).run env snap cur =
    match cancelTarget id snap cur with
    | none => .ok ({}, [])
    | some t => .ok (cancelPatch env t (cancelClosed env t snap cur),
        (cancelPatch env t (cancelClosed env t snap cur)).runs.update.map Run.id) := by
  rcases ht : cancelTarget id snap cur with _ | t
  · simp only [cancelQuery, lockingQuery, ht]
    rfl
  · have hl := (cancelTarget_some ht).1
    have hattempts : checkAll Attempt.check (cancelClosed env t snap cur) = .ok () := by
      refine checkAll_eq_ok_iff.mpr fun x hx => ?_
      obtain ⟨a, ha, rfl⟩ := List.mem_map.mp hx
      exact Attempt.close_check (hcur.attemptsValid a (mem_targets.mp ha).1) _ _ (Or.inl rfl)
    have hruns : checkAll Run.check
        (if t.cancellable (cancelClosed env t snap cur) then [t.cancel env] else []) = .ok () := by
      refine checkAll_eq_ok_iff.mpr fun r hr => ?_
      split_ifs at hr
      · rw [List.mem_singleton.mp hr]
        exact Run.cancel_check (hcur.runsValid t (mem_of_lookup hl))
      · simp at hr
    unfold cancelClosed at hattempts hruns
    simp only [cancelQuery, lockingQuery, ht, hattempts, hruns]
    rfl

/-- The snapshot shows the open attempt of the run. -/
def Shows (id : RunId) (snap cur : Store) : Prop :=
  ∀ a ∈ cur.attempts, a.runId = id → a.isOpen →
    ∃ b ∈ snap.attempts, b.key = a.key ∧ b.isOpen ∧ b.leaseToken = a.leaseToken

/-- A run that is pending, or running with its open attempt in the snapshot, can be cancelled. -/
theorem cancellable_of_shows (hcur : Inv cur) (ht : lookup Run.id id cur.runs = some t)
    (hs : t.state = .pending ∨ t.state = .running) (hshows : Shows id snap cur) :
    t.cancellable (cancelClosed env t snap cur) := by
  unfold Run.cancellable
  rcases hs with hs | hs
  · simp [hs]
  · obtain ⟨prev, a, -, -, hm, ha, hid⟩ := hcur.exists_open (mem_of_lookup ht) hs
    rw [key_of_lookup ht] at hid
    obtain ⟨b, hb, hkey, hopen, htoken⟩ := hshows a ha hid hm.isOpen
    have hmem : a.close env .cancelled none ∈ cancelClosed env t snap cur := by
      refine List.mem_map_of_mem (mem_targets.mpr ⟨ha, ?_, b, hb, hkey, ?_⟩)
      · simp [hs, hm.token, hm.isOpen]
      · simp [hs, hm.token, htoken, hopen]
    simp only [hs, Bool.or_eq_true, Bool.and_eq_true, List.any_eq_true, decide_eq_true_eq]
    exact Or.inr ⟨trivial, _, hmem, hid.trans (key_of_lookup ht).symm⟩

/-- What a cancellation does to the run it is for. -/
theorem cancels_of_cancellable (hcur : Inv cur) (ht : lookup Run.id id cur.runs = some t)
    (hcan : t.cancellable (cancelClosed env t snap cur)) :
    Cancels env (cur.view id)
      ((cancelPatch env t (cancelClosed env t snap cur)).onView id (cur.view id)) := by
  have hchange : Change (fun e => e = env) (.cancel id : Call .everySecond) (cur.view id)
      ((cancelPatch env t (cancelClosed env t snap cur)).onView id (cur.view id)) :=
    change_cancelPatch hcur (by exact rfl) ht (fun x hx => mem_cancelClosed hcur ht hx) id
  have hrun : (cur.view id).run = some t := ht
  have hid : (t.cancel env).id = id := (key_of_lookup ht : t.id = id)
  have hrun' : ((cancelPatch env t (cancelClosed env t snap cur)).onView id (cur.view id)).run =
      some (t.cancel env) := by
    have hl : lookup Run.id id [t.cancel env] = some (t.cancel env) := by
      rw [lookup_cons, if_pos hid]
    simp [Patch.onView, cancelPatch, hcan, hl, hrun]
  generalize cur.view id = v at hchange hrun hrun' ⊢
  generalize Patch.onView _ id v = v' at hchange hrun' ⊢
  cases hchange with
  | same =>
    have he : t.state = .cancelled := by
      rw [Option.some.inj (hrun.symm.trans hrun')]
      rfl
    simp [Run.cancellable, he] at hcan
  | materialized _ hc => exact hc.elim
  | cancelledPending hOk _ hr =>
    subst hOk
    exact ⟨_, rfl, rfl, Or.inl ⟨hr, rfl⟩⟩
  | cancelledRunning hOk _ hr ha =>
    subst hOk
    exact ⟨_, rfl, rfl, Or.inr ⟨hr, _, _, rfl, ha, rfl⟩⟩

/-- What `CANCEL` writes and answers, by the newest state of the run. -/
theorem cancelQuery_cases (hcur : Inv cur)
    (hpresent : (lookup Run.id id snap.runs).isSome = (lookup Run.id id cur.runs).isSome)
    (hshows : Shows id snap cur) :
    (∃ t w, lookup Run.id id cur.runs = some t ∧ (t.state = .pending ∨ t.state = .running) ∧
      (cancelQuery id).run env snap cur = .ok (w, [id]) ∧
      Cancels env (cur.view id) (w.onView id (cur.view id))) ∨
    (∀ t, lookup Run.id id cur.runs = some t → t.state.Terminal) ∧
      (cancelQuery id).run env snap cur = .ok ({}, []) := by
  have hrun := @cancelQuery_run env id snap cur hcur
  rcases ht : lookup Run.id id cur.runs with _ | t
  · have hnone : cancelTarget id snap cur = none := by
      simp [cancelTarget, ht]
    rw [hnone] at hrun
    exact Or.inr ⟨fun t ht => absurd ht.symm (Option.some_ne_none t), hrun⟩
  · have htarget : cancelTarget id snap cur = some t := by
      rw [ht] at hpresent
      simp [cancelTarget, hpresent, ht]
    rw [htarget] at hrun
    by_cases hs : t.state.Terminal
    · obtain ⟨hpending, hrunning⟩ := StoredRunState.terminal_iff.mp hs
      have hnil : cancelClosed env t snap cur = [] := by
        rw [List.eq_nil_iff_forall_not_mem]
        exact fun x hx => hrunning (mem_cancelClosed hcur ht hx).1
      refine Or.inr ⟨fun t' ht' => Option.some.inj ht' ▸ hs, hrun.trans ?_⟩
      simp [cancelPatch, hnil, Run.cancellable, hpending]
    · have hs' : t.state = .pending ∨ t.state = .running := by
        rw [StoredRunState.terminal_iff] at hs
        tauto
      have hcan := @cancellable_of_shows env id snap cur t hcur ht hs' hshows
      refine Or.inl ⟨t, _, rfl, hs', hrun.trans ?_, cancels_of_cancellable hcur ht hcan⟩
      simp [cancelPatch, hcan, Run.cancel, Run.release, show t.id = id from key_of_lookup ht]

end Statement

/-! ## The race -/

/-- The operations that race with a cancellation. -/
def Call.Races : Call K → Prop
  | .claimBatch .. | .finalizeRun .. | .failRun .. | .renewLease .. | .recoverExpired .. => True
  | _ => False

/-- A racing operation neither inserts nor deletes runs, and leaves terminal ones alone. -/
theorem Change.races {Ok : Env → Prop} {c : Call K} {v v' : RunView} (h : Change Ok c v v')
    (hc : c.Races) : v'.run.isSome = v.run.isSome ∧
      ((∀ r, v.run = some r → r.state.Terminal) → v' = v) := by
  have hpending : ∀ {r : Run} {as : List Attempt}, r.state = .pending →
      (∀ r', (RunView.mk (some r) as).run = some r' → r'.state.Terminal) → v' = v := by
    intro r as hr hs
    have := hs r rfl
    rw [hr] at this
    exact this.elim
  have hrunning : ∀ {r : Run} {as : List Attempt}, r.state = .running →
      (∀ r', (RunView.mk (some r) as).run = some r' → r'.state.Terminal) → v' = v := by
    intro r as hr hs
    have := hs r rfl
    rw [hr] at this
    exact this.elim
  cases h with
  | same => exact ⟨rfl, fun _ => rfl⟩
  | enqueued => exact hc.elim
  | materialized _ hm => cases c <;> first | exact hm.elim | exact hc.elim
  | claimed _ hr => exact ⟨rfl, hpending (Run.of_claimable hr).1⟩
  | finalized _ _ hr => exact ⟨rfl, hrunning (Run.state_of_live hr).2.1⟩
  | failed _ _ hr => exact ⟨rfl, hrunning (Run.state_of_live hr).2.1⟩
  | renewed _ hr => exact ⟨rfl, hrunning (Run.state_of_live hr).2.1⟩
  | recovered _ hr => exact ⟨rfl, hrunning (Run.state_of_expired hr)⟩
  | cancelledPending => exact hc.elim
  | cancelledRunning => exact hc.elim
  | pruned => exact hc.elim

/-- What follows `CANCEL` when it has changed nothing. -/
def lookUp (K : Croner) (id : RunId) : Program (Answer K) :=
  .stmt (taskExists id) fun found =>
    .commit (.ret (.ok (.cancelled (if found then .alreadyTerminal else .notFound))))

theorem program_cancel (id : RunId) : program K (.cancel id) =
    .stmt (cancelQuery id) fun changed => .commit
      (if changed ≠ [] then .ret (.ok (.cancelled .cancelled)) else lookUp K id) := by
  unfold program cancel
  simp only [Prog.map]
  congr 1
  funext changed
  split_ifs <;> rfl

section Race

variable {ι : Type} [DecidableEq ι] {y y' : Sessions K ι} {ls : List (ι × Act (Call K) Env)}
  {i j : ι} {a : Act (Call K) Env} {id : RunId}

/-- The steps of a race with the one call of session `i`. Only the execution of `CANCEL` is
restricted: its snapshot shows the open attempt of the run. -/
def Racing (i : ι) (id : RunId) (y : Sessions K ι) (j : ι) (a : Act (Call K) Env) : Prop :=
  (∀ c, a = .call c → j ≠ i ∧ c.Races) ∧
  ∀ env sn, j = i → a = .exec env → (y.session i).prog = program K (.cancel id) →
    (y.session i).snap = some sn → Shows id sn y.committed

/-- The other sessions have answered or serve racing operations. -/
def Rivals (i : ι) (y : Sessions K ι) : Prop := ∀ j, j ≠ i → Serves Call.Races (y.session j)

/-- There is no run, or it is terminal. -/
def Settled (id : RunId) (C : Store) : Prop :=
  ∀ r, lookup Run.id id C.runs = some r → r.state.Terminal

/-- The run is going to be `v`, or is `v` already, and the answer is `Cancelled`. -/
def Cancelling (id : RunId) (v : RunView) (C : Store) (σ : Server K) : Prop :=
  (∃ r, v.run = some r ∧ r.state = .cancelled) ∧
  (σ.prog = .commit (.ret (.ok (.cancelled .cancelled))) ∧ .run id ∈ σ.locks ∧
      (∃ w, σ.writes = [w] ∧ w.onView id (C.view id) = v) ∨
    σ.prog = .ret (.ok (.cancelled .cancelled)) ∧ C.view id = v)

/-- Where `cancel` is in its program, and what it knows of the committed store. -/
inductive CancelPhase (id : RunId) (C : Store) (σ : Server K) : Prop
  | called (hp : σ.prog = program K (.cancel id)) (hw : σ.writes = [])
  | cancelling {v} (h : Cancelling id v C σ)
  | unchanged (hs : Settled id C) (hp : σ.prog = .commit (lookUp K id)) (hw : σ.writes = [{}])
  | looking (hs : Settled id C) (hp : σ.prog = lookUp K id) (hw : σ.writes = [])
  | found (hs : Settled id C) (hp : σ.prog = .commit (.ret (.ok (.cancelled
      (if (lookup Run.id id C.runs).isSome then .alreadyTerminal else .notFound)))))
      (hw : σ.writes = [{}])
  | answered (hs : Settled id C) (hp : σ.prog = .ret (.ok (.cancelled
      (if (lookup Run.id id C.runs).isSome then .alreadyTerminal else .notFound))))

/-- The invariant of the race. -/
structure CancelRace (i : ι) (id : RunId) (y : Sessions K ι) : Prop where
  sound : Sessions.Sound y
  rivals : Rivals i y
  present : ∀ sn, (y.session i).snap = some sn →
    (lookup Run.id id sn.runs).isSome = (lookup Run.id id y.committed.runs).isSome
  phase : CancelPhase id y.committed (y.session i)

/-! ### Steps of others -/

/-- What a step of another session leaves alone. -/
theorem rival_step (h : Sessions.Sound y) (hrivals : Rivals i y) (hij : i ≠ j)
    (hs : Sessions.Step y j a y') : y'.session i = y.session i ∧
      (lookup Run.id id y'.committed.runs).isSome = (lookup Run.id id y.committed.runs).isSome ∧
      (Settled id y.committed → y'.committed.view id = y.committed.view id) ∧
      (.run id ∈ (y.session i).locks → y'.committed.view id = y.committed.view id) := by
  obtain ⟨hsession, hcommitted⟩ := h.other_step hij hs
  refine ⟨hsession, ?_⟩
  rcases serves_effect h hs (hrivals j (Ne.symm hij)) with heq | ⟨hc, heffect⟩
  · rw [heq]
    exact ⟨rfl, fun _ => rfl, fun _ => rfl⟩
  · obtain ⟨hsome, hterminal⟩ := (heffect.transition.runs id).races hc
    refine ⟨hsome, hterminal, fun hL => ?_⟩
    rcases hcommitted with heq | ⟨-, hagree⟩
    · rw [heq]
    · exact agree_view hagree hL

theorem Settled.of_view {C C' : Store} (h : Settled id C) (hv : C'.view id = C.view id) :
    Settled id C' := fun r hr => h r ((congrArg RunView.run hv).symm.trans hr)

theorem Cancelling.other {v : RunView} {C C' : Store} {σ : Server K} (h : Cancelling id v C σ)
    (hsettled : Settled id C → C'.view id = C.view id)
    (hlocked : .run id ∈ σ.locks → C'.view id = C.view id) : Cancelling id v C' σ := by
  refine ⟨h.1, h.2.imp (fun ⟨hp, hL, w, hw, hv⟩ => ⟨hp, hL, w, hw, ?_⟩) fun ⟨hp, hv⟩ => ⟨hp, ?_⟩⟩
  · rw [hlocked hL, hv]
  · obtain ⟨r, hr, hstate⟩ := h.1
    rw [hsettled fun r' hr' => ?_, hv]
    have hview : (C.view id).run = some r' := hr'
    rw [hv, hr] at hview
    rw [← Option.some.inj hview, hstate]
    trivial

theorem CancelPhase.other {C C' : Store} {σ : Server K} (h : CancelPhase id C σ)
    (hpresent : (lookup Run.id id C'.runs).isSome = (lookup Run.id id C.runs).isSome)
    (hsettled : Settled id C → C'.view id = C.view id)
    (hlocked : .run id ∈ σ.locks → C'.view id = C.view id) : CancelPhase id C' σ := by
  cases h with
  | called hp hw => exact .called hp hw
  | cancelling h => exact .cancelling (h.other hsettled hlocked)
  | unchanged hs hp hw => exact .unchanged (hs.of_view (hsettled hs)) hp hw
  | looking hs hp hw => exact .looking (hs.of_view (hsettled hs)) hp hw
  | found hs hp hw => exact .found (hs.of_view (hsettled hs)) (hpresent ▸ hp) hw
  | answered hs hp => exact .answered (hs.of_view (hsettled hs)) (hpresent ▸ hp)

/-! ### Steps of `cancel` -/

/-- The statement of `cancel` that a session has started. -/
theorem CancelPhase.statement {C : Store} {σ : Server K} (h : CancelPhase id C σ) {β : Type}
    {s : Query β} {k : β → Program (Answer K)} (hp : σ.prog = .stmt s k) : σ.writes = [] ∧
      (σ.prog = program K (.cancel id) ∨ Settled id C ∧ σ.prog = lookUp K id) := by
  cases h with
  | called hp' hw => exact ⟨hw, Or.inl hp'⟩
  | cancelling h =>
    rcases h.2 with ⟨hp', -⟩ | ⟨hp', -⟩
    · exact nomatch hp.symm.trans hp'
    · exact nomatch hp.symm.trans hp'
  | unchanged _ hp' => exact nomatch hp.symm.trans hp'
  | looking hs hp' hw => exact ⟨hw, Or.inr ⟨hs, hp'⟩⟩
  | found _ hp' => exact nomatch hp.symm.trans hp'
  | answered _ hp' => exact nomatch hp.symm.trans hp'

omit [DecidableEq ι] in
/-- The statements of `cancel` do not fail. -/
theorem CancelRace.not_error (h : CancelRace i id y) {β : Type} {s : Query β}
    {k : β → Program (Answer K)} {snap : Store} {env : Env} {e : SchedulerError}
    (hp : (y.session i).prog = .stmt s k) :
    s.run env snap (db.applyAll (y.session i).writes y.committed) ≠ .error e := by
  intro he
  obtain ⟨hw, hp' | ⟨-, hp'⟩⟩ := h.phase.statement hp
  · rw [program_cancel] at hp'
    cases hp.symm.trans hp'
    rw [hw, Storage.applyAll_nil, cancelQuery_run h.sound.store] at he
    split at he
    · exact absurd he (by simp)
    · exact absurd he (by simp)
  · cases hp.symm.trans hp'
    exact nomatch he

omit [DecidableEq ι] in
/-- The statements of `cancel` lead to the next phase. -/
theorem CancelRace.statement (h : CancelRace i id y) {β : Type} {s : Query β}
    {k : β → Program (Answer K)} {sn : Store} {env : Env} (hp : (y.session i).prog = .stmt s k)
    (hsn : (y.session i).snap = some sn)
    (hshows : (y.session i).prog = program K (.cancel id) → Shows id sn y.committed) :
    ∃ w b, s.run env (db.applyAll (y.session i).writes sn)
        (db.applyAll (y.session i).writes y.committed) = .ok (w, b) ∧
      ∀ c rs, CancelPhase id y.committed ⟨c, k b, none, rs, (y.session i).writes ++ [w],
        (y.session i).locks ++ s.acquires db env (db.applyAll (y.session i).writes sn)
          (db.applyAll (y.session i).writes y.committed) w⟩ := by
  obtain ⟨hw, hp' | ⟨hs, hp'⟩⟩ := h.phase.statement hp
  · have hpresent := h.present sn hsn
    have hcases := @cancelQuery_cases env id sn y.committed h.sound.store hpresent (hshows hp')
    rw [program_cancel] at hp'
    cases hp.symm.trans hp'
    simp only [hw, Storage.applyAll_nil]
    rcases hcases with ⟨t, w, ht, -, hrun, hcancels⟩ | ⟨hsettled, hrun⟩
    · refine ⟨w, [id], hrun, fun c rs => .cancelling (v := w.onView id (y.committed.view id)) ?_⟩
      obtain ⟨t', -, ht', -⟩ := hcancels
      refine ⟨⟨_, ht', rfl⟩, Or.inl ⟨by simp, ?_, w, rfl, rfl⟩⟩
      have htarget : cancelTarget id sn y.committed = some t := by
        rw [ht] at hpresent
        simp [cancelTarget, hpresent, ht]
      refine List.mem_append_right _ (mem_acquires_of_locks ?_)
      show RowRef.run id ∈ ((cancelTarget id sn y.committed).map fun r => .run r.id).toList
      simp [htarget, show t.id = id from key_of_lookup ht]
    · exact ⟨{}, [], hrun, fun c rs => .unchanged hsettled (by simp) rfl⟩
  · cases hp.symm.trans hp'
    simp only [hw, Storage.applyAll_nil]
    refine ⟨{}, _, rfl, fun c rs => .found hs ?_ rfl⟩
    rw [h.present sn hsn]

theorem CancelRace.own_step (h : CancelRace i id y) (hG : Racing i id y i a)
    (hs : Sessions.Step y i a y') : CancelPhase id y'.committed (y'.session i) ∧
      ∀ sn, (y'.session i).snap = some sn →
        (lookup Run.id id sn.runs).isSome = (lookup Run.id id y'.committed.runs).isSome := by
  cases hs with
  | call c hp => exact absurd rfl (hG.1 c rfl).1
  | snapshot hp hsn =>
    rw [System.set_session_self]
    refine ⟨?_, fun sn hsn' => ?_⟩
    · cases h.phase with
      | called hp hw => exact .called hp hw
      | cancelling h => exact .cancelling h
      | unchanged hs hp hw => exact .unchanged hs hp hw
      | looking hs hp hw => exact .looking hs hp hw
      | found hs hp hw => exact .found hs hp hw
      | answered hs hp => exact .answered hs hp
    · rw [← Option.some.inj hsn']
      rfl
  | exec env hp hsn hOk hw hr hl =>
    rw [System.set_session_self]
    obtain ⟨w', b', hrun, hphase⟩ := h.statement hp hsn fun hp' => hG.2 env _ rfl rfl hp' hsn
    obtain ⟨rfl, rfl⟩ := Prod.mk.inj (Except.ok.inj (hrun.symm.trans hr))
    exact ⟨hphase _ _, fun sn hsn' => absurd hsn' (by simp)⟩
  | fail env hp hsn hOk hw hr => exact absurd hr (h.not_error hp)
  | commit hp =>
    simp only [Function.update_self]
    refine ⟨?_, fun sn hsn' => absurd hsn' (by simp [Session.start])⟩
    cases h.phase with
    | called hp' =>
      rw [program_cancel] at hp'
      exact absurd (hp.symm.trans hp') (by simp)
    | cancelling h' =>
      refine .cancelling ⟨h'.1, Or.inr ?_⟩
      rcases h'.2 with ⟨hp', -, w, hw, hv⟩ | ⟨hp', -⟩
      · cases hp.symm.trans hp'
        refine ⟨rfl, ?_⟩
        rw [hw, Storage.applyAll_cons, Storage.applyAll_nil, db_apply, Store.view_apply, hv]
      · exact absurd (hp.symm.trans hp') (by simp)
    | unchanged hs hp' hw =>
      cases hp.symm.trans hp'
      rw [hw, Storage.applyAll_cons, Storage.applyAll_nil, db_apply, Store.apply_empty]
      exact .looking hs rfl rfl
    | looking hs hp' => exact absurd (hp.symm.trans hp') (by simp [lookUp])
    | found hs hp' hw =>
      cases hp.symm.trans hp'
      rw [hw, Storage.applyAll_cons, Storage.applyAll_nil, db_apply, Store.apply_empty]
      exact .answered hs rfl
    | answered hs hp' => exact absurd (hp.symm.trans hp') (by simp)
  | rollback hp =>
    rw [System.set_session_self]
    refine ⟨?_, fun sn hsn' => absurd hsn' (by simp [Session.start])⟩
    cases h.phase with
    | called hp' =>
      rw [program_cancel] at hp'
      exact absurd (hp.symm.trans hp') (by simp)
    | cancelling h' =>
      refine .cancelling ⟨h'.1, Or.inr ?_⟩
      rcases h'.2 with ⟨hp', -⟩ | ⟨hp', hv⟩
      · exact absurd (hp.symm.trans hp') (by simp)
      · cases hp.symm.trans hp'
        exact ⟨rfl, hv⟩
    | unchanged hs hp' => exact absurd (hp.symm.trans hp') (by simp)
    | looking hs hp' => exact absurd (hp.symm.trans hp') (by simp [lookUp])
    | found hs hp' => exact absurd (hp.symm.trans hp') (by simp)
    | answered hs hp' =>
      cases hp.symm.trans hp'
      exact .answered hs rfl

theorem CancelRace.step (h : CancelRace i id y) (hG : Racing i id y j a)
    (hs : Sessions.Step y j a y') : CancelRace i id y' := by
  have hsound := sound_step h.sound hs
  by_cases hij : i = j
  · subst hij
    obtain ⟨hphase, hpresent⟩ := h.own_step hG hs
    refine ⟨hsound, fun k hk => ?_, hpresent, hphase⟩
    rw [(h.sound.other_step hk hs).1]
    exact h.rivals k hk
  · obtain ⟨hsession, hpresent, hsettled, hlocked⟩ := 
      @rival_step K ι _ y y' i j a id h.sound h.rivals hij hs
    refine ⟨hsound, fun k hk => ?_, fun sn hsn => ?_, ?_⟩
    · by_cases hkj : k = j
      · subst hkj
        exact serves_step hs (fun c hc => (hG.1 c hc).2) (h.rivals k hk)
      · rw [(h.sound.other_step hkj hs).1]
        exact h.rivals k hk
    · rw [hsession] at hsn
      exact (h.present sn hsn).trans hpresent.symm
    · rw [hsession]
      exact h.phase.other hpresent hsettled hlocked

theorem CancelRace.run (h : CancelRace i id y) (hr : Sessions.Run (Racing i id) y ls y') :
    CancelRace i id y' :=
  hr.invariant h fun _ _ _ _ h hG hs => h.step hG hs

/-- `CANCEL` on a run that is pending or running. -/
theorem CancelRace.cancels (h : CancelRace i id y) {env : Env} (hG : Racing i id y i (.exec env))
    (hp : (y.session i).prog = program K (.cancel id)) (hs : Sessions.Step y i (.exec env) y')
    {t : Run} (ht : lookup Run.id id y.committed.runs = some t)
    (hstate : t.state = .pending ∨ t.state = .running) :
    ∃ v, Cancels env (y.committed.view id) v ∧ Cancelling id v y'.committed (y'.session i) := by
  cases hs with
  | @exec _ _ _ sn _ _ _ hp' hsn hOk hw hr hl =>
    have hpresent := h.present sn hsn
    have hcases := @cancelQuery_cases env id sn y.committed h.sound.store hpresent
      (hG.2 env _ rfl rfl hp hsn)
    have hwrites := (h.phase.statement hp').1
    rw [program_cancel] at hp
    cases hp.symm.trans hp'
    simp only [hwrites, Storage.applyAll_nil] at hr hl ⊢
    rcases hcases with ⟨t', w', ht', -, hrun, hcancels⟩ | ⟨hsettled, -⟩
    · obtain ⟨rfl, rfl⟩ := Prod.mk.inj (Except.ok.inj (hrun.symm.trans hr))
      refine ⟨_, hcancels, ?_⟩
      obtain ⟨_, -, hv, -⟩ := hcancels
      rw [System.set_session_self]
      refine ⟨⟨_, hv, rfl⟩, Or.inl ⟨by simp, ?_, _, rfl, rfl⟩⟩
      have htarget : cancelTarget id sn y.committed = some t' := by
        rw [ht'] at hpresent
        simp [cancelTarget, hpresent, ht']
      refine List.mem_append_right _ (mem_acquires_of_locks ?_)
      show RowRef.run id ∈ ((cancelTarget id sn y.committed).map fun r => .run r.id).toList
      simp [htarget, show t'.id = id from key_of_lookup ht']
    · obtain ⟨hpending, hrunning⟩ := StoredRunState.terminal_iff.mp (hsettled t ht)
      exact (hstate.elim hpending hrunning).elim

/-- From the execution of `CANCEL` on, a run that was pending or running is being cancelled. -/
theorem cancelling_run {v : RunView} (h : CancelRace i id y)
    (hv : Cancelling id v y.committed (y.session i)) (hr : Sessions.Run (Racing i id) y ls y') :
    Cancelling id v y'.committed (y'.session i) := by
  refine (hr.invariant (P := fun y => CancelRace i id y ∧
    Cancelling id v y.committed (y.session i)) ⟨h, hv⟩
    fun y j a y' h hG hs => ⟨h.1.step hG hs, ?_⟩).2
  obtain ⟨h, hv⟩ := h
  by_cases hij : i = j
  · subst hij
    refine ⟨hv.1, ?_⟩
    cases hs with
    | call c hp => exact absurd rfl (hG.1 c rfl).1
    | snapshot hp => rcases hv.2 with ⟨hp', -⟩ | ⟨hp', -⟩ <;> exact nomatch hp.symm.trans hp'
    | exec _ hp => rcases hv.2 with ⟨hp', -⟩ | ⟨hp', -⟩ <;> exact nomatch hp.symm.trans hp'
    | fail _ hp => rcases hv.2 with ⟨hp', -⟩ | ⟨hp', -⟩ <;> exact nomatch hp.symm.trans hp'
    | commit hp =>
      rcases hv.2 with ⟨hp', -, w, hw, hv⟩ | ⟨hp', -⟩
      · cases hp.symm.trans hp'
        simp only [Function.update_self]
        refine Or.inr ⟨rfl, ?_⟩
        rw [hw, Storage.applyAll_cons, Storage.applyAll_nil, db_apply, Store.view_apply, hv]
      · exact nomatch hp.symm.trans hp'
    | rollback hp =>
      rcases hv.2 with ⟨hp', -⟩ | ⟨hp', hv⟩
      · exact nomatch hp.symm.trans hp'
      · cases hp.symm.trans hp'
        rw [System.set_session_self]
        exact Or.inr ⟨rfl, hv⟩
  · obtain ⟨hsession, -, hsettled, hlocked⟩ := 
      @rival_step K ι _ y y' i j a id h.sound h.rivals hij hs
    rw [hsession]
    exact hv.other hsettled hlocked

/-- **A cancellation that sees the open attempt tells the truth.** -/
theorem cancel_truthful {ls₀ : List (ι × Act (Call K) Env)} {y₀ : Sessions K ι}
    (h : Sessions.Reached ls₀ y₀)
    (hi : y₀.session i = .start (.cancel id) (program K (.cancel id))) (hrivals : Rivals i y₀) :
    (∀ ls y x, Sessions.Run (Racing i id) y₀ ls y → (y.session i).prog = .ret x →
      (x = .ok (.cancelled .cancelled) ∧
        ∃ r, lookup Run.id id y.committed.runs = some r ∧ r.state = .cancelled) ∨
      (x = .ok (.cancelled .alreadyTerminal) ∧
        ∃ r, lookup Run.id id y.committed.runs = some r ∧ r.state.Terminal) ∨
      (x = .ok (.cancelled .notFound) ∧ lookup Run.id id y.committed.runs = none)) ∧
    ∀ ls₁ y₁ env y₂ ls₂ y t, Sessions.Run (Racing i id) y₀ ls₁ y₁ →
      (y₁.session i).prog = program K (.cancel id) → Racing i id y₁ i (.exec env) →
      Sessions.Step y₁ i (.exec env) y₂ → Sessions.Run (Racing i id) y₂ ls₂ y →
      lookup Run.id id y₁.committed.runs = some t → t.state = .pending ∨ t.state = .running →
      (y.session i).prog = .commit (.ret (.ok (.cancelled .cancelled))) ∨
        (y.session i).prog = .ret (.ok (.cancelled .cancelled)) ∧
          Cancels env (y₁.committed.view id) (y.committed.view id) := by
  have h₀ : CancelRace i id y₀ := by
    refine ⟨sound_reached h, hrivals, fun sn hsn => ?_, ?_⟩
    · rw [hi] at hsn
      exact nomatch hsn
    · rw [hi]
      exact .called rfl rfl
  refine ⟨fun ls y x hr hx => ?_, fun ls₁ y₁ env y₂ ls₂ y t hr₁ hp₁ hG hs hr₂ ht hstate => ?_⟩
  · cases (h₀.run hr).phase with
    | called hp =>
      rw [program_cancel] at hp
      exact nomatch hp.symm.trans hx
    | cancelling h =>
      obtain ⟨⟨r, hr, hstate⟩, ⟨hp, -⟩ | ⟨hp, hv⟩⟩ := h
      · exact nomatch hp.symm.trans hx
      · cases hp.symm.trans hx
        exact Or.inl ⟨rfl, r, (congrArg RunView.run hv).trans hr, hstate⟩
    | unchanged _ hp => exact nomatch hp.symm.trans hx
    | looking _ hp => exact nomatch hp.symm.trans hx
    | found _ hp => exact nomatch hp.symm.trans hx
    | answered hs hp =>
      cases hp.symm.trans hx
      rcases hl : lookup Run.id id y.committed.runs with _ | r
      · exact Or.inr (Or.inr ⟨rfl, rfl⟩)
      · exact Or.inr (Or.inl ⟨rfl, r, rfl, hs r hl⟩)
  · have h₁ := h₀.run hr₁
    obtain ⟨v, hcancels, hcancelling⟩ := h₁.cancels hG hp₁ hs ht hstate
    rcases (cancelling_run (h₁.step hG hs) hcancelling hr₂).2 with ⟨hp, -⟩ | ⟨hp, hv⟩
    · exact Or.inl hp
    · exact Or.inr ⟨hp, hv ▸ hcancels⟩

end Race

/-! ## Two races -/

/-- What `cancel` has answered. -/
def cancelAnswer (σ : Server K) : Option CancelOutcome :=
  match σ.prog with
  | .ret (.ok (.cancelled outcome)) => some outcome
  | _ => none

/-- Whether a session has answered. -/
def hasAnswered (σ : Server K) : Bool :=
  match σ.prog with
  | .ret _ => true
  | _ => false

theorem serves_of_hasAnswered {A : Call K → Prop} {σ : Server K} (h : hasAnswered σ) :
    Serves A σ := by
  unfold hasAnswered at h
  split at h
  · next x hp => exact Or.inl ⟨x, hp⟩
  · exact absurd h (by simp)

/-- A worker claims the task between the snapshot of `CANCEL` and its execution. -/
def claimedBetween : List (Bool × Act (Call .everySecond) Env) :=
  serve false (mail .standard) [1, 2] ++
  [(true, .call (.cancel ⟨1⟩)), (true, .snapshot)] ++ serve false claimMail [3] ++
  [(true, .exec (.tick 4)), (true, .commit)] ++ statement true 5 ++ [(true, .commit)]

/-- `cancel` reports a terminal task, and the task is running. -/
theorem cancel_loses_race : ∃ y : Sessions .everySecond Bool,
    Sessions.Reached claimedBetween y ∧ cancelAnswer (y.session true) = some .alreadyTerminal ∧
      y.committed.runs.map Run.state = [.running] ∧
      y.committed.attempts.map Attempt.isOpen = [true] := by
  have h : (Sessions.play _ _ claimedBetween).map (fun y => (cancelAnswer (y.session true),
      y.committed.runs.map Run.state, y.committed.attempts.map Attempt.isOpen)) =
        some (some .alreadyTerminal, [.running], [true]) := by decide +kernel
  obtain ⟨y, hy, he⟩ := Option.map_eq_some_iff.mp h
  obtain ⟨hanswer, hrest⟩ := Prod.mk.inj he
  obtain ⟨hruns, hattempts⟩ := Prod.mk.inj hrest
  exact ⟨y, play_reached hy, hanswer, hruns, hattempts⟩

/-- A worker has claimed the task when a user calls `cancel`. -/
def claimedBefore : List (Bool × Act (Call .everySecond) Env) :=
  serve false (mail .standard) [1, 2] ++ serve false claimMail [3] ++
  [(true, .call (.cancel ⟨1⟩))]

theorem cancel_truthful_running : ∃ y₀ y : Sessions .everySecond Bool,
    Sessions.Reached claimedBefore y₀ ∧ y₀.committed.runs.map Run.state = [.running] ∧
      Sessions.Run (Racing true ⟨1⟩) y₀ (statement true 4 ++ [(true, .commit)]) y ∧
      ∃ r, lookup Run.id ⟨1⟩ y.committed.runs = some r ∧ r.state = .cancelled := by
  have h : (Sessions.play _ _ claimedBefore).map (fun y => (y.committed.runs.map Run.state,
      hasAnswered (y.session false), (y.replay db (program _)
        (statement true 4 ++ [(true, .commit)])).map fun y => cancelAnswer (y.session true))) =
        some ([.running], true, some (some .cancelled)) := by decide +kernel
  obtain ⟨y₀, hy₀, he⟩ := Option.map_eq_some_iff.mp h
  obtain ⟨hruns, hrest⟩ := Prod.mk.inj he
  obtain ⟨hfalse, hrest⟩ := Prod.mk.inj hrest
  obtain ⟨y, hy, hanswer⟩ := Option.map_eq_some_iff.mp hrest
  obtain ⟨y₁, h₁, hy⟩ := Option.bind_eq_some_iff.mp hy
  obtain ⟨y₂, h₂, hy⟩ := Option.bind_eq_some_iff.mp hy
  obtain ⟨y₃, h₃, hy⟩ := Option.bind_eq_some_iff.mp hy
  obtain rfl := Option.some.inj hy
  have hstart : y₀.session true = .start (.cancel ⟨1⟩) (program _ (.cancel ⟨1⟩)) := by
    have happend : (Sessions.play .everySecond Bool claimedBefore) = _ :=
      System.replay_append (Sessions.initial .everySecond Bool)
        (serve false (mail .standard) [1, 2] ++ serve false claimMail [3])
        [(true, .call (.cancel ⟨1⟩))]
    obtain ⟨y', -, hcall⟩ := Option.bind_eq_some_iff.mp (happend.symm.trans hy₀)
    have hs : Sessions.Step y' true (.call (.cancel ⟨1⟩)) y₀ :=
      System.next_sound (fun _ => trivial) ((System.replay_single ..).symm.trans hcall)
    cases hs with
    | call c hp => rw [System.set_session_self]
  have hs₁ : Sessions.Step y₀ true .snapshot y₁ := System.next_sound (fun _ => trivial) h₁
  have hs₂ : Sessions.Step y₁ true (.exec (.tick 4)) y₂ := System.next_sound (fun _ => trivial) h₂
  have hs₃ : Sessions.Step y₂ true .commit y₃ := System.next_sound (fun _ => trivial) h₃
  have hG₁ : Racing true ⟨1⟩ y₀ true .snapshot :=
    ⟨fun _ hc => (nomatch hc), fun _ _ _ ha => nomatch ha⟩
  have hG₂ : Racing true ⟨1⟩ y₁ true (.exec (.tick 4)) := by
    refine ⟨fun _ hc => (nomatch hc), fun env sn _ _ _ hsn a ha _ hopen => ⟨a, ?_, rfl, hopen, rfl⟩⟩
    cases hs₁ with
    | snapshot hp hnone =>
      rw [System.set_session_self] at hsn
      exact Option.some.inj hsn ▸ ha
  have hG₃ : Racing true ⟨1⟩ y₂ true .commit :=
    ⟨fun _ hc => (nomatch hc), fun _ _ _ ha => nomatch ha⟩
  have hrun := (((Run.nil y₀).snoc hG₁ hs₁).snoc hG₂ hs₂).snoc hG₃ hs₃
  refine ⟨y₀, y₃, play_reached hy₀, hruns, hrun, ?_⟩
  have hrivals : Rivals true y₀ := fun j hj => by
    obtain rfl : j = false := Bool.eq_false_iff.mpr hj
    exact serves_of_hasAnswered hfalse
  have htruth := fun x => (cancel_truthful (play_reached hy₀) hstart hrivals).1 _ y₃ x hrun
  unfold cancelAnswer at hanswer
  split at hanswer
  · next outcome hp =>
    obtain rfl := Option.some.inj hanswer
    rcases htruth _ hp with ⟨-, hr⟩ | ⟨he, -⟩ | ⟨he, -⟩
    · exact hr
    · exact absurd he (by simp)
    · exact absurd he (by simp)
  · exact absurd hanswer (by simp)

end PgTaskScheduler
