import PgTaskScheduler.History

/-!
# Retention deletes the oldest terminal history

`prune_terminal` deletes the first runs, in the order of `finished_at`, among those that finished
before the cutoff and are not locked, with their attempts. Repeated until it answers 0, it deletes
all of them.
-/

namespace PgTaskScheduler

open Tables ReadCommitted Histories

instance : Std.Total Run.retentionOrder := ⟨fun a b => by unfold Run.retentionOrder; grind⟩

instance : IsTrans Run Run.retentionOrder :=
  ⟨fun a b c hab hbc => by unfold Run.retentionOrder at *; grind⟩

/-! ## One call -/

variable {K : Croner} {s : Store} {before : DateTime} {limit : NonZeroUsize} {env : ℕ → Env}

/-- The unlocked runs that `prune_terminal` may delete. -/
def Store.prunable (env : Env) (before : DateTime) (s : Store) : List Run :=
  s.runs.filter fun r => r.doomed before && !env.skipRun r.id

/-- The store without the given runs and their attempts. -/
def Store.without (s : Store) (runs : List Run) : Store where
  jobs := s.jobs
  runs := s.runs.filter fun r => r ∉ runs
  attempts := s.attempts.filter fun a => ∀ r ∈ runs, r.id ≠ a.runId

theorem apply_delete (hs : Inv s) {runs : List Run} (hruns : ∀ r ∈ runs, r ∈ s.runs) :
    s.apply { runs := { delete := runs.map Run.id } } = s.without runs := by
  have hmem : ∀ r ∈ s.runs, r.id ∈ runs.map Run.id ↔ r ∈ runs := by
    refine fun r hr => ⟨fun h => ?_, List.mem_map_of_mem⟩
    obtain ⟨r', hr', he⟩ := List.mem_map.mp h
    rwa [← eq_of_key hs.runIds (hruns r' hr') hr he]
  unfold Store.apply Store.without
  congr 1
  · simp
  · simp only [Edit.apply, overwrite_nil, List.append_nil, Tables.remove]
    exact List.filter_congr fun r hr => by simp only [hmem r hr]
  · simp only [overwrite_nil, List.append_nil]
    refine List.filter_congr fun a _ => ?_
    simp [eq_comm]

/-- What a call deletes: the first unlocked runs before the cutoff, with their attempts. -/
structure Pruned (env : Env) (before : DateTime) (limit : NonZeroUsize) (s s' : Store)
    (deleted : List Run) : Prop where
  first : First Run.retentionOrder limit.value (s.prunable env before) deleted
  eligible : ∀ r ∈ deleted, r ∈ s.runs ∧ r.state.Terminal ∧
    (∃ t, r.finishedAt = some t ∧ t < before.val) ∧ env.skipRun r.id = false
  store : s' = s.without deleted
  inv : Inv s'

theorem pruneTerminal_exec (hs : Inv s) (hlimit : (limit.value : ℤ) ≤ i64Max)
    (hbefore : InRange before.val) : ∃ deleted,
      (pruneTerminal before limit).exec db env s s = (.ok deleted.length, s.without deleted) ∧
      Pruned (env 0) before limit s (s.without deleted) deleted := by
  have hfirst : First Run.retentionOrder limit.value (s.prunable (env 0) before)
      (pruneCandidates (env 0) before limit.value s s) := selectForUpdate_first hs.runIds
  have hdeleted : ∀ r ∈ pruneCandidates (env 0) before limit.value s s, r ∈ s.runs :=
    fun r hr => mem_of_lookup (pruneCandidates_mem hr).1
  have hrun : (pruneQuery before limit.value).run (env 0) s s = .ok
      ({ runs := { delete := (pruneCandidates (env 0) before limit.value s s).map Run.id } },
        (pruneCandidates (env 0) before limit.value s s).length) := by
    simp only [pruneQuery, query, bindTimestamp, if_pos hbefore]
    rfl
  have hexec : (pruneTerminal before limit).exec db env s s =
      (.ok (pruneCandidates (env 0) before limit.value s s).length,
        s.without (pruneCandidates (env 0) before limit.value s s)) := by
    unfold pruneTerminal
    rw [if_neg (not_lt.mpr hlimit), Prog.exec_stmt_ok hrun, db_apply, apply_delete hs hdeleted]
    rfl
  refine ⟨_, hexec, hfirst, fun r hr => ?_, rfl, ?_⟩
  · obtain ⟨hl, hdoomed, hskip⟩ := pruneCandidates_mem hr
    obtain ⟨hterminal, t, ht, hlt⟩ := Run.of_doomed hdoomed
    exact ⟨mem_of_lookup hl, hterminal, ⟨t, ht, hlt⟩, hskip⟩
  · have hgood := (exec_free (K := .everySecond) (.pruneTerminal before limit) env hs).2
    unfold program at hgood
    rw [Prog.exec_map, hexec] at hgood
    exact hgood

/-- A call that the code or the database refuses deletes nothing. -/
theorem pruneTerminal_refused (h : i64Max < limit.value ∨ ¬ InRange before.val) :
    ∃ e, (pruneTerminal before limit).exec db env s s = (.error e, s) := by
  unfold pruneTerminal
  split_ifs with hlimit
  · exact ⟨_, rfl⟩
  · have hrun : (pruneQuery before limit.value).run (env 0) s s =
        .error (.database .datetimeOutOfRange) := by
      simp only [pruneQuery, query, bindTimestamp, if_neg (h.resolve_left hlimit)]
      rfl
    exact ⟨_, Prog.exec_stmt_error hrun⟩

/-! ## Repeated calls -/

theorem Store.without_append (s : Store) (runs runs' : List Run) :
    (s.without runs).without runs' = s.without (runs ++ runs') := by
  unfold without
  simp only [List.filter_filter, Store.mk.injEq, true_and]
  refine ⟨List.filter_congr fun r _ => ?_, List.filter_congr fun a _ => ?_⟩
  · simp [Bool.and_comm]
  · rw [Bool.eq_iff_iff]
    simp only [Bool.and_eq_true, decide_eq_true_eq, List.mem_append]
    constructor
    · rintro ⟨h', h⟩ r (hr | hr)
      · exact h r hr
      · exact h' r hr
    · exact fun h => ⟨fun r hr => h r (Or.inr hr), fun r hr => h r (Or.inl hr)⟩

theorem Store.without_congr {s : Store} {runs runs' : List Run} (h : ∀ r, r ∈ runs ↔ r ∈ runs') :
    s.without runs = s.without runs' := by
  unfold without
  simp only [h]

theorem Store.without_nil (s : Store) : s.without [] = s := by
  simp [without]

/-- The runs that retention may delete. -/
def Store.doomed (before : DateTime) (s : Store) : List Run :=
  s.runs.filter fun r => r.doomed before

/-- A call of `prune_terminal` while no row is locked. -/
def Prunes (before : DateTime) (limit : NonZeroUsize) (e : Event K) : Prop :=
  e.call = .pruneTerminal before limit ∧ ∀ id, (e.env 0).skipRun id = false

theorem prunable_eq_doomed {env : Env} (h : ∀ id, env.skipRun id = false) :
    s.prunable env before = s.doomed before := by
  simp [Store.prunable, Store.doomed, h]

theorem doomed_without (s : Store) (before : DateTime) (runs : List Run) :
    (s.without runs).doomed before = (s.doomed before).filter fun r => r ∉ runs := by
  simp only [Store.doomed, Store.without, List.filter_filter]
  exact List.filter_congr fun r _ => Bool.and_comm ..

theorem Prunes.outcome {e : Event K} (he : Prunes before limit e) (hs : Inv s)
    (hlimit : (limit.value : ℤ) ≤ i64Max) (hbefore : InRange before.val) : ∃ deleted,
      e.outcome s = (.ok (.pruned deleted.length), s.without deleted) ∧
      Pruned (e.env 0) before limit s (s.without deleted) deleted := by
  obtain ⟨deleted, hexec, hpruned⟩ := @pruneTerminal_exec s before limit e.env hs hlimit hbefore
  refine ⟨deleted, ?_, hpruned⟩
  unfold Event.outcome
  rw [he.1, program, Prog.exec_map, hexec]
  rfl

/-- Repeated calls delete runs that may be deleted, `limit` each as long as there are any. -/
theorem prunes_reaches {w w' : World} {es : List (Event K)} (hw : w.Sane)
    (hr : Reaches (scheduler K) w es w') (hes : ∀ e ∈ es, Prunes before limit e)
    (hlimit : (limit.value : ℤ) ≤ i64Max) (hbefore : InRange before.val) :
    (∃ deleted, w'.store = w.store.without deleted ∧ ∀ r ∈ deleted, r ∈ w.store.doomed before) ∧
      (w'.store.doomed before).length =
        (w.store.doomed before).length - es.length * limit.value := by
  induction hr with
  | nil => exact ⟨⟨[], w.store.without_nil.symm, by simp⟩, by simp⟩
  | @snoc es w' e hr he ih =>
    obtain ⟨⟨deleted, hstore, hdeleted⟩, hlength⟩ := ih fun e' he' => hes e' (by simp [he'])
    have hprunes : Prunes before limit e := hes e (by simp)
    obtain ⟨deleted', hout, hpruned⟩ := hprunes.outcome (hw.reaches hr).inv hlimit hbefore
    have hafter : ((scheduler K).after w' e).store = w'.store.without deleted' :=
      congrArg Prod.snd hout
    have hfirst := hpruned.first
    rw [prunable_eq_doomed hprunes.2] at hfirst
    refine ⟨⟨deleted ++ deleted', ?_, fun r hr => ?_⟩, ?_⟩
    · rw [hafter, hstore, Store.without_append]
    · rcases List.mem_append.mp hr with hr | hr
      · exact hdeleted r hr
      · have hmem := hfirst.mem r hr
        rw [hstore, doomed_without] at hmem
        exact (List.mem_filter.mp hmem).1
    · have hnodup : (w'.store.doomed before).Nodup :=
        (List.Nodup.of_map Run.id (hw.reaches hr).inv.runIds).filter _
      rw [hafter, doomed_without, hfirst.length_rest hnodup, hlength, List.length_append,
        List.length_singleton, Nat.sub_sub, Nat.add_mul, Nat.one_mul]

/-- Retention from a store: what one call deletes, what a refused call does, and what is left when
repeated calls have come to an end. -/
structure Retention (w : World) (before : DateTime) (limit : NonZeroUsize) : Prop where
  call : (limit.value : ℤ) ≤ i64Max → InRange before.val → ∀ env : ℕ → Env, ∃ deleted,
    (pruneTerminal before limit).exec db env w.store w.store =
      (.ok deleted.length, w.store.without deleted) ∧
    Pruned (env 0) before limit w.store (w.store.without deleted) deleted
  refused : i64Max < limit.value ∨ ¬ InRange before.val → ∀ env : ℕ → Env,
    ∃ e, (pruneTerminal before limit).exec db env w.store w.store = (.error e, w.store)
  repeated : (limit.value : ℤ) ≤ i64Max → InRange before.val →
    ∀ (es : List (Event K)) w', Reaches (scheduler K) w es w' → (∀ e ∈ es, Prunes before limit e) →
    ∀ e : Event K, Prunes before limit e →
      ((e.outcome w'.store).1 = .ok (.pruned 0) →
        w'.store = w.store.without (w.store.doomed before)) ∧
      ((w.store.doomed before).length ≤ es.length * limit.value →
        (e.outcome w'.store).1 = .ok (.pruned 0))

/-- **Retention deletes exactly the oldest eligible terminal history.** -/
theorem retention_exact {w : World} (h : w.Reachable K) (before : DateTime)
    (limit : NonZeroUsize) : Retention (K := K) w before limit where
  call hlimit hbefore env := pruneTerminal_exec h.inv hlimit hbefore
  refused hrefused env := pruneTerminal_refused hrefused
  repeated hlimit hbefore es w' hr hes e he := by
    obtain ⟨⟨deleted, hstore, hdeleted⟩, hlength⟩ := prunes_reaches h.sane hr hes hlimit hbefore
    obtain ⟨deleted', hout, hpruned⟩ := he.outcome (h.sane.reaches hr).inv hlimit hbefore
    have hfirst := hpruned.first.length
    rw [prunable_eq_doomed he.2] at hfirst
    have hpos := limit.range.1
    rw [hout]
    constructor
    · intro hzero
      obtain hnone : deleted'.length = 0 := by simpa using hzero
      have hempty : w'.store.doomed before = [] := List.length_eq_zero_iff.mp (by omega)
      rw [hstore, doomed_without] at hempty
      rw [hstore]
      refine Store.without_congr fun r => ⟨hdeleted r, fun hr => ?_⟩
      simpa using List.filter_eq_nil_iff.mp hempty r hr
    · intro hle
      have hnone : deleted'.length = 0 := by omega
      simp [hnone]

/-- Two tasks, cancelled before they ran, the later one first. -/
def World.withdrawn : World :=
  .play [mail .standard, mail .standard, .cancel ⟨2⟩, .cancel ⟨1⟩]

theorem retention_exact_withdrawn :
    (((pruneTerminal ⟨9, by decide⟩ ⟨1, by decide⟩).exec db (fun _ => .tick 9) World.withdrawn.store
      World.withdrawn.store).1, ((pruneTerminal ⟨9, by decide⟩ ⟨1, by decide⟩).exec db
        (fun _ => .tick 9) World.withdrawn.store World.withdrawn.store).2.runs.map Run.id) =
      (.ok 1, [⟨1⟩]) ∧
    (World.withdrawn.store.doomed ⟨9, by decide⟩).map Run.id = [⟨1⟩, ⟨2⟩] ∧
    Retention (K := .everySecond) World.withdrawn ⟨9, by decide⟩ ⟨1, by decide⟩ :=
  ⟨by decide +kernel, by decide +kernel, retention_exact (play_reachable _) _ _⟩

/-- A limit beyond `i64::MAX` is refused, and the cancelled tasks stay. -/
theorem retention_refuses_limit : ¬ ∀ (w : World), w.Reachable .everySecond →
    ∀ (before : DateTime) (limit : NonZeroUsize) (env : ℕ → Env), ∃ deleted,
      (pruneTerminal before limit).exec db env w.store w.store =
        (.ok deleted.length, w.store.without deleted) ∧
      First Run.retentionOrder limit.value (w.store.prunable (env 0) before) deleted := by
  intro hall
  obtain ⟨deleted, hexec, -⟩ := hall World.withdrawn (play_reachable _) ⟨9, by decide⟩
    ⟨9223372036854775808, by decide⟩ fun _ => .tick 9
  obtain ⟨e, he⟩ := @pruneTerminal_refused World.withdrawn.store ⟨9, by decide⟩
    ⟨9223372036854775808, by decide⟩ (fun _ => .tick 9) (Or.inl (by decide))
  rw [he] at hexec
  exact absurd hexec (by simp)

end PgTaskScheduler
