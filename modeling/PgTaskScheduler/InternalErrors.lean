import PgTaskScheduler.Claiming
import PgTaskScheduler.Inspect
import PgTaskScheduler.Interleaving

/-!
# The internal errors are unreachable

An operation answers `SchedulerError::Invariant` when a row is not what the code expects. The
constraints and the coupling of runs and attempts rule every such row out, in whatever order
sessions interleave, and the read model shows every run and attempt whose instants `chrono` can
represent.
-/

namespace PgTaskScheduler

open Tables ReadCommitted

/-! ## Loading a row -/

theorem readNullable_cases (t : Option Timestamp) :
    ((∀ x ∈ t, Decodable x) ∧ ∃ d, readNullable t = .ok d ∧ d.map Subtype.val = t) ∨
      (¬ (∀ x ∈ t, Decodable x) ∧ readNullable t = .error .timestampTooLarge) := by
  rcases t with _ | t
  · exact Or.inl ⟨by simp, none, rfl, rfl⟩
  · rcases readTimestamp_cases t with ⟨h, d, hd, rfl⟩ | ⟨h, he⟩
    · exact Or.inl ⟨by simpa using h, some d, by rw [readNullable, hd]; rfl, rfl⟩
    · exact Or.inr ⟨by simpa using h, by rw [readNullable, he]; rfl⟩

/-- `chrono` can represent the instants that `run_state` selects. -/
abbrev Run.Readable (r : Run) : Prop :=
  Decodable r.scheduledFor ∧ (∀ t ∈ r.leaseExpiresAt, Decodable t) ∧
    (∀ t ∈ r.startedAt, Decodable t) ∧ ∀ t ∈ r.finishedAt, Decodable t

/-- `chrono` can represent the instants that `task_attempts` selects. -/
abbrev Attempt.Readable (a : Attempt) : Prop :=
  Decodable a.startedAt ∧ Decodable a.leaseExpiresAt ∧ ∀ t ∈ a.finishedAt, Decodable t

/-- The loaded row repeats the columns that `state_of` looks at. -/
structure StatusRow.Reads (row : StatusRow) (r : Run) : Prop where
  state : row.state = r.state
  workerId : row.workerId = r.workerId
  leaseToken : row.leaseToken = r.leaseToken
  leaseExpiresAt : row.leaseExpiresAt.map Subtype.val = r.leaseExpiresAt
  startedAt : row.startedAt.map Subtype.val = r.startedAt
  finishedAt : row.finishedAt.map Subtype.val = r.finishedAt
  lastError : row.lastError = r.lastError

theorem StatusRow.read_cases (r : Run) :
    (r.Readable ∧ ∃ row, StatusRow.read r = .ok row ∧ row.Reads r) ∨
      (¬ r.Readable ∧ StatusRow.read r = .error .timestampTooLarge) := by
  unfold StatusRow.read
  rcases readTimestamp_cases r.scheduledFor with ⟨hs, s, es, -⟩ | ⟨hs, es⟩
  · rcases readNullable_cases r.leaseExpiresAt with ⟨hx, x, ex, vx⟩ | ⟨hx, ex⟩
    · rcases readNullable_cases r.startedAt with ⟨hb, b, eb, vb⟩ | ⟨hb, eb⟩
      · rcases readNullable_cases r.finishedAt with ⟨hf, f, ef, vf⟩ | ⟨hf, ef⟩
        · rw [es, ex, eb, ef]
          exact Or.inl ⟨⟨hs, hx, hb, hf⟩, _, rfl, rfl, rfl, rfl, vx, vb, vf, rfl⟩
        · exact Or.inr ⟨fun h => hf h.2.2.2, by rw [es, ex, eb, ef]; rfl⟩
      · exact Or.inr ⟨fun h => hb h.2.2.1, by rw [es, ex, eb]; rfl⟩
    · exact Or.inr ⟨fun h => hx h.2.1, by rw [es, ex]; rfl⟩
  · exact Or.inr ⟨fun h => hs h.1, by rw [es]; rfl⟩

structure AttemptRow.Reads (row : AttemptRow) (a : Attempt) : Prop where
  attemptNumber : row.attemptNumber = a.attemptNumber
  workerId : row.workerId = a.workerId
  startedAt : row.startedAt.val = a.startedAt
  leaseExpiresAt : row.leaseExpiresAt.val = a.leaseExpiresAt
  finishedAt : row.finishedAt.map Subtype.val = a.finishedAt
  outcome : row.outcome = a.outcome
  error : row.error = a.error

theorem AttemptRow.read_cases (a : Attempt) :
    (a.Readable ∧ ∃ row, AttemptRow.read a = .ok row ∧ row.Reads a) ∨
      (¬ a.Readable ∧ AttemptRow.read a = .error .timestampTooLarge) := by
  unfold AttemptRow.read
  rcases readTimestamp_cases a.startedAt with ⟨hb, b, eb, vb⟩ | ⟨hb, eb⟩
  · rcases readTimestamp_cases a.leaseExpiresAt with ⟨hx, x, ex, vx⟩ | ⟨hx, ex⟩
    · rcases readNullable_cases a.finishedAt with ⟨hf, f, ef, vf⟩ | ⟨hf, ef⟩
      · rw [eb, ex, ef]
        exact Or.inl ⟨⟨hb, hx, hf⟩, _, rfl, rfl, rfl, vb, vx, vf, rfl, rfl⟩
      · exact Or.inr ⟨fun h => hf h.2.2, by rw [eb, ex, ef]; rfl⟩
    · exact Or.inr ⟨fun h => hx h.2.1, by rw [eb, ex]; rfl⟩
  · exact Or.inr ⟨fun h => hb h.1, by rw [eb]; rfl⟩

/-! ## `run_state` -/

/-- The variant and the fields are the state of the run and its lease or terminal columns. -/
def RunState.Repeats : RunState → Run → Prop
  | .pending, r => r.state = .pending
  | .running lease, r => r.state = .running ∧ r.workerId = some lease.workerId ∧
      r.leaseToken = some lease.leaseToken ∧ r.leaseExpiresAt = some lease.leaseExpiresAt.val ∧
      r.startedAt = some lease.startedAt.val
  | .completed finishedAt, r => r.state = .completed ∧ r.finishedAt = some finishedAt.val
  | .failed finishedAt error, r => r.state = .failed ∧ r.finishedAt = some finishedAt.val ∧
      r.lastError = some error
  | .cancelled finishedAt, r => r.state = .cancelled ∧ r.finishedAt = some finishedAt.val

theorem exists_required {α : Type} {x : Option α} (h : x.isSome) (detail : String) :
    ∃ a, required x detail = .ok a ∧ x = some a := by
  obtain ⟨a, rfl⟩ := Option.isSome_iff_exists.mp h
  exact ⟨a, rfl, rfl⟩

theorem exists_required_instant {x : Option DateTime} {t : Option Timestamp}
    (hx : x.map Subtype.val = t) (ht : t.isSome) (detail : String) :
    ∃ d, required x detail = .ok d ∧ t = some d.val := by
  subst hx
  rw [Option.isSome_map] at ht
  obtain ⟨d, hd, rfl⟩ := exists_required ht detail
  exact ⟨d, hd, rfl⟩

/-- What `scheduler_runs_state_check` accepts has a state. -/
theorem stateOf_reads {row : StatusRow} {r : Run} (hrow : row.Reads r)
    (hcheck : r.stateCheck = true) : ∃ st, stateOf row = .ok st ∧ st.Repeats r := by
  unfold stateOf
  rw [hrow.state]
  unfold Run.stateCheck at hcheck
  rcases hs : r.state with _ | _ | _ | _ | _ <;>
    simp only [hs, Bool.and_eq_true] at hcheck ⊢
  · exact ⟨.pending, rfl, hs⟩
  · obtain ⟨⟨⟨⟨hworker, htoken⟩, hlease⟩, -⟩, -⟩ := hcheck
    obtain ⟨b, hb, hx⟩ := (Option.any_eq_true _ _).mp hlease
    obtain ⟨x, hx, -⟩ := (Option.any_eq_true _ _).mp hx
    obtain ⟨w, ew, hw⟩ := exists_required (hrow.workerId ▸ hworker) "running task without worker"
    obtain ⟨t, et, ht⟩ := exists_required (hrow.leaseToken ▸ htoken) "running task without token"
    obtain ⟨e, ee, he⟩ := exists_required_instant hrow.leaseExpiresAt (by simp [hx])
      "running task without expiry"
    obtain ⟨d, ed, hd⟩ := exists_required_instant hrow.startedAt (by simp [hb])
      "running task without start"
    rw [ew, et, ee, ed]
    exact ⟨_, rfl, hs, hrow.workerId ▸ hw, hrow.leaseToken ▸ ht, he, hd⟩
  · obtain ⟨⟨-, hf⟩, -⟩ := hcheck
    obtain ⟨f, ef, hf⟩ := exists_required_instant hrow.finishedAt hf "completed task without finish"
    rw [ef]
    exact ⟨_, rfl, hs, hf⟩
  · obtain ⟨⟨-, hf⟩, hl⟩ := hcheck
    obtain ⟨f, ef, hf⟩ := exists_required_instant hrow.finishedAt hf "failed task without finish"
    obtain ⟨e, ee, he⟩ := exists_required (hrow.lastError ▸ hl) "failed task without error"
    rw [ef, ee]
    exact ⟨_, rfl, hs, hf, hrow.lastError ▸ he⟩
  · obtain ⟨⟨-, hf⟩, -⟩ := hcheck
    obtain ⟨f, ef, hf⟩ := exists_required_instant hrow.finishedAt hf "cancelled task without finish"
    rw [ef]
    exact ⟨_, rfl, hs, hf⟩

/-! ## `task_attempts` -/

/-- The attempt as it is shown. -/
structure TaskAttempt.Repeats (t : TaskAttempt) (a : Attempt) : Prop where
  attempt : (t.attempt : ℤ) = a.attemptNumber
  workerId : t.workerId = a.workerId
  startedAt : t.startedAt.val = a.startedAt
  leaseExpiresAt : t.leaseExpiresAt.val = a.leaseExpiresAt
  finishedAt : t.finishedAt.map Subtype.val = a.finishedAt
  state : t.state = .shown a.outcome a.error
  running_iff : t.state = .running ↔ t.finishedAt = none

theorem AttemptState.shown_eq_running_iff (outcome : Option StoredAttemptOutcome)
    (error : Option String) : AttemptState.shown outcome error = .running ↔ outcome = none := by
  rcases outcome with _ | _ | _ | _ | _ <;> simp [shown]

/-- `scheduler_attempt_terminal_check`: an attempt has an outcome once it is finished. -/
theorem Attempt.outcome_eq_none_iff {a : Attempt} (h : a.check = .ok ()) :
    a.outcome = none ↔ a.finishedAt = none := by
  have hterminal := (Attempt.check_eq_ok_iff.mp h).2.2.1
  unfold Attempt.terminalCheck at hterminal
  rcases ho : a.outcome with _ | o <;> rcases hf : a.finishedAt with _ | t <;> simp_all

theorem AttemptRow.toTaskAttempt_reads {row : AttemptRow} {a : Attempt} (hrow : row.Reads a)
    (h : a.check = .ok ()) : ∃ t, row.toTaskAttempt = .ok t ∧ t.Repeats a := by
  have hpos : 1 ≤ row.attemptNumber :=
    hrow.attemptNumber ▸ (Attempt.check_eq_ok_iff.mp h).2.2.2.1
  refine ⟨_, if_pos (by omega), ?_, hrow.workerId, hrow.startedAt, hrow.leaseExpiresAt,
    hrow.finishedAt, ?_, ?_⟩
  · rw [← hrow.attemptNumber]
    exact Int.toNat_of_nonneg (by omega)
  · rw [← hrow.outcome, ← hrow.error]
  · rw [AttemptState.shown_eq_running_iff, hrow.outcome, Attempt.outcome_eq_none_iff h,
      ← hrow.finishedAt, Option.map_eq_none_iff]

theorem toTaskAttempts_reads {as : List Attempt} {rows : List AttemptRow}
    (hrows : List.Forall₂ (fun a row => AttemptRow.Reads row a) as rows)
    (h : ∀ a ∈ as, a.check = .ok ()) : ∃ ts, mapRows AttemptRow.toTaskAttempt rows = .ok ts ∧
      List.Forall₂ (fun a t => TaskAttempt.Repeats t a) as ts := by
  induction hrows with
  | nil => exact ⟨[], rfl, .nil⟩
  | @cons a row as rows hrow _ ih =>
    obtain ⟨t, ht, hrep⟩ := AttemptRow.toTaskAttempt_reads hrow (h a List.mem_cons_self)
    obtain ⟨ts, hts, hreps⟩ := ih fun b hb => h b (List.mem_cons_of_mem _ hb)
    exact ⟨t :: ts, by rw [mapRows, ht, hts]; rfl, .cons hrep hreps⟩

/-! ## Reading a store -/

section Reading

variable {s : Store} {α β : Type} {run : Env → Store → Except DbError β} {k : β → Program α}
  {env : ℕ → Env}

theorem exec_readQuery_ok {b : β} (h : run (env 0) s = .ok b) :
    (Prog.stmt (readQuery run) k).exec db env s s = (k b).exec db env s s := by
  have hr : (readQuery run).run (env 0) s s = .ok ({}, b) := by
    show ((run (env 0) s).map fun b => (({} : Patch), b)).mapError _ = _
    rw [h]
    rfl
  rw [Prog.exec_stmt_ok hr, db_apply, Store.apply_empty]

theorem exec_readQuery_error {e : DbError} (h : run (env 0) s = .error e) :
    (Prog.stmt (readQuery run) k).exec db env s s = (.error (.database e), s) := by
  refine Prog.exec_stmt_error ?_
  show ((run (env 0) s).map fun b => (({} : Patch), b)).mapError _ = _
  rw [h]
  rfl

/-- What the read model shows of a store. -/
structure Store.Shown (s : Store) : Prop where
  absent : ∀ id, (∀ r ∈ s.runs, r.id ≠ id) → ∀ env,
    (runState id).exec db env s s = (.ok none, s)
  run : ∀ r ∈ s.runs, r.Readable → ∀ env,
    ∃ st, (runState r.id).exec db env s s = (.ok (some st), s) ∧ st.Repeats r
  unreadableRun : ∀ r ∈ s.runs, ¬ r.Readable → ∀ env,
    (runState r.id).exec db env s s = (.error (.database .timestampTooLarge), s)
  attempts : ∀ id, (∀ a ∈ (s.view id).attempts, a.Readable) → ∀ env,
    ∃ ts, (taskAttempts id).exec db env s s = (.ok ts, s) ∧
      List.Forall₂ (fun a t => TaskAttempt.Repeats t a) (s.view id).attempts ts
  unreadableAttempt : ∀ a ∈ s.attempts, ¬ a.Readable → ∀ env,
    (taskAttempts a.runId).exec db env s s = (.error (.database .timestampTooLarge), s)

/-- The attempts of a run are stored in the order of their numbers. -/
theorem Inv.sorted_attempts (h : Inv s) (id : RunId) :
    (s.attempts.filter fun a => decide (a.runId = id)).insertionSort Attempt.historyOrder =
      (s.view id).attempts := by
  refine List.Pairwise.insertionSort_eq ?_
  have hsorted : ((s.view id).attempts.map Attempt.attemptNumber).Pairwise (· ≤ ·) := by
    rw [(h.coupled id).numbered]
    refine List.pairwise_map.mpr (List.pairwise_lt_range.imp fun hij => ?_)
    omega
  have hpairwise : (s.view id).attempts.Pairwise fun a b => a.attemptNumber ≤ b.attemptNumber :=
    List.pairwise_map.mp hsorted
  exact hpairwise

theorem Inv.filter_id (h : Inv s) {r : Run} (hr : r ∈ s.runs) :
    (s.runs.filter fun b => decide (b.id = r.id)) = [r] :=
  filter_eq_singleton h.runIds hr (by simp) fun b _ hb => by simpa using hb

/-- **The read model shows every run and attempt whose instants can be represented.** -/
theorem Inv.shown (h : Inv s) : s.Shown where
  absent id hid env := by
    have hnone : (s.runs.filter fun r => decide (r.id = id)) = [] :=
      List.filter_eq_nil_iff.mpr fun r hr => by simpa using hid r hr
    exact exec_readQuery_ok (b := []) (by rw [hnone]; rfl)
  run r hr hread env := by
    rcases StatusRow.read_cases r with ⟨-, row, hrow, hreads⟩ | ⟨hn, -⟩
    · obtain ⟨st, hst, hrep⟩ :=
        stateOf_reads hreads (Run.check_eq_ok_iff.mp (h.runsValid r hr)).2.2.2.2.2.2.2.1
      refine ⟨st, ?_, hrep⟩
      refine (exec_readQuery_ok (b := [row]) ?_).trans ?_
      · rw [h.filter_id hr, mapRows, hrow]
        rfl
      · show ((stateOf row).map some, s) = _
        rw [hst]
        rfl
    · exact absurd hread hn
  unreadableRun r hr hn env := by
    rcases StatusRow.read_cases r with ⟨hread, -⟩ | ⟨-, he⟩
    · exact absurd hread hn
    · refine exec_readQuery_error ?_
      rw [h.filter_id hr, mapRows, he]
      rfl
  attempts id hread env := by
    obtain ⟨rows, hrows, hreads⟩ := @mapRows_of_forall _ _ _ AttemptRow.read
      (fun a row => AttemptRow.Reads row a) (s.view id).attempts fun a ha => by
        rcases AttemptRow.read_cases a with ⟨-, hrow⟩ | ⟨hn, -⟩
        · exact hrow
        · exact absurd (hread a ha) hn
    obtain ⟨ts, hts, hreps⟩ := toTaskAttempts_reads hreads fun a ha =>
      h.attemptsValid a (Store.mem_view_attempts.mp ha).1
    refine ⟨ts, ?_, hreps⟩
    refine (exec_readQuery_ok (b := rows) ?_).trans ?_
    · rw [h.sorted_attempts id]
      exact hrows
    · show (mapRows AttemptRow.toTaskAttempt rows, s) = _
      rw [hts]
  unreadableAttempt a ha hn env := by
    refine exec_readQuery_error ?_
    rw [h.sorted_attempts]
    rcases AttemptRow.read_cases a with ⟨hread, -⟩ | ⟨-, he⟩
    · exact absurd hread hn
    · refine mapRows_eq_error (Store.mem_view_attempts.mpr ⟨ha, rfl⟩) he fun b _ e' hb => ?_
      rcases AttemptRow.read_cases b with ⟨-, row, hrow, -⟩ | ⟨-, he'⟩
      · exact absurd (hb.symm.trans hrow) (by simp)
      · exact Except.error.inj (hb.symm.trans he')

end Reading

/-! ## The writing operations -/

theorem RecoverySummary.add_eq {states : List StoredRunState}
    (h : ∀ st ∈ states, st = .pending ∨ st = .failed) (summary : RecoverySummary) :
    summary.add states = .ok ⟨summary.requeued + states.count .pending,
      summary.failed + states.count .failed⟩ := by
  induction states generalizing summary with
  | nil => rfl
  | cons st states ih =>
    have hrest := fun st' hst' => h st' (List.mem_cons_of_mem _ hst')
    rcases h st List.mem_cons_self with rfl | rfl
    · rw [add, ih hrest]
      simp
      omega
    · rw [add, ih hrest]
      simp
      omega

variable {K : Croner}

theorem program_recoverExpired (limit : NonZeroUsize) :
    program K (.recoverExpired limit) = (.stmt (recoverQuery limit.value) fun states =>
      .commit (.ret ((RecoverySummary.add ⟨0, 0⟩ states).map .recovered))) ∨
    ∃ x, program K (.recoverExpired limit) = .ret x := by
  unfold program recoverExpired
  dsimp only
  split_ifs
  · exact Or.inr ⟨_, rfl⟩
  · exact Or.inl rfl

theorem Run.recover_requeued_or_failed (env : Env) (r : Run) :
    (r.recover env).state = .pending ∨ (r.recover env).state = .failed := by
  rw [Run.recover_state]
  split_ifs
  · exact Or.inl rfl
  · exact Or.inr rfl

theorem Run.fail_retried_or_failed (env : Env) (retryable : Bool) (error : String) (r : Run) :
    (r.fail env retryable error).state = .pending ∨
      (r.fail env retryable error).state = .failed := by
  rw [Run.fail_state]
  split_ifs
  · exact Or.inl rfl
  · exact Or.inr rfl

theorem recoverQuery_states {limit : ℕ} {env : Env} {snap cur : Store} {w : Patch}
    {states : List StoredRunState} (h : (recoverQuery limit).run env snap cur = .ok (w, states)) :
    states = w.runs.update.map Run.state ∧ ∀ st ∈ states, st = .pending ∨ st = .failed := by
  obtain ⟨rfl, rfl, -⟩ := recoverQuery_ok h
  refine ⟨rfl, fun st hst => ?_⟩
  obtain ⟨r', hr', rfl⟩ := List.mem_map.mp hst
  obtain ⟨r, -, rfl⟩ := List.mem_map.mp hr'
  exact r.recover_requeued_or_failed env

theorem failQuery_state {id : RunId} {token : LeaseToken} {error : String} {retryable : Bool}
    {env : Env} {snap cur : Store} {w : Patch} {st : StoredRunState} {t : DateTime}
    (hk : Keyed Run.id cur.runs)
    (h : (failQuery id token retryable error).run env snap cur = .ok (w, some (st, t))) :
    st = .pending ∨ st = .failed := by
  obtain ⟨-, hnone⟩ | ⟨r, v, -, -, -, hread, -, hv⟩ := updateLive_ok hk h
  · exact absurd hnone (by simp)
  · obtain rfl := Option.some.inj hv
    rcases readTimestamp_cases (r.fail env retryable error).availableAt with ⟨-, d, hd, -⟩ | ⟨-, he⟩
    · rw [readFailure, hd] at hread
      obtain ⟨rfl, -⟩ := Prod.mk.inj (Except.ok.inj hread)
      exact r.fail_retried_or_failed env retryable error
    · rw [readFailure, he] at hread
      exact absurd hread (by simp [Except.map])

/-! ## No internal error is reached -/

variable {ι : Type} [DecidableEq ι] {y : Sessions K ι} {ls : List (ι × Act (Call K) Env)}

/-- What rules the internal errors out. -/
structure Sessions.Coherent (y : Sessions K ι) : Prop where
  /-- no session answers an internal error -/
  answers : ∀ i detail, (y.session i).prog ≠ .ret (.error (.invariant detail))
  /-- nor does an operation on this store, whatever its arguments and readings -/
  alone : ∀ (c : Call K) env detail,
    ((program K c).exec db env y.committed y.committed).1 ≠ .error (.invariant detail)
  /-- a finalize, failure or renewal that has matched its run finds one live attempt -/
  matched : ∀ i id token, (y.session i).call.Carries id token →
    (∃ w ∈ (y.session i).writes, w.runs.update ≠ []) →
    ∀ {β : Type} (s : Query β) k sn, (y.session i).prog = .stmt s k →
      (y.session i).snap = some sn → ∃ bind set k' a,
        (y.session i).prog = .stmt (updateOpen token bind set) k' ∧
        a ∈ y.committed.attempts ∧ a.runId = id ∧ a.openWith token ∧
        ∀ env, ∃ a', (updateOpen token bind set).run env (db.applyAll (y.session i).writes sn)
          (db.applyAll (y.session i).writes y.committed) = .ok ({ updateAttempts := [a'] }, 1)
  /-- `FAIL` and `RECOVER` answer pending and failed runs -/
  failed : ∀ id token error retryable env sn w st t,
    (failQuery id token retryable error).run env sn y.committed = .ok (w, some (st, t)) →
      st = .pending ∨ st = .failed
  recovered : ∀ limit env sn w states,
    (recoverQuery limit).run env sn y.committed = .ok (w, states) →
      ∀ st ∈ states, st = .pending ∨ st = .failed
  /-- once `CLAIM_BATCH` is committed, every loaded row of what it has written converts -/
  claiming : ∀ i worker names limit k, (y.session i).call = .claimBatch worker names limit →
    (y.session i).prog = .commit k → ∃ env candidates,
      (y.session i).writes = [claimPatch env worker candidates] ∧
      k = .ret ((decodeClaimed (claimedRows env worker candidates)).map .claimed) ∧
      ∀ r ∈ claimedRows env worker candidates, ∀ row, ClaimedRow.read r = .ok row →
        0 < row.attempt ∧ (∃ l, LeaseDuration.fromPgInterval row.leaseDuration = .ok l) ∧
        ∃ c, row.toClaimedRun = .ok c
  /-- once `RECOVER` is committed, every row that it has written is counted -/
  recovering : ∀ i limit k, (y.session i).call = .recoverExpired limit →
    (y.session i).prog = .commit k → ∃ w, (y.session i).writes = [w] ∧
      k = .ret (.ok (.recovered ⟨(w.runs.update.map Run.state).count .pending,
        (w.runs.update.map Run.state).count .failed⟩))
  shown : y.committed.Shown

theorem claimed_converts {env : Env} {worker : WorkerId} {r : Run} (hr : r.check = .ok ())
    {row : ClaimedRow} (hrow : ClaimedRow.read (r.claim env worker) = .ok row) :
    0 < row.attempt ∧ (∃ l, LeaseDuration.fromPgInterval row.leaseDuration = .ok l) ∧
      ∃ c, row.toClaimedRun = .ok c := by
  obtain ⟨hattempt, hlease⟩ := ClaimedRow.read_eq_ok hrow
  have hcount : (r.claim env worker).attemptCount = r.attemptCount + 1 := rfl
  have hpos : 0 < row.attempt := by
    have := (Run.attemptsCheck_of_check hr).1
    omega
  refine ⟨hpos, ?_, ClaimedRow.toClaimedRun_ok hpos hlease⟩
  obtain ⟨l, hl, -⟩ := LeaseDuration.fromPgInterval_of_leaseCheck r.leaseDuration
  exact ⟨l, hlease ▸ hl⟩

/-- **No internal error is reached**, whatever sessions do and whichever rows they find. -/
theorem internal_errors_unreachable (h : Sessions.Reached ls y) : y.Coherent where
  answers i detail hp := by
    have hgood := (sound_reached h).good i
    rw [hp] at hgood
    exact hgood detail rfl
  alone c env detail := (exec_free c env (sound_reached h).store).1 detail
  matched i id token hc hw β s k sn hp hsn := by
    obtain ⟨bind, set, k', a, hp', -, ha, hid, hopen, hrun⟩ := second_reached h hc hw hp hsn
    exact ⟨bind, set, k', a, hp', ha, hid, hopen, fun env => ⟨_, (hrun env).2⟩⟩
  failed id token error retryable env sn w st t hr :=
    failQuery_state (sound_reached h).store.runIds hr
  recovered limit env sn w states hr := (recoverQuery_states hr).2
  claiming i worker names limit k hc hp := by
    obtain ⟨env, candidates, hk, hw, -, hrows⟩ := claiming_reached h hc hp
    refine ⟨env, candidates, hw, hk, fun r' hr' row hrow => ?_⟩
    obtain ⟨r, hr, rfl⟩ := mem_claimedRows.mp hr'
    have hmem := mem_of_lookup (hrows r hr).2.1
    exact claimed_converts ((sound_reached h).store.runsValid r hmem) hrow
  recovering i limit k hc hp := by
    obtain ⟨env, sn, C, w, states, -, -, hr, rfl, hw, -⟩ :=
      single_reached (program_recoverExpired limit) h hc hp
    obtain ⟨rfl, hstates⟩ := recoverQuery_states hr
    refine ⟨w, hw, ?_⟩
    rw [RecoverySummary.add_eq hstates, Nat.zero_add, Nat.zero_add]
    rfl
  shown := (sound_reached h).store.shown

/-- A task, claimed by a worker. -/
def claiming (options : EnqueueOptions) : List (Unit × Act (Call .everySecond) Env) :=
  serve () (mail options) [1, 2] ++ serve () claimMail [3]

theorem internal_errors_unreachable_claiming : ∃ y : Sessions .everySecond Unit,
    Sessions.Reached (claiming .standard) y ∧ y.Coherent ∧
      ((runState ⟨1⟩).exec db (fun _ => .tick 4) y.committed y.committed).1 =
        .ok (some (.running ⟨"worker", ⟨3⟩, ⟨300000003, by decide⟩, ⟨3, by decide⟩⟩)) := by
  have h : (Sessions.play _ _ (claiming .standard)).map (fun y =>
      ((runState ⟨1⟩).exec db (fun _ => .tick 4) y.committed y.committed).1.toOption) =
        some (some (some (.running ⟨"worker", ⟨3⟩, ⟨300000003, by decide⟩, ⟨3, by decide⟩⟩))) := by
    decide +kernel
  obtain ⟨y, hy, he⟩ := Option.map_eq_some_iff.mp h
  refine ⟨y, play_reached hy, internal_errors_unreachable (play_reached hy), ?_⟩
  rcases hx : ((runState ⟨1⟩).exec db (fun _ => .tick 4) y.committed y.committed).1 with e | st
  · rw [hx] at he
    exact absurd he (by simp [Except.toOption])
  · rw [hx] at he
    exact hx.trans (congrArg Except.ok (Option.some.inj he))

/-- A lease that ends in the year 262143 when the task is claimed. -/
def EnqueueOptions.farLease : EnqueueOptions :=
  { EnqueueOptions.standard with leaseDuration := ⟨8209320191999999999, by decide⟩ }

/-- PostgreSQL stores the end of the lease, and Diesel cannot load it. -/
theorem run_state_not_total : ¬ ∀ (ls : List (Unit × Act (Call .everySecond) Env))
    (y : Sessions .everySecond Unit), Sessions.Reached ls y → ∀ r ∈ y.committed.runs, ∀ env,
      ∃ st, ((runState r.id).exec db env y.committed y.committed).1 = .ok (some st) ∧
        st.Repeats r := by
  intro hall
  have h : (Sessions.play _ _ (claiming .farLease)).map (fun y =>
      y.committed.runs.map fun r => decide r.Readable) = some [false] := by decide +kernel
  obtain ⟨y, hy, he⟩ := Option.map_eq_some_iff.mp h
  obtain ⟨r, hr⟩ : ∃ r, y.committed.runs = [r] := List.length_eq_one_iff.mp (by
    rw [← List.length_map (f := fun r : Run => decide r.Readable), he]
    rfl)
  have hmem : r ∈ y.committed.runs := by simp [hr]
  have hunreadable : ¬ r.Readable := by simpa [hr] using he
  obtain ⟨st, hst, -⟩ := hall _ y (play_reached hy) r hmem fun _ => .tick 4
  rw [(sound_reached (play_reached hy)).store.shown.unreadableRun r hmem hunreadable] at hst
  exact absurd hst (by simp)

end PgTaskScheduler
