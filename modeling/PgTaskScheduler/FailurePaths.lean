import PgTaskScheduler.Coupling

/-!
# The two paths to a failed run

`finalize_run` with `Outcome::Failed` and `fail_run` are written separately: another UPDATE, another
mapping of its answer. On the same store, with the same readings, a permanent failure is the same
either way, and so is a retryable one when no attempt is left.
-/

namespace PgTaskScheduler

open Tables ReadCommitted

variable {s : Store} {id : RunId} {token : LeaseToken} {error : String} {env : ℕ → Env}

/-! ## The first statements -/

/-- Both SET lists write the same row. -/
theorem Run.fail_eq_finalize (env : Env) (error : String) (r : Run) :
    r.fail env false error = r.finalize env .failed (some error) := by
  simp [Run.fail, Run.finalize, Run.release]

/-- A retryable failure of the last attempt is permanent. -/
theorem Run.fail_of_no_attempts_left {r : Run} (h : ¬ r.attemptsLeft) (env : Env)
    (retryable : Bool) (error : String) : r.fail env retryable error = r.fail env false error := by
  simp [Run.fail, h]

/-- Two UPDATEs that write the same live rows and answer different columns of them. -/
theorem updateLive_both {β γ : Type} {env : Env} {texts : List String} {set set' : Env → Run → Run}
    {read : Run → Except DbError β} {read' : Run → Except DbError γ}
    (hset : ∀ r ∈ s.runs, r.live env id token → set env r = set' env r)
    (hread : ∀ r ∈ s.runs, r.live env id token →
      ∃ v v', read (set env r) = .ok v ∧ read' (set env r) = .ok v') :
    (∃ e, (updateLive id token texts set read).run env s s = .error e ∧
      (updateLive id token texts set' read').run env s s = .error e) ∨
    ((updateLive id token texts set read).run env s s = .ok ({}, none) ∧
      (updateLive id token texts set' read').run env s s = .ok ({}, none)) ∨
    ∃ r ∈ s.runs, r.live env id token ∧ ∃ w v v', read (set env r) = .ok v ∧
      read' (set env r) = .ok v' ∧
      (updateLive id token texts set read).run env s s = .ok (w, some v) ∧
      (updateLive id token texts set' read').run env s s = .ok (w, some v') := by
  have hrows : (targets Run.id (·.live env id token) s.runs s.runs).map (set' env) =
      (targets Run.id (·.live env id token) s.runs s.runs).map (set env) := by
    refine List.map_congr_left fun r hr => ?_
    obtain ⟨hmem, hlive, -⟩ := mem_targets.mp hr
    exact (hset r hmem hlive).symm
  simp only [updateLive, query, hrows]
  rcases checkAll bindText texts with e | ⟨⟩
  · exact Or.inl ⟨_, rfl, rfl⟩
  rcases htargets : targets Run.id (·.live env id token) s.runs s.runs with _ | ⟨r, rs⟩
  · exact Or.inr (Or.inl ⟨rfl, rfl⟩)
  · simp only [List.map_cons]
    rcases checkAll Run.check (set env r :: rs.map (set env)) with e | ⟨⟩
    · exact Or.inl ⟨_, rfl, rfl⟩
    · obtain ⟨hmem, hlive, -⟩ := mem_targets.mp (htargets ▸ List.mem_cons_self)
      obtain ⟨v, v', hv, hv'⟩ := hread r hmem hlive
      refine Or.inr (Or.inr ⟨r, hmem, hlive,
        { runs := { update := set env r :: rs.map (set env) } }, v, v', hv, hv', ?_, ?_⟩)
      · rw [hv]
        rfl
      · rw [hv']
        rfl

/-! ## The answers -/

/-- The answers of `fail_run` and `finalize_run` that mean the same. -/
inductive Corresponds : Except SchedulerError FailureOutcome →
    Except SchedulerError FinalizeOutcome → Prop
  | failed : Corresponds (.ok .failed) (.ok .applied)
  | fenced : Corresponds (.ok .fenced) (.ok .fenced)
  | alreadyTerminal : Corresponds (.ok .alreadyTerminal) (.ok .alreadyTerminal)
  | error (e e') : Corresponds (.error e) (.error e')

/-- `IS_TERMINAL` -/
def Store.terminal (s : Store) (id : RunId) : Bool :=
  s.runs.any fun r => decide (r.id = id ∧ r.state.Terminal)

/-- The program after a first statement that has found no live run. -/
theorem exec_terminal {α : Type} (f : Bool → α) :
    (Prog.stmt (terminal id) fun t => .commit (.ret (.ok (f t)))).exec db env s s =
      (.ok (f (s.terminal id)), s) := by
  have hrun : (terminal id).run (env 0) s s = .ok ({}, s.terminal id) := rfl
  rw [Prog.exec_stmt_ok hrun, db_apply, Store.apply_empty]
  rfl

section Both

variable {retryable : Bool}

/-- The first statements fail or miss together, or both have failed the run. -/
theorem first_statements (hread : ∀ r ∈ s.runs, r.live (env 0) id token →
      Decodable r.availableAt)
    (hleft : ∀ r ∈ s.runs, r.live (env 0) id token → retryable = true → ¬ r.attemptsLeft) :
    (∃ e, (failQuery id token retryable error).run (env 0) s s = .error e ∧
      (finalizeQuery id token .failed (some error)).run (env 0) s s = .error e) ∨
    ((failQuery id token retryable error).run (env 0) s s = .ok ({}, none) ∧
      (finalizeQuery id token .failed (some error)).run (env 0) s s = .ok ({}, none)) ∨
    ∃ w t id', (failQuery id token retryable error).run (env 0) s s = .ok (w, some (.failed, t)) ∧
      (finalizeQuery id token .failed (some error)).run (env 0) s s = .ok (w, some id') := by
  have hfail : ∀ r ∈ s.runs, r.live (env 0) id token →
      r.fail (env 0) retryable error = r.fail (env 0) false error := by
    intro r hr hlive
    cases retryable with
    | false => rfl
    | true => exact Run.fail_of_no_attempts_left (hleft r hr hlive rfl) _ _ _
  have hreads : ∀ r ∈ s.runs, r.live (env 0) id token → ∃ v v',
      readFailure (r.fail (env 0) retryable error) = .ok v ∧
        (.ok (r.fail (env 0) retryable error).id : Except DbError RunId) = .ok v' := by
    intro r hr hlive
    refine ⟨(.failed, ⟨r.availableAt, hread r hr hlive⟩), _, ?_, rfl⟩
    rw [hfail r hr hlive]
    unfold readFailure
    have havailable : (r.fail (env 0) false error).availableAt = r.availableAt := by
      simp [Run.fail]
    rw [havailable, readTimestamp_of_decodable (hread r hr hlive)]
    rfl
  rcases @updateLive_both s id token _ _ (env 0) [error] (fun env => Run.fail env retryable error)
    (fun env => Run.finalize env .failed (some error)) readFailure (fun r => .ok r.id)
    (fun r hr hlive => (hfail r hr hlive).trans (r.fail_eq_finalize _ _)) hreads with
    herror | hnone | ⟨r, hr, hlive, w, v, id', hv, -, hrun, hrun'⟩
  · exact Or.inl herror
  · exact Or.inr (Or.inl hnone)
  · refine Or.inr (Or.inr ⟨w, v.2, id', ?_, hrun'⟩)
    have hstate : v.1 = .failed := by
      rw [hfail r hr hlive] at hv
      unfold readFailure at hv
      rcases ht : readTimestamp (r.fail (env 0) false error).availableAt with e | t
      · rw [ht] at hv
        exact nomatch hv
      · rw [ht] at hv
        rw [← Except.ok.inj hv]
        simp [Run.fail]
    rw [← hstate]
    exact hrun

/-- **A permanent failure is the same by either path.** -/
theorem failRun_finalizeRun (hread : ∀ r ∈ s.runs, r.live (env 0) id token →
      Decodable r.availableAt)
    (hleft : ∀ r ∈ s.runs, r.live (env 0) id token → retryable = true → ¬ r.attemptsLeft) :
    ((failRun id token error retryable).exec db env s s).2 =
      ((finalizeRun id token (.failed error)).exec db env s s).2 ∧
    Corresponds ((failRun id token error retryable).exec db env s s).1
      ((finalizeRun id token (.failed error)).exec db env s s).1 := by
  unfold failRun finalizeRun Outcome.stored
  dsimp only
  rcases first_statements hread hleft with ⟨e, he, he'⟩ | ⟨hnone, hnone'⟩ | ⟨w, t, id', hrun, hrun'⟩
  · rw [Prog.exec_stmt_error he, Prog.exec_stmt_error he']
    exact ⟨rfl, .error _ _⟩
  · rw [Prog.exec_stmt_ok hnone, Prog.exec_stmt_ok hnone', db_apply, Store.apply_empty]
    dsimp only
    rw [exec_terminal, exec_terminal]
    refine ⟨rfl, ?_⟩
    split_ifs
    · exact .alreadyTerminal
    · exact .fenced
  · rw [Prog.exec_stmt_ok hrun, Prog.exec_stmt_ok hrun']
    dsimp only
    rcases hr : (recordAttempt token .failed (some error)).run (env 0) (db.apply w s)
      (db.apply w s) with e | ⟨w', n⟩
    · rw [Prog.exec_stmt_error hr, Prog.exec_stmt_error hr]
      exact ⟨rfl, .error _ _⟩
    · rw [Prog.exec_stmt_ok hr, Prog.exec_stmt_ok hr]
      split_ifs
      · exact ⟨rfl, .error _ _⟩
      · exact ⟨rfl, .failed⟩

end Both

/-! ## The answers one by one -/

theorem updateLive_none {β : Type} {env : Env} {snap cur : Store} {texts : List String}
    {set : Env → Run → Run} {read : Run → Except DbError β} {w : Patch}
    (h : (updateLive id token texts set read).run env snap cur = .ok (w, none)) : w = {} := by
  obtain ⟨_, -, h⟩ := bind_eq_ok (mapError_eq_ok.mp h)
  obtain ⟨_, -, h⟩ := bind_eq_ok h
  split at h
  · exact (congrArg Prod.fst (Except.ok.inj h)).symm
  · obtain ⟨_, -, h⟩ := bind_eq_ok h
    exact absurd (congrArg Prod.snd (Except.ok.inj h)) (by simp)

/-- What an operation of two statements comes to: an error, the answer of `IS_TERMINAL` when no run
was live, or what follows when one attempt has been updated. -/
theorem exec_statements {α β : Type} {p : Program α} {texts : List String} {set : Env → Run → Run}
    {read : Run → Except DbError β} {k : Option β → Program α} {f : Bool → α}
    {bind : β → Except DbError Unit} {setAttempt : β → Env → Attempt → Attempt} {detail : String}
    {next : β → Program α} (hp : p = .stmt (updateLive id token texts set read) k)
    (hnone : k none = .stmt (terminal id) fun t => .commit (.ret (.ok (f t))))
    (hsome : ∀ v, k (some v) = .stmt (updateOpen token (bind v) (setAttempt v)) fun n =>
      if n ≠ 1 then .ret (.error (.invariant detail)) else next v) :
    (∃ e, p.exec db env s s = (.error e, s)) ∨
      p.exec db env s s = (.ok (f (s.terminal id)), s) ∨
      ∃ v s', p.exec db env s s = (next v).exec db env s s' := by
  subst hp
  rcases hr : (updateLive id token texts set read).run (env 0) s s with e | ⟨w, _ | v⟩
  · exact Or.inl ⟨e, Prog.exec_stmt_error hr⟩
  · obtain rfl := updateLive_none hr
    refine Or.inr (Or.inl ?_)
    rw [Prog.exec_stmt_ok hr, db_apply, Store.apply_empty, hnone, exec_terminal]
  · rw [Prog.exec_stmt_ok hr, hsome]
    rcases hr' : (updateOpen token (bind v) (setAttempt v)).run (env 0) (db.apply w s)
      (db.apply w s) with e | ⟨w', n⟩
    · exact Or.inl ⟨e, Prog.exec_stmt_error hr'⟩
    · rw [Prog.exec_stmt_ok hr']
      split_ifs
      · exact Or.inl ⟨_, rfl⟩
      · exact Or.inr (Or.inr ⟨v, _, rfl⟩)

/-- `finalize_run` answers by `IS_TERMINAL` unless it has finalized the run. -/
theorem finalizeRun_answer {outcome : Outcome} {x : FinalizeOutcome}
    (hx : ((finalizeRun id token outcome).exec db env s s).1 = .ok x) :
    x = .applied ∨ x = (if s.terminal id then .alreadyTerminal else .fenced) := by
  rcases exec_statements (p := finalizeRun id token outcome) rfl rfl fun _ => rfl with
    ⟨e, he⟩ | hmissed | ⟨v, s', hnext⟩
  · rw [he] at hx
    exact nomatch hx
  · rw [hmissed] at hx
    exact Or.inr (Except.ok.inj hx).symm
  · rw [hnext] at hx
    exact Or.inl (Except.ok.inj hx).symm

/-- `fail_run` answers by `IS_TERMINAL` unless it has failed or retried the run. -/
theorem failRun_answer {retryable : Bool} {x : FailureOutcome}
    (hx : ((failRun id token error retryable).exec db env s s).1 = .ok x) :
    (x = .failed ∨ ∃ t, x = .retried t) ∨
      x = (if s.terminal id then .alreadyTerminal else .fenced) := by
  rcases exec_statements (p := failRun id token error retryable) rfl rfl fun _ => rfl with
    ⟨e, he⟩ | hmissed | ⟨⟨state, t⟩, s', hnext⟩
  · rw [he] at hx
    exact nomatch hx
  · rw [hmissed] at hx
    exact Or.inr (Except.ok.inj hx).symm
  · rw [hnext] at hx
    refine Or.inl ?_
    cases state with
    | pending => exact Or.inr ⟨t, (Except.ok.inj hx).symm⟩
    | failed => exact Or.inl (Except.ok.inj hx).symm
    | _ => exact nomatch hx

/-- Both operations answer a value once they have committed. -/
theorem finalizeRun_allOrNothing {outcome : Outcome} :
    (finalizeRun id token outcome).AllOrNothing := by
  rintro (_ | _)
  · exact fun _ => ⟨_, rfl⟩
  · intro n
    dsimp only
    split_ifs
    · trivial
    · exact ⟨_, rfl⟩

theorem failRun_allOrNothing {retryable : Bool} :
    (failRun id token error retryable).AllOrNothing := by
  rintro (_ | ⟨state, t⟩)
  · exact fun _ => ⟨_, rfl⟩
  · intro n
    dsimp only
    split_ifs
    · trivial
    · cases state <;> first | trivial | exact ⟨_, rfl⟩

/-! ## The paths agree -/

theorem Store.terminal_iff {s : Store} {id : RunId} :
    s.terminal id ↔ ∃ r ∈ s.runs, r.id = id ∧ r.state.Terminal := by
  simp [Store.terminal]

/-- What an operation on a run answers when it has not changed it. -/
structure TerminalAnswers {α : Type} (s : Store) (id : RunId) (x : Except SchedulerError α)
    (alreadyTerminal fenced : α) : Prop where
  alreadyTerminal : x = .ok alreadyTerminal → ∃ r ∈ s.runs, r.id = id ∧ r.state.Terminal
  fenced : x = .ok fenced → ¬ ∃ r ∈ s.runs, r.id = id ∧ r.state.Terminal

theorem finalizeRun_terminal {outcome : Outcome} : TerminalAnswers s id
    ((finalizeRun id token outcome).exec db env s s).1 .alreadyTerminal .fenced where
  alreadyTerminal hx := by
    rcases finalizeRun_answer hx with h | h
    · exact nomatch h
    · split_ifs at h with ht
      exact Store.terminal_iff.mp ht
  fenced hx := by
    rcases finalizeRun_answer hx with h | h
    · exact nomatch h
    · split_ifs at h with ht
      exact fun hterminal => ht (Store.terminal_iff.mpr hterminal)

theorem failRun_terminal {retryable : Bool} : TerminalAnswers s id
    ((failRun id token error retryable).exec db env s s).1 .alreadyTerminal .fenced where
  alreadyTerminal hx := by
    rcases failRun_answer hx with (h | ⟨t, h⟩) | h
    · exact nomatch h
    · exact nomatch h
    · split_ifs at h with ht
      exact Store.terminal_iff.mp ht
  fenced hx := by
    rcases failRun_answer hx with (h | ⟨t, h⟩) | h
    · exact nomatch h
    · exact nomatch h
    · split_ifs at h with ht
      exact fun hterminal => ht (Store.terminal_iff.mpr hterminal)

/-- `fail_run` and `finalize_run` with `Outcome::Failed`, on one store with the same readings. -/
structure PathsAgree (s : Store) (id : RunId) (token : LeaseToken) (error : String)
    (env : ℕ → Env) (retryable : Bool) : Prop where
  stores : ((failRun id token error retryable).exec db env s s).2 =
    ((finalizeRun id token (.failed error)).exec db env s s).2
  answers : Corresponds ((failRun id token error retryable).exec db env s s).1
    ((finalizeRun id token (.failed error)).exec db env s s).1
  failUntouched : ∀ e, ((failRun id token error retryable).exec db env s s).1 = .error e →
    ((failRun id token error retryable).exec db env s s).2 = s
  finalizeUntouched : ∀ e, ((finalizeRun id token (.failed error)).exec db env s s).1 = .error e →
    ((finalizeRun id token (.failed error)).exec db env s s).2 = s
  failAnswers : TerminalAnswers s id ((failRun id token error retryable).exec db env s s).1
    .alreadyTerminal .fenced
  finalizeAnswers : TerminalAnswers s id
    ((finalizeRun id token (.failed error)).exec db env s s).1 .alreadyTerminal .fenced

/-- **The two terminal-failure paths agree**, whenever Diesel can load the `available_at` of the
live run, which only `fail_run` reads back. -/
theorem terminal_failure_paths_agree (hread : ∀ r ∈ s.runs, r.live (env 0) id token →
      Decodable r.availableAt) :
    PathsAgree s id token error env false ∧
      ((∀ r ∈ s.runs, r.live (env 0) id token → r.maxAttempts ≤ r.attemptCount) →
        PathsAgree s id token error env true) := by
  have hagree : ∀ retryable, (∀ r ∈ s.runs, r.live (env 0) id token → retryable = true →
      ¬ r.attemptsLeft) → PathsAgree s id token error env retryable := by
    intro retryable hleft
    obtain ⟨hstores, hanswers⟩ := @failRun_finalizeRun s id token error env retryable hread hleft
    exact ⟨hstores, hanswers, fun e he => failRun_allOrNothing.exec db he,
      fun e he => finalizeRun_allOrNothing.exec db he, failRun_terminal, finalizeRun_terminal⟩
  refine ⟨hagree false (fun _ _ _ h => nomatch h), fun hleft => hagree true fun r hr hlive _ => ?_⟩
  exact not_lt.mpr (hleft r hr hlive)

theorem terminal_failure_paths_agree_claimed :
    ((finalizeRun ⟨1⟩ ⟨2⟩ (.failed "unreachable")).exec db (fun _ => .tick 3) World.claimed.store
      World.claimed.store).1 = .ok .applied ∧
    PathsAgree World.claimed.store ⟨1⟩ ⟨2⟩ "unreachable" (fun _ => .tick 3) false :=
  ⟨by decide +kernel, (terminal_failure_paths_agree (by decide +kernel)).1⟩

/-- The claimed task, had it been delayed until the year 262143. -/
def Store.delayed : Store :=
  { World.claimed.store with
    runs := World.claimed.store.runs.map fun r => { r with availableAt := 8209320192000000000 } }

/-- Diesel cannot load that instant, so only `finalize_run` succeeds. -/
theorem fail_run_reads_available_at : ¬ ∀ (s : Store) (id : RunId) (token : LeaseToken)
    (error : String) (env : ℕ → Env), Corresponds ((failRun id token error false).exec db env s s).1
      ((finalizeRun id token (.failed error)).exec db env s s).1 := by
  intro hall
  have hfail : ((failRun ⟨1⟩ ⟨2⟩ "unreachable" false).exec db (fun _ => .tick 3) Store.delayed
      Store.delayed).1 = .error (.database .timestampTooLarge) := by decide +kernel
  have hfinalize : ((finalizeRun ⟨1⟩ ⟨2⟩ (.failed "unreachable")).exec db (fun _ => .tick 3)
      Store.delayed Store.delayed).1 = .ok .applied := by decide +kernel
  have h := hall Store.delayed ⟨1⟩ ⟨2⟩ "unreachable" fun _ => .tick 3
  rw [hfail, hfinalize] at h
  cases h

end PgTaskScheduler
