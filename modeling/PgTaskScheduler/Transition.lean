import PgTaskScheduler.Invariant

/-!
# Transitions of the store

A transition changes every run with its attempts by a `Change` and every schedule by a `JobChange`.
The rules at the end say when a program may commit: what it has written fits the store under the
locks it holds and makes a transition.
-/

namespace PgTaskScheduler

open Tables ReadCommitted

variable {K : Croner}

/-! ## Schedules -/

/-- What one transaction of an operation may do to one schedule. -/
inductive JobChange (Ok : Env → Prop) : Call K → Option SchedulerJob → Option SchedulerJob → Prop
  | same (c j) : JobChange Ok c j j
  | created {c spec env₀ env} {dbNow : DateTime} {row : NewJob} (hOk₀ : Ok env₀) (hOk : Ok env)
    (hc : c = .createJob spec ∨ c = .ensureJob spec) (hnow : dbNow.val = env₀.now)
    (hrow : newJob spec dbNow = .ok row) (hloads : Decodable env.now) :
    JobChange Ok c none (some (row.toRow env))
  | reconciled {spec env₀} {dbNow : DateTime} {row : NewJob} {j : SchedulerJob} (hOk₀ : Ok env₀)
    (hnow : dbNow.val = env₀.now) (hrow : newJob spec dbNow = .ok row) (hname : j.name = row.name) :
    JobChange Ok (.ensureJob spec) (some j) (some (j.reconcile row dbNow))
  | advanced {c env env'} {dbNow next : DateTime} {j : SchedulerJob} {cron} (hOk : Ok env)
    (hOk' : Ok env') (hc : c.Materializes) (hj : j.due env) (hnow : dbNow.val = env.now)
    (hcron : CronExpression.parse K j.cronExpression = .ok cron)
    (hnext : cron.nextAfter dbNow = .ok next) :
    JobChange Ok c (some j) (some { j with nextRunAt := next.val, updatedAt := env'.now })
  | corrupt {c env env'} {j : SchedulerJob} {e} (hOk : Ok env) (hOk' : Ok env')
    (hc : c.Materializes) (hj : j.due env)
    (hcron : CronExpression.parse K j.cronExpression = .error e) :
    JobChange Ok c (some j) (some { j with isPaused := true, updatedAt := env'.now })
  | pinned {id t env₀} {dbNow : DateTime} {j : SchedulerJob} (hOk₀ : Ok env₀) (hid : j.id = id)
    (hnow : dbNow.val = env₀.now) :
    JobChange Ok (.reschedule id (.setNextRunAt t)) (some j)
      (some { j with nextRunAt := t.val, updatedAt := dbNow.val })
  | reset {id env₀} {dbNow next : DateTime} {j : SchedulerJob} {cron} (hOk₀ : Ok env₀)
    (hid : j.id = id) (hnow : dbNow.val = env₀.now)
    (hcron : CronExpression.parseStored K id j.cronExpression = .ok cron)
    (hnext : cron.nextAfter dbNow = .ok next) :
    JobChange Ok (.reschedule id .resetFromNow) (some j)
      (some { j with nextRunAt := next.val, updatedAt := dbNow.val })
  | paused {id env} {j : SchedulerJob} (hOk : Ok env) (hid : j.id = id) :
    JobChange Ok (.pause id) (some j) (some { j with isPaused := true, updatedAt := env.now })
  | resumed {id env} {j : SchedulerJob} (hOk : Ok env) (hid : j.id = id) :
    JobChange Ok (.resume id) (some j) (some { j with isPaused := false, updatedAt := env.now })
  | deleted {id} {j : SchedulerJob} (hid : j.id = id) : JobChange Ok (.delete id) (some j) none

/-- Every run and every schedule changes by one of the listed changes. -/
structure Transition (Ok : Env → Prop) (c : Call K) (s s' : Store) : Prop where
  runs : ∀ id, Change Ok c (s.view id) (s'.view id)
  jobs : ∀ id, JobChange Ok c (lookup SchedulerJob.id id s.jobs) (lookup SchedulerJob.id id s'.jobs)

theorem Transition.refl (Ok : Env → Prop) (c : Call K) (s : Store) : Transition Ok c s s :=
  ⟨fun _ => .same _ _, fun _ => .same _ _⟩

/-- Commits that are transitions, whatever the transaction has read. -/
abbrev Commits (Ok : Env → Prop) (c : Call K) (_reads : List Store) : Store → Store → Prop :=
  Transition Ok c

variable (K) in
/-- What one round of the materializer may commit: nothing, a paused schedule, or an advanced cursor
with the new run of its occurrence; the run is left out if a store that the transaction has read has
one for the occurrence. -/
inductive Round (Ok : Env → Prop) (reads : List Store) (s : Store) : Store → Prop
  | idle : Round Ok reads s s
  | corrupt {env env' j e} (hOk : Ok env) (hOk' : Ok env')
    (hj : lookup SchedulerJob.id j.id s.jobs = some j) (hdue : j.due env)
    (hcron : CronExpression.parse K j.cronExpression = .error e) :
    Round Ok reads s
      (s.apply { jobs := { update := [{ j with isPaused := true, updatedAt := env'.now }] } })
  | inserted {env env₁ env₂ j job cron} {next : DateTime} (hOk : Ok env) (hOk₁ : Ok env₁)
    (hOk₂ : Ok env₂) (hj : lookup SchedulerJob.id j.id s.jobs = some j) (hdue : j.due env)
    (hread : DueJob.read env j = .ok job)
    (hcron : CronExpression.parse K j.cronExpression = .ok cron)
    (hnext : cron.nextAfter job.dbNow = .ok next) (hid : ∀ b ∈ s.runs, b.id ≠ env₁.runId)
    (hnew : ∀ b ∈ s.runs, b.occurrence ≠ some (j.id, j.nextRunAt)) :
    Round Ok reads s (s.apply {
      jobs := { update := [{ j with nextRunAt := next.val, updatedAt := env₂.now }] }
      runs := { insert := [materializedRun env₁ job] } })
  | kept {env env₂ j job cron} {next : DateTime} (hOk : Ok env) (hOk₂ : Ok env₂)
    (hj : lookup SchedulerJob.id j.id s.jobs = some j) (hdue : j.due env)
    (hread : DueJob.read env j = .ok job)
    (hcron : CronExpression.parse K j.cronExpression = .ok cron)
    (hnext : cron.nextAfter job.dbNow = .ok next)
    (hocc : ∃ C ∈ reads, ∃ b ∈ C.runs, b.occurrence = some (j.id, j.nextRunAt)) :
    Round Ok reads s (s.apply {
      jobs := { update := [{ j with nextRunAt := next.val, updatedAt := env₂.now }] } })

/-- What a commit of an operation does. -/
structure Effect (Ok : Env → Prop) (c : Call K) (reads : List Store) (s s' : Store) : Prop where
  transition : Transition Ok c s s'
  round : c.Materializes → Round K Ok reads s s'

/-- The code's own consistency checks do not fail. -/
def Consistent {α : Type} (a : Except SchedulerError α) : Prop :=
  ∀ detail, a ≠ .error (.invariant detail)

theorem consistent_ok {α : Type} (a : α) : Consistent (Except.ok a) := fun _ h => nomatch h

theorem consistent_database {α : Type} (e : DbError) :
    Consistent (.error (.database e) : Except SchedulerError α) := fun _ h => nomatch h

theorem Consistent.bind {α β : Type} {x : Except SchedulerError α}
    {f : α → Except SchedulerError β} (hx : Consistent x) (hf : ∀ a, Consistent (f a)) :
    Consistent (x >>= f) := by
  rcases x with e | a
  · exact fun detail h => hx detail (congrArg Except.error (Except.error.inj h))
  · exact hf a

theorem Consistent.map {α β : Type} {x : Except SchedulerError α} (f : α → β)
    (hx : Consistent x) : Consistent (x.map f) :=
  hx.bind fun a => consistent_ok (f a)

theorem consistent_mapError {ε α : Type} {f : ε → SchedulerError} {x : Except ε α}
    (h : ∀ e detail, f e ≠ .invariant detail) : Consistent (x.mapError f) := by
  intro detail he
  obtain ⟨e, -, he⟩ := mapError_eq_error.mp he
  exact h e detail he

/-! ## What locks keep -/

section Agree

variable {L : List RowRef} {s s' : Store}

theorem agree_view (h : db.Agree L s s') {id : RunId} (hid : .run id ∈ L) :
    s'.view id = s.view id := by
  have hrow : RowView.run (s.view id) = .run (s'.view id) := h _ hid
  exact (RowView.run.inj hrow).symm

theorem agree_run (h : db.Agree L s s') {id : RunId} (hid : .run id ∈ L) :
    lookup Run.id id s'.runs = lookup Run.id id s.runs :=
  congrArg RunView.run (agree_view h hid)

theorem agree_job (h : db.Agree L s s') {id : JobId} (hid : .job id ∈ L) :
    lookup SchedulerJob.id id s'.jobs = lookup SchedulerJob.id id s.jobs := by
  have hrow : RowView.job (lookup SchedulerJob.id id s.jobs) =
      .job (lookup SchedulerJob.id id s'.jobs) := h _ hid
  exact (RowView.job.inj hrow).symm

theorem agree_token (h : db.Agree L s s') {t : LeaseToken} (ht : .token t ∈ L)
    (hs : ∀ a ∈ s.attempts, a.leaseToken ≠ t) : ∀ a ∈ s'.attempts, a.leaseToken ≠ t := by
  have hrow : RowView.entry _ = .entry _ := h _ ht
  have hs' : (s.attempts.any fun a => decide (a.leaseToken = t)) = false := by
    simpa [List.any_eq_false] using hs
  rw [RowView.entry.inj hrow] at hs'
  simpa [List.any_eq_false] using hs'

theorem agree_occurrence (h : db.Agree L s s') {k : JobId × Timestamp} (hk : .occurrence k ∈ L)
    (hs : ∀ r ∈ s.runs, r.occurrence ≠ some k) : ∀ r ∈ s'.runs, r.occurrence ≠ some k := by
  have hrow : RowView.entry _ = .entry _ := h _ hk
  have hs' : (s.runs.any fun r => decide (r.occurrence = some k)) = false := by
    simpa [List.any_eq_false] using hs
  rw [RowView.entry.inj hrow] at hs'
  simpa [List.any_eq_false] using hs'

theorem agree_deduplication (h : db.Agree L s s') {k : String × String}
    (hk : .deduplication k ∈ L) (hs : ∀ r ∈ s.runs, r.deduplication ≠ some k) :
    ∀ r ∈ s'.runs, r.deduplication ≠ some k := by
  have hrow : RowView.entry _ = .entry _ := h _ hk
  have hs' : (s.runs.any fun r => decide (r.deduplication = some k)) = false := by
    simpa [List.any_eq_false] using hs
  rw [RowView.entry.inj hrow] at hs'
  simpa [List.any_eq_false] using hs'

theorem agree_jobName (h : db.Agree L s s') {n : String} (hn : .jobName n ∈ L)
    (hs : ∀ j ∈ s.jobs, j.name ≠ n) : ∀ j ∈ s'.jobs, j.name ≠ n := by
  have hrow : RowView.entry _ = .entry _ := h _ hn
  have hs' : (s.jobs.any fun j => decide (j.name = n)) = false := by
    simpa [List.any_eq_false] using hs
  rw [RowView.entry.inj hrow] at hs'
  simpa [List.any_eq_false] using hs'

end Agree

/-! ## Locks of a patch -/

section Locked

variable {w : Patch} {s : Store}

theorem mem_locked_run {r : Run} (h : r ∈ w.runs.update) : .run r.id ∈ w.locked s :=
  List.mem_flatten.mpr ⟨w.runs.update.map fun r => .run r.id, by simp,
    List.mem_map.mpr ⟨r, h, rfl⟩⟩

theorem refs_subset_locked_run {r : Run} (h : r ∈ w.runs.insert) : r.refs ⊆ w.locked s :=
  fun _ href => List.mem_flatten.mpr ⟨w.runs.insert.flatMap Run.refs, by simp,
    List.mem_flatMap.mpr ⟨r, h, href⟩⟩

theorem refs_subset_locked_deleted {r : Run} (hr : r ∈ s.runs) (h : r.id ∈ w.runs.delete) :
    r.refs ⊆ w.locked s :=
  fun _ href => List.mem_flatten.mpr
    ⟨(s.runs.filter fun r => r.id ∈ w.runs.delete).flatMap Run.refs, by simp,
      List.mem_flatMap.mpr ⟨r, List.mem_filter.mpr ⟨hr, by simpa using h⟩, href⟩⟩

theorem mem_locked_token {a : Attempt} (h : a ∈ w.insertAttempts) :
    .token a.leaseToken ∈ w.locked s :=
  List.mem_flatten.mpr ⟨w.insertAttempts.flatMap Attempt.refs, by simp,
    List.mem_flatMap.mpr ⟨a, h, by simp [Attempt.refs]⟩⟩

theorem mem_locked_token_deleted {a : Attempt} (ha : a ∈ s.attempts)
    (h : a.runId ∈ w.runs.delete) : .token a.leaseToken ∈ w.locked s :=
  List.mem_flatten.mpr
    ⟨(s.attempts.filter fun a => a.runId ∈ w.runs.delete).flatMap Attempt.refs, by simp,
      List.mem_flatMap.mpr ⟨a, List.mem_filter.mpr ⟨ha, by simpa using h⟩, by simp [Attempt.refs]⟩⟩

theorem mem_locked_job {j : SchedulerJob} (h : j ∈ w.jobs.update) : .job j.id ∈ w.locked s :=
  List.mem_flatten.mpr ⟨w.jobs.update.map fun j => .job j.id, by simp,
    List.mem_map.mpr ⟨j, h, rfl⟩⟩

theorem refs_subset_locked_job {j : SchedulerJob} (h : j ∈ w.jobs.insert) :
    j.refs ⊆ w.locked s :=
  fun _ href => List.mem_flatten.mpr ⟨w.jobs.insert.flatMap SchedulerJob.refs, by simp,
    List.mem_flatMap.mpr ⟨j, h, href⟩⟩

theorem refs_subset_locked_job_deleted {j : SchedulerJob} (hj : j ∈ s.jobs)
    (h : j.id ∈ w.jobs.delete) : j.refs ⊆ w.locked s :=
  fun _ href => List.mem_flatten.mpr
    ⟨(s.jobs.filter fun j => j.id ∈ w.jobs.delete).flatMap SchedulerJob.refs, by simp,
      List.mem_flatMap.mpr ⟨j, List.mem_filter.mpr ⟨hj, by simpa using h⟩, href⟩⟩

end Locked

/-! ## Statements -/

section Query

variable {env : Env} {snap cur : Store} {w : Patch}

theorem mem_acquires_of_locked {β : Type} {q : Query β} {ref : RowRef} (h : ref ∈ w.locked cur) :
    ref ∈ q.acquires db env snap cur w := List.mem_append_left _ h

theorem mem_acquires_of_locks {β : Type} {q : Query β} {ref : RowRef}
    (h : ref ∈ q.locks env snap cur) : ref ∈ q.acquires db env snap cur w :=
  List.mem_append_right _ h

theorem query_error {β : Type} {run : Env → Store → Store → Except DbError (Patch × β)}
    {waits : Env → Store → List RowRef} {e : SchedulerError}
    (h : (query run waits).run env snap cur = .error e) : ∃ d, e = .database d := by
  obtain ⟨d, -, rfl⟩ := mapError_eq_error.mp h
  exact ⟨d, rfl⟩

theorem lockingQuery_error {β : Type} {run : Env → Store → Store → Except DbError (Patch × β)}
    {waits : Env → Store → List RowRef} {locks : Env → Store → Store → List RowRef}
    {e : SchedulerError} (h : (lockingQuery run waits locks).run env snap cur = .error e) :
    ∃ d, e = .database d := by
  obtain ⟨d, -, rfl⟩ := mapError_eq_error.mp h
  exact ⟨d, rfl⟩

theorem readQuery_ok {β : Type} {run : Env → Store → Except DbError β} {b : β}
    (h : (readQuery run).run env snap cur = .ok (w, b)) : w = {} ∧ run env snap = .ok b := by
  have h : (run env snap).map (fun b => (({} : Patch), b)) = .ok (w, b) := mapError_eq_ok.mp h
  rcases hr : run env snap with e | b'
  · rw [hr] at h
    exact nomatch h
  · rw [hr] at h
    obtain ⟨rfl, rfl⟩ := Prod.mk.inj (Except.ok.inj h)
    exact ⟨rfl, rfl⟩

end Query

/-! ## When a program may commit -/

section Commit

variable {Ok : Env → Prop} {c : Call K} {α : Type} {Q : Except SchedulerError α → Prop}
  {T : List Store → Store → Store → Prop} {k : Program α} {rs : List Store} {ws : List Patch}
  {L : List RowRef} {s : Store}

/-- A statement of an open transaction: errors come from the database. -/
theorem good_next {β : Type} {q : Query β} {k : β → Program α}
    (herr : ∀ env snap cur e, q.run env snap cur = .error e → ∃ d, e = .database d)
    (h : ∀ C₁ C₂, Inv C₁ → db.Agree L s C₁ → Inv C₂ → db.Agree L s C₂ → ∀ env, Ok env → ∀ w b,
      q.run env (db.applyAll ws C₁) (db.applyAll ws C₂) = .ok (w, b) →
      (k b).Good db Inv Ok T Consistent (rs ++ [C₂]) (ws ++ [w])
        (L ++ q.acquires db env (db.applyAll ws C₁) (db.applyAll ws C₂) w) C₂) :
    (Prog.stmt q k).Good db Inv Ok T Consistent rs ws L s := by
  intro C₁ C₂ h₁ a₁ h₂ a₂ env hOk
  refine ⟨fun e he => ?_, h C₁ C₂ h₁ a₁ h₂ a₂ env hOk⟩
  obtain ⟨d, rfl⟩ := herr _ _ _ _ he
  exact consistent_database d

/-- The first statement of a transaction. -/
theorem good_first {β : Type} {q : Query β} {k : β → Program α}
    (herr : ∀ env snap cur e, q.run env snap cur = .error e → ∃ d, e = .database d)
    (h : ∀ C₁ C₂, Inv C₁ → Inv C₂ → ∀ env, Ok env → ∀ w b, q.run env C₁ C₂ = .ok (w, b) →
      (k b).Good db Inv Ok T Consistent [C₂] [w] (q.acquires db env C₁ C₂ w) C₂) :
    (Prog.stmt q k).Good db Inv Ok T Consistent [] [] [] s :=
  good_next herr fun C₁ C₂ h₁ _ h₂ _ env hOk w b hw => h C₁ C₂ h₁ h₂ env hOk w b hw

/-- A transaction that has written nothing. -/
theorem good_commit_quiet (hT : ∀ C, T rs C C) (hws : ∀ C, db.applyAll ws C = C)
    (hk : ∀ C, Inv C → k.Good db Inv Ok T Q [] [] [] C) :
    (Prog.commit k).Good db Inv Ok T Q rs ws L s := by
  refine ⟨fun C hC _ => ?_, hk⟩
  rw [hws]
  exact ⟨hT C, hC, fun _ _ => rfl⟩

/-- A transaction whose writes add up to a fitting patch. -/
theorem good_commit_of {w : Patch} (hws : ∀ C, db.applyAll ws C = C.apply w)
    (h : ∀ C, Inv C → db.Agree L s C →
      w.Fits L C ∧ Transition Ok c C (C.apply w) ∧ T rs C (C.apply w))
    (hk : ∀ C, Inv C → k.Good db Inv Ok T Q [] [] [] C) :
    (Prog.commit k).Good db Inv Ok T Q rs ws L s := by
  refine ⟨fun C hC ha => ?_, hk⟩
  obtain ⟨hfits, htrans, hT⟩ := h C hC ha
  rw [hws]
  refine ⟨hT, ⟨hfits.constraints hC.toConstraints, fun id => ?_⟩,
    fun ref href => hfits.frame hC href⟩
  exact (htrans.runs id).coupled (hC.coupled id)

theorem good_commit {w : Patch} (hws : ∀ C, db.applyAll ws C = C.apply w)
    (h : ∀ C, Inv C → db.Agree L s C → w.Fits L C ∧ Transition Ok c C (C.apply w))
    (hk : ∀ C, Inv C → k.Good db Inv Ok (Commits Ok c) Q [] [] [] C) :
    (Prog.commit k).Good db Inv Ok (Commits Ok c) Q rs ws L s :=
  good_commit_of hws (fun C hC ha => ⟨(h C hC ha).1, (h C hC ha).2, (h C hC ha).2⟩) hk

/-- A patch that touches no schedule. -/
theorem Transition.of_runs {w : Patch} (hw : w.jobs = {})
    (h : ∀ id, Change Ok c (s.view id) (w.onView id (s.view id))) :
    Transition Ok c s (s.apply w) := by
  refine ⟨fun id => (Store.view_apply w s id).symm ▸ h id, fun id => ?_⟩
  have hjobs : (s.apply w).jobs = s.jobs := by simp [Store.apply, hw]
  rw [hjobs]
  exact .same _ _

/-- A patch that touches no run. -/
theorem Transition.of_jobs {w : Patch} (hw : w.runs = {}) (hu : w.updateAttempts = [])
    (hi : w.insertAttempts = [])
    (h : ∀ id, JobChange Ok c (lookup SchedulerJob.id id s.jobs)
      (lookup SchedulerJob.id id (w.jobs.apply SchedulerJob.id s.jobs))) :
    Transition Ok c s (s.apply w) := by
  refine ⟨fun id => ?_, h⟩
  have hview : (s.apply w).view id = s.view id := by
    simp [Store.view, Store.apply, hw, hu, hi]
  rw [hview]
  exact .same _ _

end Commit

end PgTaskScheduler
