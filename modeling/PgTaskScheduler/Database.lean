import PgTaskScheduler.Schema

/-!
# Statements on the store

A row lock is taken on a run, a job or an attempt; a unique index entry is locked by the session
that inserts or deletes a row under it, and a second inserter of the entry waits. A lock on a run
is meant to protect its attempts too: that is the discipline of the code, not of PostgreSQL, which
locks an attempt row only for the statement that writes it.
-/

namespace PgTaskScheduler

open Tables ReadCommitted

/-! ## Row locks -/

/-- A row or a unique index entry. -/
inductive RowRef
  | job (id : JobId)
  | jobName (name : String)
  | run (id : RunId)
  | occurrence (k : JobId × Timestamp)
  | deduplication (k : String × String)
  | attempt (k : RunId × ℤ)
  | token (t : LeaseToken)
deriving DecidableEq

/-- What the holder of a lock may rely on. -/
inductive RowView
  | job (j : Option SchedulerJob)
  | run (v : RunView)
  | entry (present : Bool)
  | unprotected
deriving DecidableEq

def Store.rowView (s : Store) : RowRef → RowView
  | .job id => .job (lookup SchedulerJob.id id s.jobs)
  | .jobName n => .entry (s.jobs.any fun j => j.name = n)
  | .run id => .run (s.view id)
  | .occurrence k => .entry (s.runs.any fun r => r.occurrence = some k)
  | .deduplication k => .entry (s.runs.any fun r => r.deduplication = some k)
  | .attempt _ => .unprotected
  | .token t => .entry (s.attempts.any fun a => a.leaseToken = t)

/-- The row of a job and its index entry. -/
def SchedulerJob.refs (j : SchedulerJob) : List RowRef := [.job j.id, .jobName j.name]

/-- The row of a run and its index entries. -/
def Run.refs (r : Run) : List RowRef :=
  .run r.id :: ((r.occurrence.map RowRef.occurrence).toList ++
    (r.deduplication.map RowRef.deduplication).toList)

/-- The row of an attempt and its index entries. -/
def Attempt.refs (a : Attempt) : List RowRef := [.attempt a.key, .token a.leaseToken]

/-- The locks that a patch takes on the store it is made for. -/
def Patch.locked (s : Store) (w : Patch) : List RowRef := List.flatten [
  w.jobs.update.map fun j => .job j.id,
  w.jobs.insert.flatMap SchedulerJob.refs,
  (s.jobs.filter fun j => j.id ∈ w.jobs.delete).flatMap SchedulerJob.refs,
  w.runs.update.map fun r => .run r.id,
  w.runs.insert.flatMap Run.refs,
  (s.runs.filter fun r => r.id ∈ w.runs.delete).flatMap Run.refs,
  w.updateAttempts.map fun a => .attempt a.key,
  w.insertAttempts.flatMap Attempt.refs,
  (s.attempts.filter fun a => a.runId ∈ w.runs.delete).flatMap Attempt.refs]

def db : Storage Store Patch RowRef RowView where
  apply := Store.apply
  locked := Patch.locked
  view r s := s.rowView r

@[simp] theorem db_apply (w : Patch) (s : Store) : db.apply w s = s.apply w := rfl

@[simp] theorem db_locked (w : Patch) (s : Store) : db.locked s w = w.locked s := rfl

@[simp] theorem db_view (r : RowRef) (s : Store) : db.view r s = s.rowView r := rfl

/-! ## Readings -/

/-- Where a statement reads `clock_timestamp()`. -/
inductive ClockSite
  | predicate
  | startedAt
  | leaseExpiresAt
  | availableAt
  | finishedAt
  | updatedAt
  /-- `finished_at` of an attempt -/
  | attempt
deriving DecidableEq, Repr

/-- What a transaction reads from outside the tables. `clock_timestamp()` is read anew for every row
and column, in an order the statement does not fix. -/
structure Env where
  /-- `now()`, the start of the transaction -/
  now : Timestamp
  clock : ClockSite → RunId → Timestamp
  /-- `gen_random_uuid()` for `lease_token` -/
  token : RunId → LeaseToken
  /-- `gen_random_uuid()` for a new run -/
  runId : RunId
  /-- `gen_random_uuid()` for a new job -/
  jobId : JobId
  /-- rows that `SKIP LOCKED` passes over -/
  skipRun : RunId → Bool
  skipJob : JobId → Bool
  /-- the order in which jobs with equal `next_run_at` are found -/
  rank : JobId → ℕ

/-! ## What several statements do to a row -/

/-- `attempt_count < max_attempts` -/
abbrev Run.attemptsLeft (r : Run) : Prop := r.attemptCount < r.maxAttempts

/-- `worker_id`, `lease_token`, `lease_expires_at` and `started_at` become NULL. -/
def Run.release (r : Run) : Run :=
  { r with workerId := none, leaseToken := none, leaseExpiresAt := none, startedAt := none }

/-- `lease_token = $1 AND outcome IS NULL` -/
def Attempt.openWith (token : LeaseToken) (a : Attempt) : Bool :=
  decide (a.leaseToken = token) && a.isOpen

/-- Close an attempt. -/
def Attempt.close (env : Env) (outcome : StoredAttemptOutcome) (error : Option String)
    (a : Attempt) : Attempt :=
  { a with
    finishedAt := some (env.clock .attempt a.runId)
    outcome := some outcome
    error := error }

/-! ## Statements and programs -/

abbrev Query (β : Type) := Stmt Store Patch RowRef Env SchedulerError β

abbrev Program (α : Type) := Prog Store Patch RowRef Env SchedulerError α

/-- A statement that takes no lock beyond those of the rows it writes. -/
def query {β : Type} (run : Env → Store → Store → Except DbError (Patch × β))
    (waits : Env → Store → List RowRef) : Query β where
  run env snap cur := (run env snap cur).mapError .database
  waits := waits
  locks _ _ _ := []

/-- A statement that selects rows `FOR UPDATE`, whether or not it writes them. -/
def lockingQuery {β : Type} (run : Env → Store → Store → Except DbError (Patch × β))
    (waits : Env → Store → List RowRef) (locks : Env → Store → Store → List RowRef) :
    Query β where
  run env snap cur := (run env snap cur).mapError .database
  waits := waits
  locks := locks

/-- A statement that only reads its snapshot. -/
def readQuery {β : Type} (run : Env → Store → Except DbError β) : Query β :=
  query (fun env snap _ => (run env snap).map fun b => ({}, b)) fun _ _ => []

theorem mapError_eq_ok {ε ε' α : Type} {f : ε → ε'} {x : Except ε α} {a : α} :
    x.mapError f = .ok a ↔ x = .ok a := by
  cases x <;> simp [Except.mapError]

theorem mapError_eq_error {ε ε' α : Type} {f : ε → ε'} {x : Except ε α} {e : ε'} :
    x.mapError f = .error e ↔ ∃ e', x = .error e' ∧ f e' = e := by
  cases x <;> simp [Except.mapError]

end PgTaskScheduler
