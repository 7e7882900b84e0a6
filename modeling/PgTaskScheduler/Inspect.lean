import PgTaskScheduler.Database

/-!
# `store::inspect`

The read model: the state of one run, and its attempts in order. Diesel loads every selected row
before the first one is converted.
-/

namespace PgTaskScheduler

open Tables ReadCommitted

/-- Read a nullable `TIMESTAMPTZ` column. -/
def readNullable : Option Timestamp → Except DbError (Option DateTime)
  | none => .ok none
  | some t => (readTimestamp t).map some

/-- `ok_or(SchedulerError::Invariant(detail))` -/
def required {α : Type} (x : Option α) (detail : String) : Except SchedulerError α :=
  x.elim (.error (.invariant detail)) .ok

/-! ## `run_state` -/

structure Lease where
  workerId : String
  leaseToken : LeaseToken
  leaseExpiresAt : DateTime
  startedAt : DateTime
deriving DecidableEq

inductive RunState
  | pending
  | running (lease : Lease)
  | completed (finishedAt : DateTime)
  | failed (finishedAt : DateTime) (error : String)
  | cancelled (finishedAt : DateTime)
deriving DecidableEq

structure StatusRow where
  id : RunId
  jobId : Option JobId
  scheduledFor : DateTime
  attemptCount : ℤ
  workerId : Option String
  leaseToken : Option LeaseToken
  leaseExpiresAt : Option DateTime
  startedAt : Option DateTime
  state : StoredRunState
  finishedAt : Option DateTime
  lastError : Option String

def StatusRow.read (r : Run) : Except DbError StatusRow := do
  let scheduledFor ← readTimestamp r.scheduledFor
  let leaseExpiresAt ← readNullable r.leaseExpiresAt
  let startedAt ← readNullable r.startedAt
  let finishedAt ← readNullable r.finishedAt
  pure ⟨r.id, r.jobId, scheduledFor, r.attemptCount, r.workerId, r.leaseToken, leaseExpiresAt,
    startedAt, r.state, finishedAt, r.lastError⟩

def stateOf (row : StatusRow) : Except SchedulerError RunState :=
  match row.state with
  | .pending => .ok .pending
  | .running => do
    let workerId ← required row.workerId "running task without worker"
    let leaseToken ← required row.leaseToken "running task without token"
    let leaseExpiresAt ← required row.leaseExpiresAt "running task without expiry"
    let startedAt ← required row.startedAt "running task without start"
    pure (.running ⟨workerId, leaseToken, leaseExpiresAt, startedAt⟩)
  | .completed => do
    let finishedAt ← required row.finishedAt "completed task without finish"
    pure (.completed finishedAt)
  | .failed => do
    let finishedAt ← required row.finishedAt "failed task without finish"
    let error ← required row.lastError "failed task without error"
    pure (.failed finishedAt error)
  | .cancelled => do
    let finishedAt ← required row.finishedAt "cancelled task without finish"
    pure (.cancelled finishedAt)

/-- `SELECT … FROM scheduler_runs WHERE id = $1` -/
def selectStatus (id : RunId) : Query (List StatusRow) :=
  readQuery fun _ snap => mapRows StatusRow.read (snap.runs.filter fun r => r.id = id)

/-- `rows.pop().map(state_of).transpose()` -/
def lastState (rows : List StatusRow) : Except SchedulerError (Option RunState) :=
  rows.getLast?.elim (.ok none) fun row => (stateOf row).map some

def runState (id : RunId) : Program (Option RunState) :=
  .stmt (selectStatus id) fun rows => .commit (.ret (lastState rows))

/-! ## `task_attempts` -/

inductive AttemptState
  | running
  | completed
  | failed (error : Option String)
  | expired (error : Option String)
  | cancelled
deriving DecidableEq, Repr

structure TaskAttempt where
  attempt : ℕ
  workerId : String
  startedAt : DateTime
  leaseExpiresAt : DateTime
  finishedAt : Option DateTime
  state : AttemptState
deriving DecidableEq

structure AttemptRow where
  attemptNumber : ℤ
  workerId : String
  startedAt : DateTime
  leaseExpiresAt : DateTime
  finishedAt : Option DateTime
  outcome : Option StoredAttemptOutcome
  error : Option String

def AttemptRow.read (a : Attempt) : Except DbError AttemptRow := do
  let startedAt ← readTimestamp a.startedAt
  let leaseExpiresAt ← readTimestamp a.leaseExpiresAt
  let finishedAt ← readNullable a.finishedAt
  pure ⟨a.attemptNumber, a.workerId, startedAt, leaseExpiresAt, finishedAt, a.outcome, a.error⟩

/-- The state that an outcome and an error are shown as. -/
def AttemptState.shown (outcome : Option StoredAttemptOutcome) (error : Option String) :
    AttemptState :=
  match outcome with
  | none => .running
  | some .completed => .completed
  | some .failed => .failed error
  | some .expired => .expired error
  | some .cancelled => .cancelled

def AttemptRow.toTaskAttempt (row : AttemptRow) : Except SchedulerError TaskAttempt :=
  if 0 < row.attemptNumber then
    .ok ⟨row.attemptNumber.toNat, row.workerId, row.startedAt, row.leaseExpiresAt, row.finishedAt,
      .shown row.outcome row.error⟩
  else .error (.invariant "attempt history contains a non-positive number")

/-- `ORDER BY attempt_number` -/
def Attempt.historyOrder (a b : Attempt) : Prop := a.attemptNumber ≤ b.attemptNumber

instance : DecidableRel Attempt.historyOrder := fun a b =>
  inferInstanceAs (Decidable (a.attemptNumber ≤ b.attemptNumber))

/-- `SELECT … FROM scheduler_run_attempts WHERE run_id = $1 ORDER BY attempt_number` -/
def selectAttempts (id : RunId) : Query (List AttemptRow) :=
  readQuery fun _ snap => mapRows AttemptRow.read
    ((snap.attempts.filter fun a => a.runId = id).insertionSort Attempt.historyOrder)

def taskAttempts (id : RunId) : Program (List TaskAttempt) :=
  .stmt (selectAttempts id) fun rows => .commit (.ret (mapRows AttemptRow.toTaskAttempt rows))

end PgTaskScheduler
