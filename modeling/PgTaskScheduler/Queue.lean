import PgTaskScheduler.Reap

/-!
# `queue`

Enqueueing a task, cancelling one, and deleting terminal history.
-/

namespace PgTaskScheduler

open Tables ReadCommitted

/-! ## `enqueue` -/

/-- `Priority`, an `i16`. -/
abbrev Priority := { p : ℤ // InI16 p }

inductive Availability
  | immediate
  | at (t : DateTime)

inductive Deduplication
  | none
  | key (k : DeduplicationKey)

structure EnqueueOptions where
  availability : Availability := .immediate
  priority : Priority := ⟨0, by decide⟩
  leaseDuration : LeaseDuration := .default
  maxAttempts : MaxAttempts := .default
  retryBackoff : RetryBackoff := .default
  deduplication : Deduplication := .none

def Availability.instant : Availability → Option DateTime
  | .immediate => none
  | .at t => some t

def Deduplication.text : Deduplication → Option String
  | .none => .none
  | .key k => .some k.value

/-- The row that `ENQUEUE` proposes for insertion. -/
def enqueuedRun (env : Env) (name : JobName) (args : Json) (options : EnqueueOptions) : Run where
  id := env.runId
  jobId := none
  scheduledFor := options.availability.instant.elim env.now Subtype.val
  attemptCount := 0
  createdAt := env.now
  updatedAt := env.now
  jobName := name.value
  jobArgs := args
  availableAt := options.availability.instant.elim env.now Subtype.val
  priority := options.priority.val
  state := .pending
  maxAttempts := options.maxAttempts.value
  leaseDuration := options.leaseDuration.toInterval
  retryBackoff := options.retryBackoff.toInterval
  workerId := none
  leaseToken := none
  leaseExpiresAt := none
  startedAt := none
  finishedAt := none
  lastError := none
  deduplicationKey := options.deduplication.text

/-- The row that already holds the index entry `key r`. -/
def conflicting {ι : Type} [DecidableEq ι] (key : Run → Option ι) (r : Run) (runs : List Run) :
    Option Run :=
  (key r).bind fun k => runs.find? fun b => key b = some k

/-- The primary key of a row to insert is new. -/
def checkRunId (r : Run) (runs : List Run) : Except DbError Unit := firstViolation
  [(decide (∀ b ∈ runs, b.id ≠ r.id), .uniqueViolation "scheduler_runs_pkey")]

/-- `ENQUEUE`: on a conflict the existing row gets the key it has. -/
def enqueueQuery (name : JobName) (args : Json) (options : EnqueueOptions) : Query RunId :=
  query (fun env _ cur => do
      bindText name.value
      bindJson args
      checkAll bindTimestamp options.availability.instant.toList
      checkAll bindText options.deduplication.text.toList
      let r := enqueuedRun env name args options
      r.check
      match conflicting Run.deduplication r cur.runs with
      | some b => do
        let kept : Run := { b with deduplicationKey := r.deduplicationKey }
        pure ({ runs := { update := [kept] } }, kept.id)
      | none => do
        checkRunId r cur.runs
        pure ({ runs := { insert := [r] } }, r.id))
    fun _ _ => []

/-- `SELECT pg_notify('pg_task_scheduler', '')` -/
def notify : Query Unit := readQuery fun _ _ => .ok ()

/-- `args` is what `serde_json::to_value` makes of the arguments. -/
def enqueue (taskName : String) (args : Except String Json) (options : EnqueueOptions) :
    Program RunId :=
  match JobName.tryFrom taskName, args with
  | .error e, _ => .ret (.error (.identifier e))
  | .ok _, .error e => .ret (.error (.serde e))
  | .ok name, .ok args => .stmt (enqueueQuery name args options) fun id =>
      .commit (.stmt notify fun _ => .commit (.ret (.ok id)))

/-! ## `cancel` -/

/-- The row of `target`: found in the snapshot, answered in its newest version. -/
def cancelTarget (id : RunId) (snap cur : Store) : Option Run :=
  if (lookup Run.id id snap.runs).isSome then lookup Run.id id cur.runs else none

/-- The SET list of `CANCEL`. -/
def Run.cancel (env : Env) (r : Run) : Run :=
  { r.release with
    state := .cancelled
    finishedAt := some (env.clock .finishedAt r.id)
    lastError := none
    updatedAt := env.clock .updatedAt r.id }

/-- The open attempts of a running target, as the snapshot shows them. -/
def cancelAttempts (t : Run) (snap cur : Store) : List Attempt :=
  targets Attempt.key
    (fun a => decide (t.state = .running ∧ t.leaseToken = some a.leaseToken) && a.isOpen)
    snap.attempts cur.attempts

/-- `t.state = 'pending' OR EXISTS (SELECT 1 FROM attempt WHERE attempt.run_id = r.id)`, for the
states that can be cancelled. -/
def Run.cancellable (attempts : List Attempt) (t : Run) : Bool :=
  decide (t.state = .pending) ||
    decide (t.state = .running) && attempts.any fun a => a.runId = t.id

/-- `CANCEL` -/
def cancelQuery (id : RunId) : Query (List RunId) :=
  lockingQuery (fun env snap cur =>
      match cancelTarget id snap cur with
      | none => .ok ({}, [])
      | some t => do
        let attempts := (cancelAttempts t snap cur).map (Attempt.close env .cancelled none)
        let changed := if t.cancellable attempts then [t.cancel env] else []
        checkAll Attempt.check attempts
        checkAll Run.check changed
        pure ({ runs := { update := changed }, updateAttempts := attempts }, changed.map Run.id))
    (fun _ snap => ((lookup Run.id id snap.runs).map fun r => .run r.id).toList)
    fun _ snap cur => ((cancelTarget id snap cur).map fun r => .run r.id).toList

/-- `SELECT EXISTS (SELECT 1 FROM scheduler_runs WHERE id = $1)` -/
def taskExists (id : RunId) : Query Bool :=
  readQuery fun _ snap => .ok (lookup Run.id id snap.runs).isSome

def cancel (id : RunId) : Program CancelOutcome :=
  .stmt (cancelQuery id) fun changed => .commit <|
    if changed ≠ [] then .ret (.ok .cancelled)
    else .stmt (taskExists id) fun found =>
      .commit (.ret (.ok (if found then .alreadyTerminal else .notFound)))

/-! ## `prune_terminal` -/

/-- `state IN ('completed', 'failed', 'cancelled') AND finished_at < $1` -/
def Run.doomed (before : DateTime) (r : Run) : Bool :=
  decide r.state.Terminal && r.finishedAt.any fun t => t < before.val

/-- `ORDER BY finished_at, id` -/
def Run.retentionOrder (a b : Run) : Prop :=
  nullsLast a.finishedAt < nullsLast b.finishedAt ∨
    nullsLast a.finishedAt = nullsLast b.finishedAt ∧ a.id.uuid ≤ b.id.uuid

instance : DecidableRel Run.retentionOrder := fun a b => by
  unfold Run.retentionOrder; infer_instance

def pruneCandidates (env : Env) (before : DateTime) (limit : ℕ) (snap cur : Store) : List Run :=
  selectForUpdate Run.id (·.doomed before) Run.retentionOrder env.skipRun limit snap.runs cur.runs

/-- `PRUNE`, answering the number of deleted runs. -/
def pruneQuery (before : DateTime) (limit : ℕ) : Query ℕ :=
  query (fun env snap cur => do
      bindTimestamp before
      let doomed := pruneCandidates env before limit snap cur
      pure ({ runs := { delete := doomed.map Run.id } }, doomed.length))
    fun _ _ => []

def pruneTerminal (before : DateTime) (limit : NonZeroUsize) : Program ℕ :=
  if i64Max < limit.value then .ret (.error (.config "retention batch is too large"))
  else .stmt (pruneQuery before limit.value) fun count => .commit (.ret (.ok count))

end PgTaskScheduler
