import PgTaskScheduler.Cron
import PgTaskScheduler.Queue

/-!
# `store::materialize`

One transaction takes the due schedule with the earliest cursor. A schedule whose cron parses gets
a run for its cursor and a new cursor after `now()`; one whose cron does not parse is paused. The
caller repeats the transaction until no schedule is due, at most 100 times; an error ends the loop.
-/

namespace PgTaskScheduler

open Tables ReadCommitted

/-! ## The statements -/

/-- `next_run_at <= now() AND is_paused = false` -/
def SchedulerJob.due (env : Env) (j : SchedulerJob) : Bool :=
  decide (j.nextRunAt ≤ env.now) && !j.isPaused

/-- `ORDER BY next_run_at ASC`, ties in the order of the scan. -/
def SchedulerJob.dueOrder (env : Env) (a b : SchedulerJob) : Prop :=
  a.nextRunAt < b.nextRunAt ∨ a.nextRunAt = b.nextRunAt ∧ env.rank a.id ≤ env.rank b.id

instance (env : Env) : DecidableRel (SchedulerJob.dueOrder env) := fun a b => by
  unfold SchedulerJob.dueOrder; infer_instance

/-- The row that `SELECT_DUE` answers. -/
structure DueJob where
  id : JobId
  nextRunAt : DateTime
  cronExpression : String
  dbNow : DateTime
  name : String
  jobArgs : Json
  maxAttempts : ℤ
  leaseDuration : LeaseInterval
  retryBackoff : BackoffInterval

def DueJob.read (env : Env) (j : SchedulerJob) : Except DbError DueJob := do
  let nextRunAt ← readTimestamp j.nextRunAt
  let dbNow ← readTimestamp env.now
  pure ⟨j.id, nextRunAt, j.cronExpression, dbNow, j.name, j.jobArgs, j.maxAttempts,
    j.leaseDuration, j.retryBackoff⟩

def dueCandidates (env : Env) (snap cur : Store) : List SchedulerJob :=
  selectForUpdate SchedulerJob.id (·.due env) (SchedulerJob.dueOrder env) env.skipJob 1
    snap.jobs cur.jobs

/-- `SELECT_DUE` -/
def selectDue : Query (Option DueJob) :=
  lockingQuery (fun env snap cur =>
      match dueCandidates env snap cur with
      | [] => .ok ({}, none)
      | j :: _ => (DueJob.read env j).map fun job => ({}, some job))
    (fun _ _ => [])
    fun env snap cur => (dueCandidates env snap cur).map fun j => .job j.id

/-- The row that `INSERT_RUN` proposes. -/
def materializedRun (env : Env) (job : DueJob) : Run where
  id := env.runId
  jobId := some job.id
  scheduledFor := job.nextRunAt.val
  attemptCount := 0
  createdAt := env.now
  updatedAt := env.now
  jobName := job.name
  jobArgs := job.jobArgs
  availableAt := job.nextRunAt.val
  priority := 0
  state := .pending
  maxAttempts := job.maxAttempts
  leaseDuration := job.leaseDuration
  retryBackoff := job.retryBackoff
  workerId := none
  leaseToken := none
  leaseExpiresAt := none
  startedAt := none
  finishedAt := none
  lastError := none
  deduplicationKey := none

/-- `INSERT_RUN`: nothing is inserted when the occurrence already has a run. -/
def insertRun (job : DueJob) : Query Unit :=
  query (fun env _ cur => do
      bindText job.name
      bindJson job.jobArgs
      bindTimestamp job.nextRunAt
      let r := materializedRun env job
      r.check
      match conflicting Run.occurrence r cur.runs with
      | some _ => pure ({}, ())
      | none => do
        checkRunId r cur.runs
        pure ({ runs := { insert := [r] } }, ()))
    fun _ _ => []

/-- An `UPDATE` of `scheduler_jobs` by id, answering the new rows. -/
def updateJob (id : JobId) (bind : Except DbError Unit) (set : Env → SchedulerJob → SchedulerJob) :
    Query (List SchedulerJob) :=
  query (fun env snap cur => do
      bind
      let rows := (targets SchedulerJob.id (fun j => j.id = id) snap.jobs cur.jobs).map (set env)
      checkAll SchedulerJob.check rows
      pure ({ jobs := { update := rows } }, rows))
    fun _ snap => (snap.jobs.filter fun j => j.id = id).map fun j => .job j.id

/-- `ADVANCE` -/
def advance (next : DateTime) (id : JobId) : Query (List SchedulerJob) :=
  updateJob id (bindTimestamp next) fun env j =>
    { j with nextRunAt := next.val, updatedAt := env.now }

/-- `PAUSE`, and the statement of `set_paused`. -/
def updatePaused (id : JobId) (paused : Bool) : Query (List SchedulerJob) :=
  updateJob id (.ok ()) fun env j => { j with isPaused := paused, updatedAt := env.now }

/-! ## The transaction and the loop -/

inductive Tick
  | processed
  | idle
deriving DecidableEq, Repr

variable (K : Croner)

/-- `materialize_one`, followed by `k` when its transaction has committed. -/
def materializeOneThen {α : Type} (k : Tick → Program α) : Program α :=
  .stmt selectDue fun
    | none => .commit (k .idle)
    | some job =>
      match CronExpression.parse K job.cronExpression with
      | .ok cron =>
        match cron.nextAfter job.dbNow with
        | .ok next => .stmt (insertRun job) fun _ => .stmt (advance next job.id) fun _ =>
            .commit (k .processed)
        | .error e => .ret (.error e)
      | .error _ => .stmt (updatePaused job.id true) fun _ => .commit (k .processed)

def materializeOne : Program Tick := materializeOneThen K fun tick => .ret (.ok tick)

/-- `while count < 100`, with the number of rounds that are left. -/
def materializeLoop : ℕ → ℕ → Program ℕ
  | 0, count => .ret (.ok count)
  | left + 1, count => materializeOneThen K fun
    | .idle => .ret (.ok count)
    | .processed => materializeLoop left (count + 1)

def materializeDueJobs : Program ℕ := materializeLoop K 100 0

end PgTaskScheduler
