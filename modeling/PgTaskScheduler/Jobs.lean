import PgTaskScheduler.Materialize

/-!
# `jobs`

Creation, idempotent registration, rescheduling, pausing and deletion of schedules. Every cursor is
computed from `now()` of the transaction.
-/

namespace PgTaskScheduler

open Tables ReadCommitted

variable (K : Croner)

/-! ## Definitions and projections -/

structure CreateJob where
  name : JobName
  cron : CronExpression K
  args : Json
  leaseDuration : LeaseDuration
  maxAttempts : MaxAttempts
  lifecycle : JobLifecycle
  retryBackoff : RetryBackoff

variable {K}

/-- `args` is what `serde_json::to_value` makes of the arguments. -/
def CreateJob.new (name : JobName) (cron : CronExpression K) (leaseDuration : LeaseDuration)
    (maxAttempts : MaxAttempts) (lifecycle : JobLifecycle) (args : Except String Json) :
    Except SchedulerError (CreateJob K) :=
  (args.mapError .serde).map fun args =>
    ⟨name, cron, args, leaseDuration, maxAttempts, lifecycle, .default⟩

/-- The columns of an INSERT. -/
structure NewJob where
  name : String
  cronExpression : String
  jobArgs : Json
  nextRunAt : DateTime
  leaseDuration : LeaseInterval
  maxAttempts : ℤ
  isPaused : Bool
  retryBackoff : BackoffInterval

def newJob (spec : CreateJob K) (dbNow : DateTime) : Except SchedulerError NewJob :=
  (spec.cron.nextAfter dbNow).map fun next =>
    { name := spec.name.value
      cronExpression := spec.cron.source
      jobArgs := spec.args
      nextRunAt := next
      leaseDuration := spec.leaseDuration.toInterval
      maxAttempts := spec.maxAttempts.value
      isPaused := spec.lifecycle.isPaused
      retryBackoff := spec.retryBackoff.toInterval }

/-- A row as Diesel loads it. -/
structure LoadedJob where
  row : SchedulerJob
  nextRunAt : DateTime
  createdAt : DateTime
  updatedAt : DateTime

def LoadedJob.read (j : SchedulerJob) : Except DbError LoadedJob := do
  let nextRunAt ← readTimestamp j.nextRunAt
  let createdAt ← readTimestamp j.createdAt
  let updatedAt ← readTimestamp j.updatedAt
  pure ⟨j, nextRunAt, createdAt, updatedAt⟩

variable (K)

structure Job where
  id : JobId
  name : String
  cron : CronExpression K
  leaseDuration : LeaseDuration
  maxAttempts : MaxAttempts
  retryBackoff : RetryBackoff
  lifecycle : JobLifecycle
  nextRunAt : DateTime
  createdAt : DateTime
  updatedAt : DateTime

/-- `Job::try_from` -/
def Job.tryFrom (j : LoadedJob) : Except SchedulerError (Job K) := do
  let cron ← CronExpression.parseStored K j.row.id j.row.cronExpression
  let leaseDuration ← (LeaseDuration.fromPgInterval j.row.leaseDuration.val).mapError
    fun e => .corruptJob j.row.id (.leaseDuration e)
  let maxAttempts ← (MaxAttempts.fromDbI32 j.row.maxAttempts).mapError
    fun e => .corruptJob j.row.id (.maxAttempts e)
  let retryBackoff ← (RetryBackoff.fromPgInterval j.row.retryBackoff.val).mapError
    fun e => .corruptJob j.row.id (.leaseDuration e)
  pure ⟨j.row.id, j.row.name, cron, leaseDuration, maxAttempts, retryBackoff,
    .fromPaused j.row.isPaused, j.nextRunAt, j.createdAt, j.updatedAt⟩

/-! ## The statements -/

/-- `SELECT now() AS now` -/
def fetchDbNow : Query DateTime := readQuery fun env _ => readTimestamp env.now

def NewJob.toRow (env : Env) (row : NewJob) : SchedulerJob where
  id := env.jobId
  name := row.name
  cronExpression := row.cronExpression
  jobArgs := row.jobArgs
  nextRunAt := row.nextRunAt.val
  leaseDuration := row.leaseDuration
  maxAttempts := row.maxAttempts
  isPaused := row.isPaused
  createdAt := env.now
  updatedAt := env.now
  retryBackoff := row.retryBackoff

def NewJob.bind (row : NewJob) : Except DbError Unit := do
  bindText row.name
  bindText row.cronExpression
  bindJson row.jobArgs
  bindTimestamp row.nextRunAt

/-- The primary key of a row to insert is new. -/
def checkJobId (j : SchedulerJob) (jobs : List SchedulerJob) : Except DbError Unit := firstViolation
  [(decide (∀ b ∈ jobs, b.id ≠ j.id), .uniqueViolation "scheduler_jobs_pkey")]

/-- The INSERT of `create`. -/
def insertJob (row : NewJob) : Query LoadedJob :=
  query (fun env _ cur => do
      row.bind
      let j := row.toRow env
      j.check
      checkJobId j cur.jobs
      firstViolation
        [(decide (∀ b ∈ cur.jobs, b.name ≠ j.name), .uniqueViolation "scheduler_jobs_name_key")]
      let loaded ← LoadedJob.read j
      pure ({ jobs := { insert := [j] } }, loaded))
    fun _ _ => []

/-- The DO UPDATE of `ensure_job`: cursor and lifecycle are not in the SET list. -/
def SchedulerJob.reconcile (row : NewJob) (dbNow : DateTime) (j : SchedulerJob) : SchedulerJob :=
  { j with
    cronExpression := row.cronExpression
    jobArgs := row.jobArgs
    leaseDuration := row.leaseDuration
    maxAttempts := row.maxAttempts
    retryBackoff := row.retryBackoff
    updatedAt := dbNow.val }

/-- The upsert of `ensure_job`. -/
def upsertJob (row : NewJob) (dbNow : DateTime) : Query LoadedJob :=
  query (fun env _ cur => do
      row.bind
      bindTimestamp dbNow
      let j := row.toRow env
      j.check
      match cur.jobs.find? fun b => b.name = j.name with
      | some b => do
        let b' := b.reconcile row dbNow
        b'.check
        let loaded ← LoadedJob.read b'
        pure ({ jobs := { update := [b'] } }, loaded)
      | none => do
        checkJobId j cur.jobs
        let loaded ← LoadedJob.read j
        pure ({ jobs := { insert := [j] } }, loaded))
    fun _ _ => []

/-- `SELECT cron_expression … FOR UPDATE` by id. -/
def lockCron (id : JobId) : Query (Option String) :=
  lockingQuery (fun _ snap cur => .ok ({},
      if (lookup SchedulerJob.id id snap.jobs).isSome
      then (lookup SchedulerJob.id id cur.jobs).map SchedulerJob.cronExpression else none))
    (fun _ snap => ((lookup SchedulerJob.id id snap.jobs).map fun j => .job j.id).toList)
    fun _ snap cur =>
      if (lookup SchedulerJob.id id snap.jobs).isSome
      then ((lookup SchedulerJob.id id cur.jobs).map fun j => .job j.id).toList else []

/-- The UPDATE of `reschedule`. -/
def setCursor (id : JobId) (next dbNow : DateTime) : Query (List SchedulerJob) :=
  updateJob id (do bindTimestamp next; bindTimestamp dbNow) fun _ j =>
    { j with nextRunAt := next.val, updatedAt := dbNow.val }

/-- The DELETE of `delete`. -/
def deleteJob (id : JobId) : Query ℕ :=
  query (fun _ snap cur =>
      let rows := targets SchedulerJob.id (fun j => j.id = id) snap.jobs cur.jobs
      .ok ({ jobs := { delete := rows.map SchedulerJob.id } }, rows.length))
    fun _ snap => (snap.jobs.filter fun j => j.id = id).map fun j => .job j.id

/-! ## The operations -/

def createJob (spec : CreateJob K) : Program (Job K) :=
  .stmt fetchDbNow fun dbNow =>
    match newJob spec dbNow with
    | .error e => .ret (.error e)
    | .ok row => .stmt (insertJob row) fun loaded => .commit (.ret (Job.tryFrom K loaded))

def ensureJob (spec : CreateJob K) : Program (Job K) :=
  .stmt fetchDbNow fun dbNow =>
    match newJob spec dbNow with
    | .error e => .ret (.error e)
    | .ok row => .stmt (upsertJob row dbNow) fun loaded => .commit (.ret (Job.tryFrom K loaded))

inductive ScheduleUpdate
  | resetFromNow
  | setNextRunAt (t : DateTime)

/-- The UPDATE of `reschedule` and what follows; the answer is loaded before the commit. -/
def moveCursor (id : JobId) (next dbNow : DateTime) : Program (Option (Job K)) :=
  .stmt (setCursor id next dbNow) fun rows =>
    match mapRows LoadedJob.read rows with
    | .error e => .ret (.error (.database e))
    | .ok [] => .commit (.ret (.ok none))
    | .ok (loaded :: _) => .commit (.ret ((Job.tryFrom K loaded).map some))

def reschedule (id : JobId) (update : ScheduleUpdate) : Program (Option (Job K)) :=
  .stmt fetchDbNow fun dbNow =>
    match update with
    | .setNextRunAt t => moveCursor K id t dbNow
    | .resetFromNow => .stmt (lockCron id) fun
      | none => .commit (.ret (.ok none))
      | some source =>
        match CronExpression.parseStored K id source with
        | .error e => .ret (.error e)
        | .ok cron =>
          match cron.nextAfter dbNow with
          | .error e => .ret (.error e)
          | .ok next => moveCursor K id next dbNow

def appliedFromAffected (affected : ℕ) : Applied := if 0 < affected then .changed else .notFound

def setPaused (id : JobId) (paused : Bool) : Program Applied :=
  .stmt (updatePaused id paused) fun rows =>
    .commit (.ret (.ok (appliedFromAffected rows.length)))

def pause (id : JobId) : Program Applied := setPaused id true

def resume (id : JobId) : Program Applied := setPaused id false

def delete (id : JobId) : Program Applied :=
  .stmt (deleteJob id) fun count => .commit (.ret (.ok (appliedFromAffected count)))

end PgTaskScheduler
