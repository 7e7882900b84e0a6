import PgTaskScheduler.Database

/-!
# `store::claim`

`CLAIM_BATCH` locks the first pending tasks in claim order, moves them to `running` and records one
open attempt for each, in one statement. The answer is decoded after the statement has committed.
-/

namespace PgTaskScheduler

open Tables ReadCommitted

/-! ## Candidates -/

/-- `state = 'pending' AND available_at <= now() AND job_name = ANY($1)` -/
def Run.claimable (env : Env) (names : List String) (r : Run) : Bool :=
  decide (r.state = .pending ∧ r.availableAt ≤ env.now ∧ r.jobName ∈ names)

/-- `ORDER BY priority DESC, available_at ASC, id ASC` -/
def Run.claimOrder (a b : Run) : Prop :=
  b.priority < a.priority ∨ b.priority = a.priority ∧
    (a.availableAt < b.availableAt ∨ a.availableAt = b.availableAt ∧ a.id.uuid ≤ b.id.uuid)

instance : DecidableRel Run.claimOrder := fun a b => by unfold Run.claimOrder; infer_instance

def claimCandidates (env : Env) (names : List String) (limit : ℕ) (snap cur : Store) : List Run :=
  selectForUpdate Run.id (·.claimable env names) Run.claimOrder env.skipRun limit
    snap.runs cur.runs

/-! ## The claimed rows -/

def Run.claim (env : Env) (worker : WorkerId) (r : Run) : Run :=
  { r with
    state := .running
    attemptCount := r.attemptCount + 1
    workerId := some worker.value
    leaseToken := some (env.token r.id)
    startedAt := some (env.clock .startedAt r.id)
    leaseExpiresAt := some (env.clock .leaseExpiresAt r.id + r.leaseDuration.micros)
    updatedAt := env.clock .updatedAt r.id }

/-- The row of `recorded` for a candidate: it repeats what `claimed` returns. -/
def Run.claimAttempt (env : Env) (worker : WorkerId) (r : Run) : Attempt where
  runId := r.id
  attemptNumber := r.attemptCount + 1
  workerId := worker.value
  leaseToken := env.token r.id
  startedAt := env.clock .startedAt r.id
  leaseExpiresAt := env.clock .leaseExpiresAt r.id + r.leaseDuration.micros
  finishedAt := none
  outcome := none
  error := none

/-- The columns of the answer, as Diesel reads them. -/
structure ClaimedRow where
  runId : RunId
  jobId : Option JobId
  jobName : String
  jobArgs : Json
  scheduledFor : DateTime
  attempt : ℤ
  leaseToken : LeaseToken
  leaseExpiresAt : DateTime
  leaseDuration : PgInterval

def ClaimedRow.read (r : Run) : Except DbError ClaimedRow :=
  match r.leaseToken, r.leaseExpiresAt with
  | some token, some expires => do
    let scheduledFor ← readTimestamp r.scheduledFor
    let leaseExpiresAt ← readTimestamp expires
    pure ⟨r.id, r.jobId, r.jobName, r.jobArgs, scheduledFor, r.attemptCount, token,
      leaseExpiresAt, r.leaseDuration.val⟩
  | _, _ => .error .unexpectedNull

def ClaimedRow.toClaimedRun (row : ClaimedRow) : Except SchedulerError ClaimedRun :=
  if 0 < row.attempt then
    match LeaseDuration.fromPgInterval row.leaseDuration with
    | .ok leaseDuration => .ok ⟨row.runId, row.jobId, row.jobName, row.jobArgs, row.scheduledFor,
        row.attempt.toNat, row.leaseToken, row.leaseExpiresAt, leaseDuration⟩
    | .error _ => .error (.invariant "claimed task has invalid lease duration")
  else .error (.invariant "attempt_count must be positive after claim")

def decodeClaimed (rows : List Run) : Except SchedulerError (List ClaimedRun) := do
  let rows ← (mapRows ClaimedRow.read rows).mapError .database
  mapRows ClaimedRow.toClaimedRun rows

/-! ## The statement -/

/-- Every CHECK and unique constraint that `claimed` and `recorded` are subject to. -/
def checkClaimed (claimed : List Run) (recorded attempts : List Attempt) :
    Except DbError Unit := do
  checkAll Run.check claimed
  checkAll Attempt.check recorded
  firstViolation [
    (decide (Keyed Attempt.key recorded ∧ ∀ a ∈ recorded, ∀ b ∈ attempts, b.key ≠ a.key),
      .uniqueViolation "scheduler_run_attempts_pkey"),
    (decide (Keyed Attempt.leaseToken recorded ∧
        ∀ a ∈ recorded, ∀ b ∈ attempts, b.leaseToken ≠ a.leaseToken),
      .uniqueViolation "scheduler_run_attempts_lease_token_key")]

/-- `ORDER BY scheduled_for, run_id` -/
def Run.answerOrder (a b : Run) : Prop :=
  a.scheduledFor < b.scheduledFor ∨
    a.scheduledFor = b.scheduledFor ∧ a.id.uuid ≤ b.id.uuid

instance : DecidableRel Run.answerOrder := fun a b => by unfold Run.answerOrder; infer_instance

/-- `CLAIM_BATCH` -/
def claimBatchQuery (worker : WorkerId) (names : List String) (limit : ℕ) : Query (List Run) :=
  query (fun env snap cur => do
      checkAll bindText names
      bindText worker.value
      let candidates := claimCandidates env names limit snap cur
      let claimed := candidates.map (Run.claim env worker)
      let recorded := candidates.map (Run.claimAttempt env worker)
      checkClaimed claimed recorded cur.attempts
      pure ({ runs := { update := claimed }, insertAttempts := recorded },
        claimed.insertionSort Run.answerOrder))
    fun _ _ => []

def claimBatch (worker : WorkerId) (names : List String) (limit : NonZeroUsize) :
    Program (List ClaimedRun) :=
  if i64Max < limit.value then .ret (.error (.config "claim batch is too large"))
  else .stmt (claimBatchQuery worker names limit.value) fun rows =>
    .commit (.ret (decodeClaimed rows))

end PgTaskScheduler
