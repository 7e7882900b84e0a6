import PgTaskScheduler.Database

/-!
# `store::finalize`

`finalize_run`, `fail_run` and `renew_lease` are transactions of two statements: the first updates
the run if it is live under the given token, the second the open attempt with that token.
-/

namespace PgTaskScheduler

open Tables ReadCommitted

/-! ## The run row -/

/-- `id = $1 AND state = 'running' AND lease_token = $2 AND lease_expires_at > clock_timestamp()` -/
def Run.live (env : Env) (id : RunId) (token : LeaseToken) (r : Run) : Bool :=
  decide (r.id = id ∧ r.state = .running ∧ r.leaseToken = some token) &&
    r.leaseExpiresAt.any fun e => env.clock .predicate r.id < e

/-- The SET list of `FINALIZE`. -/
def Run.finalize (env : Env) (state : StoredRunState) (error : Option String) (r : Run) : Run :=
  { r.release with
    state := state
    finishedAt := some (env.clock .finishedAt r.id)
    lastError := error
    updatedAt := env.clock .updatedAt r.id }

/-- The SET list of `FAIL`. -/
def Run.fail (env : Env) (retryable : Bool) (error : String) (r : Run) : Run :=
  { r.release with
    state := if retryable ∧ r.attemptsLeft then .pending else .failed
    availableAt := if retryable ∧ r.attemptsLeft then
      env.clock .availableAt r.id + r.retryBackoff.micros else r.availableAt
    finishedAt := if retryable ∧ r.attemptsLeft then none else some (env.clock .finishedAt r.id)
    lastError := if retryable ∧ r.attemptsLeft then none else some error
    updatedAt := env.clock .updatedAt r.id }

/-- The SET list of `RENEW`. -/
def Run.renew (env : Env) (r : Run) : Run :=
  { r with
    leaseExpiresAt := some (env.clock .leaseExpiresAt r.id + r.leaseDuration.micros)
    updatedAt := env.clock .updatedAt r.id }

/-- An `UPDATE` of `scheduler_runs` by id and token, answering the new rows through `read`. -/
def updateLive {β : Type} (id : RunId) (token : LeaseToken) (texts : List String)
    (set : Env → Run → Run) (read : Run → Except DbError β) : Query (Option β) :=
  query (fun env snap cur => do
      checkAll bindText texts
      let rows := (targets Run.id (·.live env id token) snap.runs cur.runs).map (set env)
      checkAll Run.check rows
      match rows with
      | [] => pure ({}, none)
      | row :: _ => do
        let b ← read row
        pure ({ runs := { update := rows } }, some b))
    fun env snap => (snap.runs.filter (·.live env id token)).map fun r => .run r.id

/-! ## The attempt row -/

/-- An `UPDATE` of `scheduler_run_attempts` by token, answering the number of rows. -/
def updateOpen (token : LeaseToken) (bind : Except DbError Unit) (set : Env → Attempt → Attempt) :
    Query ℕ :=
  query (fun env snap cur => do
      bind
      let rows := (targets Attempt.key (·.openWith token) snap.attempts cur.attempts).map (set env)
      checkAll Attempt.check rows
      pure ({ updateAttempts := rows }, rows.length))
    fun _ snap => (snap.attempts.filter (·.openWith token)).map fun a => .attempt a.key

/-- `RECORD_ATTEMPT` -/
def recordAttempt (token : LeaseToken) (outcome : StoredAttemptOutcome) (error : Option String) :
    Query ℕ :=
  updateOpen token (checkAll bindText error.toList) fun env => Attempt.close env outcome error

/-- `RENEW_ATTEMPT` -/
def renewAttempt (token : LeaseToken) (leaseExpiresAt : DateTime) : Query ℕ :=
  updateOpen token (bindTimestamp leaseExpiresAt) fun _ a =>
    { a with leaseExpiresAt := leaseExpiresAt.val }

/-- `IS_TERMINAL` -/
def terminal (id : RunId) : Query Bool :=
  readQuery fun _ snap => .ok (snap.runs.any fun r => decide (r.id = id ∧ r.state.Terminal))

/-! ## `finalize_run` -/

/-- The state, attempt outcome and error that an outcome is recorded as. -/
def Outcome.stored : Outcome → StoredRunState × StoredAttemptOutcome × Option String
  | .completed => (.completed, .completed, none)
  | .failed error => (.failed, .failed, some error)

/-- `FINALIZE` -/
def finalizeQuery (id : RunId) (token : LeaseToken) (state : StoredRunState)
    (error : Option String) : Query (Option RunId) :=
  updateLive id token error.toList (fun env => Run.finalize env state error) fun r => .ok r.id

def finalizeRun (id : RunId) (token : LeaseToken) (outcome : Outcome) : Program FinalizeOutcome :=
  let (state, attemptOutcome, error) := outcome.stored
  .stmt (finalizeQuery id token state error) fun
    | none => .stmt (terminal id) fun t =>
        .commit (.ret (.ok (if t then .alreadyTerminal else .fenced)))
    | some _ => .stmt (recordAttempt token attemptOutcome error) fun attempts =>
        if attempts ≠ 1
        then .ret (.error (.invariant "finalized task did not have one live attempt"))
        else .commit (.ret (.ok .applied))

/-! ## `fail_run` -/

/-- Read `state` and `available_at` of the failed row. -/
def readFailure (r : Run) : Except DbError (StoredRunState × DateTime) :=
  (readTimestamp r.availableAt).map fun t => (r.state, t)

/-- `FAIL` -/
def failQuery (id : RunId) (token : LeaseToken) (retryable : Bool) (error : String) :
    Query (Option (StoredRunState × DateTime)) :=
  updateLive id token [error] (fun env => Run.fail env retryable error) readFailure

def failRun (id : RunId) (token : LeaseToken) (error : String) (retryable : Bool) :
    Program FailureOutcome :=
  .stmt (failQuery id token retryable error) fun
    | none => .stmt (terminal id) fun t =>
        .commit (.ret (.ok (if t then .alreadyTerminal else .fenced)))
    | some (state, availableAt) => .stmt (recordAttempt token .failed (some error)) fun attempts =>
        if attempts ≠ 1 then .ret (.error (.invariant "failed task did not have one live attempt"))
        else match state with
          | .pending => .commit (.ret (.ok (.retried availableAt)))
          | .failed => .commit (.ret (.ok .failed))
          | _ => .ret (.error (.invariant "failure produced invalid state"))

/-! ## `renew_lease` -/

/-- Read `lease_expires_at` of the renewed row. -/
def readRenewal (r : Run) : Except DbError DateTime :=
  match r.leaseExpiresAt with
  | some e => readTimestamp e
  | none => .error .unexpectedNull

/-- `RENEW` -/
def renewQuery (id : RunId) (token : LeaseToken) : Query (Option DateTime) :=
  updateLive id token [] Run.renew readRenewal

def renewLease (id : RunId) (token : LeaseToken) : Program RenewalOutcome :=
  .stmt (renewQuery id token) fun
    | none => .commit (.ret (.ok .fenced))
    | some leaseExpiresAt => .stmt (renewAttempt token leaseExpiresAt) fun attempts =>
        if attempts ≠ 1 then .ret (.error (.invariant "renewed task did not have one live attempt"))
        else .commit (.ret (.ok (.renewed leaseExpiresAt)))

end PgTaskScheduler
