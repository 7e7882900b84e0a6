import PgTaskScheduler.Database

/-!
# `store::reap`

`RECOVER` locks running tasks whose lease has expired, closes their open attempts as expired and
moves each task whose attempt it closed back to `pending`, or to `failed` when no attempt is left.
-/

namespace PgTaskScheduler

open Tables ReadCommitted

/-- `state = 'running' AND lease_expires_at <= clock_timestamp()` -/
def Run.expired (env : Env) (r : Run) : Bool :=
  decide (r.state = .running) && r.leaseExpiresAt.any fun e => e ≤ env.clock .predicate r.id

/-- The sort key of a nullable instant: `NULLS LAST`. -/
def nullsLast (t : Option Timestamp) : Timestamp := t.getD endTimestamp

/-- `ORDER BY lease_expires_at, id` -/
def Run.expiryOrder (a b : Run) : Prop :=
  nullsLast a.leaseExpiresAt < nullsLast b.leaseExpiresAt ∨
    nullsLast a.leaseExpiresAt = nullsLast b.leaseExpiresAt ∧ a.id.uuid ≤ b.id.uuid

instance : DecidableRel Run.expiryOrder := fun a b => by unfold Run.expiryOrder; infer_instance

def recoverCandidates (env : Env) (limit : ℕ) (snap cur : Store) : List Run :=
  selectForUpdate Run.id (·.expired env) Run.expiryOrder env.skipRun limit snap.runs cur.runs

/-- An open attempt with the token of a candidate. -/
def Attempt.expiring (candidates : List Run) (a : Attempt) : Bool :=
  candidates.any fun c => decide (c.leaseToken = some a.leaseToken) && a.isOpen

/-- The SET list of `recovered`. -/
def Run.recover (env : Env) (r : Run) : Run :=
  { r.release with
    state := if r.attemptsLeft then .pending else .failed
    availableAt := if r.attemptsLeft then env.clock .availableAt r.id else r.availableAt
    finishedAt := if r.attemptsLeft then none else some (env.clock .finishedAt r.id)
    lastError := if r.attemptsLeft then none else some "lease expired; max attempts exhausted"
    updatedAt := env.clock .updatedAt r.id }

/-- `RECOVER` -/
def recoverQuery (limit : ℕ) : Query (List StoredRunState) :=
  lockingQuery (fun env snap cur => do
      let candidates := recoverCandidates env limit snap cur
      let recorded := (targets Attempt.key (·.expiring candidates) snap.attempts cur.attempts).map
        (Attempt.close env .expired (some "lease expired"))
      let recovered := (candidates.filter fun r => recorded.any fun a => a.runId = r.id).map
        (Run.recover env)
      checkAll Attempt.check recorded
      checkAll Run.check recovered
      pure ({ runs := { update := recovered }, updateAttempts := recorded },
        recovered.map Run.state))
    (fun _ _ => [])
    fun env snap cur => (recoverCandidates env limit snap cur).map fun r => .run r.id

/-- Count the new states. -/
def RecoverySummary.add (summary : RecoverySummary) :
    List StoredRunState → Except SchedulerError RecoverySummary
  | [] => .ok summary
  | .pending :: states => ({ summary with requeued := summary.requeued + 1 }).add states
  | .failed :: states => ({ summary with failed := summary.failed + 1 }).add states
  | _ :: _ => .error (.invariant "expired recovery produced invalid state")

def recoverExpired (limit : NonZeroUsize) : Program RecoverySummary :=
  if i64Max < limit.value then .ret (.error (.config "recovery batch is too large"))
  else .stmt (recoverQuery limit.value) fun states =>
    .commit (.ret (RecoverySummary.add ⟨0, 0⟩ states))

end PgTaskScheduler
