import PgTaskScheduler.Claim
import PgTaskScheduler.Finalize
import PgTaskScheduler.Jobs

/-!
# The operations

Every public operation with its arguments, and the program that serves it.
-/

namespace PgTaskScheduler

variable (K : Croner)

inductive Call
  | enqueue (taskName : String) (args : Except String Json) (options : EnqueueOptions)
  | cancel (id : RunId)
  | pruneTerminal (before : DateTime) (limit : NonZeroUsize)
  | claimBatch (worker : WorkerId) (names : List String) (limit : NonZeroUsize)
  | finalizeRun (id : RunId) (token : LeaseToken) (outcome : Outcome)
  | failRun (id : RunId) (token : LeaseToken) (error : String) (retryable : Bool)
  | renewLease (id : RunId) (token : LeaseToken)
  | recoverExpired (limit : NonZeroUsize)
  | materializeOne
  | materializeDueJobs
  | createJob (spec : CreateJob K)
  | ensureJob (spec : CreateJob K)
  | reschedule (id : JobId) (update : ScheduleUpdate)
  | pause (id : JobId)
  | resume (id : JobId)
  | delete (id : JobId)

inductive Answer
  | enqueued (id : RunId)
  | cancelled (outcome : CancelOutcome)
  | pruned (count : ℕ)
  | claimed (runs : List ClaimedRun)
  | finalized (outcome : FinalizeOutcome)
  | failed (outcome : FailureOutcome)
  | renewed (outcome : RenewalOutcome)
  | recovered (summary : RecoverySummary)
  | tick (t : Tick)
  | materialized (count : ℕ)
  | job (j : Job K)
  | rescheduled (j : Option (Job K))
  | applied (a : Applied)

def program : Call K → Program (Answer K)
  | .enqueue taskName args options => (enqueue taskName args options).map .enqueued
  | .cancel id => (cancel id).map .cancelled
  | .pruneTerminal before limit => (pruneTerminal before limit).map .pruned
  | .claimBatch worker names limit => (claimBatch worker names limit).map .claimed
  | .finalizeRun id token outcome => (finalizeRun id token outcome).map .finalized
  | .failRun id token error retryable => (failRun id token error retryable).map .failed
  | .renewLease id token => (renewLease id token).map .renewed
  | .recoverExpired limit => (recoverExpired limit).map .recovered
  | .materializeOne => (materializeOne K).map .tick
  | .materializeDueJobs => (materializeDueJobs K).map .materialized
  | .createJob spec => (createJob K spec).map .job
  | .ensureJob spec => (ensureJob K spec).map .job
  | .reschedule id update => (reschedule K id update).map .rescheduled
  | .pause id => (pause id).map .applied
  | .resume id => (resume id).map .applied
  | .delete id => (delete id).map .applied

end PgTaskScheduler
