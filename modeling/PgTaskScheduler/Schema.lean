import Mathlib.Data.Prod.Basic
import PgTaskScheduler.Models
import PgTaskScheduler.ReadCommitted
import PgTaskScheduler.Tables

/-!
# The three tables

`scheduler_jobs`, `scheduler_runs` and `scheduler_run_attempts`, with the CHECKs of the migration
in the order PostgreSQL evaluates them (by constraint name). An interval column holds an interval
that its CHECK accepts, so the two interval checks are part of the type.

A statement's writes are a `Patch`. Deleting a run deletes its attempts.
-/

namespace PgTaskScheduler

open Tables ReadCommitted

/-! ## Rows -/

/-- A row of `scheduler_jobs`. -/
structure SchedulerJob where
  id : JobId
  name : String
  cronExpression : String
  jobArgs : Json
  nextRunAt : Timestamp
  leaseDuration : LeaseInterval
  maxAttempts : ℤ
  isPaused : Bool
  createdAt : Timestamp
  updatedAt : Timestamp
  retryBackoff : BackoffInterval
deriving DecidableEq

def SchedulerJob.check (j : SchedulerJob) : Except DbError Unit := firstViolation [
  (decide (InI32 j.maxAttempts), .integerOutOfRange),
  (decide (1 ≤ j.maxAttempts), .checkViolation "scheduler_jobs_max_attempts_check"),
  (decide (NameCheck j.name), .checkViolation "scheduler_jobs_name_check")]

/-- A row of `scheduler_runs`. -/
structure Run where
  id : RunId
  jobId : Option JobId
  scheduledFor : Timestamp
  attemptCount : ℤ
  createdAt : Timestamp
  updatedAt : Timestamp
  jobName : String
  jobArgs : Json
  availableAt : Timestamp
  priority : ℤ
  state : StoredRunState
  maxAttempts : ℤ
  leaseDuration : LeaseInterval
  retryBackoff : BackoffInterval
  workerId : Option String
  leaseToken : Option LeaseToken
  leaseExpiresAt : Option Timestamp
  startedAt : Option Timestamp
  finishedAt : Option Timestamp
  lastError : Option String
  deduplicationKey : Option String
deriving DecidableEq

/-- `worker_id`, `lease_token`, `lease_expires_at` and `started_at` are NULL. -/
def Run.unleased (r : Run) : Bool :=
  r.workerId.isNone && r.leaseToken.isNone && r.leaseExpiresAt.isNone && r.startedAt.isNone

/-- `lease_expires_at > started_at`, both not NULL. -/
def Run.leaseAfterStart (r : Run) : Bool :=
  r.startedAt.any fun s => r.leaseExpiresAt.any fun e => s < e

/-- `scheduler_runs_state_check` -/
def Run.stateCheck (r : Run) : Bool :=
  match r.state with
  | .pending => r.unleased && r.finishedAt.isNone && r.lastError.isNone
  | .running => r.workerId.isSome && r.leaseToken.isSome && r.leaseAfterStart &&
      r.finishedAt.isNone && r.lastError.isNone
  | .completed => r.unleased && r.finishedAt.isSome && r.lastError.isNone
  | .failed => r.unleased && r.finishedAt.isSome && r.lastError.isSome
  | .cancelled => r.unleased && r.finishedAt.isSome && r.lastError.isNone

/-- `scheduler_runs_attempts_check` -/
abbrev Run.AttemptsCheck (r : Run) : Prop :=
  0 ≤ r.attemptCount ∧ 1 ≤ r.maxAttempts ∧ r.attemptCount ≤ r.maxAttempts ∧
    (r.state ≠ .pending ∨ r.attemptCount < r.maxAttempts)

/-- Column types first: `attempt_count + 1` and the computed instants may leave their range. -/
def Run.check (r : Run) : Except DbError Unit := firstViolation [
  (decide (InI32 r.attemptCount), .integerOutOfRange),
  (decide (InI32 r.maxAttempts), .integerOutOfRange),
  (decide (InRange r.availableAt), .datetimeOutOfRange),
  (decide (∀ e ∈ r.leaseExpiresAt, InRange e), .datetimeOutOfRange),
  (decide r.AttemptsCheck, .checkViolation "scheduler_runs_attempts_check"),
  (decide (∀ k ∈ r.deduplicationKey, LengthCheck k),
    .checkViolation "scheduler_runs_deduplication_key_check"),
  (decide (NameCheck r.jobName), .checkViolation "scheduler_runs_name_check"),
  (r.stateCheck, .checkViolation "scheduler_runs_state_check"),
  (decide (∀ w ∈ r.workerId, NameCheck w), .checkViolation "scheduler_runs_worker_check")]

theorem Run.check_eq_ok_iff {r : Run} : r.check = .ok () ↔
    InI32 r.attemptCount ∧ InI32 r.maxAttempts ∧ InRange r.availableAt ∧
      (∀ e ∈ r.leaseExpiresAt, InRange e) ∧ r.AttemptsCheck ∧
      (∀ k ∈ r.deduplicationKey, LengthCheck k) ∧ NameCheck r.jobName ∧ r.stateCheck = true ∧
      ∀ w ∈ r.workerId, NameCheck w := by
  simp only [check, firstViolation_cons_eq_ok_iff, decide_eq_true_eq, firstViolation_nil, and_true]

/-- The entry of `scheduler_runs_schedule_occurrence_idx`. -/
def Run.occurrence (r : Run) : Option (JobId × Timestamp) :=
  r.jobId.map fun j => (j, r.scheduledFor)

/-- The entry of `scheduler_runs_deduplication_idx`. -/
def Run.deduplication (r : Run) : Option (String × String) :=
  r.deduplicationKey.map fun k => (r.jobName, k)

/-- A row of `scheduler_run_attempts`. -/
structure Attempt where
  runId : RunId
  attemptNumber : ℤ
  workerId : String
  leaseToken : LeaseToken
  startedAt : Timestamp
  leaseExpiresAt : Timestamp
  finishedAt : Option Timestamp
  outcome : Option StoredAttemptOutcome
  error : Option String
deriving DecidableEq

/-- The primary key `(run_id, attempt_number)`. -/
def Attempt.key (a : Attempt) : RunId × ℤ := (a.runId, a.attemptNumber)

/-- `outcome IS NULL` -/
def Attempt.isOpen (a : Attempt) : Bool := a.outcome.isNone

/-- `scheduler_attempt_terminal_check` -/
def Attempt.terminalCheck (a : Attempt) : Bool :=
  (a.finishedAt.isNone && a.outcome.isNone && a.error.isNone) ||
    (a.finishedAt.isSome && a.outcome.isSome)

/-- `scheduler_attempt_error_check`: `outcome IN (…)` is unknown, hence no violation, on NULL. -/
def Attempt.errorCheck (a : Attempt) : Bool :=
  a.error.isNone || a.outcome.all fun o => o == .failed || o == .expired

def Attempt.check (a : Attempt) : Except DbError Unit := firstViolation [
  (decide (InRange a.leaseExpiresAt), .datetimeOutOfRange),
  (a.errorCheck, .checkViolation "scheduler_attempt_error_check"),
  (a.terminalCheck, .checkViolation "scheduler_attempt_terminal_check"),
  (decide (1 ≤ a.attemptNumber), .checkViolation "scheduler_run_attempts_attempt_number_check"),
  (decide (a.startedAt < a.leaseExpiresAt), .checkViolation "scheduler_run_attempts_check"),
  (decide (NameCheck a.workerId), .checkViolation "scheduler_run_attempts_worker_id_check")]

theorem Attempt.check_eq_ok_iff {a : Attempt} : a.check = .ok () ↔
    InRange a.leaseExpiresAt ∧ a.errorCheck = true ∧ a.terminalCheck = true ∧
      1 ≤ a.attemptNumber ∧ a.startedAt < a.leaseExpiresAt ∧ NameCheck a.workerId := by
  simp only [check, firstViolation_cons_eq_ok_iff, decide_eq_true_eq, firstViolation_nil, and_true]

/-! ## The store and its writes -/

structure Store where
  jobs : List SchedulerJob
  runs : List Run
  attempts : List Attempt
deriving DecidableEq

/-- The schema as the migration leaves it. -/
def Store.empty : Store := ⟨[], [], []⟩

/-- The writes of one statement. Attempts are never deleted but with their run. -/
structure Patch where
  jobs : Edit SchedulerJob JobId := {}
  runs : Edit Run RunId := {}
  updateAttempts : List Attempt := []
  insertAttempts : List Attempt := []

/-- Store the new rows; `ON DELETE CASCADE` drops the attempts of deleted runs. -/
def Store.apply (w : Patch) (s : Store) : Store where
  jobs := w.jobs.apply SchedulerJob.id s.jobs
  runs := w.runs.apply Run.id s.runs
  attempts := (overwrite Attempt.key w.updateAttempts s.attempts ++ w.insertAttempts).filter
    fun a => a.runId ∉ w.runs.delete

@[simp] theorem Store.apply_empty (s : Store) : s.apply {} = s := by
  simp [Store.apply]

/-! ## One run and its attempts -/

/-- A row of `scheduler_runs` together with its rows of `scheduler_run_attempts`. -/
structure RunView where
  run : Option Run
  attempts : List Attempt
deriving DecidableEq

def Store.view (s : Store) (id : RunId) : RunView :=
  ⟨lookup Run.id id s.runs, s.attempts.filter fun a => a.runId = id⟩

/-- What a patch does to one run and its attempts. -/
def Patch.onView (w : Patch) (id : RunId) (v : RunView) : RunView :=
  if id ∈ w.runs.delete then ⟨none, []⟩ else
    ⟨(v.run.map fun r => (lookup Run.id id w.runs.update).getD r).or
        (lookup Run.id id w.runs.insert),
      overwrite Attempt.key w.updateAttempts v.attempts ++
        w.insertAttempts.filter fun a => a.runId = id⟩

/-- A patch leaves a run alone whose row and attempts it does not write. -/
theorem Patch.onView_of_untouched {w : Patch} {id : RunId} {v : RunView}
    (hv : ∀ a ∈ v.attempts, a.runId = id) (hdelete : id ∉ w.runs.delete)
    (hupdate : ∀ r ∈ w.runs.update, r.id ≠ id) (hinsert : ∀ r ∈ w.runs.insert, r.id ≠ id)
    (hua : ∀ a ∈ w.updateAttempts, a.runId ≠ id) (hia : ∀ a ∈ w.insertAttempts, a.runId ≠ id) :
    w.onView id v = v := by
  have hattempts : overwrite Attempt.key w.updateAttempts v.attempts = v.attempts := by
    rw [@overwrite_congr _ _ _ _ w.updateAttempts _ [], overwrite_nil]
    intro b hb
    rw [lookup_nil, lookup_eq_none_iff]
    exact fun a ha he => hua a ha ((congrArg Prod.fst he).trans (hv b hb))
  have hfilter : w.insertAttempts.filter (fun a => decide (a.runId = id)) = [] :=
    List.filter_eq_nil_iff.mpr fun a ha => by simpa using hia a ha
  rw [Patch.onView, if_neg hdelete, lookup_eq_none_iff.mpr hupdate,
    lookup_eq_none_iff.mpr hinsert, hattempts, hfilter]
  simp

theorem Store.view_apply (w : Patch) (s : Store) (id : RunId) :
    (s.apply w).view id = w.onView id (s.view id) := by
  have hkey : (overwrite Attempt.key w.updateAttempts s.attempts).filter
        (fun a => decide (a.runId = id)) =
      overwrite Attempt.key w.updateAttempts (s.attempts.filter fun a => decide (a.runId = id)) :=
    @filter_overwrite _ _ Attempt.key _ (fun k => decide (k.1 = id)) _ _
  unfold view Patch.onView
  simp only [apply, Edit.lookup_apply, List.filter_filter]
  by_cases hd : id ∈ w.runs.delete
  · rw [if_pos hd, if_pos hd]
    congr 1
    rw [List.filter_eq_nil_iff]
    intro a _
    by_cases ha : a.runId = id
    · simp [ha, hd]
    · simp [ha]
  · rw [if_neg hd, if_neg hd, ← hkey, ← List.filter_append]
    congr 1
    refine List.filter_congr fun a _ => ?_
    by_cases ha : a.runId = id
    · simp [ha, hd]
    · simp [ha]

end PgTaskScheduler
