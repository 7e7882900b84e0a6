import PgTaskScheduler.Identifiers

/-!
# Domain types and errors

The values callers pass in are validated when they are built: a lease is 1 to `i64::MAX`
microseconds, a backoff 0 to `i64::MAX`, an attempt count 1 to `i32::MAX`. Each type carries its
bound, and its interval or integer satisfies the CHECK of the column it is written to.
-/

namespace PgTaskScheduler

/-! ## Stored enumerations -/

/-- `scheduler_run_state` -/
inductive StoredRunState
  | pending
  | running
  | completed
  | failed
  | cancelled
deriving DecidableEq, Repr

/-- `scheduler_attempt_outcome` -/
inductive StoredAttemptOutcome
  | completed
  | failed
  | expired
  | cancelled
deriving DecidableEq, Repr

/-- `state IN ('completed', 'failed', 'cancelled')` -/
def StoredRunState.Terminal : StoredRunState → Prop
  | .pending | .running => False
  | .completed | .failed | .cancelled => True

instance : DecidablePred StoredRunState.Terminal := fun s => by
  cases s <;> unfold StoredRunState.Terminal <;> infer_instance

theorem StoredRunState.terminal_iff {s : StoredRunState} :
    s.Terminal ↔ s ≠ .pending ∧ s ≠ .running := by
  cases s <;> simp [Terminal]

inductive JobLifecycle
  | active
  | paused
deriving DecidableEq, Repr

def JobLifecycle.isPaused : JobLifecycle → Bool
  | .active => false
  | .paused => true

def JobLifecycle.fromPaused (paused : Bool) : JobLifecycle := if paused then .paused else .active

/-! ## Validated configuration -/

/-- `std::time::Duration` -/
structure Duration where
  secs : ℕ
  nanos : ℕ
  wide : secs ≤ u64Max ∧ nanos < 1000000000
deriving DecidableEq

def Duration.asMicros (d : Duration) : ℕ := d.secs * 1000000 + d.nanos / 1000

/-- `Duration::from_micros` -/
def Duration.fromMicros (n : ℕ) (h : n ≤ u64Max) : Duration :=
  ⟨n / 1000000, n % 1000000 * 1000, by omega, by omega⟩

inductive MaxAttemptsError
  | nonPositive
  | tooLarge
deriving DecidableEq, Repr

structure MaxAttempts where
  value : ℤ
  range : 1 ≤ value ∧ value ≤ i32Max
deriving DecidableEq

def MaxAttempts.tryFrom (v : ℕ) : Except MaxAttemptsError MaxAttempts :=
  if h : (v : ℤ) ≤ i32Max then
    if h' : 1 ≤ (v : ℤ) then .ok ⟨v, h', h⟩ else .error .nonPositive
  else .error .tooLarge

def MaxAttempts.default : MaxAttempts := ⟨3, by decide⟩

/-- Read the stored `i32`. -/
def MaxAttempts.fromDbI32 (i : ℤ) : Except MaxAttemptsError MaxAttempts :=
  if h : 1 ≤ i ∧ i ≤ i32Max then .ok ⟨i, h⟩ else .error .nonPositive

inductive LeaseDurationError
  | zero
  | precisionLoss
  | tooLarge
  | calendarComponent (months days : ℤ)
  | negative (microseconds : ℤ)
deriving DecidableEq, Repr

structure LeaseDuration where
  micros : ℤ
  range : 1 ≤ micros ∧ micros ≤ i64Max
deriving DecidableEq

structure RetryBackoff where
  micros : ℤ
  range : 0 ≤ micros ∧ micros ≤ i64Max
deriving DecidableEq

/-- `PgInterval::from_microseconds` -/
def PgInterval.fromMicroseconds (n : ℤ) (h : InI64 n) : PgInterval :=
  ⟨0, 0, n, by decide, by decide, h⟩

namespace LeaseDuration

def tryFrom (d : Duration) : Except LeaseDurationError LeaseDuration :=
  if d.nanos % 1000 ≠ 0 then .error .precisionLoss
  else if h : (d.asMicros : ℤ) ≤ i64Max then
    if h' : 1 ≤ (d.asMicros : ℤ) then .ok ⟨d.asMicros, h', h⟩ else .error .zero
  else .error .tooLarge

def default : LeaseDuration := ⟨300000000, by decide⟩

theorem inI64 (l : LeaseDuration) : InI64 l.micros := ⟨by have := l.range; omega, l.range.2⟩

def toPgInterval (l : LeaseDuration) : PgInterval := .fromMicroseconds l.micros l.inI64

def asDuration (l : LeaseDuration) : Duration := .fromMicros l.micros.natAbs (by
  have := l.range
  simp only [i64Max, u64Max] at *
  omega)

theorem leaseCheck (l : LeaseDuration) : l.toPgInterval.LeaseCheck :=
  PgInterval.leaseCheck_iff.mpr ⟨rfl, rfl, l.range.1⟩

/-- The interval as the `lease_duration` column stores it. -/
def toInterval (l : LeaseDuration) : LeaseInterval := ⟨l.toPgInterval, l.leaseCheck⟩

@[simp] theorem micros_toInterval (l : LeaseDuration) : l.toInterval.micros = l.micros := rfl

def fromPgInterval (iv : PgInterval) : Except LeaseDurationError LeaseDuration :=
  if iv.months ≠ 0 ∨ iv.days ≠ 0 then .error (.calendarComponent iv.months iv.days)
  else if iv.microseconds < 0 then .error (.negative iv.microseconds)
  else if h : 1 ≤ iv.microseconds then .ok ⟨iv.microseconds, h, iv.wide.2.2.2⟩
  else .error .zero

/-- What the CHECK on `lease_duration` accepts can be read back. -/
theorem fromPgInterval_of_leaseCheck (iv : LeaseInterval) :
    ∃ l, fromPgInterval iv.val = .ok l ∧ l.micros = iv.micros := by
  obtain ⟨hm, hd, hpos⟩ := PgInterval.leaseCheck_iff.mp iv.property
  refine ⟨⟨iv.micros, hpos, iv.val.wide.2.2.2⟩, ?_, rfl⟩
  unfold fromPgInterval
  rw [if_neg (by simp [hm, hd]), if_neg (by omega), dif_pos (by omega)]
  rfl

end LeaseDuration

namespace RetryBackoff

def tryFrom (d : Duration) : Except LeaseDurationError RetryBackoff :=
  if d.nanos % 1000 ≠ 0 then .error .precisionLoss
  else if h : (d.asMicros : ℤ) ≤ i64Max then .ok ⟨d.asMicros, Int.natCast_nonneg _, h⟩
  else .error .tooLarge

def default : RetryBackoff := ⟨1000000, by decide⟩

theorem inI64 (b : RetryBackoff) : InI64 b.micros := ⟨by have := b.range; omega, b.range.2⟩

def toPgInterval (b : RetryBackoff) : PgInterval := .fromMicroseconds b.micros b.inI64

def asDuration (b : RetryBackoff) : Duration := .fromMicros b.micros.natAbs (by
  have := b.range
  simp only [i64Max, u64Max] at *
  omega)

theorem backoffCheck (b : RetryBackoff) : b.toPgInterval.BackoffCheck :=
  PgInterval.backoffCheck_iff.mpr ⟨rfl, rfl, b.range.1⟩

/-- The interval as the `retry_backoff` column stores it. -/
def toInterval (b : RetryBackoff) : BackoffInterval := ⟨b.toPgInterval, b.backoffCheck⟩

@[simp] theorem micros_toInterval (b : RetryBackoff) : b.toInterval.micros = b.micros := rfl

def fromPgInterval (iv : PgInterval) : Except LeaseDurationError RetryBackoff :=
  if iv.months ≠ 0 ∨ iv.days ≠ 0 then .error (.calendarComponent iv.months iv.days)
  else if h : 0 ≤ iv.microseconds then .ok ⟨iv.microseconds, h, iv.wide.2.2.2⟩
  else .error (.negative iv.microseconds)

end RetryBackoff

/-- `NonZeroUsize`, the limit of a batch. -/
structure NonZeroUsize where
  value : ℕ
  range : 1 ≤ value ∧ value ≤ u64Max
deriving DecidableEq

/-! ## Errors -/

/-- What `croner` reports: a pattern that does not parse, or a search without a result. -/
inductive CronError
  | parse (source detail : String)
  | search (detail : String)
deriving DecidableEq, Repr

inductive CorruptJobRow
  | cron (e : CronError)
  | leaseDuration (e : LeaseDurationError)
  | maxAttempts (e : MaxAttemptsError)
deriving DecidableEq, Repr

inductive SchedulerError
  | database (e : DbError)
  | cron (e : CronError)
  | config (detail : String)
  | identifier (e : IdentifierError)
  | serde (detail : String)
  | invariant (detail : String)
  | corruptJob (jobId : JobId) (source : CorruptJobRow)
deriving DecidableEq, Repr

/-! ## Answers -/

/-- What a handler reports to `finalize_run`. -/
inductive Outcome
  | completed
  | failed (error : String)
deriving DecidableEq, Repr

inductive FinalizeOutcome
  | applied
  | fenced
  | alreadyTerminal
deriving DecidableEq, Repr

inductive FailureOutcome
  | retried (availableAt : DateTime)
  | failed
  | fenced
  | alreadyTerminal
deriving DecidableEq

inductive RenewalOutcome
  | renewed (leaseExpiresAt : DateTime)
  | fenced
deriving DecidableEq

inductive CancelOutcome
  | cancelled
  | alreadyTerminal
  | notFound
deriving DecidableEq, Repr

/-- Whether a job mutation addressed an existing row. -/
inductive Applied
  | changed
  | notFound
deriving DecidableEq, Repr

structure RecoverySummary where
  requeued : ℕ
  failed : ℕ
deriving DecidableEq, Repr

/-- A claimed task with its lease. Diesel reads a `JobName` back without validating it. -/
structure ClaimedRun where
  runId : RunId
  jobId : Option JobId
  jobName : String
  jobArgs : Json
  scheduledFor : DateTime
  attempt : ℕ
  leaseToken : LeaseToken
  leaseExpiresAt : DateTime
  leaseDuration : LeaseDuration
deriving DecidableEq

end PgTaskScheduler
