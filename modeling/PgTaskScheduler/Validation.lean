import PgTaskScheduler.Schema

/-!
# Validation in Rust and in SQL

A duration is accepted by `TryFrom<Duration>`, an interval by `from_pg_interval` and by the CHECK of
its column, an identifier by `validate_identifier` and by the CHECKs on names. The rules agree: what
is accepted on the way in is stored, and what is stored can be read back.
-/

namespace PgTaskScheduler

/-! ## Durations -/

namespace Duration

/-- The length of a duration in nanoseconds. -/
def totalNanos (d : Duration) : ℕ := d.secs * 1000000000 + d.nanos

/-- The duration is `n` microseconds long. -/
def IsMicros (d : Duration) (n : ℤ) : Prop := (d.totalNanos : ℤ) = 1000 * n

theorem isMicros_iff {d : Duration} {n : ℤ} :
    d.IsMicros n ↔ d.nanos % 1000 = 0 ∧ (d.asMicros : ℤ) = n := by
  unfold IsMicros totalNanos asMicros
  omega

theorem fromMicros_of_isMicros {d : Duration} {n : ℤ} (h : d.IsMicros n)
    (hn : n.natAbs ≤ u64Max) : fromMicros n.natAbs hn = d := by
  obtain ⟨hmod, hmicros⟩ := isMicros_iff.mp h
  have hwide := d.wide.2
  obtain ⟨secs, nanos, wide⟩ := d
  simp only [asMicros] at hmod hmicros hwide
  simp only [fromMicros, Duration.mk.injEq]
  omega

end Duration

theorem LeaseDuration.tryFrom_eq_ok_iff {d : Duration} {l : LeaseDuration} :
    LeaseDuration.tryFrom d = .ok l ↔ d.IsMicros l.micros := by
  have hrange := l.range
  rw [Duration.isMicros_iff]
  unfold tryFrom
  split_ifs with hmod hmax hone
  · exact iff_of_false (by simp) fun h => hmod h.1
  · rw [Except.ok.injEq]
    constructor
    · rintro rfl
      exact ⟨not_not.mp hmod, rfl⟩
    · rintro ⟨-, h⟩
      obtain ⟨micros, range⟩ := l
      obtain rfl := h
      rfl
  · exact iff_of_false (by simp) fun h => hone (by omega)
  · exact iff_of_false (by simp) fun h => hmax (by omega)

theorem RetryBackoff.tryFrom_eq_ok_iff {d : Duration} {b : RetryBackoff} :
    RetryBackoff.tryFrom d = .ok b ↔ d.IsMicros b.micros := by
  have hrange := b.range
  rw [Duration.isMicros_iff]
  unfold tryFrom
  split_ifs with hmod hmax
  · exact iff_of_false (by simp) fun h => hmod h.1
  · rw [Except.ok.injEq]
    constructor
    · rintro rfl
      exact ⟨not_not.mp hmod, rfl⟩
    · rintro ⟨-, h⟩
      obtain ⟨micros, range⟩ := b
      obtain rfl := h
      rfl
  · exact iff_of_false (by simp) fun h => hmax (by omega)

/-! ## Intervals -/

/-- An interval of microseconds alone is the interval that its microseconds are sent as. -/
theorem PgInterval.fromMicroseconds_eq {iv : PgInterval} (hm : iv.months = 0) (hd : iv.days = 0)
    (h : InI64 iv.microseconds) : fromMicroseconds iv.microseconds h = iv := by
  obtain ⟨months, days, microseconds, wide⟩ := iv
  obtain rfl := hm
  obtain rfl := hd
  rfl

theorem LeaseDuration.fromPgInterval_eq_ok_iff {iv : PgInterval} {l : LeaseDuration} :
    fromPgInterval iv = .ok l ↔ l.toPgInterval = iv := by
  unfold fromPgInterval
  split_ifs with hcalendar hneg hone
  · refine iff_of_false (by simp) ?_
    rintro rfl
    exact hcalendar.elim (fun h => h rfl) fun h => h rfl
  · refine iff_of_false (by simp) ?_
    rintro rfl
    have : (1 : ℤ) ≤ l.toPgInterval.microseconds := l.range.1
    omega
  · rw [not_or, not_not, not_not] at hcalendar
    rw [Except.ok.injEq]
    constructor
    · rintro rfl
      exact PgInterval.fromMicroseconds_eq hcalendar.1 hcalendar.2 _
    · rintro rfl
      rfl
  · refine iff_of_false (by simp) ?_
    rintro rfl
    exact hone l.range.1

theorem RetryBackoff.fromPgInterval_eq_ok_iff {iv : PgInterval} {b : RetryBackoff} :
    fromPgInterval iv = .ok b ↔ b.toPgInterval = iv := by
  unfold fromPgInterval
  split_ifs with hcalendar hzero
  · refine iff_of_false (by simp) ?_
    rintro rfl
    exact hcalendar.elim (fun h => h rfl) fun h => h rfl
  · rw [not_or, not_not, not_not] at hcalendar
    rw [Except.ok.injEq]
    constructor
    · rintro rfl
      exact PgInterval.fromMicroseconds_eq hcalendar.1 hcalendar.2 _
    · rintro rfl
      rfl
  · refine iff_of_false (by simp) ?_
    rintro rfl
    exact hzero b.range.1

/-- The CHECK on `lease_duration` accepts the intervals that leases are sent as. -/
theorem PgInterval.leaseCheck_iff_exists {iv : PgInterval} :
    iv.LeaseCheck ↔ ∃ l : LeaseDuration, l.toPgInterval = iv := by
  constructor
  · intro h
    obtain ⟨hm, hd, hpos⟩ := leaseCheck_iff.mp h
    exact ⟨⟨iv.microseconds, hpos, iv.wide.2.2.2⟩, fromMicroseconds_eq hm hd _⟩
  · rintro ⟨l, rfl⟩
    exact l.leaseCheck

/-- The CHECK on `retry_backoff` accepts the intervals that backoffs are sent as. -/
theorem PgInterval.backoffCheck_iff_exists {iv : PgInterval} :
    iv.BackoffCheck ↔ ∃ b : RetryBackoff, b.toPgInterval = iv := by
  constructor
  · intro h
    obtain ⟨hm, hd, hnonneg⟩ := backoffCheck_iff.mp h
    exact ⟨⟨iv.microseconds, hnonneg, iv.wide.2.2.2⟩, fromMicroseconds_eq hm hd _⟩
  · rintro ⟨b, rfl⟩
    exact b.backoffCheck

/-- How the three rules for one kind of duration fit together: `Check` is the SQL constraint, and
`lo` is the least number of microseconds. -/
structure Agree {D : Type} (tryFrom : Duration → Except LeaseDurationError D)
    (asDuration : D → Duration) (toPgInterval : D → PgInterval)
    (fromPgInterval : PgInterval → Except LeaseDurationError D) (Check : PgInterval → Prop)
    (lo : ℤ) : Prop where
  accepts : ∀ d, (∃ x, tryFrom d = .ok x) ↔ ∃ n, d.IsMicros n ∧ lo ≤ n ∧ n ≤ i64Max
  returns : ∀ d x, tryFrom d = .ok x → asDuration x = d
  stored : ∀ x, fromPgInterval (toPgInterval x) = .ok x
  checks : ∀ iv, (∃ x, fromPgInterval iv = .ok x) ↔ Check iv
  loaded : ∀ iv x, fromPgInterval iv = .ok x → toPgInterval x = iv

/-- **Durations, intervals and CHECKs agree over their whole ranges.** -/
theorem durations_agree :
    Agree LeaseDuration.tryFrom LeaseDuration.asDuration LeaseDuration.toPgInterval
      LeaseDuration.fromPgInterval PgInterval.LeaseCheck 1 ∧
    Agree RetryBackoff.tryFrom RetryBackoff.asDuration RetryBackoff.toPgInterval
      RetryBackoff.fromPgInterval PgInterval.BackoffCheck 0 := by
  refine ⟨⟨fun d => ?_, fun d l h => ?_, fun l => ?_, fun iv => ?_, fun iv l h => ?_⟩,
    ⟨fun d => ?_, fun d b h => ?_, fun b => ?_, fun iv => ?_, fun iv b h => ?_⟩⟩
  · constructor
    · rintro ⟨l, h⟩
      exact ⟨l.micros, LeaseDuration.tryFrom_eq_ok_iff.mp h, l.range⟩
    · rintro ⟨n, h, hrange⟩
      exact ⟨⟨n, hrange⟩, LeaseDuration.tryFrom_eq_ok_iff.mpr h⟩
  · exact Duration.fromMicros_of_isMicros (LeaseDuration.tryFrom_eq_ok_iff.mp h) _
  · exact LeaseDuration.fromPgInterval_eq_ok_iff.mpr rfl
  · simp only [LeaseDuration.fromPgInterval_eq_ok_iff, PgInterval.leaseCheck_iff_exists]
  · exact LeaseDuration.fromPgInterval_eq_ok_iff.mp h
  · constructor
    · rintro ⟨b, h⟩
      exact ⟨b.micros, RetryBackoff.tryFrom_eq_ok_iff.mp h, b.range⟩
    · rintro ⟨n, h, hrange⟩
      exact ⟨⟨n, hrange⟩, RetryBackoff.tryFrom_eq_ok_iff.mpr h⟩
  · exact Duration.fromMicros_of_isMicros (RetryBackoff.tryFrom_eq_ok_iff.mp h) _
  · exact RetryBackoff.fromPgInterval_eq_ok_iff.mpr rfl
  · simp only [RetryBackoff.fromPgInterval_eq_ok_iff, PgInterval.backoffCheck_iff_exists]
  · exact RetryBackoff.fromPgInterval_eq_ok_iff.mp h

/-! ## Identifiers -/

theorem firstViolation_eq_error {cs : List (Bool × DbError)} {e : DbError}
    (h : firstViolation cs = .error e) : (false, e) ∈ cs := by
  induction cs with
  | nil => exact nomatch h
  | cons c cs ih =>
    obtain ⟨_ | _, e'⟩ := c
    · obtain rfl := Except.error.inj h
      exact List.mem_cons_self
    · exact List.mem_cons_of_mem _ (ih h)

theorem firstViolation_ne {cs : List (Bool × DbError)} {e : DbError}
    (h : ∀ b, (b, e) ∈ cs → b = true) : firstViolation cs ≠ .error e :=
  fun he => absurd (h false (firstViolation_eq_error he)) (by simp)

/-! A row with a valid name, worker and key does not violate the CHECKs on them. -/

theorem SchedulerJob.check_ne_name {j : SchedulerJob} (h : NameCheck j.name) :
    j.check ≠ .error (.checkViolation "scheduler_jobs_name_check") := by
  refine firstViolation_ne fun b hb => ?_
  simp only [List.mem_cons, Prod.mk.injEq, DbError.checkViolation.injEq, reduceCtorEq, and_false,
    false_or, String.reduceEq, and_true, List.not_mem_nil, or_false] at hb
  exact hb.trans (decide_eq_true h)

theorem Run.check_ne_name {r : Run} (h : NameCheck r.jobName) :
    r.check ≠ .error (.checkViolation "scheduler_runs_name_check") := by
  refine firstViolation_ne fun b hb => ?_
  simp only [List.mem_cons, Prod.mk.injEq, DbError.checkViolation.injEq, reduceCtorEq, and_false,
    false_or, String.reduceEq, and_true, List.not_mem_nil, or_false] at hb
  exact hb.trans (decide_eq_true h)

theorem Run.check_ne_worker {r : Run} (h : ∀ w ∈ r.workerId, NameCheck w) :
    r.check ≠ .error (.checkViolation "scheduler_runs_worker_check") := by
  refine firstViolation_ne fun b hb => ?_
  simp only [List.mem_cons, Prod.mk.injEq, DbError.checkViolation.injEq, reduceCtorEq, and_false,
    false_or, String.reduceEq, and_true, List.not_mem_nil, or_false] at hb
  exact hb.trans (decide_eq_true h)

theorem Run.check_ne_key {r : Run} (h : ∀ k ∈ r.deduplicationKey, LengthCheck k) :
    r.check ≠ .error (.checkViolation "scheduler_runs_deduplication_key_check") := by
  refine firstViolation_ne fun b hb => ?_
  simp only [List.mem_cons, Prod.mk.injEq, DbError.checkViolation.injEq, reduceCtorEq, and_false,
    false_or, String.reduceEq, and_true, List.not_mem_nil, or_false] at hb
  exact hb.trans (decide_eq_true h)

theorem Attempt.check_ne_worker {a : Attempt} (h : NameCheck a.workerId) :
    a.check ≠ .error (.checkViolation "scheduler_run_attempts_worker_id_check") := by
  refine firstViolation_ne fun b hb => ?_
  simp only [List.mem_cons, Prod.mk.injEq, DbError.checkViolation.injEq, reduceCtorEq, and_false,
    false_or, String.reduceEq, and_true, List.not_mem_nil, or_false] at hb
  exact hb.trans (decide_eq_true h)

/-- Within ASCII, the two notions of white space are one. -/
theorem isPosixSpace_of_isWhiteSpace {c : Char} (h : isWhiteSpace c = true) (hc : c.toNat < 128) :
    isPosixSpace c = true := by
  simp only [isWhiteSpace, isPosixSpace, Bool.or_eq_true, Bool.and_eq_true, decide_eq_true_eq,
    beq_iff_eq] at *
  omega

/-- The white space at the ends of the text, if any, is ASCII. -/
def AsciiPadded (s : String) : Prop :=
  (∀ c ∈ s.toList.head?, isWhiteSpace c = true → c.toNat < 128) ∧
    ∀ c ∈ s.toList.getLast?, isWhiteSpace c = true → c.toNat < 128

theorem validateIdentifier_iff_nameCheck {s : String} (hs : AsciiPadded s) :
    validateIdentifier s = .ok () ↔ NameCheck s := by
  refine ⟨nameCheck_of_validateIdentifier, fun h => ?_⟩
  have hwhite : ∀ {c : Char}, (isWhiteSpace c = true → c.toNat < 128) → isPosixSpace c = false →
      isWhiteSpace c = false := by
    intro c hascii hposix
    by_contra hne
    have htrue : isWhiteSpace c = true := by simpa using hne
    exact absurd hposix (by simp [isPosixSpace_of_isWhiteSpace htrue (hascii htrue)])
  obtain ⟨⟨hone, hmax⟩, hhead, hlast⟩ := h
  refine validateIdentifier_eq_ok_iff.mpr ⟨List.ne_nil_of_length_pos hone, ⟨?_, ?_⟩, hmax⟩
  · exact fun c hc => hwhite (hs.1 c hc) (hhead c hc)
  · exact fun c hc => hwhite (hs.2 c hc) (hlast c hc)

/-- How `validate_identifier` and the CHECKs on identifiers fit together. -/
structure IdentifiersAgree : Prop where
  accepts : ∀ s : String, validateIdentifier s = .ok () ↔
    (1 ≤ s.toList.length ∧ s.toList.length ≤ 255) ∧
      (∀ c ∈ s.toList.head?, isWhiteSpace c = false) ∧
      ∀ c ∈ s.toList.getLast?, isWhiteSpace c = false
  scheduleName : ∀ (n : JobName) (j : SchedulerJob), { j with name := n.value }.check ≠
    .error (.checkViolation "scheduler_jobs_name_check")
  runName : ∀ (n : JobName) (r : Run), { r with jobName := n.value }.check ≠
    .error (.checkViolation "scheduler_runs_name_check")
  runWorker : ∀ (w : WorkerId) (r : Run), { r with workerId := some w.value }.check ≠
    .error (.checkViolation "scheduler_runs_worker_check")
  runKey : ∀ (k : DeduplicationKey) (r : Run), { r with deduplicationKey := some k.value }.check ≠
    .error (.checkViolation "scheduler_runs_deduplication_key_check")
  attemptWorker : ∀ (w : WorkerId) (a : Attempt), { a with workerId := w.value }.check ≠
    .error (.checkViolation "scheduler_run_attempts_worker_id_check")
  names : ∀ n : JobName, NameCheck n.value
  workers : ∀ w : WorkerId, NameCheck w.value
  keys : ∀ k : DeduplicationKey, LengthCheck k.value
  same : ∀ s : String, AsciiPadded s → (validateIdentifier s = .ok () ↔ NameCheck s)

/-- **The identifier policy and the CHECKs agree.** -/
theorem identifiers_agree : IdentifiersAgree where
  accepts s := by
    rw [validateIdentifier_eq_ok_iff, ← List.length_pos_iff]
    constructor
    · rintro ⟨hpos, hpad, hmax⟩
      exact ⟨⟨hpos, hmax⟩, hpad⟩
    · rintro ⟨⟨hpos, hmax⟩, hpad⟩
      exact ⟨hpos, hpad, hmax⟩
  scheduleName n j := SchedulerJob.check_ne_name n.nameCheck
  runName n r := Run.check_ne_name n.nameCheck
  runWorker w r := Run.check_ne_worker (by simpa using w.nameCheck)
  runKey k r := Run.check_ne_key (by simpa using k.lengthCheck)
  attemptWorker w a := Attempt.check_ne_worker w.nameCheck
  names n := n.nameCheck
  workers w := w.nameCheck
  keys k := k.lengthCheck
  same s hs := validateIdentifier_iff_nameCheck hs

end PgTaskScheduler
