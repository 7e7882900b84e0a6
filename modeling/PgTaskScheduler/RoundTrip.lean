import PgTaskScheduler.Sessions
import PgTaskScheduler.Validation

/-!
# Schedule definitions survive the round trip

`new_job` encodes a definition for the INSERT, `Job::try_from` decodes the row that the INSERT
returns, after the transaction has committed. What was encoded can be decoded, so a schedule that
has just been stored is never reported as corrupt.
-/

namespace PgTaskScheduler

open Tables ReadCommitted

variable {K : Croner} {spec : CreateJob K} {dbNow next : DateTime} {row : NewJob}

/-! ## Decoding -/

/-- The columns that `Job::try_from` looks at, as Diesel loads them: any interval, any `i32`. -/
structure StoredJob where
  id : JobId
  name : String
  cronExpression : String
  nextRunAt : DateTime
  leaseDuration : PgInterval
  maxAttempts : ℤ
  isPaused : Bool
  createdAt : DateTime
  updatedAt : DateTime
  retryBackoff : PgInterval
  wide : InI32 maxAttempts

variable (K) in
/-- `Job::try_from`, whatever the CHECKs say about the row. -/
def Job.tryFromStored (j : StoredJob) : Except SchedulerError (Job K) := do
  let cron ← CronExpression.parseStored K j.id j.cronExpression
  let leaseDuration ← (LeaseDuration.fromPgInterval j.leaseDuration).mapError
    fun e => .corruptJob j.id (.leaseDuration e)
  let maxAttempts ← (MaxAttempts.fromDbI32 j.maxAttempts).mapError
    fun e => .corruptJob j.id (.maxAttempts e)
  let retryBackoff ← (RetryBackoff.fromPgInterval j.retryBackoff).mapError
    fun e => .corruptJob j.id (.leaseDuration e)
  pure ⟨j.id, j.name, cron, leaseDuration, maxAttempts, retryBackoff, .fromPaused j.isPaused,
    j.nextRunAt, j.createdAt, j.updatedAt⟩

/-- The loaded row, its intervals seen without their CHECKs. -/
def LoadedJob.stored (j : LoadedJob) (h : InI32 j.row.maxAttempts) : StoredJob where
  id := j.row.id
  name := j.row.name
  cronExpression := j.row.cronExpression
  nextRunAt := j.nextRunAt
  leaseDuration := j.row.leaseDuration.val
  maxAttempts := j.row.maxAttempts
  isPaused := j.row.isPaused
  createdAt := j.createdAt
  updatedAt := j.updatedAt
  retryBackoff := j.row.retryBackoff.val
  wide := h

theorem Job.tryFrom_eq (j : LoadedJob) (h : InI32 j.row.maxAttempts) :
    Job.tryFrom K j = Job.tryFromStored K (j.stored h) := rfl

theorem CronExpression.parseInner_eq_ok_iff {source : String} :
    (∃ c, parseInner K source = .ok c) ↔ ∃ p, K.parse source = .ok p := by
  constructor
  · rintro ⟨c, hc⟩
    rcases hp : K.parse source with detail | p
    · have hparse := parse_of_error hp
      unfold parse at hparse
      rw [hc] at hparse
      exact nomatch hparse
    · exact ⟨p, rfl⟩
  · rintro ⟨p, hp⟩
    exact ⟨_, parseInner_of_ok hp⟩

/-- **What can be decoded**: the cron parses, and the intervals and the count are in range. -/
theorem Job.tryFromStored_ok_iff {j : StoredJob} : (∃ job, Job.tryFromStored K j = .ok job) ↔
    (∃ p, K.parse j.cronExpression = .ok p) ∧
    (j.leaseDuration.months = 0 ∧ j.leaseDuration.days = 0 ∧ 0 < j.leaseDuration.microseconds) ∧
    (j.retryBackoff.months = 0 ∧ j.retryBackoff.days = 0 ∧ 0 ≤ j.retryBackoff.microseconds) ∧
    1 ≤ j.maxAttempts := by
  rw [← CronExpression.parseInner_eq_ok_iff, ← PgInterval.leaseCheck_iff,
    ← PgInterval.backoffCheck_iff, PgInterval.leaseCheck_iff_exists,
    PgInterval.backoffCheck_iff_exists]
  constructor
  · rintro ⟨job, h⟩
    obtain ⟨cron, hcron, h⟩ := bind_eq_ok h
    obtain ⟨l, hl, h⟩ := bind_eq_ok h
    obtain ⟨m, hm, h⟩ := bind_eq_ok h
    obtain ⟨b, hb, -⟩ := bind_eq_ok h
    refine ⟨⟨cron, mapError_eq_ok.mp hcron⟩,
      ⟨l, LeaseDuration.fromPgInterval_eq_ok_iff.mp (mapError_eq_ok.mp hl)⟩,
      ⟨b, RetryBackoff.fromPgInterval_eq_ok_iff.mp (mapError_eq_ok.mp hb)⟩, ?_⟩
    have hm := mapError_eq_ok.mp hm
    unfold MaxAttempts.fromDbI32 at hm
    split_ifs at hm with hrange
    exact hrange.1
  · rintro ⟨⟨cron, hcron⟩, ⟨l, hl⟩, ⟨b, hb⟩, hm⟩
    have hmax : MaxAttempts.fromDbI32 j.maxAttempts = .ok ⟨j.maxAttempts, hm, j.wide.2⟩ :=
      dif_pos ⟨hm, j.wide.2⟩
    unfold Job.tryFromStored CronExpression.parseStored
    rw [hcron, LeaseDuration.fromPgInterval_eq_ok_iff.mpr hl, hmax,
      RetryBackoff.fromPgInterval_eq_ok_iff.mpr hb]
    exact ⟨_, rfl⟩

/-! ## Encoding and decoding -/

/-- The projection repeats the definition. -/
structure Job.Repeats (job : Job K) (spec : CreateJob K) : Prop where
  name : job.name = spec.name.value
  cron : job.cron.source = spec.cron.source
  leaseDuration : job.leaseDuration = spec.leaseDuration
  maxAttempts : job.maxAttempts = spec.maxAttempts
  retryBackoff : job.retryBackoff = spec.retryBackoff

/-- The columns that `new_job` and the DO UPDATE of `ensure_job` write. -/
structure SchedulerJob.Encodes (j : SchedulerJob) (spec : CreateJob K) : Prop where
  name : j.name = spec.name.value
  cron : j.cronExpression = spec.cron.source
  leaseDuration : j.leaseDuration = spec.leaseDuration.toInterval
  maxAttempts : j.maxAttempts = spec.maxAttempts.value
  retryBackoff : j.retryBackoff = spec.retryBackoff.toInterval

theorem newJob_eq_ok (h : newJob spec dbNow = .ok row) : ∃ next,
    spec.cron.nextAfter dbNow = .ok next ∧ row =
      { name := spec.name.value
        cronExpression := spec.cron.source
        jobArgs := spec.args
        nextRunAt := next
        leaseDuration := spec.leaseDuration.toInterval
        maxAttempts := spec.maxAttempts.value
        isPaused := spec.lifecycle.isPaused
        retryBackoff := spec.retryBackoff.toInterval } := by
  unfold newJob at h
  rcases hn : spec.cron.nextAfter dbNow with e | next
  · rw [hn] at h
    exact nomatch h
  · rw [hn] at h
    exact ⟨next, rfl, (Except.ok.inj h).symm⟩

theorem exists_newJob (h : spec.cron.nextAfter dbNow = .ok next) :
    ∃ row, newJob spec dbNow = .ok row := by
  unfold newJob
  rw [h]
  exact ⟨_, rfl⟩

theorem toRow_encodes (h : newJob spec dbNow = .ok row) (env : Env) :
    (row.toRow env).Encodes spec := by
  obtain ⟨next, -, rfl⟩ := newJob_eq_ok h
  exact ⟨rfl, rfl, rfl, rfl, rfl⟩

theorem reconcile_encodes (h : newJob spec dbNow = .ok row) {j : SchedulerJob}
    (hname : j.name = row.name) : (j.reconcile row dbNow).Encodes spec := by
  obtain ⟨next, -, rfl⟩ := newJob_eq_ok h
  exact ⟨hname, rfl, rfl, rfl, rfl⟩

namespace SchedulerJob.Encodes

variable {j : SchedulerJob}

theorem check (h : j.Encodes spec) : j.check = .ok () := by
  obtain ⟨hone, hmax⟩ := spec.maxAttempts.range
  simp only [i32Max] at hmax
  simp only [SchedulerJob.check, firstViolation_cons_eq_ok_iff, decide_eq_true_eq,
    firstViolation_nil, and_true, h.maxAttempts, h.name]
  exact ⟨⟨by omega, hmax⟩, hone, spec.name.nameCheck⟩

/-- **What was encoded is decoded**, with the cursor and the lifecycle of the row. -/
theorem tryFrom (h : j.Encodes spec) {loaded : LoadedJob} (hrow : loaded.row = j) :
    ∃ job, Job.tryFrom K loaded = .ok job ∧ job.Repeats spec ∧ job.id = j.id ∧
      job.lifecycle = .fromPaused j.isPaused ∧ job.nextRunAt = loaded.nextRunAt := by
  subst hrow
  have hlease :
      LeaseDuration.fromPgInterval loaded.row.leaseDuration.val = .ok spec.leaseDuration :=
    LeaseDuration.fromPgInterval_eq_ok_iff.mpr (by rw [h.leaseDuration]; rfl)
  have hbackoff : RetryBackoff.fromPgInterval loaded.row.retryBackoff.val = .ok spec.retryBackoff :=
    RetryBackoff.fromPgInterval_eq_ok_iff.mpr (by rw [h.retryBackoff]; rfl)
  have hmax : MaxAttempts.fromDbI32 loaded.row.maxAttempts = .ok spec.maxAttempts := by
    rw [h.maxAttempts]
    exact dif_pos spec.maxAttempts.range
  have hcron : CronExpression.parseInner K loaded.row.cronExpression = .ok spec.cron := by
    rw [h.cron]
    exact CronExpression.parseInner_of_ok spec.cron.parsed
  have hwide : InI32 loaded.row.maxAttempts := by
    obtain ⟨hone, hmax⟩ := spec.maxAttempts.range
    rw [h.maxAttempts]
    exact ⟨(by decide : -i32Max - 1 ≤ 1).trans hone, hmax⟩
  rw [Job.tryFrom_eq loaded hwide]
  unfold Job.tryFromStored CronExpression.parseStored
  dsimp only [LoadedJob.stored]
  rw [hcron, hlease, hmax, hbackoff]
  exact ⟨_, rfl, ⟨h.name, rfl, rfl, rfl, rfl⟩, rfl, rfl, rfl⟩

/-- The run of an occurrence satisfies the CHECKs. -/
theorem materializedRun_check (h : j.Encodes spec) (hcursor : InRange j.nextRunAt) {env env' : Env}
    {job : DueJob} (hread : DueJob.read env j = .ok job) :
    (materializedRun env' job).check = .ok () := by
  obtain ⟨hone, hmax⟩ := spec.maxAttempts.range
  obtain ⟨nextRunAt, hnext, hread⟩ := bind_eq_ok hread
  obtain ⟨dbNow, -, hread⟩ := bind_eq_ok hread
  obtain rfl := Except.ok.inj hread
  have hval : InRange nextRunAt.val := readTimestamp_eq_ok hnext ▸ hcursor
  simp only [i32Max] at hmax
  refine Run.check_eq_ok_iff.mpr ⟨(by decide : InI32 0), ?_, hval, nofun, ?_, nofun, ?_, rfl, nofun⟩
  · simp only [materializedRun, h.maxAttempts, InI32, i32Max]
    omega
  · simp only [Run.AttemptsCheck, materializedRun, h.maxAttempts]
    omega
  · simp only [materializedRun, h.name]
    exact spec.name.nameCheck

end SchedulerJob.Encodes

/-! ## The operations -/

section Operations

variable {env : Env} {snap cur : Store} {w : Patch} {loaded : LoadedJob} {j : SchedulerJob}

theorem LoadedJob.read_eq_ok (h : LoadedJob.read j = .ok loaded) :
    loaded.row = j ∧ loaded.nextRunAt.val = j.nextRunAt := by
  obtain ⟨next, hnext, h⟩ := bind_eq_ok h
  obtain ⟨_, -, h⟩ := bind_eq_ok h
  obtain ⟨_, -, h⟩ := bind_eq_ok h
  obtain rfl := Except.ok.inj h
  exact ⟨rfl, readTimestamp_eq_ok hnext⟩

/-- Diesel loads the instants of the row that an operation leaves as they are. -/
abbrev SchedulerJob.Loads (j : SchedulerJob) : Prop := Decodable j.nextRunAt ∧ Decodable j.createdAt

theorem LoadedJob.exists_read (h : j.Loads) (hupdated : Decodable j.updatedAt) :
    ∃ loaded, LoadedJob.read j = .ok loaded := by
  unfold LoadedJob.read
  rw [readTimestamp_of_decodable h.1, readTimestamp_of_decodable h.2,
    readTimestamp_of_decodable hupdated]
  exact ⟨_, rfl⟩

theorem insertJob_loaded (h : (insertJob row).run env snap cur = .ok (w, loaded)) :
    w = { jobs := { insert := [row.toRow env] } } ∧
      LoadedJob.read (row.toRow env) = .ok loaded := by
  obtain ⟨_, -, h⟩ := bind_eq_ok (mapError_eq_ok.mp h)
  obtain ⟨_, -, h⟩ := bind_eq_ok h
  obtain ⟨_, -, h⟩ := bind_eq_ok h
  obtain ⟨_, -, h⟩ := bind_eq_ok h
  obtain ⟨_, hread, h⟩ := bind_eq_ok h
  obtain ⟨rfl, rfl⟩ := Prod.mk.inj (Except.ok.inj h)
  exact ⟨rfl, hread⟩

theorem upsertJob_loaded (h : (upsertJob row dbNow).run env snap cur = .ok (w, loaded)) :
    (∃ b ∈ cur.jobs, b.name = row.name ∧ w = { jobs := { update := [b.reconcile row dbNow] } } ∧
      LoadedJob.read (b.reconcile row dbNow) = .ok loaded) ∨
    (∀ b ∈ cur.jobs, b.name ≠ row.name) ∧ w = { jobs := { insert := [row.toRow env] } } ∧
      LoadedJob.read (row.toRow env) = .ok loaded := by
  obtain ⟨_, -, h⟩ := bind_eq_ok (mapError_eq_ok.mp h)
  obtain ⟨_, -, h⟩ := bind_eq_ok h
  obtain ⟨_, -, h⟩ := bind_eq_ok h
  rcases hf : cur.jobs.find? fun b => b.name = (row.toRow env).name with _ | b
  · rw [hf] at h
    obtain ⟨_, -, h⟩ := bind_eq_ok h
    obtain ⟨_, hread, h⟩ := bind_eq_ok h
    obtain ⟨rfl, rfl⟩ := Prod.mk.inj (Except.ok.inj h)
    rw [List.find?_eq_none] at hf
    exact Or.inr ⟨fun b hb he => hf b hb (decide_eq_true he), rfl, hread⟩
  · rw [hf] at h
    obtain ⟨_, -, h⟩ := bind_eq_ok h
    obtain ⟨_, hread, h⟩ := bind_eq_ok h
    obtain ⟨rfl, rfl⟩ := Prod.mk.inj (Except.ok.inj h)
    exact Or.inl ⟨b, List.mem_of_find?_eq_some hf, of_decide_eq_true (List.find?_some hf :), rfl,
      hread⟩

/-- The projection of a row that encodes the definition. -/
structure Job.Projects (job : Job K) (j : SchedulerJob) (spec : CreateJob K) : Prop where
  encodes : j.Encodes spec
  repeats : job.Repeats spec
  id : job.id = j.id
  lifecycle : job.lifecycle = .fromPaused j.isPaused
  nextRunAt : job.nextRunAt.val = j.nextRunAt

theorem SchedulerJob.Encodes.projected (h : j.Encodes spec)
    (hread : LoadedJob.read j = .ok loaded) :
    ∃ job, Job.tryFrom K loaded = .ok job ∧ job.Projects j spec := by
  obtain ⟨hrow, hnext⟩ := LoadedJob.read_eq_ok hread
  obtain ⟨job, hjob, hrepeats, hid, hlifecycle, hcursor⟩ := h.tryFrom hrow
  exact ⟨job, hjob, h, hrepeats, hid, hlifecycle, hcursor ▸ hnext⟩

/-- The row that the upsert returns is decoded. -/
theorem upsertJob_decoded (hrow : newJob spec dbNow = .ok row)
    (h : (upsertJob row dbNow).run env snap cur = .ok (w, loaded)) :
    ∃ job, Job.tryFrom K loaded = .ok job := by
  obtain ⟨b, -, hname, -, hread⟩ | ⟨-, -, hread⟩ := upsertJob_loaded h
  · obtain ⟨job, hjob, -⟩ := (reconcile_encodes hrow hname).projected hread
    exact ⟨job, hjob⟩
  · obtain ⟨job, hjob, -⟩ := (toRow_encodes hrow env).projected hread
    exact ⟨job, hjob⟩

@[simp] theorem JobLifecycle.fromPaused_isPaused (l : JobLifecycle) :
    fromPaused l.isPaused = l := by
  cases l <;> rfl

/-- What a new row shows: the cursor and the lifecycle of the definition. -/
theorem Job.Projects.new {job : Job K} (h : newJob spec dbNow = .ok row)
    (hjob : job.Projects (row.toRow env) spec) :
    job.lifecycle = spec.lifecycle ∧ spec.cron.nextAfter dbNow = .ok job.nextRunAt := by
  obtain ⟨next, hnext, rfl⟩ := newJob_eq_ok h
  refine ⟨hjob.lifecycle.trans spec.lifecycle.fromPaused_isPaused, ?_⟩
  exact hnext.trans (congrArg Except.ok (Subtype.ext hjob.nextRunAt.symm))

end Operations

/-- The answer reports no corrupt row. -/
def Uncorrupted {α : Type} (a : Except SchedulerError α) : Prop :=
  ∀ id source, a ≠ .error (.corruptJob id source)

theorem newJob_error {e : SchedulerError} (h : newJob spec dbNow = .error e) :
    ∃ c, e = .cron c := by
  unfold newJob CronExpression.nextAfter at h
  rcases hf : K.findNextOccurrence spec.cron.schedule dbNow with detail | next
  · rw [hf] at h
    exact ⟨_, (Except.error.inj h).symm⟩
  · rw [hf] at h
    exact nomatch h

/-- A statement of an operation that reports no corrupt row. -/
theorem yields_query {α β : Type} {q : Query β} {k : β → Program α}
    (herr : ∀ env snap cur e, q.run env snap cur = .error e → ∃ d, e = .database d)
    (h : ∀ env snap cur w b, q.run env snap cur = .ok (w, b) → (k b).Yields Uncorrupted) :
    (Prog.stmt q k).Yields Uncorrupted := by
  refine fun env snap cur => ⟨fun e he id source hc => ?_, h env snap cur⟩
  obtain ⟨d, rfl⟩ := herr env snap cur e he
  exact nomatch hc

theorem createJob_yields : (createJob K spec).Yields Uncorrupted := by
  refine yields_query (fun _ _ _ _ => query_error) fun env snap cur w dbNow _ => ?_
  rcases hrow : newJob spec dbNow with e | row
  · obtain ⟨c, rfl⟩ := newJob_error hrow
    exact fun _ _ h => nomatch h
  · refine yields_query (fun _ _ _ _ => query_error) fun env snap cur w loaded hw => ?_
    obtain ⟨job, hjob, -⟩ := (toRow_encodes hrow env).projected (insertJob_loaded hw).2
    show Uncorrupted (Job.tryFrom K loaded)
    rw [hjob]
    exact fun _ _ h => nomatch h

theorem ensureJob_yields : (ensureJob K spec).Yields Uncorrupted := by
  refine yields_query (fun _ _ _ _ => query_error) fun env snap cur w dbNow _ => ?_
  rcases hrow : newJob spec dbNow with e | row
  · obtain ⟨c, rfl⟩ := newJob_error hrow
    exact fun _ _ h => nomatch h
  · refine yields_query (fun _ _ _ _ => query_error) fun env snap cur w loaded hw => ?_
    show Uncorrupted (Job.tryFrom K loaded)
    obtain ⟨job, hjob⟩ := upsertJob_decoded hrow hw
    rw [hjob]
    exact fun _ _ h => nomatch h

section Exec

variable {env : ℕ → Env} {s : Store}

/-- `create` fails, or stores the row of `new_job` and answers its projection. -/
theorem createJob_exec : (∃ e, (createJob K spec).exec db env s s = (.error e, s)) ∨
    ∃ dbNow row job, dbNow.val = (env 0).now ∧ newJob spec dbNow = .ok row ∧
      (createJob K spec).exec db env s s =
        (.ok job, s.apply { jobs := { insert := [row.toRow (env 0)] } }) ∧
      job.Projects (row.toRow (env 0)) spec := by
  unfold createJob
  rcases hnow : fetchDbNow.run (env 0) s s with e | ⟨w, dbNow⟩
  · exact Or.inl ⟨e, Prog.exec_stmt_error hnow⟩
  obtain ⟨rfl, hread⟩ := readQuery_ok hnow
  rw [Prog.exec_stmt_ok hnow, db_apply, Store.apply_empty]
  rcases hrow : newJob spec dbNow with e | row
  · exact Or.inl ⟨e, rfl⟩
  rcases hins : (insertJob row).run (env 0) s s with e | ⟨w, loaded⟩
  · exact Or.inl ⟨e, Prog.exec_stmt_error hins⟩
  obtain ⟨rfl, hloaded⟩ := insertJob_loaded hins
  obtain ⟨job, hjob, hprojects⟩ := (toRow_encodes hrow (env 0)).projected hloaded
  refine Or.inr ⟨dbNow, row, job, readTimestamp_eq_ok hread, hrow, ?_, hprojects⟩
  dsimp only
  rw [Prog.exec_stmt_ok hins, db_apply]
  show (Job.tryFrom K loaded, _) = _
  rw [hjob]

/-- `ensure_job` fails, reconciles the row with the name, or stores a new one. -/
theorem ensureJob_exec : (∃ e, (ensureJob K spec).exec db env s s = (.error e, s)) ∨
    ∃ dbNow row job, dbNow.val = (env 0).now ∧ newJob spec dbNow = .ok row ∧
      ((∃ b ∈ s.jobs, b.name = row.name ∧ (ensureJob K spec).exec db env s s =
          (.ok job, s.apply { jobs := { update := [b.reconcile row dbNow] } }) ∧
        job.Projects (b.reconcile row dbNow) spec) ∨
      (∀ b ∈ s.jobs, b.name ≠ row.name) ∧ (ensureJob K spec).exec db env s s =
          (.ok job, s.apply { jobs := { insert := [row.toRow (env 0)] } }) ∧
        job.Projects (row.toRow (env 0)) spec) := by
  unfold ensureJob
  rcases hnow : fetchDbNow.run (env 0) s s with e | ⟨w, dbNow⟩
  · exact Or.inl ⟨e, Prog.exec_stmt_error hnow⟩
  obtain ⟨rfl, hread⟩ := readQuery_ok hnow
  rw [Prog.exec_stmt_ok hnow, db_apply, Store.apply_empty]
  rcases hrow : newJob spec dbNow with e | row
  · exact Or.inl ⟨e, rfl⟩
  dsimp only
  rcases hups : (upsertJob row dbNow).run (env 0) s s with e | ⟨w, loaded⟩
  · exact Or.inl ⟨e, Prog.exec_stmt_error hups⟩
  rw [Prog.exec_stmt_ok hups, db_apply]
  obtain ⟨b, hb, hname, rfl, hloaded⟩ | ⟨hnew, rfl, hloaded⟩ := upsertJob_loaded hups
  · obtain ⟨job, hjob, hprojects⟩ := (reconcile_encodes hrow hname).projected hloaded
    refine Or.inr ⟨dbNow, row, job, readTimestamp_eq_ok hread, hrow,
      Or.inl ⟨b, hb, hname, ?_, hprojects⟩⟩
    show (Job.tryFrom K loaded, _) = _
    rw [hjob]
  · obtain ⟨job, hjob, hprojects⟩ := (toRow_encodes hrow (env 0)).projected hloaded
    refine Or.inr ⟨dbNow, row, job, readTimestamp_eq_ok hread, hrow,
      Or.inr ⟨hnew, ?_, hprojects⟩⟩
    show (Job.tryFrom K loaded, _) = _
    rw [hjob]

/-- What a transaction with the readings `env` needs to store the definition: texts without
`U+0000`, an instant that PostgreSQL and Diesel hold, a next occurrence, and a fresh id for a new
name. -/
structure CreateJob.Storable (spec : CreateJob K) (env : Env) (s : Store) : Prop where
  name : TextOk spec.name.value
  cron : TextOk spec.cron.source
  args : hasNulEscape spec.args.text.toList = false
  now : InRange env.now ∧ Decodable env.now
  next : ∀ dbNow : DateTime, dbNow.val = env.now → ∃ next, spec.cron.nextAfter dbNow = .ok next
  id : (∀ b ∈ s.jobs, b.name ≠ spec.name.value) → ∀ b ∈ s.jobs, b.id ≠ env.jobId

namespace CreateJob.Storable

variable {env : Env} {s : Store}

theorem bind (h : spec.Storable env s) (hK : K.StrictlyAfter) (hnow : dbNow.val = env.now)
    (hrow : newJob spec dbNow = .ok row) : row.bind = .ok () := by
  obtain ⟨next, hnext, rfl⟩ := newJob_eq_ok hrow
  have hrange := CronExpression.nextAfter_inRange hK hnext (hnow ▸ h.now.1.1)
  simp only [NewJob.bind, bindJson, bindTimestamp, bindText_eq_ok_iff.mpr h.name,
    bindText_eq_ok_iff.mpr h.cron, h.args, if_pos hrange]
  rfl

theorem read (h : spec.Storable env s) (hrow : newJob spec dbNow = .ok row) :
    ∃ loaded, LoadedJob.read (row.toRow env) = .ok loaded := by
  obtain ⟨next, -, rfl⟩ := newJob_eq_ok hrow
  exact LoadedJob.exists_read ⟨next.property, h.now.2⟩ h.now.2

/-- `SELECT now()` and `new_job` succeed. -/
theorem exists_row (h : spec.Storable env s) : ∃ dbNow row, dbNow.val = env.now ∧
    fetchDbNow.run env s s = .ok ({}, dbNow) ∧ newJob spec dbNow = .ok row := by
  have hread : readTimestamp env.now = .ok ⟨env.now, h.now.2⟩ := readTimestamp_of_decodable h.now.2
  obtain ⟨next, hnext⟩ := h.next ⟨env.now, h.now.2⟩ rfl
  obtain ⟨row, hrow⟩ := exists_newJob hnext
  refine ⟨_, row, rfl, ?_, hrow⟩
  show ((readTimestamp env.now).map fun b => (({} : Patch), b)).mapError SchedulerError.database = _
  rw [hread]
  rfl

theorem insertJob_ok (h : spec.Storable env s) (hK : K.StrictlyAfter) (hnow : dbNow.val = env.now)
    (hrow : newJob spec dbNow = .ok row) (hname : ∀ b ∈ s.jobs, b.name ≠ spec.name.value) :
    ∃ w loaded, (insertJob row).run env s s = .ok (w, loaded) := by
  obtain ⟨loaded, hread⟩ := h.read hrow
  have hid : checkJobId (row.toRow env) s.jobs = .ok () := checkJobId_eq_ok_iff.mpr (h.id hname)
  have hfree : ∀ b ∈ s.jobs, b.name ≠ (row.toRow env).name := fun b hb he =>
    hname b hb (he.trans (newJob_name hrow))
  refine ⟨{ jobs := { insert := [row.toRow env] } }, loaded, mapError_eq_ok.mpr ?_⟩
  simp only [h.bind hK hnow hrow, (toRow_encodes hrow env).check, hid, hread, firstViolation,
    decide_eq_true hfree]
  rfl

theorem upsertJob_ok (h : spec.Storable env s) (hK : K.StrictlyAfter) (hnow : dbNow.val = env.now)
    (hrow : newJob spec dbNow = .ok row) (hloads : ∀ b ∈ s.jobs, b.Loads) :
    ∃ w loaded, (upsertJob row dbNow).run env s s = .ok (w, loaded) := by
  have hbind : bindTimestamp dbNow = .ok () := if_pos (hnow ▸ h.now.1)
  rcases hf : s.jobs.find? fun b => b.name = (row.toRow env).name with _ | b
  · have hname : ∀ b ∈ s.jobs, b.name ≠ spec.name.value := fun b hb he =>
      List.find?_eq_none.mp hf b hb (decide_eq_true (he.trans (newJob_name hrow).symm))
    obtain ⟨loaded, hread⟩ := h.read hrow
    have hid : checkJobId (row.toRow env) s.jobs = .ok () := checkJobId_eq_ok_iff.mpr (h.id hname)
    refine ⟨{ jobs := { insert := [row.toRow env] } }, loaded, mapError_eq_ok.mpr ?_⟩
    simp only [h.bind hK hnow hrow, hbind, (toRow_encodes hrow env).check, hf, hid, hread]
    rfl
  · have hname : b.name = row.name := of_decide_eq_true (List.find?_some hf :)
    obtain ⟨loaded, hread⟩ : ∃ loaded, LoadedJob.read (b.reconcile row dbNow) = .ok loaded :=
      LoadedJob.exists_read (hloads b (List.mem_of_find?_eq_some hf)) dbNow.property
    refine ⟨{ jobs := { update := [b.reconcile row dbNow] } }, loaded, mapError_eq_ok.mpr ?_⟩
    simp only [h.bind hK hnow hrow, hbind, (toRow_encodes hrow env).check, hf,
      (reconcile_encodes hrow hname).check, hread]
    rfl

end CreateJob.Storable

/-- `create` does not fail on a definition that can be stored under a new name. -/
theorem createJob_not_error (h : spec.Storable (env 0) s) (hK : K.StrictlyAfter)
    (hname : ∀ b ∈ s.jobs, b.name ≠ spec.name.value) :
    ¬ ∃ e, (createJob K spec).exec db env s s = (.error e, s) := by
  rintro ⟨e, he⟩
  obtain ⟨dbNow, row, hnow, hfetch, hrow⟩ := h.exists_row
  obtain ⟨w, loaded, hins⟩ := h.insertJob_ok hK hnow hrow hname
  obtain ⟨-, hread⟩ := insertJob_loaded hins
  obtain ⟨job, hjob, -⟩ := (toRow_encodes hrow (env 0)).projected hread
  unfold createJob at he
  rw [Prog.exec_stmt_ok hfetch, db_apply, Store.apply_empty, hrow] at he
  dsimp only at he
  rw [Prog.exec_stmt_ok hins] at he
  exact absurd (hjob.symm.trans (congrArg Prod.fst he)) (by simp)

/-- `ensure_job` does not fail on a definition that can be stored. -/
theorem ensureJob_not_error (h : spec.Storable (env 0) s) (hK : K.StrictlyAfter)
    (hloads : ∀ b ∈ s.jobs, b.Loads) :
    ¬ ∃ e, (ensureJob K spec).exec db env s s = (.error e, s) := by
  rintro ⟨e, he⟩
  obtain ⟨dbNow, row, hnow, hfetch, hrow⟩ := h.exists_row
  obtain ⟨w, loaded, hups⟩ := h.upsertJob_ok hK hnow hrow hloads
  obtain ⟨job, hjob⟩ := upsertJob_decoded hrow hups
  unfold ensureJob at he
  rw [Prog.exec_stmt_ok hfetch, db_apply, Store.apply_empty, hrow] at he
  dsimp only at he
  rw [Prog.exec_stmt_ok hups] at he
  exact absurd (hjob.symm.trans (congrArg Prod.fst he)) (by simp)

end Exec

/-! ## The round trip -/

/-- A definition, stored and projected. -/
structure CreateJob.RoundTrips (spec : CreateJob K) : Prop where
  /-- the row of `new_job` satisfies the CHECKs and is projected to the definition -/
  row : ∀ dbNow next, spec.cron.nextAfter dbNow = .ok next → ∃ row, newJob spec dbNow = .ok row ∧
    row.leaseDuration.val.LeaseCheck ∧ row.retryBackoff.val.BackoffCheck ∧
    ∀ env, (row.toRow env).check = .ok () ∧ (Decodable env.now → ∃ loaded job,
      LoadedJob.read (row.toRow env) = .ok loaded ∧ Job.tryFrom K loaded = .ok job ∧
      job.Repeats spec ∧ job.lifecycle = spec.lifecycle ∧ job.nextRunAt = next)
  created : ∀ env s job s', (createJob K spec).exec db env s s = (.ok job, s') → job.Repeats spec ∧
    job.lifecycle = spec.lifecycle ∧
    (∃ dbNow, dbNow.val = (env 0).now ∧ spec.cron.nextAfter dbNow = .ok job.nextRunAt) ∧
    ∃ j, s' = s.apply { jobs := { insert := [j] } } ∧ job.Projects j spec
  /-- on an existing name the cursor and the lifecycle are the stored ones -/
  ensured : ∀ env s job s', (ensureJob K spec).exec db env s s = (.ok job, s') → job.Repeats spec ∧
    ((∃ b ∈ s.jobs, b.name = spec.name.value ∧ job.id = b.id ∧ job.nextRunAt.val = b.nextRunAt ∧
      job.lifecycle = .fromPaused b.isPaused ∧
      ∃ j, s' = s.apply { jobs := { update := [j] } } ∧ job.Projects j spec) ∨
    (∀ b ∈ s.jobs, b.name ≠ spec.name.value) ∧ job.lifecycle = spec.lifecycle ∧
      (∃ dbNow, dbNow.val = (env 0).now ∧ spec.cron.nextAfter dbNow = .ok job.nextRunAt) ∧
      ∃ j, s' = s.apply { jobs := { insert := [j] } } ∧ job.Projects j spec)
  /-- the run that the materializer inserts from a stored row satisfies the CHECKs -/
  materialized : ∀ (job : Job K) j, job.Projects j spec → InRange j.nextRunAt →
    ∀ env env' due, DueJob.read env j = .ok due → (materializedRun env' due).check = .ok ()

theorem CreateJob.roundTrips (spec : CreateJob K) : spec.RoundTrips where
  row dbNow next hnext := by
    obtain ⟨row, hrow⟩ := exists_newJob hnext
    obtain ⟨next', hnext', he⟩ := newJob_eq_ok hrow
    obtain rfl : next = next' := Except.ok.inj (hnext.symm.trans hnext')
    refine ⟨row, hrow, row.leaseDuration.property, row.retryBackoff.property, fun env =>
      ⟨(toRow_encodes hrow env).check, fun hnow => ?_⟩⟩
    have hcursor : (row.toRow env).nextRunAt = next.val := by
      rw [he]
      rfl
    obtain ⟨loaded, hread⟩ := LoadedJob.exists_read
      ⟨hcursor ▸ next.property, show Decodable env.now from hnow⟩ (show Decodable env.now from hnow)
    obtain ⟨job, hjob, hprojects⟩ := (toRow_encodes hrow env).projected hread
    obtain ⟨hlifecycle, hcursor⟩ := hprojects.new hrow
    exact ⟨_, job, hread, hjob, hprojects.repeats, hlifecycle,
      Except.ok.inj (hcursor.symm.trans hnext)⟩
  created env s job s' h := by
    rcases @createJob_exec K spec env s with
      ⟨e, he⟩ | ⟨dbNow, row, job', hnow, hrow, hexec, hprojects⟩
    · exact absurd (he.symm.trans h) (by simp)
    · obtain ⟨hjob, rfl⟩ := Prod.mk.inj (hexec.symm.trans h)
      obtain rfl := Except.ok.inj hjob
      obtain ⟨hlifecycle, hcursor⟩ := hprojects.new hrow
      exact ⟨hprojects.repeats, hlifecycle, ⟨dbNow, hnow, hcursor⟩, _, rfl, hprojects⟩
  ensured env s job s' h := by
    rcases @ensureJob_exec K spec env s with
      ⟨e, he⟩ | ⟨dbNow, row, job', hnow, hrow, hexec⟩
    · exact absurd (he.symm.trans h) (by simp)
    have hname : row.name = spec.name.value := by
      obtain ⟨next, -, rfl⟩ := newJob_eq_ok hrow
      rfl
    rw [hname] at hexec
    rcases hexec with ⟨b, hb, hbname, hexec, hprojects⟩ | ⟨hnew, hexec, hprojects⟩
    · obtain ⟨hjob, rfl⟩ := Prod.mk.inj (hexec.symm.trans h)
      obtain rfl := Except.ok.inj hjob
      exact ⟨hprojects.repeats, Or.inl ⟨b, hb, hbname, hprojects.id, hprojects.nextRunAt,
        hprojects.lifecycle, _, rfl, hprojects⟩⟩
    · obtain ⟨hjob, rfl⟩ := Prod.mk.inj (hexec.symm.trans h)
      obtain rfl := Except.ok.inj hjob
      obtain ⟨hlifecycle, hcursor⟩ := hprojects.new hrow
      exact ⟨hprojects.repeats,
        Or.inr ⟨hnew, hlifecycle, ⟨dbNow, hnow, hcursor⟩, _, rfl, hprojects⟩⟩
  materialized job j hprojects hcursor env env' due hread :=
    hprojects.encodes.materializedRun_check hcursor hread

variable {ι : Type} [DecidableEq ι] {y : Sessions K ι} {ls : List (ι × Act (Call K) Env)}

/-- The operations that store a definition. -/
def Call.Registers (c : Call K) : Prop :=
  (∃ spec, c = .createJob spec) ∨ ∃ spec, c = .ensureJob spec

theorem registers_yields (c : Call K) :
    (program K c).Yields fun a => c.Registers → Uncorrupted a := by
  have hmap : ∀ {spec : CreateJob K} {p : Program (Job K)}, p.Yields Uncorrupted →
      (p.map Answer.job).Yields fun a => c.Registers → Uncorrupted a := by
    refine fun h => Prog.Yields.map _ (h.mono fun a ha _ id source he => ?_)
    rcases a with e | job
    · exact ha id source (congrArg Except.error (Except.error.inj he))
    · exact nomatch he
  have hother : ¬ c.Registers → (program K c).Yields fun a => c.Registers → Uncorrupted a :=
    fun hc => Prog.yields_of_forall (fun _ h => absurd h hc) _
  cases c with
  | createJob spec => exact @hmap spec _ createJob_yields
  | ensureJob spec => exact @hmap spec _ ensureJob_yields
  | _ => exact hother (by simp [Call.Registers])

/-- **Schedule definitions survive the round trip**, and a row is decoded only if its columns are
what a definition encodes to. -/
theorem schedule_round_trip (h : Sessions.Reached ls y) (spec : CreateJob K) : spec.RoundTrips ∧
    (∀ i id source, (y.session i).call.Registers →
      (y.session i).prog ≠ .ret (.error (.corruptJob id source))) ∧
    ∀ j : StoredJob, (∃ job, Job.tryFromStored K j = .ok job) ↔
      (∃ p, K.parse j.cronExpression = .ok p) ∧
      (j.leaseDuration.months = 0 ∧ j.leaseDuration.days = 0 ∧ 0 < j.leaseDuration.microseconds) ∧
      (j.retryBackoff.months = 0 ∧ j.retryBackoff.days = 0 ∧ 0 ≤ j.retryBackoff.microseconds) ∧
      1 ≤ j.maxAttempts := by
  refine ⟨spec.roundTrips, fun i id source hc hp => ?_, fun j => Job.tryFromStored_ok_iff⟩
  have hyields := h.yields registers_yields (fun _ hc => absurd hc (by
    simp [Call.Registers, Sessions.initial, Session.start])) i
  rw [hp] at hyields
  exact hyields hc id source rfl

/-- A schedule that is due every second. -/
def nightly : CreateJob .everySecond :=
  ⟨⟨"nightly", rfl⟩, ⟨"* * * * * *", (), rfl⟩, ⟨"\x7b\x7d"⟩, .default, .default, .active, .default⟩

/-- The schedule is created, in one transaction of two statements. -/
def registering : List (Unit × Act (Call .everySecond) Env) :=
  ((), .call (.createJob nightly)) :: (statement () 1 ++ statement () 1 ++ [((), .commit)])

theorem schedule_round_trip_nightly : ∃ y : Sessions .everySecond Unit,
    Sessions.Reached registering y ∧ y.committed.jobs.map SchedulerJob.nextRunAt = [1000001] ∧
      nightly.RoundTrips := by
  have h : (Sessions.play _ _ registering).map (fun y =>
      y.committed.jobs.map SchedulerJob.nextRunAt) = some [1000001] := by decide +kernel
  obtain ⟨y, hy, he⟩ := Option.map_eq_some_iff.mp h
  exact ⟨y, play_reached hy, he, (schedule_round_trip (play_reached hy) nightly).1⟩

end PgTaskScheduler
