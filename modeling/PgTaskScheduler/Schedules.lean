import PgTaskScheduler.Readings
import PgTaskScheduler.RoundTrip
import PgTaskScheduler.Snapshots
import PgTaskScheduler.Timing

/-!
# Who may change a schedule

Only the materializer and `reschedule` move a cursor, only `pause` and the materializer pause, only
`resume` resumes. `ensure_job` stores every definition that can be stored, and leaves cursor and
lifecycle of an existing schedule alone. So as long as nobody reschedules or deletes a schedule, an
occurrence that is due is either still due or has its run (`occurrence_run`), and a paused schedule
stays paused until it is resumed (`paused_run`).
-/

namespace PgTaskScheduler

open Tables ReadCommitted

variable {K : Croner} {Ok : Env → Prop} {c : Call K} {s s' : Store} {id : JobId}

/-! ## One commit -/

/-- Who may change the schedules, and how, with readings that satisfy `Ok`. -/
structure Lawful (Ok : Env → Prop) (c : Call K) (s s' : Store) : Prop where
  cursor : ∀ id j j', lookup SchedulerJob.id id s.jobs = some j →
    lookup SchedulerJob.id id s'.jobs = some j' → j'.nextRunAt ≠ j.nextRunAt →
    (c.Materializes ∧ j.isPaused = false ∧
      ∃ env, Ok env ∧ j.nextRunAt ≤ env.now ∧ env.now < j'.nextRunAt) ∨
    ∃ update, c = .reschedule id update
  paused : ∀ id j j', lookup SchedulerJob.id id s.jobs = some j →
    lookup SchedulerJob.id id s'.jobs = some j' → j.isPaused = false → j'.isPaused = true →
    c = .pause id ∨ c.Materializes ∧ ∃ e, CronExpression.parse K j.cronExpression = .error e
  resumed : ∀ id j j', lookup SchedulerJob.id id s.jobs = some j →
    lookup SchedulerJob.id id s'.jobs = some j' → j.isPaused = true → j'.isPaused = false →
    c = .resume id
  /-- no run is created for a paused schedule -/
  created : ∀ r ∈ s'.runs, (∀ b ∈ s.runs, b.id ≠ r.id) → ∀ id, r.jobId = some id →
    c.Materializes ∧ ∃ j, lookup SchedulerJob.id id s.jobs = some j ∧ j.isPaused = false

theorem SchedulerJob.of_due {env : Env} {j : SchedulerJob} (h : j.due env) :
    j.nextRunAt ≤ env.now ∧ j.isPaused = false := by
  simpa [SchedulerJob.due] using h

theorem JobChange.cursor (hK : K.StrictlyAfter) {j j' : SchedulerJob}
    (h : JobChange Ok c (some j) (some j')) (hid : j.id = id) (hne : j'.nextRunAt ≠ j.nextRunAt) :
    (c.Materializes ∧ j.isPaused = false ∧
      ∃ env, Ok env ∧ j.nextRunAt ≤ env.now ∧ env.now < j'.nextRunAt) ∨
    ∃ update, c = .reschedule id update := by
  cases h with
  | advanced hOk _ hc hdue hnow hcron hnext =>
    obtain ⟨hle, hpaused⟩ := SchedulerJob.of_due hdue
    have hgt := CronExpression.nextAfter_gt hK hnext
    rw [hnow] at hgt
    exact Or.inl ⟨hc, hpaused, _, hOk, hle, hgt⟩
  | pinned _ hid' => exact Or.inr ⟨_, by rw [← hid, hid']⟩
  | reset _ hid' => exact Or.inr ⟨_, by rw [← hid, hid']⟩
  | _ => exact absurd rfl hne

theorem JobChange.pauses {j j' : SchedulerJob} (h : JobChange Ok c (some j) (some j'))
    (hid : j.id = id) (hj : j.isPaused = false) (hj' : j'.isPaused = true) :
    c = .pause id ∨ c.Materializes ∧ ∃ e, CronExpression.parse K j.cronExpression = .error e := by
  have hsame : ∀ {p : Prop}, j.isPaused = true → p := fun h => absurd (h.symm.trans hj) (by simp)
  cases h with
  | corrupt _ _ hc _ hcron => exact Or.inr ⟨hc, _, hcron⟩
  | paused _ hid' => exact Or.inl (by rw [← hid, hid'])
  | resumed => exact absurd hj' (by simp)
  | _ => exact hsame hj'

theorem JobChange.resumes {j j' : SchedulerJob} (h : JobChange Ok c (some j) (some j'))
    (hid : j.id = id) (hj : j.isPaused = true) (hj' : j'.isPaused = false) : c = .resume id := by
  cases h with
  | resumed _ hid' => rw [← hid, hid']
  | corrupt => exact absurd hj' (by simp)
  | paused => exact absurd hj' (by simp)
  | _ => exact absurd (hj.symm.trans hj') (by simp)

theorem Effect.lawful (hK : K.StrictlyAfter) {rs : List Store} (hs' : Inv s')
    (h : Effect Ok c rs s s') : Lawful Ok c s s' := by
  have hchange : ∀ {id j j'}, lookup SchedulerJob.id id s.jobs = some j →
      lookup SchedulerJob.id id s'.jobs = some j' → JobChange Ok c (some j) (some j') :=
    fun {id j j'} hj hj' => hj ▸ hj' ▸ h.transition.jobs id
  refine ⟨fun id j j' hj hj' => (hchange hj hj').cursor hK (key_of_lookup hj),
    fun id j j' hj hj' => (hchange hj hj').pauses (key_of_lookup hj),
    fun id j j' hj hj' => (hchange hj hj').resumes (key_of_lookup hj), fun r hr hnew id hid => ?_⟩
  have hnone : (s.view r.id).run = none := lookup_eq_none_iff.mpr hnew
  have hsome : (s'.view r.id).run = some r := lookup_of_mem hs'.runIds hr
  rcases (h.transition.runs r.id).inserted hnone hsome with
    ⟨taskName, args, options, name, json, env, -, rfl⟩ | ⟨hc, -⟩
  · exact absurd hid (by simp [enqueuedRun])
  · obtain ⟨j, env, -, hj, hdue, hjob, -⟩ := (h.round hc).created hr fun hmem => hnew r hmem rfl
    obtain rfl := Option.some.inj (hjob.symm.trans hid)
    exact ⟨hc, j, hj, (SchedulerJob.of_due hdue).2⟩

/-! ## Occurrences -/

/-- There is a run for the occurrence of schedule `id` at `t`. -/
def Store.Ran (s : Store) (id : JobId) (t : Timestamp) : Prop :=
  ∃ b ∈ s.runs, b.occurrence = some (id, t)

/-- The calls that neither reschedule nor delete schedule `id`, and delete no run. -/
def Call.Spares (id : JobId) (c : Call K) : Prop :=
  (∀ update, c ≠ .reschedule id update) ∧ c ≠ .delete id ∧
    ∀ before limit, c ≠ .pruneTerminal before limit

/-- The run of an occurrence stays, unless runs are pruned. -/
theorem Effect.ran_or_pruned {rs : List Store} {t : Timestamp} (hs : Inv s)
    (h : Effect Ok c rs s s') (hran : s.Ran id t) :
    s'.Ran id t ∨ ∃ before limit, c = .pruneTerminal before limit := by
  obtain ⟨b, hb, hocc⟩ := hran
  have hv : s.view b.id = ⟨some b, (s.view b.id).attempts⟩ :=
    Store.view_eq_some (lookup_of_mem hs.runIds hb)
  have hchange := h.transition.runs b.id
  rcases hv' : (s'.view b.id).run with _ | b'
  · rw [hv] at hchange
    obtain ⟨before, limit, hprune, -⟩ := hchange.of_absent hv'
    exact Or.inr ⟨before, limit, hprune⟩
  · have hsnapshot := hchange.snapshot (congrArg RunView.run hv) hv'
    refine Or.inl ⟨b', mem_of_lookup hv', ?_⟩
    rw [← hocc]
    exact congrArg (fun s : RunSnapshot => s.jobId.map fun j => (j, s.scheduledFor)) hsnapshot

theorem Effect.ran {rs : List Store} {t : Timestamp} (hs : Inv s) (hc : c.Spares id)
    (h : Effect Ok c rs s s') (hran : s.Ran id t) : s'.Ran id t :=
  (h.ran_or_pruned hs hran).resolve_right fun ⟨before, limit, hprune⟩ => hc.2.2 before limit hprune

theorem JobChange.keeps_cursor {j : SchedulerJob} {o : Option SchedulerJob}
    (h : JobChange Ok c (some j) o) (hid : j.id = id) (hc : c.Spares id)
    (hm : ¬ c.Materializes) : ∃ j', o = some j' ∧ j'.nextRunAt = j.nextRunAt := by
  cases h with
  | advanced _ _ hm' => exact absurd hm' hm
  | pinned _ hid' => exact absurd (by rw [← hid, hid']) (hc.1 _)
  | reset _ hid' => exact absurd (by rw [← hid, hid']) (hc.1 _)
  | deleted hid' => exact absurd (by rw [← hid, hid']) hc.2.1
  | _ => exact ⟨_, rfl, rfl⟩

/-- A round that takes a cursor leaves the run of its occurrence, unless a store that it has read
has one. -/
theorem Round.keeps_occurrence {rs : List Store} {j : SchedulerJob} (h : Round K Ok rs s s')
    (hj : lookup SchedulerJob.id id s.jobs = some j) (hrs : ∀ C ∈ rs, ¬ C.Ran id j.nextRunAt) :
    ∃ j', lookup SchedulerJob.id id s'.jobs = some j' ∧
      (s'.Ran id j.nextRunAt ∨ j'.nextRunAt = j.nextRunAt) := by
  have hupdate : ∀ {i i' : SchedulerJob} {ins : List Run},
      lookup SchedulerJob.id i.id s.jobs = some i → i'.id = i.id →
      (i.id = id → (s.apply { jobs := { update := [i'] }, runs := { insert := ins } }).Ran id
        i.nextRunAt ∨ i'.nextRunAt = i.nextRunAt) →
      ∃ j', lookup SchedulerJob.id id (s.apply
          { jobs := { update := [i'] }, runs := { insert := ins } }).jobs = some j' ∧
        ((s.apply { jobs := { update := [i'] }, runs := { insert := ins } }).Ran id j.nextRunAt ∨
          j'.nextRunAt = j.nextRunAt) := by
    intro i i' ins hi hid hmove
    show ∃ j', lookup SchedulerJob.id id
      (({ update := [i'] } : Edit SchedulerJob JobId).apply SchedulerJob.id s.jobs) = some j' ∧ _
    rw [Edit.lookup_apply_update]
    split_ifs with he
    · rw [hid] at he
      rw [he] at hi
      obtain rfl := Option.some.inj (hj.symm.trans hi)
      exact ⟨i', by rw [hj]; rfl, hmove he⟩
    · exact ⟨j, hj, Or.inr rfl⟩
  cases h with
  | idle => exact ⟨j, hj, Or.inr rfl⟩
  | corrupt _ _ hi => exact hupdate hi rfl fun _ => Or.inr rfl
  | @inserted _ env₁ _ i job _ _ _ _ _ hi _ hread =>
    obtain ⟨hid, hslot, -⟩ := DueJob.read_eq_ok hread
    refine hupdate hi rfl fun he => Or.inl ⟨materializedRun env₁ job,
      by simp [Store.apply, Edit.apply], ?_⟩
    rw [← he, ← hid, ← hslot]
    rfl
  | kept _ _ hi _ _ _ _ hocc =>
    refine hupdate hi rfl fun he => ?_
    obtain ⟨C, hC, b, hb, hbocc⟩ := hocc
    rw [he] at hi hbocc
    obtain rfl := Option.some.inj (hj.symm.trans hi)
    exact absurd ⟨b, hb, hbocc⟩ (hrs C hC)

theorem Effect.keeps_occurrence {rs : List Store} {j : SchedulerJob} (h : Effect Ok c rs s s')
    (hc : c.Spares id) (hj : lookup SchedulerJob.id id s.jobs = some j)
    (hrs : ∀ C ∈ rs, ¬ C.Ran id j.nextRunAt) :
    ∃ j', lookup SchedulerJob.id id s'.jobs = some j' ∧
      (s'.Ran id j.nextRunAt ∨ j'.nextRunAt = j.nextRunAt) := by
  by_cases hm : c.Materializes
  · exact (h.round hm).keeps_occurrence hj hrs
  · have hchange := h.transition.jobs id
    rw [hj] at hchange
    obtain ⟨j', hj', hcursor⟩ := hchange.keeps_cursor (key_of_lookup hj) hc hm
    exact ⟨j', hj', Or.inr hcursor⟩

theorem JobChange.keeps {j : SchedulerJob} {o : Option SchedulerJob} (h : JobChange Ok c (some j) o)
    (hid : j.id = id) (hc : c ≠ .delete id) : ∃ j', o = some j' := by
  cases h with
  | deleted hid' => exact absurd (by rw [← hid, hid']) hc
  | _ => exact ⟨_, rfl⟩

/-! ## Registration -/

/-- A new schedule with the settings of the definition is appended; its cursor is after the `now()`
that was read. -/
def Appended (Ok : Env → Prop) (spec : CreateJob K) (s s' : Store) : Prop :=
  (∀ b ∈ s.jobs, b.name ≠ spec.name.value) ∧ ∃ j env, Ok env ∧ env.now < j.nextRunAt ∧
    j.Encodes spec ∧ j.jobArgs = spec.args ∧ j.isPaused = spec.lifecycle.isPaused ∧
    s'.jobs = s.jobs ++ [j]

/-- The schedule with the name gets new settings and keeps the rest; every other one is kept. -/
def Reconfigured (Ok : Env → Prop) (spec : CreateJob K) (s s' : Store) : Prop :=
  ∃ b ∈ s.jobs, b.name = spec.name.value ∧ ∃ env, Ok env ∧
    s'.jobs = overwrite SchedulerJob.id [{ b with
      cronExpression := spec.cron.source
      jobArgs := spec.args
      leaseDuration := spec.leaseDuration.toInterval
      maxAttempts := spec.maxAttempts.value
      retryBackoff := spec.retryBackoff.toInterval
      updatedAt := env.now }] s.jobs

theorem Registration.registered (hK : K.StrictlyAfter) {spec : CreateJob K}
    (h : Registration Ok spec s s') : s'.runs = s.runs ∧ s'.attempts = s.attempts ∧
      (Reconfigured Ok spec s s' ∨ Appended Ok spec s s') := by
  cases h with
  | @inserted env₀ env dbNow row hOk₀ hOk hnow hrow hid hname =>
    refine ⟨by simp [Store.apply], by simp [Store.apply],
      Or.inr ⟨hname, row.toRow env, env₀, hOk₀, ?_⟩⟩
    have hencodes := toRow_encodes hrow env
    obtain ⟨next, hnext, rfl⟩ := newJob_eq_ok hrow
    refine ⟨?_, hencodes, rfl, rfl, by simp [Store.apply, Edit.apply]⟩
    rw [← hnow]
    exact CronExpression.nextAfter_gt hK hnext
  | @reconciled env₀ dbNow row b hOk₀ hnow hrow hb hname =>
    refine ⟨by simp [Store.apply], by simp [Store.apply],
      Or.inl ⟨b, mem_of_lookup hb, hname, env₀, hOk₀, ?_⟩⟩
    obtain ⟨next, -, rfl⟩ := newJob_eq_ok hrow
    rw [← hnow]
    simp [Store.apply, Edit.apply, SchedulerJob.reconcile]

/-- A registration under a new name appends. -/
theorem Registration.appended (hK : K.StrictlyAfter) {spec : CreateJob K}
    (h : Registration Ok spec s s') (hname : ∀ b ∈ s.jobs, b.name ≠ spec.name.value) :
    s'.runs = s.runs ∧ s'.attempts = s.attempts ∧ Appended Ok spec s s' := by
  obtain ⟨hruns, hattempts, ⟨b, hb, hbname, -⟩ | happended⟩ := h.registered hK
  · exact absurd hbname (hname b hb)
  · exact ⟨hruns, hattempts, happended⟩

/-- `create` under a name that exists fails and leaves the store as it was. -/
theorem createJob_refused (hs : Inv s) {spec : CreateJob K}
    (hname : ∃ b ∈ s.jobs, b.name = spec.name.value) (env : ℕ → Env) :
    ∃ e, (createJob K spec).exec db env s s = (.error e, s) := by
  obtain ⟨b, hb, hname⟩ := hname
  rcases @createJob_exec K spec env s with herror | ⟨dbNow, row, job, -, -, hexec, -⟩
  · exact herror
  · exfalso
    have hwrites : (createJob K spec).Once db := by
      intro dbNow
      dsimp only
      rcases newJob spec dbNow with e | row
      · trivial
      · exact fun _ => trivial
    have hgood := @createJob_registers K (fun _ => True) s spec
    have honce := @Prog.Good.exec_once _ _ _ _ _ _ _ _ _ _ _ _ _ [] [] [] s hgood hwrites hs
      (by simp) env fun _ => trivial
    rw [Storage.applyAll_nil, hexec] at honce
    rcases honce with heq | ⟨_, -, -, hregisters⟩
    · have := congrArg (fun s : Store => s.jobs.length) heq
      simp [Store.apply, Edit.apply] at this
    · exact (hregisters.1 spec rfl).2 b hb hname

/-- A definition that can be stored is registered by `ensure_job`. -/
theorem ensureJob_registered (hK : K.StrictlyAfter) (hs : Inv s) (hloads : ∀ b ∈ s.jobs, b.Loads)
    {spec : CreateJob K} {env : ℕ → Env} (hspec : spec.Storable (env 0) s) : ∃ job s',
    (ensureJob K spec).exec db env s s = (.ok job, s') ∧ Registration (· = env 0) spec s s' := by
  obtain ⟨dbNow, row, job, hnow, hrow, hexec⟩ :=
    ensureJob_exec.resolve_left (ensureJob_not_error hspec hK hloads)
  obtain ⟨b, hb, hname, hexec, -⟩ | ⟨hname, hexec, -⟩ := hexec
  · exact ⟨job, _, hexec, .reconciled rfl hnow hrow (lookup_of_mem hs.jobIds hb)
      (hname.trans (newJob_name hrow))⟩
  · rw [newJob_name hrow] at hname
    exact ⟨job, _, hexec, .inserted rfl rfl hnow hrow (hspec.id hname) hname⟩

/-- A definition that can be stored is registered by `create` under a new name. -/
theorem createJob_registered (hK : K.StrictlyAfter) {spec : CreateJob K} {env : ℕ → Env}
    (hspec : spec.Storable (env 0) s) (hname : ∀ b ∈ s.jobs, b.name ≠ spec.name.value) : ∃ job s',
    (createJob K spec).exec db env s s = (.ok job, s') ∧ Registration (· = env 0) spec s s' := by
  obtain ⟨dbNow, row, job, hnow, hrow, hexec, -⟩ :=
    createJob_exec.resolve_left (createJob_not_error hspec hK hname)
  exact ⟨job, _, hexec, .inserted rfl rfl hnow hrow (hspec.id hname) hname⟩

/-- Cursors and instants of creation can be loaded: every operation that writes one has read it. -/
theorem JobChange.loads {o o' : Option SchedulerJob} (h : JobChange Ok c o o')
    (ho : ∀ j, o = some j → j.Loads) : ∀ j', o' = some j' → j'.Loads := by
  intro j' hj'
  cases h with
  | same => exact ho j' hj'
  | created _ _ _ _ hrow hloads =>
    obtain rfl := Option.some.inj hj'
    obtain ⟨next, -, rfl⟩ := newJob_eq_ok hrow
    exact ⟨next.property, hloads⟩
  | @advanced _ _ _ _ next _ _ =>
    obtain rfl := Option.some.inj hj'
    exact ⟨next.property, (ho _ rfl).2⟩
  | @pinned _ t =>
    obtain rfl := Option.some.inj hj'
    exact ⟨t.property, (ho _ rfl).2⟩
  | @reset _ _ _ next =>
    obtain rfl := Option.some.inj hj'
    exact ⟨next.property, (ho _ rfl).2⟩
  | deleted => exact absurd hj' (by simp)
  | _ =>
    obtain rfl := Option.some.inj hj'
    have hkept := ho _ rfl
    exact ⟨hkept.1, hkept.2⟩

/-! ## Sessions -/

theorem program_registers (Ok : Env → Prop) (c : Call K) (B : Store) (hB : Inv B) :
    (program K c).Good db Inv Ok
      (fun rs s s' => Effect Ok c rs s s' ∧ Registers Ok c s s') Consistent [] [] [] B := by
  have hother : (∀ spec, c ≠ .createJob spec) → (∀ spec, c ≠ .ensureJob spec) →
      (program K c).Good db Inv Ok
        (fun rs s s' => Effect Ok c rs s s' ∧ Registers Ok c s s') Consistent [] [] [] B :=
    fun h h' => (program_good c hB).mono
      (fun _ _ _ _ he =>
        ⟨he, fun spec hc => absurd hc (h spec), fun spec hc => absurd hc (h' spec)⟩)
      fun _ ha => ha
  cases c with
  | createJob spec => exact Prog.Good.map Answer.job (createJob_registers.mono
      (fun _ _ _ _ h => ⟨⟨h.1, fun hc => hc.elim⟩, h.2⟩) fun _ ha => ha.map Answer.job)
  | ensureJob spec => exact Prog.Good.map Answer.job (ensureJob_registers.mono
      (fun _ _ _ _ h => ⟨⟨h.1, fun hc => hc.elim⟩, h.2⟩) fun _ ha => ha.map Answer.job)
  | _ => exact hother (by simp) (by simp)

section Sessions

variable {ι : Type} [DecidableEq ι] {y y' : Sessions K ι} {ls ls' : List (ι × Act (Call K) Env)}
  {i : ι} {a : Act (Call K) Env}

/-- A commit registers what its call may register, with the readings of the call. -/
theorem registers_readings (h : Sessions.Reached ls y) (hs : Sessions.Step y i .commit y') :
    Registers (· ∈ readings i ls) (y.session i).call y.committed y'.committed :=
  (ReadCommitted.Run.commit_readings
    (T := fun Ok c rs s s' => Effect Ok c rs s s' ∧ Registers Ok c s s')
    (fun c _ hB => program_good c hB) program_registers sound_initial (fun _ => ⟨_, rfl⟩) h hs).2

/-- Every stored schedule can be loaded. -/
theorem loads_reached (h : Sessions.Reached ls y) : ∀ j ∈ y.committed.jobs, j.Loads := by
  refine (h.invariant (P := fun y => Sessions.Sound y ∧ ∀ j ∈ y.committed.jobs, j.Loads)
    ⟨sound_initial, by simp [Sessions.initial, Store.empty]⟩ fun y i a y' h _ hs => ?_).2
  obtain ⟨hsound, hloads⟩ := h
  have hsound' := sound_step hsound hs
  refine ⟨hsound', fun j' hj' => ?_⟩
  rcases effect_step hsound hs with heq | heffect
  · exact hloads j' (heq ▸ hj')
  · exact (heffect.transition.jobs j'.id).loads (fun j hj => hloads j (mem_of_lookup hj)) j'
      (lookup_of_mem hsound'.store.jobIds hj')

/-! ## Runs -/

/-- Only calls that satisfy `A` are made. -/
abbrev Sessions.Calls (A : Call K → Prop) (_ : Sessions K ι) (_ : ι) (a : Act (Call K) Env) :
    Prop :=
  ∀ c, a = .call c → A c

/-- Every session has answered. -/
def Sessions.Idle (y : Sessions K ι) : Prop := ∀ i, ∃ x, (y.session i).prog = .ret x

theorem serves_all {A : Call K → Prop} (h : Sessions.Sound y) (hs : Sessions.Step y i a y')
    (ha : ∀ c, a = .call c → A c) (hserves : ∀ j, Serves A (y.session j)) :
    ∀ j, Serves A (y'.session j) := by
  intro j
  by_cases hj : j = i
  · subst hj
    exact serves_step hs ha (hserves j)
  · rw [(h.other_step hj hs).1]
    exact hserves j

/-- **A paused schedule stays paused** until it is resumed or deleted. -/
theorem paused_run {j : SchedulerJob} (h : Sessions.Sound y) (hidle : y.Idle)
    (hj : lookup SchedulerJob.id id y.committed.jobs = some j) (hpaused : j.isPaused = true)
    (hr : Sessions.Run (Sessions.Calls fun c => c ≠ .resume id ∧ c ≠ .delete id) y ls' y') :
    ∃ j', lookup SchedulerJob.id id y'.committed.jobs = some j' ∧ j'.isPaused = true := by
  refine (hr.invariant (P := fun y => Sessions.Sound y ∧
    (∀ i, Serves (fun c => c ≠ .resume id ∧ c ≠ .delete id) (y.session i)) ∧
    ∃ j', lookup SchedulerJob.id id y.committed.jobs = some j' ∧ j'.isPaused = true)
    ⟨h, fun i => Or.inl (hidle i), j, hj, hpaused⟩ fun y i a y' h hG hs => ?_).2.2
  obtain ⟨hsound, hserves, j, hj, hpaused⟩ := h
  refine ⟨sound_step hsound hs, serves_all hsound hs hG hserves, ?_⟩
  rcases serves_effect hsound hs (hserves i) with heq | ⟨⟨hresume, hdelete⟩, heffect⟩
  · rw [heq]
    exact ⟨j, hj, hpaused⟩
  · have hchange := heffect.transition.jobs id
    rw [hj] at hchange
    obtain ⟨j', hj'⟩ := hchange.keeps (key_of_lookup hj) hdelete
    rw [hj'] at hchange
    refine ⟨j', hj', ?_⟩
    rcases hp : j'.isPaused
    · exact absurd (hchange.resumes (key_of_lookup hj) hpaused hp) hresume
    · rfl

/-- The open transaction has read no store with a run for the occurrence. -/
def Unseen (id : JobId) (t : Timestamp) (σ : Server K) : Prop :=
  (∃ x, σ.prog = .ret x) ∨ ∀ C ∈ σ.reads, ¬ C.Ran id t

theorem unseen_step {t : Timestamp} (h : Sessions.Sound y) (hs : Sessions.Step y i a y')
    (hran : ¬ y.committed.Ran id t) (hunseen : ∀ j, Unseen id t (y.session j)) :
    ∀ j, Unseen id t (y'.session j) := by
  intro j
  by_cases hj : j = i
  case neg =>
    rw [(h.other_step hj hs).1]
    exact hunseen j
  subst hj
  have hreads : (∀ x, (y.session j).prog ≠ .ret x) → ∀ C ∈ (y.session j).reads, ¬ C.Ran id t :=
    fun hne => (hunseen j).resolve_left fun ⟨x, hx⟩ => hne x hx
  have hstart : ∀ (c : Call K) p, Unseen id t (.start c p) := fun c p =>
    Or.inr (by simp [Session.start])
  cases hs with
  | call c hp =>
    rw [System.set_session_self]
    exact hstart _ _
  | snapshot hp hsn =>
    rw [System.set_session_self]
    exact hunseen j
  | exec env hp =>
    rw [System.set_session_self]
    refine Or.inr fun C hC => ?_
    rcases List.mem_append.mp hC with hC | hC
    · exact hreads (fun x hx => absurd (hp.symm.trans hx) (by simp)) C hC
    · rwa [List.mem_singleton.mp hC]
  | fail env hp =>
    rw [System.set_session_self]
    exact hstart _ _
  | commit hp =>
    simp only [Function.update_self]
    exact hstart _ _
  | rollback hp =>
    rw [System.set_session_self]
    exact hstart _ _

/-- **No occurrence is lost**: it is still due, or it has its run. -/
theorem occurrence_run {j : SchedulerJob} (h : Sessions.Sound y) (hidle : y.Idle)
    (hj : lookup SchedulerJob.id id y.committed.jobs = some j)
    (hr : Sessions.Run (Sessions.Calls (Call.Spares id)) y ls' y') :
    ∃ j', lookup SchedulerJob.id id y'.committed.jobs = some j' ∧
      (y'.committed.Ran id j.nextRunAt ∨ j'.nextRunAt = j.nextRunAt) := by
  refine (hr.invariant (P := fun y' => Sessions.Sound y' ∧
    (∀ i, Serves (Call.Spares id) (y'.session i)) ∧
    (y'.committed.Ran id j.nextRunAt ∨ ∀ i, Unseen id j.nextRunAt (y'.session i)) ∧
    ∃ j', lookup SchedulerJob.id id y'.committed.jobs = some j' ∧
      (y'.committed.Ran id j.nextRunAt ∨ j'.nextRunAt = j.nextRunAt))
    ⟨h, fun i => Or.inl (hidle i), Or.inr fun i => Or.inl (hidle i), j, hj, Or.inr rfl⟩
    fun y i a y' h hG hs => ?_).2.2.2
  obtain ⟨hsound, hserves, hunseen, j', hj', hcursor⟩ := h
  refine ⟨sound_step hsound hs, serves_all hsound hs hG hserves, ?_⟩
  have heffect := serves_effect hsound hs (hserves i)
  by_cases hran : y.committed.Ran id j.nextRunAt
  · -- the run is there and stays
    rcases heffect with heq | ⟨hc, heffect⟩
    · rw [heq]
      exact ⟨Or.inl hran, j', hj', Or.inl hran⟩
    · have hran' := heffect.ran hsound.store hc hran
      have hchange := heffect.transition.jobs id
      rw [hj'] at hchange
      obtain ⟨j'', hj''⟩ := hchange.keeps (key_of_lookup hj') hc.2.1
      exact ⟨Or.inl hran', j'', hj'', Or.inl hran'⟩
  · have hunseen := hunseen.resolve_left hran
    have hcursor := hcursor.resolve_left hran
    refine ⟨Or.inr (unseen_step hsound hs hran hunseen), ?_⟩
    cases hs with
    | commit hp =>
      have hreads := (hunseen i).resolve_left fun ⟨x, hx⟩ => nomatch hp.symm.trans hx
      rcases heffect with heq | ⟨hc, heffect⟩
      · rw [heq]
        exact ⟨j', hj', Or.inr hcursor⟩
      · rw [← hcursor] at hreads ⊢
        exact heffect.keeps_occurrence hc hj' hreads
    | _ => exact ⟨j', hj', Or.inr hcursor⟩

/-! ## The discipline -/

/-- What holds of the schedules in every reachable state and of every step from it. -/
structure Sessions.SchedulesKept (ls : List (ι × Act (Call K) Env)) (y : Sessions K ι) : Prop where
  names : ∀ j ∈ y.committed.jobs, ∀ j' ∈ y.committed.jobs, j.name = j'.name → j = j'
  unchanged : ∀ i a y', Sessions.Step y i a y' → a ≠ .commit → y'.committed = y.committed
  lawful : ∀ i y', Sessions.Step y i .commit y' →
    Lawful (· ∈ readings i ls) (y.session i).call y.committed y'.committed
  ensured : ∀ i y' spec, Sessions.Step y i .commit y' → (y.session i).call = .ensureJob spec →
    y'.committed.runs = y.committed.runs ∧ y'.committed.attempts = y.committed.attempts ∧
      (Reconfigured (· ∈ readings i ls) spec y.committed y'.committed ∨
        Appended (· ∈ readings i ls) spec y.committed y'.committed)
  created : ∀ i y' spec, Sessions.Step y i .commit y' → (y.session i).call = .createJob spec →
    y'.committed.runs = y.committed.runs ∧ y'.committed.attempts = y.committed.attempts ∧
      Appended (· ∈ readings i ls) spec y.committed y'.committed
  refused : ∀ spec : CreateJob K, (∃ b ∈ y.committed.jobs, b.name = spec.name.value) → ∀ env,
    ∃ e, (createJob K spec).exec db env y.committed y.committed = (.error e, y.committed)
  /-- `ensure_job` stores every definition that can be stored, and so does `create` a new one -/
  ensures : ∀ (spec : CreateJob K) env, spec.Storable (env 0) y.committed → ∃ job s',
    (ensureJob K spec).exec db env y.committed y.committed = (.ok job, s') ∧
      s'.runs = y.committed.runs ∧ s'.attempts = y.committed.attempts ∧
      (Reconfigured (· = env 0) spec y.committed s' ∨ Appended (· = env 0) spec y.committed s')
  creates : ∀ (spec : CreateJob K) env, spec.Storable (env 0) y.committed →
    (∀ b ∈ y.committed.jobs, b.name ≠ spec.name.value) → ∃ job s',
    (createJob K spec).exec db env y.committed y.committed = (.ok job, s') ∧
      s'.runs = y.committed.runs ∧ s'.attempts = y.committed.attempts ∧
      Appended (· = env 0) spec y.committed s'
  /-- an occurrence does not disappear while nobody reschedules or deletes its schedule -/
  kept : y.Idle → ∀ id j ls' y', lookup SchedulerJob.id id y.committed.jobs = some j →
    Sessions.Run (Sessions.Calls (Call.Spares id)) y ls' y' →
    ∃ j', lookup SchedulerJob.id id y'.committed.jobs = some j' ∧
      (y'.committed.Ran id j.nextRunAt ∨ j'.nextRunAt = j.nextRunAt)
  /-- only `resume` un-pauses -/
  paused : y.Idle → ∀ id j ls' y', lookup SchedulerJob.id id y.committed.jobs = some j →
    j.isPaused = true →
    Sessions.Run (Sessions.Calls fun c => c ≠ .resume id ∧ c ≠ .delete id) y ls' y' →
    ∃ j', lookup SchedulerJob.id id y'.committed.jobs = some j' ∧ j'.isPaused = true

/-- **Schedules are changed only by those who may, and only as they may.** -/
theorem schedule_discipline (hK : K.StrictlyAfter) (h : Sessions.Reached ls y) :
    Sessions.SchedulesKept ls y where
  names j hj j' hj' he := (sound_reached h).store.jobNames.eq hj hj' (congrArg some he) rfl
  unchanged i a y' hs ha := hs.committed_eq ha
  lawful i y' hs := (commit_effect h hs).lawful hK (sound_step (sound_reached h) hs).store
  ensured i y' spec hs hc := ((registers_readings h hs).2 spec hc).registered hK
  created i y' spec hs hc :=
    ((registers_readings h hs).1 spec hc).1.appended hK ((registers_readings h hs).1 spec hc).2
  refused spec hname env := createJob_refused (sound_reached h).store hname env
  ensures spec env hspec := by
    obtain ⟨job, s', hexec, hregistered⟩ :=
      ensureJob_registered hK (sound_reached h).store (loads_reached h) hspec
    exact ⟨job, s', hexec, hregistered.registered hK⟩
  creates spec env hspec hname := by
    obtain ⟨job, s', hexec, hregistered⟩ := createJob_registered hK hspec hname
    exact ⟨job, s', hexec, hregistered.appended hK hname⟩
  kept hidle id j ls' y' hj hr := occurrence_run (sound_reached h) hidle hj hr
  paused hidle id j ls' y' hj hp hr := paused_run (sound_reached h) hidle hj hp hr

theorem everySecond_strictlyAfter : Croner.everySecond.StrictlyAfter := by
  intro p after next h
  unfold Croner.everySecond at h
  dsimp only at h
  split_ifs at h
  obtain rfl := Except.ok.inj h
  exact Int.lt_add_of_pos_right _ (by decide)

/-- The schedule gets other arguments after its first occurrence has been materialized. -/
def reconfiguring : List (Unit × Act (Call .everySecond) Env) :=
  registering ++ ((), .call .materializeOne) ::
    ((List.replicate 3 (statement () 2000000)).flatten ++ [((), .commit)]) ++
    ((), .call (.ensureJob { nightly with args := ⟨"[]"⟩ })) ::
      (statement () 2500000 ++ statement () 2500000 ++ [((), .commit)])

theorem schedule_discipline_reconfiguring : ∃ y : Sessions .everySecond Unit,
    Sessions.Reached reconfiguring y ∧
      y.committed.jobs.map (fun j => (j.name, j.nextRunAt, j.jobArgs.text)) =
        [("nightly", 3000000, "[]")] ∧
      y.committed.runs.map Run.scheduledFor = [1000001] ∧
      nightly.Storable (.tick 2600000) y.committed ∧ Sessions.SchedulesKept reconfiguring y := by
  have h : (Sessions.play _ _ reconfiguring).map (fun y =>
      (y.committed.jobs.map fun j => (j.name, j.nextRunAt, j.jobArgs.text),
        y.committed.runs.map Run.scheduledFor)) =
      some ([("nightly", 3000000, "[]")], [1000001]) := by decide +kernel
  obtain ⟨y, hy, he⟩ := Option.map_eq_some_iff.mp h
  obtain ⟨hjobs, hruns⟩ := Prod.mk.inj he
  refine ⟨y, play_reached hy, hjobs, hruns, ?_,
    schedule_discipline everySecond_strictlyAfter (play_reached hy)⟩
  have hname : ∃ b ∈ y.committed.jobs, b.name = nightly.name.value := by
    obtain ⟨b, hb, he⟩ := List.mem_map.mp (hjobs ▸ List.mem_singleton_self _)
    exact ⟨b, hb, congrArg Prod.fst he⟩
  refine ⟨by decide, by decide, by decide, by decide, fun dbNow hnow => ?_, fun hnone => ?_⟩
  · refine ⟨⟨3600000, by decide⟩, ?_⟩
    obtain rfl : dbNow = ⟨2600000, by decide⟩ := Subtype.ext hnow
    rfl
  · obtain ⟨b, hb, hbname⟩ := hname
    exact absurd hbname (hnone b hb)

end Sessions

end PgTaskScheduler
