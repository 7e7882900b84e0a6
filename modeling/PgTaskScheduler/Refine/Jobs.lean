import PgTaskScheduler.Refine.Queue

/-!
# The operations on schedules refine the lifecycle

A materializer holds its schedule locked from the selection to the commit, so the run it inserts
and the cursor it advances belong to the row it has selected.
-/

namespace PgTaskScheduler

open Tables ReadCommitted

variable {K : Croner} {env : Env} {snap cur : Store}

/-! ## One schedule, locked -/

/-- The UPDATE of a schedule that is in the snapshot and in the newest rows. -/
theorem updateJob_ok {id : JobId} {bind : Except DbError Unit}
    {set : Env → SchedulerJob → SchedulerJob} {w : Patch} {rows : List SchedulerJob}
    (hk : Keyed SchedulerJob.id cur.jobs)
    (h : (updateJob id bind set).run env snap cur = .ok (w, rows)) :
    w = { jobs := { update := rows } } ∧
      (rows = [] ∨ ∃ j, lookup SchedulerJob.id id cur.jobs = some j ∧ rows = [set env j] ∧
        (set env j).check = .ok ()) := by
  obtain ⟨_, -, h⟩ := bind_eq_ok (mapError_eq_ok.mp h)
  obtain ⟨_, hcheck, h⟩ := bind_eq_ok h
  obtain ⟨rfl, rfl⟩ := Prod.mk.inj (Except.ok.inj h)
  refine ⟨rfl, ?_⟩
  have hone := eq_nil_or_singleton (@Keyed.targets _ _ _ _ (fun j => j.id = id) snap.jobs _ hk)
    fun j hj => of_decide_eq_true (mem_targets.mp hj).2.1
  rcases hone with hnil | ⟨j, hj⟩
  · exact Or.inl (by rw [hnil]; rfl)
  · right
    obtain ⟨hmem, hid, -⟩ := mem_targets.mp (hj ▸ List.mem_singleton_self j)
    rw [hj] at hcheck ⊢
    exact ⟨j, (lookup_eq_some_iff hk).mpr ⟨hmem, of_decide_eq_true hid⟩, rfl,
      checkAll_eq_ok_iff.mp hcheck _ (by simp)⟩

theorem updateJob_ok_of_mem {id : JobId} {bind : Except DbError Unit}
    {set : Env → SchedulerJob → SchedulerJob} {w : Patch} {rows : List SchedulerJob}
    {j : SchedulerJob} (hk : Keyed SchedulerJob.id cur.jobs)
    (hcur : lookup SchedulerJob.id id cur.jobs = some j)
    (hsnap : lookup SchedulerJob.id id snap.jobs = some j)
    (h : (updateJob id bind set).run env snap cur = .ok (w, rows)) :
    w = { jobs := { update := [set env j] } } ∧ (set env j).check = .ok () := by
  obtain ⟨rfl, hnil | ⟨j', hj', rfl, hcheck⟩⟩ := updateJob_ok hk h
  · exfalso
    obtain ⟨_, -, h⟩ := bind_eq_ok (mapError_eq_ok.mp h)
    obtain ⟨_, -, h⟩ := bind_eq_ok h
    have hrows := (Prod.mk.inj (Except.ok.inj h)).2
    rw [hnil, List.map_eq_nil_iff] at hrows
    have hmem : j ∈ targets SchedulerJob.id (fun j => decide (j.id = id)) snap.jobs cur.jobs :=
      mem_targets.mpr ⟨mem_of_lookup hcur, by simpa using key_of_lookup hcur, j,
        mem_of_lookup hsnap, rfl, by simpa using key_of_lookup hsnap⟩
    rw [hrows] at hmem
    exact nomatch hmem
  · obtain rfl : j = j' := Option.some.inj (hcur.symm.trans hj')
    exact ⟨rfl, hcheck⟩

section Good

variable {Ok : Env → Prop} {c : Call K} {α : Type} {s : Store} {L : List RowRef}

/-- A new version of a locked schedule, together with the run of its occurrence, if any. -/
theorem job_fits {j j' : SchedulerJob} {ins : List Run} (hs : Inv s)
    (hj : lookup SchedulerJob.id j.id s.jobs = some j) (hL : .job j.id ∈ L) (hid : j'.id = j.id)
    (hname : j'.name = j.name) (hcheck : j'.check = .ok ())
    (hins : Patch.Fits { runs := { insert := ins } } L s) :
    Patch.Fits { jobs := { update := [j'] }, runs := { insert := ins } } L s := by
  constructor
  case jobsUpdate =>
    intro j'' hj''
    obtain rfl := List.mem_singleton.mp hj''
    refine ⟨hid ▸ hL, hcheck, fun j₀ hj₀ he => ?_⟩
    rw [eq_of_key hs.jobIds hj₀ (mem_of_lookup hj) (he.trans hid)]
    exact hname
  case runsInsert => exact hins.runsInsert
  case runsOne => exact hins.runsOne
  all_goals simp [Keyed]

theorem job_transition {j j' : SchedulerJob} {ins : List Run}
    (hj : lookup SchedulerJob.id j.id s.jobs = some j) (hid : j'.id = j.id)
    (hchange : JobChange Ok c (some j) (some j'))
    (hruns : ∀ id, Change Ok c (s.view id)
      (Patch.onView { runs := { insert := ins } } id (s.view id))) :
    Transition Ok c s (s.apply { jobs := { update := [j'] }, runs := { insert := ins } }) := by
  refine ⟨fun id => (Store.view_apply _ s id).symm ▸ hruns id, fun id => ?_⟩
  show JobChange Ok c _ (lookup SchedulerJob.id id
    (({ update := [j'] } : Edit SchedulerJob JobId).apply SchedulerJob.id s.jobs))
  rw [Edit.lookup_apply_update]
  split_ifs with he
  · rw [← he, hid, hj]
    exact hchange
  · exact .same _ _

/-- A new version of a locked schedule alone. -/
theorem job_alone {j j' : SchedulerJob} (hs : Inv s)
    (hj : lookup SchedulerJob.id j.id s.jobs = some j) (hL : .job j.id ∈ L) (hid : j'.id = j.id)
    (hname : j'.name = j.name) (hcheck : j'.check = .ok ())
    (hchange : JobChange Ok c (some j) (some j')) :
    Patch.Fits { jobs := { update := [j'] } } L s ∧
      Transition Ok c s (s.apply { jobs := { update := [j'] } }) := by
  have hins : Patch.Fits { runs := { insert := [] } } L s := by constructor <;> simp [Keyed]
  refine ⟨job_fits hs hj hL hid hname hcheck hins, job_transition hj hid hchange fun id => ?_⟩
  rw [Patch.onView_of_untouched (fun b hb => (Store.mem_view_attempts.mp hb).2)] <;> try simp
  exact .same _ _

/-! ## `materialize_one` -/

theorem dueCandidates_mem {j : SchedulerJob} (h : j ∈ dueCandidates env snap cur) :
    lookup SchedulerJob.id j.id cur.jobs = some j ∧ j.due env ∧ env.skipJob j.id = false := by
  obtain ⟨hl, hp, hskip, -⟩ := mem_selectForUpdate h
  exact ⟨hl, hp, hskip⟩

theorem DueJob.read_eq_ok {j : SchedulerJob} {job : DueJob} (h : DueJob.read env j = .ok job) :
    job.id = j.id ∧ job.nextRunAt.val = j.nextRunAt ∧ job.cronExpression = j.cronExpression ∧
      job.dbNow.val = env.now ∧ job.name = j.name ∧ job.jobArgs = j.jobArgs ∧
      job.maxAttempts = j.maxAttempts ∧ job.leaseDuration = j.leaseDuration ∧
      job.retryBackoff = j.retryBackoff := by
  obtain ⟨t, ht, h⟩ := bind_eq_ok h
  obtain ⟨n, hn, h⟩ := bind_eq_ok h
  obtain rfl := Except.ok.inj h
  exact ⟨rfl, readTimestamp_eq_ok ht, rfl, readTimestamp_eq_ok hn, rfl, rfl, rfl, rfl, rfl⟩

theorem selectDue_ok {w : Patch} {job : Option DueJob}
    (h : selectDue.run env snap cur = .ok (w, job)) :
    w = {} ∧ (dueCandidates env snap cur = [] ∧ job = none ∨
      ∃ j rest d, dueCandidates env snap cur = j :: rest ∧ DueJob.read env j = .ok d ∧
        job = some d) := by
  replace h := mapError_eq_ok.mp h
  dsimp only at h
  rcases hc : dueCandidates env snap cur with _ | ⟨j, rest⟩
  · rw [hc] at h
    obtain ⟨rfl, rfl⟩ := Prod.mk.inj (Except.ok.inj h)
    exact ⟨rfl, Or.inl ⟨rfl, rfl⟩⟩
  · rw [hc] at h
    obtain ⟨d, hd, h⟩ :=
      bind_eq_ok (x := DueJob.read env j) (f := fun d => .ok (({} : Patch), some d)) h
    obtain ⟨rfl, rfl⟩ := Prod.mk.inj (Except.ok.inj h)
    exact ⟨rfl, Or.inr ⟨j, rest, d, rfl, hd, rfl⟩⟩

/-- The occurrence has a run already, or gets one. -/
theorem insertRun_ok {w : Patch} {job : DueJob} {u : Unit}
    (h : (insertRun job).run env snap cur = .ok (w, u)) :
    (∃ b ∈ cur.runs, b.occurrence = some (job.id, job.nextRunAt.val)) ∧ w = {} ∨
    (materializedRun env job).check = .ok () ∧ (∀ b ∈ cur.runs, b.id ≠ env.runId) ∧
      (∀ b ∈ cur.runs, b.occurrence ≠ some (job.id, job.nextRunAt.val)) ∧
      w = { runs := { insert := [materializedRun env job] } } := by
  obtain ⟨_, -, h⟩ := bind_eq_ok (mapError_eq_ok.mp h)
  obtain ⟨_, -, h⟩ := bind_eq_ok h
  obtain ⟨_, -, h⟩ := bind_eq_ok h
  obtain ⟨_, hcheck, h⟩ := bind_eq_ok h
  rcases hc : conflicting Run.occurrence (materializedRun env job) cur.runs with _ | b
  · rw [hc] at h
    obtain ⟨_, hid, h⟩ := bind_eq_ok h
    obtain ⟨rfl, -⟩ := Prod.mk.inj (Except.ok.inj h)
    exact Or.inr ⟨hcheck, checkRunId_eq_ok_iff.mp hid, conflicting_eq_none hc _ rfl, rfl⟩
  · rw [hc] at h
    obtain ⟨rfl, -⟩ := Prod.mk.inj (Except.ok.inj h)
    obtain ⟨hb, hkey, -⟩ := conflicting_eq_some hc
    exact Or.inl ⟨⟨b, hb, hkey⟩, rfl⟩

theorem nextAfter_consistent (cron : CronExpression K) (t : DateTime) :
    Consistent (cron.nextAfter t) := by
  unfold CronExpression.nextAfter
  exact consistent_mapError fun _ _ h => nomatch h

theorem Consistent.error {β : Type} {e : SchedulerError} {x : Except SchedulerError α}
    (hx : Consistent x) (h : x = .error e) : Consistent (.error e : Except SchedulerError β) :=
  fun detail he => hx detail (h.trans (congrArg Except.error (Except.error.inj he)))

/-- The insert of an occurrence, on every store that agrees on the entries it has locked. -/
theorem insertRun_good {C : Store} {job : DueJob} {w : Patch} {q : Query Unit}
    (hagree : db.Agree L s C)
    (hw : (∃ b ∈ s.runs, b.occurrence = some (job.id, job.nextRunAt.val)) ∧ w = {} ∨
      (materializedRun env job).check = .ok () ∧ (∀ b ∈ s.runs, b.id ≠ env.runId) ∧
        (∀ b ∈ s.runs, b.occurrence ≠ some (job.id, job.nextRunAt.val)) ∧
        w = { runs := { insert := [materializedRun env job] } })
    (hL : q.acquires db env snap s w ⊆ L) :
    ∃ ins, w = { runs := { insert := ins } } ∧ Patch.Fits { runs := { insert := ins } } L C ∧
      (ins = [] ∧ (∃ b ∈ s.runs, b.occurrence = some (job.id, job.nextRunAt.val)) ∨
        ins = [materializedRun env job] ∧ (∀ b ∈ C.runs, b.id ≠ env.runId) ∧
          ∀ b ∈ C.runs, b.occurrence ≠ some (job.id, job.nextRunAt.val)) := by
  rcases hw with ⟨hocc, rfl⟩ | ⟨hcheck, hid, hocc, rfl⟩
  · exact ⟨[], rfl, by constructor <;> simp [Keyed], Or.inl ⟨rfl, hocc⟩⟩
  · have hrefs : (materializedRun env job).refs ⊆ L := fun ref href =>
      hL (mem_acquires_of_locked (refs_subset_locked_run (List.mem_singleton_self _) href))
    obtain ⟨hid, hocc, hdedup⟩ := agree_insert hagree hrefs hid
      (fun k hk => by rw [← hk]; exact hocc)
      (fun k hk => by simp [Run.deduplication, materializedRun] at hk)
    exact ⟨[materializedRun env job], rfl, insert_fits hcheck hrefs hid hocc hdedup,
      Or.inr ⟨rfl, hid, hocc _ rfl⟩⟩

/-- A round changes each run and each schedule by at most one of the listed changes. -/
theorem Round.transition {s' : Store} (hs : Inv s) (h : Round K Ok rs s s')
    (hc : c.Materializes) : Transition Ok c s s' := by
  have hnone : ∀ id, Change Ok c (s.view id)
      (Patch.onView { runs := { insert := [] } } id (s.view id)) := fun id => by
    rw [Patch.onView_of_untouched (fun b hb => (Store.mem_view_attempts.mp hb).2)] <;> try simp
    exact .same _ _
  cases h with
  | idle => exact .refl Ok c s
  | corrupt hOk hOk' hj hdue hcron =>
    exact job_transition hj rfl (.corrupt hOk hOk' hc hdue hcron) hnone
  | @inserted env env₁ env₂ j job cron next hOk hOk₁ hOk₂ hj hdue hread hcron hnext hid hnew =>
    refine job_transition hj rfl
      (.advanced hOk hOk₂ hc hdue (DueJob.read_eq_ok hread).2.2.2.1 hcron hnext) fun id => ?_
    rw [onView_insert hs hid]
    split_ifs with he
    · rw [← he, onView_insert_view hs hid]
      exact .materialized hOk₁ hc
    · exact .same _ _
  | kept hOk hOk₂ hj hdue hread hcron hnext =>
    exact job_transition hj rfl
      (.advanced hOk hOk₂ hc hdue (DueJob.read_eq_ok hread).2.2.2.1 hcron hnext) hnone

/-- One round of the materializer, whatever follows its commit. -/
theorem materializeOneThen_good {k : Tick → Program α}
    (hk : ∀ t C, Inv C → (k t).Good db Inv Ok (Round K Ok) Consistent [] [] [] C) :
    (materializeOneThen K k).Good db Inv Ok (Round K Ok) Consistent [] [] [] s := by
  refine good_first (fun _ _ _ _ => lockingQuery_error) fun C₁ C₂ h₁ h₂ env hOk w due hw => ?_
  obtain ⟨rfl, ⟨-, rfl⟩ | ⟨j, rest, job, hcand, hread, rfl⟩⟩ := selectDue_ok hw
  · exact good_commit_quiet (fun _ => .idle) (fun C => C.apply_empty) (hk .idle)
  have hmem : j ∈ dueCandidates env C₁ C₂ := by
    rw [hcand]
    exact List.mem_cons_self
  obtain ⟨hj, hdue, -⟩ := dueCandidates_mem hmem
  obtain ⟨hid, hslot, hsource, -⟩ := DueJob.read_eq_ok hread
  have hL : .job j.id ∈ selectDue.acquires db env C₁ C₂ {} :=
    mem_acquires_of_locks (List.mem_map_of_mem (f := fun j => RowRef.job j.id) hmem)
  have hlookup : ∀ {C}, db.Agree (selectDue.acquires db env C₁ C₂ {}) C₂ C →
      lookup SchedulerJob.id j.id C.jobs = some j := fun ha => (agree_job ha hL).trans hj
  dsimp only
  rw [hsource, hid]
  rcases hcron : CronExpression.parse K j.cronExpression with e | cron
  · -- the text does not parse: the schedule is paused
    refine good_next (fun _ _ _ _ => query_error) fun C₃ C₄ _ a₃ h₄ a₄ env' hOk' w rows hw => ?_
    obtain ⟨rfl, hcheck⟩ := updateJob_ok_of_mem (j := j) (by simpa using h₄.jobIds)
      (by simpa using hlookup a₄) (by simpa using hlookup a₃) hw
    let j' := { j with isPaused := true, updatedAt := env'.now }
    refine good_commit_of (c := (.materializeOne : Call K)) (w := { jobs := { update := [j'] } })
      (fun C => by simp [j']) (fun C hC hagree => ?_) (hk .processed)
    have hlC := hlookup (a₄.trans hagree.left)
    have hround : Round K Ok ([C₂] ++ [C₄]) C (C.apply { jobs := { update := [j'] } }) :=
      .corrupt hOk hOk' hlC hdue hcron
    exact ⟨job_fits hC hlC (List.mem_append_left _ hL) rfl rfl hcheck
      (by constructor <;> simp [Keyed]), hround.transition hC trivial, hround⟩
  · dsimp only
    rcases hnext : cron.nextAfter job.dbNow with e | next
    · exact (nextAfter_consistent cron job.dbNow).error hnext
    · refine good_next (fun _ _ _ _ => query_error)
        fun C₃ C₄ _ a₃ h₄ a₄ env₁ hOk₁ w₁ u hw₁ => ?_
      simp only [List.nil_append, List.cons_append, Storage.applyAll_cons, Storage.applyAll_nil,
        db_apply, Store.apply_empty] at hw₁ ⊢
      refine good_next (fun _ _ _ _ => query_error)
        fun C₅ C₆ _ a₅ h₆ a₆ env₂ hOk₂ w₂ rows hw₂ => ?_
      have hins := fun C (hagree : db.Agree _ C₄ C) =>
        insertRun_good hagree (insertRun_ok hw₁)
          (List.subset_append_right (selectDue.acquires db env C₁ C₂ {})
            ((insertRun job).acquires db env₁ C₃ C₄ w₁))
      have hjobs : ∀ C : Store, (C.apply w₁).jobs = C.jobs := fun C => by
        obtain ⟨ins, rfl, -⟩ := hins C₄ (.refl db _ _)
        simp [Store.apply]
      simp only [Storage.applyAll_cons, Storage.applyAll_nil, db_apply,
        Store.apply_empty] at hw₂
      obtain ⟨rfl, hcheck⟩ := updateJob_ok_of_mem (j := j) (by rw [hjobs]; exact h₆.jobIds)
        (by rw [hjobs]; exact hlookup (a₄.trans a₆.left))
        (by rw [hjobs]; exact hlookup (a₄.trans a₅.left)) hw₂
      obtain ⟨ins, rfl, -⟩ := hins C₄ (.refl db _ _)
      let j' := { j with nextRunAt := next.val, updatedAt := env₂.now }
      refine good_commit_of (c := (.materializeOne : Call K))
        (w := { jobs := { update := [j'] }, runs := { insert := ins } })
        (fun C => by simp [Store.apply, j']) (fun C hC hagree => ?_) (hk .processed)
      have hagree₄ := a₆.trans hagree.left
      obtain ⟨ins', he, hfits, hnew⟩ := hins C hagree₄
      obtain rfl : ins = ins' := congrArg (fun w : Patch => w.runs.insert) he
      have hlC := hlookup (a₄.trans hagree₄.left)
      have hround : Round K Ok ([C₂] ++ [C₄] ++ [C₆]) C
          (C.apply { jobs := { update := [j'] }, runs := { insert := ins } }) := by
        rw [hid, hslot] at hnew
        obtain ⟨rfl, hocc⟩ | ⟨rfl, hidC, hoccC⟩ := hnew
        · exact .kept hOk hOk₂ hlC hdue hread hcron hnext ⟨C₄, by simp, hocc⟩
        · exact .inserted hOk hOk₁ hOk₂ hlC hdue hread hcron hnext hidC hoccC
      refine ⟨job_fits hC hlC (List.mem_append_left _ (List.mem_append_left _ hL)) rfl rfl hcheck
        ?_, hround.transition hC trivial, hround⟩
      constructor
      case runsInsert =>
        exact fun r hr => ⟨fun ref href => List.mem_append_left _ ((hfits.runsInsert r hr).1 href),
          (hfits.runsInsert r hr).2⟩
      case runsOne => exact hfits.runsOne
      all_goals simp [Keyed]

theorem materializeOne_good :
    (materializeOne K).Good db Inv Ok (Round K Ok) Consistent [] [] [] s :=
  materializeOneThen_good fun t _ _ => consistent_ok t

theorem materializeLoop_good (left : ℕ) : ∀ (count : ℕ) (s : Store), Inv s →
    (materializeLoop K left count).Good db Inv Ok (Round K Ok) Consistent [] [] [] s := by
  induction left with
  | zero => exact fun count _ _ => consistent_ok count
  | succ left ih =>
    intro count s _
    refine materializeOneThen_good fun t C hC => ?_
    cases t with
    | idle => exact consistent_ok count
    | processed => exact ih (count + 1) C hC

/-! ## Creation and registration -/

theorem Job.tryFrom_consistent (j : LoadedJob) : Consistent (Job.tryFrom K j) := by
  unfold Job.tryFrom CronExpression.parseStored
  refine (consistent_mapError ?_).bind fun _ => (consistent_mapError ?_).bind fun _ =>
    (consistent_mapError ?_).bind fun _ => (consistent_mapError ?_).bind fun _ => consistent_ok _
  all_goals exact fun _ _ h => nomatch h

/-- Inserting one schedule whose id and name are new and locked. -/
theorem insert_job {C : Store} {j : SchedulerJob} (hagree : db.Agree L s C)
    (hcheck : j.check = .ok ()) (hrefs : j.refs ⊆ L) (hid : ∀ b ∈ s.jobs, b.id ≠ j.id)
    (hname : ∀ b ∈ s.jobs, b.name ≠ j.name) (hchange : JobChange Ok c none (some j)) :
    Patch.Fits { jobs := { insert := [j] } } L C ∧
      Transition Ok c C (C.apply { jobs := { insert := [j] } }) := by
  have hnone : lookup SchedulerJob.id j.id C.jobs = none :=
    (agree_job hagree (hrefs List.mem_cons_self)).trans (lookup_eq_none_iff.mpr hid)
  have hname' := agree_jobName hagree (hrefs (by simp [SchedulerJob.refs])) hname
  refine ⟨?_, Transition.of_jobs rfl rfl rfl fun id => ?_⟩
  · constructor
    case jobsInsert =>
      intro j' hj'
      obtain rfl := List.mem_singleton.mp hj'
      exact ⟨hrefs, hcheck, fun b hb => ⟨lookup_eq_none_iff.mp hnone b hb, hname' b hb⟩⟩
    all_goals simp [Keyed]
  · rw [Edit.lookup_apply, if_neg (by simp)]
    by_cases he : j.id = id
    · subst he
      simpa [hnone, lookup_cons] using hchange
    · simpa [lookup_cons, he] using JobChange.same c _

theorem checkJobId_eq_ok_iff {j : SchedulerJob} {jobs : List SchedulerJob} :
    checkJobId j jobs = .ok () ↔ ∀ b ∈ jobs, b.id ≠ j.id := by
  simp [checkJobId]

/-- A row that has been loaded can be loaded again. -/
theorem LoadedJob.read_decodable {j : SchedulerJob} {loaded : LoadedJob}
    (h : LoadedJob.read j = .ok loaded) : Decodable j.createdAt := by
  obtain ⟨_, -, h⟩ := bind_eq_ok h
  obtain ⟨_, hcreated, -⟩ := bind_eq_ok h
  exact decodable_of_readTimestamp hcreated

theorem insertJob_ok {w : Patch} {row : NewJob} {loaded : LoadedJob}
    (h : (insertJob row).run env snap cur = .ok (w, loaded)) :
    w = { jobs := { insert := [row.toRow env] } } ∧ (row.toRow env).check = .ok () ∧
      (∀ b ∈ cur.jobs, b.id ≠ env.jobId) ∧ (∀ b ∈ cur.jobs, b.name ≠ row.name) ∧
      Decodable env.now := by
  obtain ⟨_, -, h⟩ := bind_eq_ok (mapError_eq_ok.mp h)
  obtain ⟨_, hcheck, h⟩ := bind_eq_ok h
  obtain ⟨_, hid, h⟩ := bind_eq_ok h
  obtain ⟨_, hname, h⟩ := bind_eq_ok h
  obtain ⟨_, hread, h⟩ := bind_eq_ok h
  obtain ⟨rfl, -⟩ := Prod.mk.inj (Except.ok.inj h)
  rw [firstViolation_cons_eq_ok_iff, decide_eq_true_eq] at hname
  exact ⟨rfl, hcheck, checkJobId_eq_ok_iff.mp hid, hname.1, LoadedJob.read_decodable hread⟩

theorem upsertJob_ok {w : Patch} {row : NewJob} {dbNow : DateTime} {loaded : LoadedJob}
    (h : (upsertJob row dbNow).run env snap cur = .ok (w, loaded)) :
    (∃ b ∈ cur.jobs, b.name = row.name ∧ w = { jobs := { update := [b.reconcile row dbNow] } } ∧
      (b.reconcile row dbNow).check = .ok ()) ∨
    w = { jobs := { insert := [row.toRow env] } } ∧ (row.toRow env).check = .ok () ∧
      (∀ b ∈ cur.jobs, b.id ≠ env.jobId) ∧ (∀ b ∈ cur.jobs, b.name ≠ row.name) ∧
      Decodable env.now := by
  obtain ⟨_, -, h⟩ := bind_eq_ok (mapError_eq_ok.mp h)
  obtain ⟨_, -, h⟩ := bind_eq_ok h
  obtain ⟨_, hcheck, h⟩ := bind_eq_ok h
  rcases hf : cur.jobs.find? fun b => b.name = (row.toRow env).name with _ | b
  · rw [hf] at h
    obtain ⟨_, hid, h⟩ := bind_eq_ok h
    obtain ⟨_, hread, h⟩ := bind_eq_ok h
    obtain ⟨rfl, -⟩ := Prod.mk.inj (Except.ok.inj h)
    rw [List.find?_eq_none] at hf
    exact Or.inr ⟨rfl, hcheck, checkJobId_eq_ok_iff.mp hid,
      fun b hb he => hf b hb (decide_eq_true he), LoadedJob.read_decodable hread⟩
  · rw [hf] at h
    obtain ⟨_, hcheck', h⟩ := bind_eq_ok h
    obtain ⟨_, -, h⟩ := bind_eq_ok h
    obtain ⟨rfl, -⟩ := Prod.mk.inj (Except.ok.inj h)
    exact Or.inl ⟨b, List.mem_of_find?_eq_some hf, of_decide_eq_true (List.find?_some hf :),
      rfl, hcheck'⟩

/-- `SELECT now()`, then a program that depends on the answer. -/
theorem fetchDbNow_good {T : List Store → Store → Store → Prop} {k : DateTime → Program α}
    (h : ∀ env₀ dbNow C rs L, Ok env₀ → dbNow.val = env₀.now →
      (k dbNow).Good db Inv Ok T Consistent rs [{}] L C) :
    (Prog.stmt fetchDbNow k).Good db Inv Ok T Consistent [] [] [] s := by
  refine good_first (fun _ _ _ _ => query_error) fun C₁ C₂ _ _ env₀ hOk₀ w dbNow hw => ?_
  obtain ⟨rfl, hnow⟩ := readQuery_ok hw
  exact h env₀ dbNow C₂ _ _ hOk₀ (readTimestamp_eq_ok hnow)

theorem newJob_name {spec : CreateJob K} {dbNow : DateTime} {row : NewJob}
    (h : newJob spec dbNow = .ok row) : row.name = spec.name.value := by
  unfold newJob at h
  rcases hnext : spec.cron.nextAfter dbNow with e | next
  · rw [hnext] at h
    exact nomatch h
  · rw [hnext] at h
    rw [← Except.ok.inj h]

/-- What a definition makes of the schedules: a new row, or new settings for the row that has its
name. -/
inductive Registration (Ok : Env → Prop) (spec : CreateJob K) (s : Store) : Store → Prop
  | inserted {env₀ env} {dbNow : DateTime} {row : NewJob} (hOk₀ : Ok env₀) (hOk : Ok env)
    (hnow : dbNow.val = env₀.now) (hrow : newJob spec dbNow = .ok row)
    (hid : ∀ b ∈ s.jobs, b.id ≠ env.jobId) (hname : ∀ b ∈ s.jobs, b.name ≠ spec.name.value) :
    Registration Ok spec s (s.apply { jobs := { insert := [row.toRow env] } })
  | reconciled {env₀} {dbNow : DateTime} {row : NewJob} {b : SchedulerJob} (hOk₀ : Ok env₀)
    (hnow : dbNow.val = env₀.now) (hrow : newJob spec dbNow = .ok row)
    (hb : lookup SchedulerJob.id b.id s.jobs = some b) (hname : b.name = spec.name.value) :
    Registration Ok spec s (s.apply { jobs := { update := [b.reconcile row dbNow] } })

/-- `create` registers under a new name only. -/
def Registers (Ok : Env → Prop) (c : Call K) (s s' : Store) : Prop :=
  (∀ spec, c = .createJob spec →
    Registration Ok spec s s' ∧ ∀ b ∈ s.jobs, b.name ≠ spec.name.value) ∧
  ∀ spec, c = .ensureJob spec → Registration Ok spec s s'

theorem createJob_registers {spec : CreateJob K} : (createJob K spec).Good db Inv Ok
    (fun _ C C' => Transition Ok (.createJob spec) C C' ∧ Registers Ok (.createJob spec) C C')
    Consistent [] [] [] s := by
  refine fetchDbNow_good fun env₀ dbNow C₀ rs L hOk₀ hnow => ?_
  rcases hrow : newJob spec dbNow with e | row
  · exact ((nextAfter_consistent spec.cron dbNow).map _).error hrow
  · refine good_next (fun _ _ _ _ => query_error) fun C₁ C₂ _ _ h₂ _ env hOk w loaded hw => ?_
    simp only [Storage.applyAll_cons, Storage.applyAll_nil, db_apply, Store.apply_empty] at hw ⊢
    obtain ⟨rfl, hcheck, hid, hname, hloads⟩ := insertJob_ok hw
    refine good_commit_of (c := .createJob spec) (w := { jobs := { insert := [row.toRow env] } })
      (fun C => by simp) (fun C hC hagree => ?_) fun C _ => Job.tryFrom_consistent loaded
    have hrefs : (row.toRow env).refs ⊆ L ++ (insertJob row).acquires db env C₁ C₂
        { jobs := { insert := [row.toRow env] } } := fun ref href => List.mem_append_right _
      (mem_acquires_of_locked (refs_subset_locked_job (List.mem_singleton_self _) href))
    obtain ⟨hfits, htrans⟩ := insert_job hagree hcheck hrefs hid hname
      (.created hOk₀ hOk (Or.inl rfl) hnow hrow hloads)
    have hnew := hfits.jobsInsert _ (List.mem_singleton_self (row.toRow env))
    have hfree : ∀ b ∈ C.jobs, b.name ≠ spec.name.value := fun b hb =>
      newJob_name hrow ▸ (hnew.2.2 b hb).2
    refine ⟨hfits, htrans, htrans, fun _ he => ?_, nofun⟩
    obtain rfl := Call.createJob.inj he
    exact ⟨.inserted hOk₀ hOk hnow hrow (fun b hb => (hnew.2.2 b hb).1) hfree, hfree⟩

theorem createJob_good {spec : CreateJob K} : (createJob K spec).Good db Inv Ok
    (Commits Ok (.createJob spec)) Consistent [] [] [] s :=
  createJob_registers.mono (fun _ _ _ _ h => h.1) fun _ h => h

theorem ensureJob_registers {spec : CreateJob K} : (ensureJob K spec).Good db Inv Ok
    (fun _ C C' => Transition Ok (.ensureJob spec) C C' ∧ Registers Ok (.ensureJob spec) C C')
    Consistent [] [] [] s := by
  refine fetchDbNow_good fun env₀ dbNow C₀ rs L hOk₀ hnow => ?_
  rcases hrow : newJob spec dbNow with e | row
  · exact ((nextAfter_consistent spec.cron dbNow).map _).error hrow
  · refine good_next (fun _ _ _ _ => query_error) fun C₁ C₂ _ _ h₂ _ env hOk w loaded hw => ?_
    simp only [Storage.applyAll_cons, Storage.applyAll_nil, db_apply, Store.apply_empty] at hw ⊢
    obtain ⟨b, hb, hname, rfl, hcheck⟩ | ⟨rfl, hcheck, hid, hname, hloads⟩ := upsertJob_ok hw
    · refine good_commit_of (c := .ensureJob spec)
        (w := { jobs := { update := [b.reconcile row dbNow] } })
        (fun C => by simp) (fun C hC hagree => ?_) fun C _ => Job.tryFrom_consistent loaded
      have hL : .job (b.reconcile row dbNow).id ∈ L ++ (upsertJob row dbNow).acquires db env C₁ C₂
          { jobs := { update := [b.reconcile row dbNow] } } :=
        List.mem_append_right L (mem_acquires_of_locked
          (mem_locked_job (List.mem_singleton_self (b.reconcile row dbNow))))
      have hlookup : lookup SchedulerJob.id b.id C.jobs = some b :=
        (agree_job hagree hL).trans (lookup_of_mem h₂.jobIds hb)
      let b' := b.reconcile row dbNow
      obtain ⟨hfits, htrans⟩ : Patch.Fits { jobs := { update := [b'] } } _ C ∧
          Transition Ok (.ensureJob spec) C (C.apply { jobs := { update := [b'] } }) :=
        job_alone hC hlookup hL rfl rfl hcheck (.reconciled hOk₀ hnow hrow hname)
      refine ⟨hfits, htrans, htrans, nofun, fun _ he => ?_⟩
      obtain rfl := Call.ensureJob.inj he
      exact .reconciled hOk₀ hnow hrow hlookup (hname.trans (newJob_name hrow))
    · refine good_commit_of (c := .ensureJob spec) (w := { jobs := { insert := [row.toRow env] } })
        (fun C => by simp) (fun C hC hagree => ?_) fun C _ => Job.tryFrom_consistent loaded
      have hrefs : (row.toRow env).refs ⊆ L ++ (upsertJob row dbNow).acquires db env C₁ C₂
          { jobs := { insert := [row.toRow env] } } := fun ref href => List.mem_append_right _
        (mem_acquires_of_locked (refs_subset_locked_job (List.mem_singleton_self _) href))
      obtain ⟨hfits, htrans⟩ := insert_job hagree hcheck hrefs hid hname
        (.created hOk₀ hOk (Or.inr rfl) hnow hrow hloads)
      have hnew := hfits.jobsInsert _ (List.mem_singleton_self (row.toRow env))
      refine ⟨hfits, htrans, htrans, nofun, fun _ he => ?_⟩
      obtain rfl := Call.ensureJob.inj he
      exact .inserted hOk₀ hOk hnow hrow (fun b hb => (hnew.2.2 b hb).1)
        fun b hb => newJob_name hrow ▸ (hnew.2.2 b hb).2

theorem ensureJob_good {spec : CreateJob K} : (ensureJob K spec).Good db Inv Ok
    (Commits Ok (.ensureJob spec)) Consistent [] [] [] s :=
  ensureJob_registers.mono (fun _ _ _ _ h => h.1) fun _ h => h

/-! ## Rescheduling, pausing and deleting -/

/-- An UPDATE of one schedule, committed: the row is the newest one, or there is none. -/
theorem updateJob_good {id : JobId} {bind : Except DbError Unit}
    {set : Env → SchedulerJob → SchedulerJob} {ws : List Patch}
    {k : List SchedulerJob → Program α} (hws : ∀ C, db.applyAll ws C = C)
    (hset : ∀ env j, (set env j).id = j.id ∧ (set env j).name = j.name)
    (hchange : ∀ env C j, Ok env → db.Agree L s C → lookup SchedulerJob.id id C.jobs = some j →
      JobChange Ok c (some j) (some (set env j)))
    (hk : ∀ rows rs ws L C, ((∀ C, db.applyAll ws C = C) ∨ ∃ j, rows = [j]) →
      (∀ {k' : Program α}, (∀ C, Inv C → k'.Good db Inv Ok (Commits Ok c) Consistent [] [] [] C) →
        (Prog.commit k').Good db Inv Ok (Commits Ok c) Consistent rs ws L C) →
      (k rows).Good db Inv Ok (Commits Ok c) Consistent rs ws L C) :
    (Prog.stmt (updateJob id bind set) k).Good db Inv Ok (Commits Ok c) Consistent rs ws L s := by
  refine good_next (fun _ _ _ _ => query_error) fun C₁ C₂ _ _ h₂ a₂ env hOk w rows hw => ?_
  simp only [hws] at hw ⊢
  obtain ⟨rfl, rfl | ⟨j, hj, rfl, hcheck⟩⟩ := updateJob_ok h₂.jobIds hw
  · have hws' : ∀ C, db.applyAll (ws ++ [{ jobs := { update := [] } }]) C = C := fun C => by
      rw [Storage.applyAll_snoc, hws]
      exact C.apply_empty
    exact hk [] _ _ _ _ (Or.inl hws') fun hk' => good_commit_quiet (Transition.refl Ok _) hws' hk'
  · obtain rfl : j.id = id := key_of_lookup hj
    refine hk _ _ _ _ _ (Or.inr ⟨_, rfl⟩) fun hk' => ?_
    refine good_commit (w := { jobs := { update := [set env j] } }) (fun C => ?_)
      (fun C hC hagree => ?_) hk'
    · rw [Storage.applyAll_snoc, hws]
      rfl
    · have hL : .job (set env j).id ∈ L ++ (updateJob j.id bind set).acquires db env C₁ C₂
          { jobs := { update := [set env j] } } :=
        List.mem_append_right L (mem_acquires_of_locked
          (mem_locked_job (List.mem_singleton_self (set env j))))
      rw [(hset env j).1] at hL
      have hjC := (agree_job hagree hL).trans hj
      exact job_alone hC hjC hL (hset env j).1 (hset env j).2 hcheck
        (hchange env C j hOk (a₂.trans hagree.left) hjC)

theorem setPaused_good {id : JobId} {paused : Bool}
    (hchange : ∀ env j, Ok env → j.id = id →
      JobChange Ok c (some j) (some { j with isPaused := paused, updatedAt := env.now })) :
    (setPaused id paused).Good db Inv Ok (Commits Ok c) Consistent [] [] [] s :=
  updateJob_good (fun _ => rfl) (fun _ _ => ⟨rfl, rfl⟩)
    (fun env _ j hOk _ hj => hchange env j hOk (key_of_lookup hj))
    fun _ _ _ _ _ _ hcommit => hcommit fun _ _ => consistent_ok _

theorem moveCursor_good {id : JobId} {next dbNow : DateTime} {ws : List Patch}
    (hws : ∀ C, db.applyAll ws C = C)
    (hchange : ∀ C j, db.Agree L s C → lookup SchedulerJob.id id C.jobs = some j →
      JobChange Ok c (some j) (some { j with nextRunAt := next.val, updatedAt := dbNow.val })) :
    (moveCursor K id next dbNow).Good db Inv Ok (Commits Ok c) Consistent rs ws L s := by
  refine updateJob_good hws (fun _ _ => ⟨rfl, rfl⟩) (fun _ C j _ => hchange C j)
    fun rows rs ws L C _ hcommit => ?_
  rcases mapRows LoadedJob.read rows with e | _ | ⟨loaded, rest⟩
  · exact consistent_database e
  · exact hcommit fun _ _ => consistent_ok _
  · exact hcommit fun _ _ => (Job.tryFrom_consistent loaded).map some

theorem lockCron_ok {id : JobId} {w : Patch} {source : Option String}
    (h : (lockCron id).run env snap cur = .ok (w, source)) :
    w = {} ∧ ∀ text, source = some text → ∃ j, lookup SchedulerJob.id id cur.jobs = some j ∧
      j.cronExpression = text ∧ .job id ∈ (lockCron id).acquires db env snap cur w := by
  obtain ⟨rfl, rfl⟩ := Prod.mk.inj
    (Except.ok.inj ((mapError_eq_ok (f := SchedulerError.database)).mp h))
  refine ⟨rfl, fun text htext => ?_⟩
  split_ifs at htext with hsnap
  obtain ⟨j, hj, rfl⟩ := Option.map_eq_some_iff.mp htext
  refine ⟨j, hj, rfl, mem_acquires_of_locks ?_⟩
  show RowRef.job id ∈ if (lookup SchedulerJob.id id snap.jobs).isSome then
    ((lookup SchedulerJob.id id cur.jobs).map fun j => .job j.id).toList else []
  rw [if_pos hsnap, hj]
  simp [show j.id = id from key_of_lookup hj]

theorem reschedule_good {id : JobId} {update : ScheduleUpdate} :
    (reschedule K id update).Good db Inv Ok (Commits Ok (.reschedule id update : Call K))
      Consistent [] [] [] s := by
  refine fetchDbNow_good fun env₀ dbNow C₀ rs L hOk₀ hnow => ?_
  cases update with
  | setNextRunAt t =>
    exact moveCursor_good (fun C => C.apply_empty)
      fun C j _ hj => .pinned hOk₀ (key_of_lookup hj) hnow
  | resetFromNow =>
    refine good_next (fun _ _ _ _ => lockingQuery_error)
      fun C₁ C₂ _ _ _ a₂ env hOk w source hw => ?_
    simp only [Storage.applyAll_cons, Storage.applyAll_nil, db_apply, Store.apply_empty] at hw ⊢
    obtain ⟨rfl, hsource⟩ := lockCron_ok hw
    rcases source with _ | text
    · exact good_commit_quiet (Transition.refl Ok _) (fun C => by simp) fun _ _ => consistent_ok _
    obtain ⟨j, hj, rfl, hL⟩ := hsource _ rfl
    dsimp only
    rcases hcron : CronExpression.parseStored K id j.cronExpression with e | cron
    · refine Consistent.error (consistent_mapError ?_) hcron
      exact fun _ _ h => nomatch h
    dsimp only
    rcases hnext : cron.nextAfter dbNow with e | next
    · exact (nextAfter_consistent cron dbNow).error hnext
    · refine moveCursor_good (fun C => by simp) fun C j' hagree hj' => ?_
      obtain rfl : j = j' := Option.some.inj
        (((agree_job hagree (List.mem_append_right _ hL)).trans hj).symm.trans hj')
      exact .reset hOk₀ (key_of_lookup hj) hnow hcron hnext

theorem deleteJob_good {id : JobId} : (delete id).Good db Inv Ok
    (Commits Ok (.delete id : Call K)) Consistent [] [] [] s := by
  refine good_first (fun _ _ _ _ => query_error) fun C₁ C₂ _ h₂ env hOk w count hw => ?_
  obtain ⟨rfl, rfl⟩ := Prod.mk.inj
    (Except.ok.inj ((mapError_eq_ok (f := SchedulerError.database)).mp hw))
  refine good_commit (fun _ => rfl) (fun C hC hagree => ?_) fun _ _ => consistent_ok _
  have hmem : ∀ i ∈ (targets SchedulerJob.id (fun j => decide (j.id = id)) C₁.jobs
      C₂.jobs).map SchedulerJob.id, i = id ∧ ∃ j ∈ C₂.jobs, j.id = i := by
    intro i hi
    obtain ⟨j, hj, rfl⟩ := List.mem_map.mp hi
    obtain ⟨hj, hid, -⟩ := mem_targets.mp hj
    exact ⟨of_decide_eq_true hid, j, hj, rfl⟩
  refine ⟨?_, Transition.of_jobs rfl rfl rfl fun i => ?_⟩
  · constructor
    case jobsDelete =>
      intro j hj hd
      obtain ⟨-, j₂, hj₂, he⟩ := hmem _ hd
      have hlocked : j₂.refs ⊆ Patch.locked C₂ _ := refs_subset_locked_job_deleted hj₂ (he ▸ hd)
      have hl := (agree_job hagree (mem_acquires_of_locked (hlocked List.mem_cons_self))).trans
        (lookup_of_mem h₂.jobIds hj₂)
      rw [he] at hl
      obtain rfl : j = j₂ := Option.some.inj ((lookup_of_mem hC.jobIds hj).symm.trans hl)
      exact fun ref href => mem_acquires_of_locked (hlocked href)
    all_goals simp [Keyed]
  · rw [Edit.lookup_apply]
    split_ifs with hd
    · obtain ⟨rfl, -⟩ := hmem i hd
      rcases hl : lookup SchedulerJob.id i C.jobs with _ | j
      · exact .same _ _
      · exact .deleted (key_of_lookup hl)
    · simpa using @JobChange.same K Ok (Call.delete id) _

end Good

end PgTaskScheduler
