import PgTaskScheduler.History

/-!
# Working off due schedules

`materialize_due_jobs` takes the due schedules one after the other, the earliest cursor first. A
schedule whose cron does not parse is paused and the loop goes on. A schedule whose cron parses but
has no next occurrence ends the loop, and it is found first again by the next call: the schedules
behind it wait as long as it is there (`materialize_isolates`).
-/

namespace PgTaskScheduler

open Tables ReadCommitted

variable {K : Croner}

/-! ## Due schedules and their turns -/

instance (env : Env) : Std.Total (SchedulerJob.dueOrder env) :=
  ⟨fun a b => by unfold SchedulerJob.dueOrder; grind⟩

variable (K) in
/-- The stored cron parses and has the occurrence `next` after `now`. -/
def SchedulerJob.HasNext (now : DateTime) (j : SchedulerJob) (next : DateTime) : Prop :=
  ∃ cron, CronExpression.parse K j.cronExpression = .ok cron ∧ cron.nextAfter now = .ok next

variable (K) in
/-- The stored cron parses, but the search for an occurrence after `now` fails. -/
def SchedulerJob.Exhausted (now : DateTime) (j : SchedulerJob) : Prop :=
  ∃ cron e, CronExpression.parse K j.cronExpression = .ok cron ∧ cron.nextAfter now = .error e

/-- What the column types of a schedule accept. -/
def SchedulerJob.Stored (j : SchedulerJob) : Prop :=
  bindText j.name = .ok () ∧ bindJson j.jobArgs = .ok () ∧ InRange j.nextRunAt

instance (j : SchedulerJob) : Decidable j.Stored := inferInstanceAs (Decidable (_ ∧ _ ∧ _))

/-- The unpaused schedules that are due at `t`. -/
def Store.overdue (s : Store) (t : Timestamp) : List SchedulerJob :=
  s.jobs.filter fun j => decide (j.nextRunAt ≤ t) && !j.isPaused

/-- The rows in the order in which `SELECT_DUE` finds them: every transaction sorts what is left. -/
def turns : (ℕ → Env) → ℕ → List SchedulerJob → List SchedulerJob
  | _, 0, _ => []
  | env, n + 1, rows =>
    match (rows.insertionSort (SchedulerJob.dueOrder (env 0))).head? with
    | none => []
    | some j => j :: turns (fun n => env (n + 1)) n (rows.filter fun b => decide (b.id ≠ j.id))

/-- The readings of a call made at `t` while no other session holds a schedule locked. Every
transaction has its own `now()`, and `gen_random_uuid()` does not repeat an id. -/
structure Undisturbed (t : Timestamp) (now : ℕ → DateTime) (env : ℕ → Env) (s : Store) : Prop where
  now : ∀ n, (env n).now = (now n).val
  since : ∀ n, t ≤ (env n).now
  skip : ∀ n id, (env n).skipJob id = false
  fresh : ∀ n, ∀ b ∈ s.runs, b.id ≠ (env n).runId
  distinct : ∀ n m, (env n).runId = (env m).runId → n = m

section Turns

variable {env : ℕ → Env} {n : ℕ} {rows : List SchedulerJob} {j : SchedulerJob}

/-- Every row has one turn. -/
theorem turns_perm : ∀ (n : ℕ) (env : ℕ → Env) (rows : List SchedulerJob), rows.length = n →
    Keyed SchedulerJob.id rows → (turns env n rows).Perm rows := by
  intro n
  induction n with
  | zero =>
    intro env rows hlen _
    rw [List.length_eq_zero_iff.mp hlen]
    exact .refl _
  | succ n ih =>
    intro env rows hlen hk
    unfold turns
    split
    · next hnone =>
      rw [List.head?_eq_none_iff] at hnone
      have hrows : rows = [] :=
        List.perm_nil.mp (hnone ▸ List.perm_insertionSort (SchedulerJob.dueOrder (env 0)) rows).symm
      rw [hrows] at hlen
      exact absurd hlen (by simp)
    · next j hj =>
      have hmem : j ∈ rows := (List.mem_insertionSort _).mp (List.mem_of_head? hj)
      have hperm := perm_cons_filter hk hmem
      have hlen' : (rows.filter fun b => decide (b.id ≠ j.id)).length = n := by
        have := hperm.length_eq
        rw [List.length_cons] at this
        omega
      exact ((ih _ _ hlen' (hk.filter _)).cons j).trans hperm.symm

end Turns

/-! ## One turn -/

section Turn

variable {α : Type} {t : Timestamp} {now : DateTime} {env : ℕ → Env} {s s₁ : Store}
  {j : SchedulerJob} {k : Tick → Program α}

/-- The row that a transaction takes while schedules are overdue. -/
theorem dueCandidates_overdue {env : Env} (hs : Inv s) (hskip : ∀ id, env.skipJob id = false)
    (ht : t ≤ env.now)
    (hj : ((s.overdue t).insertionSort (SchedulerJob.dueOrder env)).head? = some j) :
    dueCandidates env s s = [j] := by
  have hfilter : s.overdue t =
      (s.jobs.filter (·.due env)).filter fun j => decide (j.nextRunAt ≤ t) := by
    rw [List.filter_filter]
    refine List.filter_congr fun b _ => ?_
    unfold SchedulerJob.due
    by_cases hb : b.nextRunAt ≤ t
    · have hnow : b.nextRunAt ≤ env.now := hb.trans ht
      simp [hb, hnow]
    · simp [hb]
  have hne : s.overdue t ≠ [] := fun h => by
    rw [h] at hj
    exact absurd hj (by simp)
  rw [hfilter] at hj hne
  rw [← head?_insertionSort_filter (fun a b hab hb => by
    unfold SchedulerJob.dueOrder at hab
    simp only [decide_eq_true_eq] at hb ⊢
    grind) hne] at hj
  unfold dueCandidates
  rw [selectForUpdate_self hs.jobIds, List.filter_eq_self.mpr fun b _ => by simp [hskip]]
  rcases hsort : (s.jobs.filter (·.due env)).insertionSort (SchedulerJob.dueOrder env) with
    _ | ⟨b, u⟩
  · rw [hsort] at hj
    exact absurd hj (by simp)
  · rw [hsort] at hj ⊢
    obtain rfl : b = j := Option.some.inj hj
    rfl

/-- An UPDATE of one schedule, run alone. -/
theorem updateJob_self {env : Env} {bind : Except DbError Unit}
    {set : Env → SchedulerJob → SchedulerJob} (hk : Keyed SchedulerJob.id s.jobs)
    (hj : j ∈ s.jobs) (hbind : bind = .ok ()) (hcheck : (set env j).check = .ok ()) :
    (updateJob j.id bind set).run env s s =
      .ok ({ jobs := { update := [set env j] } }, [set env j]) := by
  have hrows : (targets SchedulerJob.id (fun b => decide (b.id = j.id)) s.jobs s.jobs).map
      (set env) = [set env j] := by
    rw [targets_self, filter_eq_singleton hk hj (by simp) fun b _ hb => of_decide_eq_true hb]
    rfl
  refine mapError_eq_ok.mpr ?_
  dsimp only
  rw [hrows, hbind, checkAll, hcheck]
  rfl

variable (K) in
/-- What the transaction that takes `j` makes of the store. -/
inductive Turn (now : DateTime) (env : Env) (j : SchedulerJob) (s : Store) : Store → Prop
  | corrupt {e} (hcron : CronExpression.parse K j.cronExpression = .error e) : Turn now env j s
      (s.apply { jobs := { update := [{ j with isPaused := true, updatedAt := env.now }] } })
  | kept {next} (hnext : j.HasNext K now next)
    (hocc : ∃ b ∈ s.runs, b.occurrence = some (j.id, j.nextRunAt)) : Turn now env j s
      (s.apply { jobs := { update := [{ j with nextRunAt := next.val, updatedAt := env.now }] } })
  | inserted {next job} (hnext : j.HasNext K now next) (hread : DueJob.read env j = .ok job)
    (hid : ∀ b ∈ s.runs, b.id ≠ env.runId) : Turn now env j s (s.apply {
      jobs := { update := [{ j with nextRunAt := next.val, updatedAt := env.now }] }
      runs := { insert := [materializedRun env job] } })

theorem dueJob_read {env : Env} (hnow : env.now = now.val) (hj : j.Stored)
    (hdue : j.nextRunAt ≤ env.now) : ∃ job, DueJob.read env j = .ok job ∧ job.dbNow = now := by
  have hcursor : Decodable j.nextRunAt :=
    ⟨le_trans (by decide) hj.2.2.1, (hnow ▸ hdue).trans now.property.2⟩
  refine ⟨⟨j.id, ⟨_, hcursor⟩, j.cronExpression, now, j.name, j.jobArgs, j.maxAttempts,
    j.leaseDuration, j.retryBackoff⟩, ?_, rfl⟩
  unfold DueJob.read
  rw [readTimestamp_of_decodable hcursor, hnow, readTimestamp_of_decodable now.property]
  rfl

theorem materializedRun_valid {env : Env} {job : DueJob} (hs : Inv s) (hj : j ∈ s.jobs)
    (hstored : j.Stored) (hread : DueJob.read env j = .ok job) :
    (materializedRun env job).check = .ok () := by
  obtain ⟨-, hslot, -, -, hname, -, hmax, -⟩ := DueJob.read_eq_ok hread
  have hcheck := hs.jobsValid j hj
  simp only [SchedulerJob.check, firstViolation_cons_eq_ok_iff, decide_eq_true_eq,
    firstViolation_nil, and_true] at hcheck
  obtain ⟨hwide, hpos, hjname⟩ := hcheck
  refine Run.check_eq_ok_iff.mpr
    ⟨(by decide : InI32 0), ?_, ?_, fun _ he => absurd he (by simp [materializedRun]), ?_,
      fun _ hk => absurd hk (by simp [materializedRun]), ?_, rfl,
      fun _ hw => absurd hw (by simp [materializedRun])⟩
  · show InI32 job.maxAttempts
    rwa [hmax]
  · show InRange job.nextRunAt.val
    rw [hslot]
    exact hstored.2.2
  · show (0 : ℤ) ≤ 0 ∧ 1 ≤ job.maxAttempts ∧ 0 ≤ job.maxAttempts ∧
      (StoredRunState.pending ≠ .pending ∨ 0 < job.maxAttempts)
    rw [hmax]
    omega
  · show NameCheck job.name
    rwa [hname]

theorem insertRun_self {env : Env} {job : DueJob} (hs : Inv s) (hj : j ∈ s.jobs)
    (hstored : j.Stored) (hread : DueJob.read env j = .ok job)
    (hfresh : ∀ b ∈ s.runs, b.id ≠ env.runId) : ∃ w, (insertRun job).run env s s = .ok (w, ()) ∧
      (w = {} ∧ (∃ b ∈ s.runs, b.occurrence = some (j.id, j.nextRunAt)) ∨
        w = { runs := { insert := [materializedRun env job] } }) := by
  obtain ⟨hid, hslot, -, -, hname, hargs, -⟩ := DueJob.read_eq_ok hread
  have hbind : bindTimestamp job.nextRunAt = .ok () := by
    unfold bindTimestamp
    rw [if_pos]
    rw [hslot]
    exact hstored.2.2
  unfold insertRun query
  dsimp only
  rw [hname, hargs, hstored.1, hstored.2.1, hbind, materializedRun_valid hs hj hstored hread]
  rcases hc : conflicting Run.occurrence (materializedRun env job) s.runs with _ | b
  · refine ⟨_, ?_, Or.inr rfl⟩
    rw [show checkRunId (materializedRun env job) s.runs = .ok () from
      checkRunId_eq_ok_iff.mpr hfresh]
    rfl
  · obtain ⟨hb, hocc, -⟩ := conflicting_eq_some hc
    refine ⟨{}, rfl, Or.inl ⟨rfl, b, hb, ?_⟩⟩
    rw [hocc, ← hid, ← hslot]
    rfl

/-- A round, and what follows its commit. -/
theorem materializeOneThen_exec : (materializeOneThen K k).exec db env s s =
    match (materializeOne K).exec db env s s with
    | (.error e, s') => (.error e, s')
    | (.ok tick, s') => (k tick).exec db (fun n => env (n + 1)) s' s' := by
  unfold materializeOne materializeOneThen
  rcases hselect : selectDue.run (env 0) s s with e | ⟨w, _ | job⟩
  · rw [Prog.exec_stmt_error hselect, Prog.exec_stmt_error hselect]
  · rw [Prog.exec_stmt_ok hselect, Prog.exec_stmt_ok hselect]
    rfl
  rw [Prog.exec_stmt_ok hselect, Prog.exec_stmt_ok hselect]
  dsimp only
  generalize db.apply w s = s₀
  rcases CronExpression.parse K job.cronExpression with e | cron
  · dsimp only
    rcases hpause : (updatePaused job.id true).run (env 0) s₀ s₀ with e | ⟨w, rows⟩
    · rw [Prog.exec_stmt_error hpause, Prog.exec_stmt_error hpause]
    · rw [Prog.exec_stmt_ok hpause, Prog.exec_stmt_ok hpause]
      rfl
  dsimp only
  rcases cron.nextAfter job.dbNow with e | next
  · rfl
  dsimp only
  rcases hinsert : (insertRun job).run (env 0) s₀ s₀ with e | ⟨w₁, u⟩
  · rw [Prog.exec_stmt_error hinsert, Prog.exec_stmt_error hinsert]
  rw [Prog.exec_stmt_ok hinsert, Prog.exec_stmt_ok hinsert]
  generalize db.apply w₁ s₀ = s₁
  rcases hadvance : (advance next job.id).run (env 0) s₁ s₁ with e | ⟨w₂, rows⟩
  · rw [Prog.exec_stmt_error hadvance, Prog.exec_stmt_error hadvance]
  · rw [Prog.exec_stmt_ok hadvance, Prog.exec_stmt_ok hadvance]
    rfl

/-- The transaction that takes `j`: it fails if the search fails, else it commits the turn. -/
theorem exec_turn (hK : K.StrictlyAfter) (hs : Inv s) (hnow : (env 0).now = now.val)
    (hcand : dueCandidates (env 0) s s = [j]) (hstored : j.Stored)
    (hfresh : ∀ b ∈ s.runs, b.id ≠ (env 0).runId) :
    (j.Exhausted K now ∧ ∃ e, (materializeOne K).exec db env s s = (.error e, s)) ∨
      ¬ j.Exhausted K now ∧ ∃ s₁, Turn K now (env 0) j s s₁ ∧
        (materializeOne K).exec db env s s = (.ok .processed, s₁) := by
  obtain ⟨hlookup, hdue, -⟩ := dueCandidates_mem (hcand ▸ List.mem_singleton_self j)
  have hj : j ∈ s.jobs := mem_of_lookup hlookup
  simp only [SchedulerJob.due, Bool.and_eq_true, decide_eq_true_eq] at hdue
  obtain ⟨job, hread, rfl⟩ := dueJob_read hnow hstored hdue.1
  obtain ⟨hid, -, hsource, -⟩ := DueJob.read_eq_ok hread
  have hselect : selectDue.run (env 0) s s = .ok ({}, some job) := by
    unfold selectDue lockingQuery
    dsimp only
    rw [hcand]
    dsimp only
    rw [hread]
    rfl
  unfold materializeOne materializeOneThen
  rw [Prog.exec_stmt_ok hselect]
  dsimp only
  rw [hsource, hid, db_apply, Store.apply_empty]
  rcases hcron : CronExpression.parse K j.cronExpression with e | cron
  · -- the text does not parse
    refine Or.inr ⟨fun ⟨cron, _, hparse, _⟩ => absurd (hcron.symm.trans hparse) (by simp), _,
      .corrupt hcron, ?_⟩
    exact Prog.exec_stmt_ok (updateJob_self hs.jobIds hj rfl (hs.jobsValid j hj))
  dsimp only
  rcases hnext : cron.nextAfter job.dbNow with e | next
  · exact Or.inl ⟨⟨cron, e, hcron, hnext⟩, e, rfl⟩
  · refine Or.inr ⟨fun ⟨cron', e, hparse, he⟩ => ?_, ?_⟩
    · obtain rfl := Except.ok.inj (hcron.symm.trans hparse)
      exact absurd (hnext.symm.trans he) (by simp)
    have hafter : job.dbNow.val < next.val := CronExpression.nextAfter_gt hK hnext
    have hbind : bindTimestamp next = .ok () := by
      unfold bindTimestamp
      rw [if_pos]
      exact ⟨(hstored.2.2.1.trans (hdue.1.trans hnow.le)).trans hafter.le,
        lt_of_le_of_lt next.property.2 (by decide)⟩
    obtain ⟨w, hinsert, hw⟩ := insertRun_self hs hj hstored hread hfresh
    have hjobs : (s.apply w).jobs = s.jobs := by
      rcases hw with ⟨rfl, -⟩ | rfl <;> simp [Store.apply]
    have hadvance : (advance next j.id).run (env 0) (s.apply w) (s.apply w) =
        .ok ({ jobs := { update := [{ j with
          nextRunAt := next.val, updatedAt := (env 0).now }] } }, [_]) :=
      updateJob_self (by rw [hjobs]; exact hs.jobIds) (by rw [hjobs]; exact hj) hbind
        (hs.jobsValid j hj)
    dsimp only
    rw [Prog.exec_stmt_ok hinsert, db_apply, Prog.exec_stmt_ok hadvance]
    refine ⟨_, ?_, rfl⟩
    rcases hw with ⟨rfl, hocc⟩ | rfl
    · rw [db_apply, Store.apply_empty]
      exact .kept ⟨cron, hcron, hnext⟩ hocc
    · have hboth : db.apply ({ jobs := { update := [{ j with
            nextRunAt := next.val, updatedAt := (env 0).now }] } } : Patch)
          (s.apply { runs := { insert := [materializedRun (env 0) job] } }) = s.apply {
            jobs := { update := [{ j with nextRunAt := next.val, updatedAt := (env 0).now }] }
            runs := { insert := [materializedRun (env 0) job] } } := by
        simp [Store.apply]
      rw [hboth]
      exact .inserted ⟨cron, hcron, hnext⟩ hread hfresh

/-- A turn writes the schedule it takes, which is no longer due, and adds the run of the cursor. -/
theorem Turn.effect {env : Env} (hK : K.StrictlyAfter) (hstored : j.Stored)
    (hdue : j.nextRunAt ≤ now.val) (h : Turn K now env j s s₁) : ∃ j' new,
      s₁.jobs = overwrite SchedulerJob.id [j'] s.jobs ∧ s₁.runs = s.runs ++ new ∧
      j'.id = j.id ∧ j'.Stored ∧ (j'.isPaused = true ∨ now.val < j'.nextRunAt) ∧
      (∀ r ∈ new, r.id = env.runId) ∧ ∀ next, j.HasNext K now next → now.val < j'.nextRunAt ∧
        ∃ b ∈ s₁.runs, b.occurrence = some (j.id, j.nextRunAt) := by
  have hlater : ∀ {next}, j.HasNext K now next → now.val < next.val := fun ⟨_, _, hnext⟩ =>
    CronExpression.nextAfter_gt hK hnext
  have hrange : ∀ {next}, j.HasNext K now next → InRange next.val := fun ⟨_, _, hnext⟩ =>
    CronExpression.nextAfter_inRange hK hnext (hstored.2.2.1.trans hdue)
  cases h with
  | corrupt hcron =>
    refine ⟨{ j with isPaused := true, updatedAt := env.now }, [],
      by simp [Store.apply, Edit.apply], by simp [Store.apply], rfl, hstored, Or.inl rfl, by simp,
      ?_⟩
    rintro next ⟨cron, hparse, -⟩
    exact absurd (hcron.symm.trans hparse) (by simp)
  | @kept next hnext hocc =>
    have hgt : now.val < next.val := hlater hnext
    refine ⟨{ j with nextRunAt := next.val, updatedAt := env.now }, [],
      by simp [Store.apply, Edit.apply], by simp [Store.apply], rfl,
      ⟨hstored.1, hstored.2.1, hrange hnext⟩, Or.inr hgt, by simp, fun _ _ => ⟨hgt, ?_⟩⟩
    simpa [Store.apply] using hocc
  | @inserted next job hnext hread hid =>
    obtain ⟨hjob, hslot, -⟩ := DueJob.read_eq_ok hread
    have hgt : now.val < next.val := hlater hnext
    refine ⟨{ j with nextRunAt := next.val, updatedAt := env.now }, [materializedRun env job],
      by simp [Store.apply, Edit.apply], by simp [Store.apply, Edit.apply], rfl,
      ⟨hstored.1, hstored.2.1, hrange hnext⟩, Or.inr hgt,
      fun r hr => by rw [List.mem_singleton.mp hr]; rfl,
      fun _ _ => ⟨hgt, materializedRun env job, by simp [Store.apply, Edit.apply], ?_⟩⟩
    rw [← hjob, ← hslot]
    rfl

end Turn

/-! ## What later rounds keep -/

section Later

variable {now : ℕ → DateTime} {s s' s'' : Store}

variable (K) in
/-- What any number of rounds keep: runs stay, and a cursor moves only to an occurrence of its cron
after the `now()` of a round. -/
structure Later (now : ℕ → DateTime) (s s' : Store) : Prop where
  runs : ∀ b ∈ s.runs, b ∈ s'.runs
  jobs : ∀ id j, lookup SchedulerJob.id id s.jobs = some j →
    ∃ j', lookup SchedulerJob.id id s'.jobs = some j' ∧ j'.cronExpression = j.cronExpression ∧
      j.nextRunAt ≤ j'.nextRunAt ∧ (j'.nextRunAt = j.nextRunAt ∨
        ∃ n next, j.HasNext K (now n) next ∧ j'.nextRunAt = next.val)

theorem Later.refl (s : Store) : Later K now s s :=
  ⟨fun _ hb => hb, fun _ j hj => ⟨j, hj, rfl, le_rfl, Or.inl rfl⟩⟩

theorem Later.trans (h : Later K now s s') (h' : Later K now s' s'') : Later K now s s'' := by
  refine ⟨fun b hb => h'.runs b (h.runs b hb), fun id j hj => ?_⟩
  obtain ⟨j', hj', hcron, hle, hmove⟩ := h.jobs id j hj
  obtain ⟨j'', hj'', hcron', hle', hmove'⟩ := h'.jobs id j' hj'
  refine ⟨j'', hj'', hcron'.trans hcron, hle.trans hle', ?_⟩
  rcases hmove' with heq | ⟨n, next, ⟨cron, hparse, hnext⟩, heq⟩
  · rw [heq]
    exact hmove
  · exact Or.inr ⟨n, next, ⟨cron, hcron ▸ hparse, hnext⟩, heq⟩

/-- One schedule gets a new version, and a run may be added. -/
theorem later_update {j j' : SchedulerJob} {ins : List Run}
    (hj : lookup SchedulerJob.id j.id s.jobs = some j) (hid : j'.id = j.id)
    (hcron : j'.cronExpression = j.cronExpression) (hle : j.nextRunAt ≤ j'.nextRunAt)
    (hmove : j'.nextRunAt = j.nextRunAt ∨
      ∃ n next, j.HasNext K (now n) next ∧ j'.nextRunAt = next.val) :
    Later K now s (s.apply { jobs := { update := [j'] }, runs := { insert := ins } }) := by
  refine ⟨fun b hb => by simp [Store.apply, Edit.apply, hb], fun id i hi => ?_⟩
  show ∃ j'', lookup SchedulerJob.id id
    (({ update := [j'] } : Edit SchedulerJob JobId).apply SchedulerJob.id s.jobs) = some j'' ∧ _
  rw [Edit.lookup_apply_update]
  split_ifs with he
  · obtain rfl : id = j.id := he.symm.trans hid
    obtain rfl := Option.some.inj (hj.symm.trans hi)
    exact ⟨j', by rw [hi]; rfl, hcron, hle, hmove⟩
  · exact ⟨i, hi, rfl, le_rfl, Or.inl rfl⟩

theorem Round.later (hK : K.StrictlyAfter) {rs : List Store}
    (h : Round K (fun env => ∃ n, env.now = (now n).val) rs s s') : Later K now s s' := by
  have hadvanced : ∀ {env j job cron} {next : DateTime}, (∃ n, env.now = (now n).val) →
      j.due env → DueJob.read env j = .ok job →
      CronExpression.parse K j.cronExpression = .ok cron → cron.nextAfter job.dbNow = .ok next →
      j.nextRunAt ≤ next.val ∧ ∃ n next', j.HasNext K (now n) next' ∧ next.val = next'.val := by
    rintro env j job cron next ⟨n, hn⟩ hdue hread hcron hnext
    have hnow : job.dbNow = now n := Subtype.ext ((DueJob.read_eq_ok hread).2.2.2.1.trans hn)
    have hgt := CronExpression.nextAfter_gt hK hnext
    simp only [SchedulerJob.due, Bool.and_eq_true, decide_eq_true_eq] at hdue
    refine ⟨?_, n, next, ⟨cron, hcron, hnow ▸ hnext⟩, rfl⟩
    rw [hnow, ← hn] at hgt
    exact hdue.1.trans hgt.le
  cases h with
  | idle => exact .refl s
  | corrupt hOk hOk' hj hdue hcron => exact later_update hj rfl rfl le_rfl (Or.inl rfl)
  | inserted hOk hOk₁ hOk₂ hj hdue hread hcron hnext hid hnew =>
    obtain ⟨hle, hmove⟩ := hadvanced hOk hdue hread hcron hnext
    exact later_update hj rfl rfl hle (Or.inr hmove)
  | kept hOk hOk₂ hj hdue hread hcron hnext hocc =>
    obtain ⟨hle, hmove⟩ := hadvanced hOk hdue hread hcron hnext
    exact later_update hj rfl rfl hle (Or.inr hmove)

theorem loop_later (hK : K.StrictlyAfter) (hs : Inv s) {env : ℕ → Env}
    (hnow : ∀ n, (env n).now = (now n).val) (left count : ℕ) :
    Inv ((materializeLoop K left count).exec db env s s).2 ∧
      Later K now s ((materializeLoop K left count).exec db env s s).2 := by
  obtain ⟨-, hinv, hrounds⟩ := @Prog.Good.exec _ _ _ _ _ _ _ _ _ _ _ _ _ [] [] [] s
    (@materializeLoop_good K (fun env => ∃ n, env.now = (now n).val) left count s hs) hs
    (by simp) env fun n => ⟨n, hnow n⟩
  refine ⟨hinv, ?_⟩
  simp only [Storage.applyAll_nil] at hrounds
  generalize ((materializeLoop K left count).exec db env s s).2 = s' at hrounds
  induction hrounds with
  | refl => exact .refl s
  | tail _ hstep ih =>
    obtain ⟨_, -, hround⟩ := hstep
    exact ih.trans (hround.later hK)

end Later

/-! ## The loop -/

section Loop

variable {t : Timestamp} {now : ℕ → DateTime} {env : ℕ → Env} {s s' s₁ : Store} {j : SchedulerJob}

/-- The occurrence of the old cursor has a run, and the cursor is after `now`. -/
def Served (now : DateTime) (j : SchedulerJob) (s' : Store) : Prop :=
  (∃ b ∈ s'.runs, b.occurrence = some (j.id, j.nextRunAt)) ∧
    ∃ j', lookup SchedulerJob.id j.id s'.jobs = some j' ∧ now.val < j'.nextRunAt

variable (K) in
/-- Every schedule that has a next occurrence at its turn is served. -/
def AllServed (now : ℕ → DateTime) (ts : List SchedulerJob) (s' : Store) : Prop :=
  ∀ (p : ℕ) j next, ts[p]? = some j → j.HasNext K (now p) next → Served (now p) j s'

variable (K) in
/-- No schedule that has a next occurrence has its turn after one whose search fails. -/
def Unobstructed (now : ℕ → DateTime) (ts : List SchedulerJob) : Prop :=
  ∀ (p q : ℕ) i j next, p < q → ts[p]? = some i → ts[q]? = some j → i.Exhausted K (now p) →
    ¬ j.HasNext K (now q) next

theorem SchedulerJob.Exhausted.not_hasNext {now next : DateTime} (h : j.Exhausted K now) :
    ¬ j.HasNext K now next := by
  obtain ⟨cron, e, hparse, hnext⟩ := h
  rintro ⟨cron', hparse', hnext'⟩
  obtain rfl := Except.ok.inj (hparse.symm.trans hparse')
  exact absurd (hnext.symm.trans hnext') (by simp)

/-- A first turn whose search succeeds obstructs nothing. -/
theorem unobstructed_cons {ts : List SchedulerJob} (hj : ¬ j.Exhausted K (now 0)) :
    Unobstructed K now (j :: ts) ↔ Unobstructed K (fun n => now (n + 1)) ts := by
  constructor
  · exact fun h p q i i' next hpq hp hq => h (p + 1) (q + 1) i i' next (by omega) hp hq
  · rintro h (_ | p) (_ | q) i i' next hpq hp hq hi
    · omega
    · obtain rfl := Option.some.inj hp
      exact absurd hi hj
    · omega
    · exact h p q i i' next (by omega) hp hq hi

theorem Undisturbed.next {new : List Run} (henv : Undisturbed t now env s)
    (hruns : s₁.runs = s.runs ++ new) (hnew : ∀ r ∈ new, r.id = (env 0).runId) :
    Undisturbed t (fun n => now (n + 1)) (fun n => env (n + 1)) s₁ where
  now n := henv.now (n + 1)
  since n := henv.since (n + 1)
  skip n := henv.skip (n + 1)
  fresh n b hb := by
    rw [hruns, List.mem_append] at hb
    rcases hb with hb | hb
    · exact henv.fresh (n + 1) b hb
    · intro he
      have := henv.distinct 0 (n + 1) ((hnew b hb).symm.trans he)
      omega
  distinct n m h := by
    have := henv.distinct (n + 1) (m + 1) h
    omega

theorem stored_overwrite {j' : SchedulerJob}
    (hjobs : s₁.jobs = overwrite SchedulerJob.id [j'] s.jobs) (hj' : j'.Stored)
    (h : ∀ j ∈ s.jobs, j.Stored) : ∀ j ∈ s₁.jobs, j.Stored := by
  intro i hi
  rw [hjobs] at hi
  rcases mem_overwrite hi with hi | ⟨hi, -⟩
  · exact h i hi
  · rwa [List.mem_singleton.mp hi]

theorem overdue_overwrite {now : DateTime} {j' : SchedulerJob}
    (hjobs : s₁.jobs = overwrite SchedulerJob.id [j'] s.jobs) (hid : j'.id = j.id)
    (ht : t ≤ now.val) (hj' : j'.isPaused = true ∨ now.val < j'.nextRunAt) :
    s₁.overdue t = (s.overdue t).filter fun b => decide (b.id ≠ j.id) := by
  unfold Store.overdue
  rw [hjobs, filter_overwrite_of_not, hid]
  rcases hj' with hp | hgt
  · simp [hp]
  · have hlate : ¬ j'.nextRunAt ≤ t := not_le.mpr (lt_of_le_of_lt ht hgt)
    simp [hlate]

/-- **The loop serves every schedule that has a next occurrence exactly if none of them waits behind
one whose search fails.** -/
theorem loop_served (hK : K.StrictlyAfter) : ∀ (n left count : ℕ) (now : ℕ → DateTime)
    (env : ℕ → Env) (s : Store), Inv s → (∀ j ∈ s.jobs, j.Stored) → Undisturbed t now env s →
    (s.overdue t).length = n → n < left →
    (AllServed K now (turns env n (s.overdue t))
      ((materializeLoop K left count).exec db env s s).2 ↔
        Unobstructed K now (turns env n (s.overdue t))) := by
  intro n
  induction n with
  | zero =>
    intro left count now env s hs hstored henv hlen hleft
    exact iff_of_true (fun p j next hp => by simp [turns] at hp)
      (fun p q i j next _ hp => by simp [turns] at hp)
  | succ n ih =>
    intro left count now env s hs hstored henv hlen hleft
    obtain ⟨left, rfl⟩ : ∃ m, left = m + 1 := ⟨left - 1, by omega⟩
    have hperm := turns_perm (n + 1) env _ hlen (hs.jobIds.filter _)
    unfold turns at hperm ⊢
    split
    · next hnone =>
      rw [hnone] at hperm
      rw [List.nil_perm.mp hperm] at hlen
      exact absurd hlen (by simp)
    next j hj =>
    rw [hj] at hperm
    dsimp only at hperm
    have hmem : ∀ i ∈ j :: turns (fun n => env (n + 1)) n
        ((s.overdue t).filter fun b => decide (b.id ≠ j.id)), i ∈ s.jobs ∧ i.nextRunAt ≤ t := by
      intro i hi
      obtain ⟨hi, hdue⟩ := List.mem_filter.mp (hperm.mem_iff.mp hi)
      simp only [Bool.and_eq_true, decide_eq_true_eq] at hdue
      exact ⟨hi, hdue.1⟩
    obtain ⟨hjs, hjt⟩ := hmem j List.mem_cons_self
    have hcand := dueCandidates_overdue hs (henv.skip 0) (henv.since 0) hj
    have ht : t ≤ (now 0).val := henv.now 0 ▸ henv.since 0
    unfold materializeLoop
    rw [materializeOneThen_exec]
    rcases exec_turn hK hs (henv.now 0) hcand (hstored j hjs) (henv.fresh 0) with
      ⟨hexhausted, e, hexec⟩ | ⟨hlive, s₁, hturn, hexec⟩
    · -- the loop ends here
      rw [hexec]
      constructor
      · intro h p q i i' next hpq _ hq _ hnext
        obtain ⟨-, j', hj', hgt⟩ := h q i' next hq hnext
        obtain ⟨hi', hdue⟩ := hmem i' (List.mem_of_getElem? hq)
        obtain rfl := Option.some.inj ((lookup_of_mem hs.jobIds hi').symm.trans hj')
        have hqt : t ≤ (now q).val := henv.now q ▸ henv.since q
        exact absurd hgt (not_lt.mpr (hdue.trans hqt))
      · rintro h (_ | p) i next hp hnext
        · obtain rfl := Option.some.inj hp
          exact absurd hnext hexhausted.not_hasNext
        · exact absurd hnext (h 0 (p + 1) j i next (by omega) rfl hp hexhausted)
    · rw [hexec]
      dsimp only
      obtain ⟨j', new, hjobs, hruns, hid, hj', hlate, hnew, hserved⟩ :=
        hturn.effect hK (hstored j hjs) (hjt.trans ht)
      have hinv : Inv s₁ := by
        have := (@exec_free K s .materializeOne env hs).2
        rwa [show program K .materializeOne = (materializeOne K).map Answer.tick from rfl,
          Prog.exec_map, hexec] at this
      have hover := overdue_overwrite hjobs hid ht hlate
      have hlen' : (s₁.overdue t).length = n := by
        have hkeyed : Keyed SchedulerJob.id (s.overdue t) := hs.jobIds.filter _
        have := (perm_cons_filter hkeyed
          ((List.mem_insertionSort _).mp (List.mem_of_head? hj))).length_eq
        rw [List.length_cons, hlen] at this
        rw [hover]
        exact (Nat.succ.inj this).symm
      have henv' : Undisturbed t (fun n => now (n + 1)) (fun n => env (n + 1)) s₁ :=
        henv.next hruns hnew
      have hrest := ih left (count + 1) _ _ s₁ hinv (stored_overwrite hjobs hj' hstored) henv' hlen'
        (by omega)
      rw [hover] at hrest
      rw [unobstructed_cons hlive, ← hrest]
      constructor
      · exact fun h p i next hp hnext => h (p + 1) i next hp hnext
      · rintro h (_ | p) i next hp hnext
        · obtain rfl := Option.some.inj hp
          obtain ⟨hgt, b, hb, hocc⟩ := hserved next hnext
          obtain ⟨-, hlater⟩ := loop_later hK hinv henv'.now left (count + 1)
          have hlookup : lookup SchedulerJob.id j.id s₁.jobs = some j' := by
            rw [hjobs, lookup_overwrite, lookup_of_mem hs.jobIds hjs]
            simp [lookup_cons, hid]
          obtain ⟨j'', hj'', -, hle, -⟩ := hlater.jobs _ _ hlookup
          exact ⟨⟨b, hlater.runs b hb, hocc⟩, j'', hj'', lt_of_lt_of_le hgt hle⟩
        · exact h p i next hp hnext

variable (K) in
/-- A bad schedule does not block the rest: of the due schedules `ts`, those that have a next
occurrence are served, and no cursor moves but to an occurrence of its own cron. -/
structure Isolates (now : ℕ → DateTime) (ts : List SchedulerJob) (s s' : Store) : Prop where
  served : AllServed K now ts s'
  unmoved : ∀ j ∈ s.jobs, ∃ j', lookup SchedulerJob.id j.id s'.jobs = some j' ∧
    (j'.nextRunAt = j.nextRunAt ∨
      ∃ n next, j.HasNext K (now n) next ∧ j'.nextRunAt = next.val)

/-- The schedules due at `t`, in the order of their turns. -/
def Store.turns (s : Store) (env : ℕ → Env) (t : Timestamp) : List SchedulerJob :=
  PgTaskScheduler.turns env (s.overdue t).length (s.overdue t)

/-- **A call isolates the schedules from each other exactly if none that has a next occurrence has
its turn after one whose search fails.** -/
theorem materialize_isolates (hK : K.StrictlyAfter) (hs : Inv s) (hstored : ∀ j ∈ s.jobs, j.Stored)
    (henv : Undisturbed t now env s) (hfew : (s.overdue t).length < 100) :
    (s.turns env t).Perm (s.overdue t) ∧
      (Isolates K now (s.turns env t) s ((materializeDueJobs K).exec db env s s).2 ↔
        Unobstructed K now (s.turns env t)) := by
  have hserved := loop_served hK _ 100 0 now env s hs hstored henv rfl hfew
  obtain ⟨-, hlater⟩ := loop_later hK hs henv.now 100 0
  refine ⟨turns_perm _ env _ rfl (hs.jobIds.filter _), fun h => hserved.mp h.served,
    fun h => ⟨hserved.mpr h, fun j hj => ?_⟩⟩
  obtain ⟨j', hj', -, -, hmove⟩ := hlater.jobs _ _ (lookup_of_mem hs.jobIds hj)
  exact ⟨j', hj', hmove⟩

end Loop

/-! ## Two schedules -/

/-- A schedule with default settings. -/
def SchedulerJob.standard (id : ℕ) (cronExpression : String) (nextRunAt : Timestamp) :
    SchedulerJob where
  id := ⟨id⟩
  name := cronExpression
  cronExpression := cronExpression
  jobArgs := ⟨"\x7b\x7d"⟩
  nextRunAt := nextRunAt
  leaseDuration := LeaseDuration.default.toInterval
  maxAttempts := 3
  isPaused := false
  createdAt := 0
  updatedAt := 0
  retryBackoff := RetryBackoff.default.toInterval

/-- Schedules, and no run yet. -/
def Store.scheduling (jobs : List SchedulerJob) : Store := ⟨jobs, [], []⟩

theorem scheduling_inv {jobs : List SchedulerJob} (hids : Keyed SchedulerJob.id jobs)
    (hnames : (jobs.filterMap fun j => some j.name).Nodup)
    (hvalid : ∀ j ∈ jobs, j.check = .ok ()) : Inv (.scheduling jobs) where
  jobIds := hids
  jobNames := hnames
  runIds := List.nodup_nil
  occurrences := List.nodup_nil
  deduplications := List.nodup_nil
  tokens := List.nodup_nil
  jobsValid := hvalid
  runsValid _ hr := nomatch hr
  attemptsValid _ ha := nomatch ha
  coupled _ := Coupled.empty

/-- Transactions at the instant 100. -/
def Env.atHundred (n : ℕ) : Env := { Env.tick 100 with runId := ⟨n⟩ }

theorem undisturbed_atHundred {jobs : List SchedulerJob} :
    Undisturbed 100 (fun _ => ⟨100, by decide⟩) Env.atHundred (.scheduling jobs) where
  now _ := rfl
  since _ := le_rfl
  skip _ _ := rfl
  fresh _ _ hb := nomatch hb
  distinct _ _ h := congrArg RunId.uuid h

/-- An engine that finds no 30 February. -/
def Croner.calendar : Croner where
  Pattern := String
  parse := .ok
  findNextOccurrence p t :=
    if p = "0 0 30 2 *" then .error "no occurrence"
    else if h : Decodable (t.val + 1000000) then .ok ⟨t.val + 1000000, h⟩ else .error "out of range"

theorem calendar_strictlyAfter : Croner.calendar.StrictlyAfter := by
  intro p after next h
  unfold Croner.calendar at h
  dsimp only at h
  split_ifs at h
  obtain rfl := Except.ok.inj h
  exact Int.lt_add_of_pos_right _ (by decide)

def SchedulerJob.hourly (nextRunAt : Timestamp) : SchedulerJob := .standard 1 "17 * * * *" nextRunAt

def SchedulerJob.february30 (nextRunAt : Timestamp) : SchedulerJob :=
  .standard 2 "0 0 30 2 *" nextRunAt

theorem hourly_hasNext (t : Timestamp) : (SchedulerJob.hourly t).HasNext .calendar
    ⟨100, by decide⟩ ⟨1000100, by decide⟩ := by
  refine ⟨⟨"17 * * * *", "17 * * * *", rfl⟩, CronExpression.parse_of_ok rfl, ?_⟩
  have hlater : Decodable ((100 : Timestamp) + 1000000) := by decide
  have hfind : Croner.calendar.findNextOccurrence "17 * * * *" ⟨100, by decide⟩ =
      .ok ⟨1000100, hlater⟩ := by
    unfold Croner.calendar
    dsimp only
    rw [if_neg (by decide), dif_pos hlater]
    rfl
  exact congrArg (Except.mapError _) hfind

theorem materialize_isolates_hourly :
    Isolates .calendar (fun _ => ⟨100, by decide⟩) [.hourly 5, .february30 10]
      (.scheduling [.hourly 5, .february30 10])
      ((materializeDueJobs .calendar).exec db Env.atHundred
        (.scheduling [.hourly 5, .february30 10]) (.scheduling [.hourly 5, .february30 10])).2 := by
  have hturns : (Store.scheduling [.hourly 5, .february30 10]).turns Env.atHundred 100 =
      [.hourly 5, .february30 10] := by decide +kernel
  have hinv : Inv (.scheduling [.hourly 5, .february30 10]) :=
    scheduling_inv (by decide) (by decide +kernel) (by decide +kernel)
  have h := (materialize_isolates calendar_strictlyAfter hinv (by decide +kernel)
    undisturbed_atHundred (by decide +kernel)).2
  rw [hturns] at h
  refine h.mpr fun p q i j next hpq hp hq hi => ?_
  rcases p with _ | p
  · obtain rfl := Option.some.inj hp
    exact absurd (hourly_hasNext 5) hi.not_hasNext
  · obtain ⟨hlt, -⟩ := List.getElem?_eq_some_iff.mp hq
    simp only [List.length_cons, List.length_nil] at hlt
    omega

/-- The hourly schedule waits behind the one that never occurs. -/
theorem materialize_blocked : Inv (.scheduling [.february30 5, .hourly 10]) ∧
    Undisturbed 100 (fun _ => ⟨100, by decide⟩) Env.atHundred
      (.scheduling [.february30 5, .hourly 10]) ∧
    ¬ Isolates .calendar (fun _ => ⟨100, by decide⟩) [.february30 5, .hourly 10]
      (.scheduling [.february30 5, .hourly 10])
      ((materializeDueJobs .calendar).exec db Env.atHundred
        (.scheduling [.february30 5, .hourly 10]) (.scheduling [.february30 5, .hourly 10])).2 := by
  refine ⟨scheduling_inv (by decide) (by decide +kernel) (by decide +kernel),
    undisturbed_atHundred, fun h => ?_⟩
  obtain ⟨⟨b, hb, -⟩, -⟩ := h.served 1 (.hourly 10) _ rfl (hourly_hasNext 10)
  have hruns : ((materializeDueJobs .calendar).exec db Env.atHundred
      (.scheduling [.february30 5, .hourly 10])
      (.scheduling [.february30 5, .hourly 10])).2.runs = [] := by decide +kernel
  rw [hruns] at hb
  exact absurd hb List.not_mem_nil

end PgTaskScheduler
