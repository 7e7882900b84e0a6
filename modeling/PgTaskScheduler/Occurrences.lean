import PgTaskScheduler.Schedules

/-!
# Occurrences are materialized exactly once

A commit of the materializer that moves a cursor either adds the run of the occurrence that the
cursor leaves, or an earlier statement of its transaction has found that run. `INSERT_RUN` does not
lock the run that it finds, so a concurrent `prune_terminal` may delete it before the cursor moves
(`occurrence_pruned`); nothing else may (`reads_run`).
-/

namespace PgTaskScheduler

open Tables ReadCommitted

variable {K : Croner} {Ok : Env → Prop} {s s' : Store} {id : JobId} {t : Timestamp}

/-! ## One round -/

/-- The pending run of the occurrence at which the cursor of `j` stands. -/
structure SchedulerJob.Spawns (j : SchedulerJob) (r : Run) : Prop where
  occurrence : r.occurrence = some (j.id, j.nextRunAt)
  pending : r.state = .pending
  untried : r.attemptCount = 0
  available : r.availableAt = j.nextRunAt
  name : r.jobName = j.name
  args : r.jobArgs = j.jobArgs
  maxAttempts : r.maxAttempts = j.maxAttempts
  leaseDuration : r.leaseDuration = j.leaseDuration
  retryBackoff : r.retryBackoff = j.retryBackoff

theorem DueJob.spawns {env env₁ : Env} {j : SchedulerJob} {job : DueJob}
    (h : DueJob.read env j = .ok job) : j.Spawns (materializedRun env₁ job) := by
  obtain ⟨hid, hslot, -, -, hname, hargs, hmax, hlease, hbackoff⟩ := DueJob.read_eq_ok h
  have hocc : (materializedRun env₁ job).occurrence = some (job.id, job.nextRunAt.val) := rfl
  rw [hid, hslot] at hocc
  exact ⟨hocc, rfl, rfl, hslot, hname, hargs, hmax, hlease, hbackoff⟩

variable (K) in
/-- The cursor of `j` moves to that of `j'`, the next occurrence after a `now()` that satisfies
`Ok`, and nothing else of the schedules or attempts changes. -/
structure Moved (Ok : Env → Prop) (s s' : Store) (j j' : SchedulerJob) : Prop where
  unpaused : j.isPaused = false
  next : ∃ env, Ok env ∧ j.nextRunAt ≤ env.now ∧ env.now < j'.nextRunAt ∧
    ∃ (cron : CronExpression K) (now next : DateTime), now.val = env.now ∧
      CronExpression.parse K j.cronExpression = .ok cron ∧ cron.nextAfter now = .ok next ∧
      j'.nextRunAt = next.val
  kept : ∃ env, Ok env ∧ j' = { j with nextRunAt := j'.nextRunAt, updatedAt := env.now }
  schedules : s'.jobs = overwrite SchedulerJob.id [j'] s.jobs
  attempts : s'.attempts = s.attempts

/-- **A round that moves a cursor** adds the run of the occurrence that the cursor leaves, unless a
store that it has read has one. -/
theorem Round.moved (hK : K.StrictlyAfter) {rs : List Store} (h : Round K Ok rs s s')
    {j j' : SchedulerJob} (hj : lookup SchedulerJob.id id s.jobs = some j)
    (hj' : lookup SchedulerJob.id id s'.jobs = some j') (hne : j'.nextRunAt ≠ j.nextRunAt) :
    Moved K Ok s s' j j' ∧
      ((∃ r, j.Spawns r ∧ s'.runs = s.runs ++ [r] ∧ ¬ s.Ran id j.nextRunAt) ∨
        s'.runs = s.runs ∧ ∃ C ∈ rs, C.Ran id j.nextRunAt) := by
  -- the row that the round updates is `j`, and its new row is `j'`
  have hrow : ∀ {i i' : SchedulerJob} {ins : List Run},
      s' = s.apply { jobs := { update := [i'] }, runs := { insert := ins } } →
      lookup SchedulerJob.id i.id s.jobs = some i → i'.id = i.id →
      i = j ∧ i' = j' ∧ i.id = id := by
    intro i i' ins hs' hi hid
    have hl : lookup SchedulerJob.id id
        (({ update := [i'] } : Edit SchedulerJob JobId).apply SchedulerJob.id s.jobs) =
          some j' := by
      rw [hs'] at hj'
      exact hj'
    rw [Edit.lookup_apply_update, hj] at hl
    split_ifs at hl with he
    · rw [hid] at he
      rw [he] at hi
      exact ⟨Option.some.inj (hi.symm.trans hj), Option.some.inj hl, he⟩
    · exact absurd (congrArg SchedulerJob.nextRunAt (Option.some.inj hl)).symm hne
  have hmoved : ∀ {env env₂ : Env} {i : SchedulerJob} {job : DueJob} {cron : CronExpression K}
      {next : DateTime} {ins : List Run}, Ok env → Ok env₂ → i.due env →
      DueJob.read env i = .ok job → CronExpression.parse K i.cronExpression = .ok cron →
      cron.nextAfter job.dbNow = .ok next →
      Moved K Ok s (s.apply {
          jobs := { update := [{ i with nextRunAt := next.val, updatedAt := env₂.now }] }
          runs := { insert := ins } }) i
        { i with nextRunAt := next.val, updatedAt := env₂.now } := by
    intro env env₂ i job cron next ins hOk hOk₂ hdue hread hcron hnext
    obtain ⟨hle, hpaused⟩ := SchedulerJob.of_due hdue
    have hnow := (DueJob.read_eq_ok hread).2.2.2.1
    have hlt := CronExpression.nextAfter_gt hK hnext
    rw [hnow] at hlt
    exact ⟨hpaused, ⟨env, hOk, hle, hlt, cron, job.dbNow, next, hnow, hcron, hnext, rfl⟩,
      ⟨env₂, hOk₂, rfl⟩, by simp [Store.apply, Edit.apply], by simp [Store.apply]⟩
  cases h with
  | idle =>
    obtain rfl := Option.some.inj (hj.symm.trans hj')
    exact absurd rfl hne
  | corrupt _ _ hi =>
    obtain ⟨rfl, rfl, -⟩ := hrow rfl hi rfl
    exact absurd rfl hne
  | @inserted env env₁ env₂ i job cron next hOk _ hOk₂ hi hdue hread hcron hnext _ hnew =>
    obtain ⟨rfl, rfl, rfl⟩ := hrow rfl hi rfl
    refine ⟨hmoved hOk hOk₂ hdue hread hcron hnext, Or.inl ⟨materializedRun env₁ job,
      DueJob.spawns hread, ?_, ?_⟩⟩
    · simp [Store.apply, Edit.apply]
    · rintro ⟨b, hb, hocc⟩
      exact hnew b hb hocc
  | kept hOk hOk₂ hi hdue hread hcron hnext hocc =>
    obtain ⟨rfl, rfl, rfl⟩ := hrow rfl hi rfl
    exact ⟨hmoved hOk hOk₂ hdue hread hcron hnext, Or.inr ⟨by simp [Store.apply], hocc⟩⟩

/-! ## What a transaction has read -/

section Sessions

variable {ι : Type} [DecidableEq ι] {y y' : Sessions K ι} {ls : List (ι × Act (Call K) Env)}
  {i : ι} {a : Act (Call K) Env}

/-- `prune_terminal` has deleted the run of an occurrence, and session `i` has only executed
statements since. -/
inductive Withdrawn (i : ι) (id : JobId) (t : Timestamp) :
    List (ι × Act (Call K) Env) → Sessions K ι → Prop
  | pruned {ls y k y' before limit} (h : Sessions.Reached ls y) (hs : Sessions.Step y k .commit y')
    (hc : (y.session k).call = .pruneTerminal before limit) (hran : y.committed.Ran id t)
    (hgone : ¬ y'.committed.Ran id t) : Withdrawn i id t (ls ++ [(k, .commit)]) y'
  | later {ls y k a y'} (h : Withdrawn i id t ls y) (hs : Sessions.Step y k a y')
    (hopen : k = i → a = .snapshot ∨ ∃ env, a = .exec env) : Withdrawn i id t (ls ++ [(k, a)]) y'

/-- **A run that a transaction has read is still there**, or `prune_terminal` has deleted it
since. -/
theorem reads_run (h : Sessions.Reached ls y) : ∀ C ∈ (y.session i).reads, C.Ran id t →
    y.committed.Ran id t ∨ Withdrawn i id t ls y := by
  induction h with
  | nil => simp [Sessions.initial, Session.start]
  | @snoc ls y k a y' h _ hs ih =>
    have hsound := sound_reached h
    have hgone : y.committed.Ran id t → y'.committed.Ran id t ∨
        Withdrawn i id t (ls ++ [(k, a)]) y' := by
      intro hran
      by_cases hran' : y'.committed.Ran id t
      · exact Or.inl hran'
      rcases effect_step hsound hs with heq | heffect
      · exact absurd (heq ▸ hran) hran'
      · obtain ⟨before, limit, hc⟩ :=
          (heffect.ran_or_pruned hsound.store hran).resolve_left hran'
        have ha : a = .commit := by
          by_contra ha
          exact hran' (hs.committed_eq ha ▸ hran)
        subst ha
        exact Or.inr (.pruned h hs hc hran hran')
    have hlater : (k = i → a = .snapshot ∨ ∃ env, a = .exec env) → ∀ C ∈ (y.session i).reads,
        C.Ran id t → y'.committed.Ran id t ∨ Withdrawn i id t (ls ++ [(k, a)]) y' := by
      intro hopen C hC hran
      rcases ih C hC hran with hran | hw
      · exact hgone hran
      · exact Or.inr (hw.later hs hopen)
    by_cases hk : k = i
    case neg =>
      rw [(hsound.other_step (Ne.symm hk) hs).1]
      exact hlater fun he => absurd he hk
    subst hk
    have hstart : ∀ (c : Call K) p, (Session.start c p : Server K).reads = [] := fun _ _ => rfl
    cases hs with
    | snapshot hp hsn =>
      rw [System.set_session_self]
      exact hlater fun _ => Or.inl rfl
    | exec env hp =>
      rw [System.set_session_self]
      intro C hC hran
      rcases List.mem_append.mp hC with hC | hC
      · exact hlater (fun _ => Or.inr ⟨env, rfl⟩) C hC hran
      · rw [List.mem_singleton.mp hC] at hran
        exact hgone hran
    | call c hp => simp [System.set_session_self, hstart]
    | fail env hp => simp [System.set_session_self, hstart]
    | commit hp => simp [hstart]
    | rollback hp => simp [System.set_session_self, hstart]

/-! ## Every occurrence, once -/

/-- Every occurrence is materialized at most once, and no cursor passes it before. -/
structure Sessions.Materialized (ls : List (ι × Act (Call K) Env)) (y : Sessions K ι) : Prop where
  unique : ∀ r ∈ y.committed.runs, ∀ r' ∈ y.committed.runs, ∀ id, r.jobId = some id →
    r'.jobId = some id → r.scheduledFor = r'.scheduledFor → r = r'
  /-- what fails or rolls back leaves cursors and runs as they are -/
  unchanged : ∀ i a y', Sessions.Step y i a y' → a ≠ .commit → y'.committed = y.committed
  moved : ∀ i y' id j j', Sessions.Step y i .commit y' → (y.session i).call.Materializes →
    lookup SchedulerJob.id id y.committed.jobs = some j →
    lookup SchedulerJob.id id y'.committed.jobs = some j' → j'.nextRunAt ≠ j.nextRunAt →
    Moved K (· ∈ readings i ls) y.committed y'.committed j j' ∧
      ((∃ r, j.Spawns r ∧ y'.committed.runs = y.committed.runs ++ [r] ∧
          ¬ y.committed.Ran id j.nextRunAt) ∨
        y'.committed.runs = y.committed.runs ∧
          (y.committed.Ran id j.nextRunAt ∨ Withdrawn i id j.nextRunAt ls y))

/-- **No occurrence is lost and none is materialized twice.** -/
theorem materialization_exact (hK : K.StrictlyAfter) (h : Sessions.Reached ls y) :
    Sessions.Materialized ls y where
  unique r hr r' hr' id hid hid' he := by
    have hocc : ∀ {r : PgTaskScheduler.Run}, r.jobId = some id →
        r.occurrence = some (id, r.scheduledFor) := fun hid => by
      unfold PgTaskScheduler.Run.occurrence
      rw [hid]
      rfl
    exact (sound_reached h).store.occurrences.eq hr hr' (hocc hid) (he ▸ hocc hid')
  unchanged i a y' hs ha := hs.committed_eq ha
  moved i y' id j j' hs hm hj hj' hne := by
    obtain ⟨hmoved, hinserted | ⟨hruns, C, hC, hran⟩⟩ :=
      ((commit_effect h hs).round hm).moved hK hj hj' hne
    · exact ⟨hmoved, Or.inl hinserted⟩
    · exact ⟨hmoved, Or.inr ⟨hruns, reads_run h C hC hran⟩⟩

/-- The occurrence of a schedule has run, and its cursor is set back to it. -/
def setBack : List (Bool × Act (Call .everySecond) Env) :=
  (true, .call (.createJob nightly)) :: statement true 1 ++ statement true 1 ++ [(true, .commit)] ++
  (true, .call .materializeOne) :: statement true 2000000 ++ statement true 2000000 ++
  statement true 2000000 ++ [(true, .commit)] ++
  serve false (.claimBatch ⟨"worker-1", rfl⟩ ["nightly"] ⟨1, by decide⟩) [2000001] ++
  (false, .call (.finalizeRun ⟨2000000⟩ ⟨2000001⟩ .completed)) :: statement false 2000002 ++
  statement false 2000002 ++ [(false, .commit)] ++
  (true, .call (.reschedule ⟨1⟩ (.setNextRunAt ⟨1000001, by decide⟩))) :: statement true 2000003 ++
  statement true 2000003 ++ [(true, .commit)]

/-- The materializer finds the run of the occurrence, and `prune_terminal` deletes it before the
cursor moves. -/
def prunedBetween : List (Bool × Act (Call .everySecond) Env) :=
  setBack ++ (true, .call .materializeOne) :: statement true 2000010 ++ statement true 2000011 ++
  (false, .call (.pruneTerminal ⟨2000005, by decide⟩ ⟨1, by decide⟩)) :: statement false 2000012 ++
  [(false, .commit)] ++ statement true 2000013

/-- The cursor moves, and the occurrence that it leaves has no run. -/
theorem materialization_exact_pruned : ∃ y y' : Sessions .everySecond Bool,
    Sessions.Reached prunedBetween y ∧ Sessions.Step y true .commit y' ∧
      y.committed.jobs.map SchedulerJob.nextRunAt = [1000001] ∧
      y'.committed.jobs.map SchedulerJob.nextRunAt = [3000010] ∧ y'.committed.runs.map Run.id = [] ∧
      Sessions.Materialized prunedBetween y := by
  have h : (Sessions.play _ _ prunedBetween).map (fun y =>
      (y.committed.jobs.map SchedulerJob.nextRunAt,
        (y.next db (program _) true .commit).map fun y' =>
          (y'.committed.jobs.map SchedulerJob.nextRunAt, y'.committed.runs.map Run.id))) =
      some ([1000001], some ([3000010], [])) := by decide +kernel
  obtain ⟨y, hy, he⟩ := Option.map_eq_some_iff.mp h
  obtain ⟨hcursor, he⟩ := Prod.mk.inj he
  obtain ⟨y', hy', he⟩ := Option.map_eq_some_iff.mp he
  obtain ⟨hcursor', hruns⟩ := Prod.mk.inj he
  exact ⟨y, y', play_reached hy, System.next_sound (fun _ => trivial) hy', hcursor, hcursor', hruns,
    materialization_exact everySecond_strictlyAfter (play_reached hy)⟩

end Sessions

end PgTaskScheduler
