import PgTaskScheduler.InternalErrors
import PgTaskScheduler.Timing

/-!
# A claim takes exactly the right tasks

`CLAIM_BATCH` moves the first eligible runs, in claim order, to `running`, gives each a new attempt
and leaves every other row alone. Its answer lists them once each, provided that Diesel can load
their instants. Claims that interleave take different attempts.
-/

namespace PgTaskScheduler

open Tables ReadCommitted

instance : Std.Total Run.claimOrder := ⟨fun a b => by unfold Run.claimOrder; grind⟩

instance : IsTrans Run Run.claimOrder :=
  ⟨fun a b c hab hbc => by unfold Run.claimOrder at *; grind⟩

instance : Std.Total Run.answerOrder := ⟨fun a b => by unfold Run.answerOrder; grind⟩

instance : IsTrans Run Run.answerOrder :=
  ⟨fun a b c hab hbc => by unfold Run.answerOrder at *; grind⟩

variable {K : Croner} {s : Store} {worker : WorkerId} {names : List String} {limit : NonZeroUsize}

/-! ## One call -/

/-- The unlocked pending runs that are available and whose names are listed. -/
def Store.eligible (env : Env) (names : List String) (s : Store) : List Run :=
  s.runs.filter fun r => r.claimable env names && !env.skipRun r.id

/-- What a claim does to the store: `selected` becomes running, each run with a new attempt. -/
structure Claims (env : Env) (worker : WorkerId) (names : List String) (limit : NonZeroUsize)
    (s s' : Store) (selected : List Run) : Prop where
  first : First Run.claimOrder limit.value (s.eligible env names) selected
  eligible : ∀ r ∈ selected, r ∈ s.runs ∧ r.state = .pending ∧ r.availableAt ≤ env.now ∧
    r.jobName ∈ names ∧ env.skipRun r.id = false
  rows : ∀ r ∈ selected, ∃ token start expires updated,
    s'.view r.id = ⟨some { r with
        state := .running
        attemptCount := r.attemptCount + 1
        workerId := some worker.value
        leaseToken := some token
        startedAt := some start
        leaseExpiresAt := some expires
        updatedAt := updated },
      (s.view r.id).attempts ++
        [⟨r.id, r.attemptCount + 1, worker.value, token, start, expires, none, none, none⟩]⟩ ∧
    ∀ a ∈ s'.attempts, a.leaseToken = token → a.key = (r.id, r.attemptCount + 1)
  others : ∀ id, (∀ r ∈ selected, r.id ≠ id) → s'.view id = s.view id
  jobs : s'.jobs = s.jobs

/-- The answer lists the selected runs, once each, in the order `(scheduled_for, run_id)`. -/
structure Lists (s' : Store) (selected : List Run) (claimed : List ClaimedRun) : Prop where
  once : (claimed.map ClaimedRun.runId).Nodup
  runs : (claimed.map ClaimedRun.runId).Perm (selected.map Run.id)
  sorted : claimed.Pairwise fun a b => a.scheduledFor.val < b.scheduledFor.val ∨
    a.scheduledFor.val = b.scheduledFor.val ∧ a.runId.uuid ≤ b.runId.uuid
  reads : ∀ c ∈ claimed, ∃ r ∈ s'.runs, c.Reads r

theorem claimed_view {env : Env} {selected : List Run} (hkeyed : Keyed Run.id selected)
    (hrows : ∀ r ∈ selected, lookup Run.id r.id s.runs = some r) {r : Run} (hr : r ∈ selected) :
    (s.apply (claimPatch env worker selected)).view r.id =
      ⟨some (r.claim env worker), (s.view r.id).attempts ++ [r.claimAttempt env worker]⟩ := by
  rw [Store.view_apply, onView_claimPatch hkeyed hrows, lookup_of_mem hkeyed hr]

theorem unclaimed_view {env : Env} {selected : List Run} (hkeyed : Keyed Run.id selected)
    (hrows : ∀ r ∈ selected, lookup Run.id r.id s.runs = some r) {id : RunId}
    (hid : ∀ r ∈ selected, r.id ≠ id) :
    (s.apply (claimPatch env worker selected)).view id = s.view id := by
  rw [Store.view_apply, onView_claimPatch hkeyed hrows, lookup_eq_none_iff.mpr hid]

/-- The statement, committed. -/
theorem claims_query (hs : Inv s) {env : Env} {w : Patch} {rows : List Run}
    (hrun : (claimBatchQuery worker names limit.value).run env s s = .ok (w, rows))
    (hs' : Inv (s.apply w)) : ∃ selected, Keyed Run.id selected ∧
      w = claimPatch env worker selected ∧ rows = claimedRows env worker selected ∧
      Claims env worker names limit s (s.apply w) selected := by
  obtain ⟨rfl, rfl, -⟩ := claimBatchQuery_ok hrun
  set selected := claimCandidates env names limit.value s s with hsel
  have hkeyed : Keyed Run.id selected := claimCandidates_keyed hs.runIds
  have hl : ∀ r ∈ selected, lookup Run.id r.id s.runs = some r :=
    fun r hr => (claimCandidates_mem hr).1
  refine ⟨selected, hkeyed, rfl, rfl, selectForUpdate_first hs.runIds, fun r hr => ?_,
    fun r hr => ?_, fun id hid => unclaimed_view hkeyed hl hid, by simp [Store.apply, claimPatch]⟩
  · obtain ⟨hlookup, hclaimable, hskip⟩ := claimCandidates_mem hr
    obtain ⟨hpending, havailable, hname⟩ := Run.of_claimable hclaimable
    exact ⟨mem_of_lookup hlookup, hpending, havailable, hname, hskip⟩
  · have hview : (s.apply (claimPatch env worker selected)).view r.id =
        ⟨some (r.claim env worker), (s.view r.id).attempts ++ [r.claimAttempt env worker]⟩ :=
      claimed_view hkeyed hl hr
    refine ⟨_, _, _, _, hview, fun a ha htoken => ?_⟩
    have hown : r.claimAttempt env worker ∈
        ((s.apply (claimPatch env worker selected)).view r.id).attempts := by
      rw [hview]
      exact List.mem_append_right _ (List.mem_singleton_self _)
    have hmem : r.claimAttempt env worker ∈ (s.apply (claimPatch env worker selected)).attempts :=
      (Store.mem_view_attempts.mp hown).1
    rw [eq_of_key hs'.tokens ha hmem htoken]
    rfl

/-! ## The answer -/

theorem forall₂_map_eq {α β γ : Type} {R : α → β → Prop} {f : α → γ} {g : β → γ} {xs : List α}
    {ys : List β} (h : List.Forall₂ R xs ys) (hR : ∀ x y, R x y → g y = f x) :
    ys.map g = xs.map f := by
  induction h with
  | nil => rfl
  | cons hxy _ ih => rw [List.map_cons, List.map_cons, hR _ _ hxy, ih]

theorem pairwise_of_forall₂ {α β : Type} {R : α → β → Prop} {P : α → α → Prop} {Q : β → β → Prop}
    {xs : List α} {ys : List β} (h : List.Forall₂ R xs ys)
    (hR : ∀ x y x' y', R x y → R x' y' → P x x' → Q y y') (hxs : xs.Pairwise P) :
    ys.Pairwise Q := by
  induction h with
  | nil => exact .nil
  | cons hxy hrest ih =>
    obtain ⟨hhead, htail⟩ := List.pairwise_cons.mp hxs
    refine List.pairwise_cons.mpr ⟨fun y' hy' => ?_, ih htail⟩
    obtain ⟨x', hx', hxy'⟩ := exists_of_mem_forall₂ hrest y' hy'
    exact hR _ _ _ _ hxy hxy' (hhead x' hx')

theorem lists_claimed {env : Env} {selected : List Run} (hkeyed : Keyed Run.id selected)
    (hrows : ∀ r ∈ selected, lookup Run.id r.id s.runs = some r) {claimed : List ClaimedRun}
    (h : decodeClaimed (claimedRows env worker selected) = .ok claimed) :
    Lists (s.apply (claimPatch env worker selected)) selected claimed := by
  have hreads := decodeClaimed_reads h
  have hperm : ((claimedRows env worker selected).map Run.id).Perm (selected.map Run.id) := by
    refine ((List.perm_insertionSort Run.answerOrder _).map Run.id).trans ?_
    rw [List.map_map]
    exact .refl _
  have hids : claimed.map ClaimedRun.runId = (claimedRows env worker selected).map Run.id :=
    forall₂_map_eq hreads fun _ _ hr => hr.runId
  refine ⟨?_, hids ▸ hperm, ?_, fun c hc => ?_⟩
  · rw [hids]
    exact hperm.nodup_iff.mpr hkeyed
  · refine pairwise_of_forall₂ hreads (fun r c r' c' hr hr' hle => ?_)
      (List.pairwise_insertionSort Run.answerOrder _)
    rw [hr.scheduledFor, hr'.scheduledFor, hr.runId, hr'.runId]
    exact hle
  · obtain ⟨r', hr', hread⟩ := exists_of_mem_forall₂ hreads c hc
    obtain ⟨r, hr, rfl⟩ := mem_claimedRows.mp hr'
    exact ⟨_, mem_of_lookup (congrArg RunView.run (claimed_view hkeyed hrows hr)), hread⟩

/-- `chrono` can represent the instants that the answer shows of a claimed run. -/
abbrev Run.Answerable (env : Env) (r : Run) : Prop :=
  Decodable r.scheduledFor ∧ Decodable (env.clock .leaseExpiresAt r.id + r.leaseDuration.micros)

theorem ClaimedRow.read_cases (env : Env) (worker : WorkerId) (r : Run) :
    (r.Answerable env ∧ ∃ row, ClaimedRow.read (r.claim env worker) = .ok row) ∨
      (¬ r.Answerable env ∧
        ClaimedRow.read (r.claim env worker) = .error .timestampTooLarge) := by
  have hread : ClaimedRow.read (r.claim env worker) = (do
      let scheduledFor ← readTimestamp r.scheduledFor
      let leaseExpiresAt ←
        readTimestamp (env.clock .leaseExpiresAt r.id + r.leaseDuration.micros)
      pure ⟨r.id, r.jobId, r.jobName, r.jobArgs, scheduledFor, r.attemptCount + 1, env.token r.id,
        leaseExpiresAt, r.leaseDuration.val⟩) := rfl
  rw [hread]
  rcases readTimestamp_cases r.scheduledFor with ⟨hs, s, es, -⟩ | ⟨hs, es⟩
  · rcases readTimestamp_cases (env.clock .leaseExpiresAt r.id + r.leaseDuration.micros) with
      ⟨hx, x, ex, -⟩ | ⟨hx, ex⟩
    · rw [es, ex]
      exact Or.inl ⟨⟨hs, hx⟩, _, rfl⟩
    · exact Or.inr ⟨fun h => hx h.2, by rw [es, ex]; rfl⟩
  · exact Or.inr ⟨fun h => hs h.1, by rw [es]; rfl⟩

/-- Rows whose instants are loaded convert. -/
theorem decodeClaimed_ok {env : Env} {selected : List Run}
    (hcheck : ∀ r ∈ selected, r.check = .ok ()) (h : ∀ r ∈ selected, r.Answerable env) :
    ∃ claimed, decodeClaimed (claimedRows env worker selected) = .ok claimed := by
  have hread : ∀ r' ∈ claimedRows env worker selected, ∃ row, ClaimedRow.read r' = .ok row ∧
      ∃ c, row.toClaimedRun = .ok c := by
    intro r' hr'
    obtain ⟨r, hr, rfl⟩ := mem_claimedRows.mp hr'
    rcases ClaimedRow.read_cases env worker r with ⟨-, row, hrow⟩ | ⟨hnot, -⟩
    · exact ⟨row, hrow, (claimed_converts (hcheck r hr) hrow).2.2⟩
    · exact absurd (h r hr) hnot
  obtain ⟨rows, hrows, hconverts⟩ := mapRows_of_forall hread
  have hconvert : ∀ row ∈ rows, ∃ c, row.toClaimedRun = .ok c ∧ True := by
    intro row hrow
    obtain ⟨r', -, c, hc⟩ := exists_of_mem_forall₂ hconverts row hrow
    exact ⟨c, hc, trivial⟩
  obtain ⟨claimed, hclaimed, -⟩ := mapRows_of_forall hconvert
  exact ⟨claimed, by rw [decodeClaimed, hrows]; exact hclaimed⟩

/-- One row that is not loaded costs the whole answer. -/
theorem decodeClaimed_error {env : Env} {selected : List Run} {r : Run} (hr : r ∈ selected)
    (h : ¬ r.Answerable env) :
    decodeClaimed (claimedRows env worker selected) = .error (.database .timestampTooLarge) := by
  have hread : ∀ r : Run, ∀ e, ClaimedRow.read (r.claim env worker) = .error e →
      e = .timestampTooLarge := by
    intro r e he
    rcases ClaimedRow.read_cases env worker r with ⟨-, row, hrow⟩ | ⟨-, hrow⟩
    · exact absurd (he.symm.trans hrow) (by simp)
    · exact Except.error.inj (he.symm.trans hrow)
  have herror : ClaimedRow.read (r.claim env worker) = .error .timestampTooLarge := by
    rcases ClaimedRow.read_cases env worker r with ⟨hloads, -⟩ | ⟨-, hrow⟩
    · exact absurd hloads h
    · exact hrow
  have hrows : mapRows ClaimedRow.read (claimedRows env worker selected) =
      .error .timestampTooLarge := by
    refine mapRows_eq_error (mem_claimedRows.mpr ⟨r, hr, rfl⟩) herror fun r' hr' e he => ?_
    obtain ⟨r₀, -, rfl⟩ := mem_claimedRows.mp hr'
    exact hread r₀ e he
  rw [decodeClaimed, hrows]
  rfl

/-- What is answered when the runs `selected` have been claimed. -/
structure ClaimAnswers (env : Env) (s' : Store) (selected : List Run)
    (answer : Except SchedulerError (List ClaimedRun)) : Prop where
  listed : (∀ r ∈ selected, r.Answerable env) →
    ∃ claimed, answer = .ok claimed ∧ Lists s' selected claimed
  /-- the claim stands, but its answer is lost -/
  lost : (∃ r ∈ selected, ¬ r.Answerable env) → answer = .error (.database .timestampTooLarge)

/-- **What a call does**, when the statement does not fail. -/
theorem claimBatch_exec (hs : Inv s) {env : ℕ → Env} {w : Patch} {rows : List Run}
    (hlimit : (limit.value : ℤ) ≤ i64Max)
    (hrun : (claimBatchQuery worker names limit.value).run (env 0) s s = .ok (w, rows)) :
    ∃ selected, ((claimBatch worker names limit).exec db env s s).2 = s.apply w ∧
      Claims (env 0) worker names limit s (s.apply w) selected ∧
      ClaimAnswers (env 0) (s.apply w) selected
        ((claimBatch worker names limit).exec db env s s).1 := by
  have hexec : (claimBatch worker names limit).exec db env s s =
      (decodeClaimed rows, s.apply w) := by
    unfold claimBatch
    rw [if_neg (not_lt.mpr hlimit), Prog.exec_stmt_ok hrun, db_apply]
    rfl
  have hs' : Inv (s.apply w) := by
    have hinv := (exec_free (K := .everySecond) (.claimBatch worker names limit) env hs).2
    unfold program at hinv
    rwa [Prog.exec_map, hexec] at hinv
  obtain ⟨selected, hkeyed, rfl, rfl, hclaims⟩ := claims_query hs hrun hs'
  have hmem : ∀ r ∈ selected, r ∈ s.runs := fun r hr => (hclaims.eligible r hr).1
  rw [hexec]
  refine ⟨selected, rfl, hclaims, fun hloads => ?_, ?_⟩
  · obtain ⟨claimed, hclaimed⟩ :=
      @decodeClaimed_ok worker (env 0) selected (fun r hr => hs.runsValid r (hmem r hr)) hloads
    exact ⟨claimed, hclaimed,
      lists_claimed hkeyed (fun r hr => lookup_of_mem hs.runIds (hmem r hr)) hclaimed⟩
  · rintro ⟨r, hr, hnot⟩
    exact decodeClaimed_error hr hnot

/-- A limit beyond `i64::MAX` is refused before the statement. -/
theorem claimBatch_refused (hlimit : i64Max < limit.value) (env : ℕ → Env) :
    (claimBatch worker names limit).exec db env s s =
      (.error (.config "claim batch is too large"), s) := by
  unfold claimBatch
  rw [if_pos hlimit]
  rfl

/-! ## Claims that interleave -/

variable {ι : Type} [DecidableEq ι] {y y' y'' : Sessions K ι} {ls ls' : List (ι × Act (Call K) Env)}
  {i j : ι} {selected selected' : List PgTaskScheduler.Run}

/-- The session is about to commit a claim of the runs `selected`. -/
structure Selects (y : Sessions K ι) (i : ι) (selected : List Run) : Prop where
  call : ∃ worker names limit, (y.session i).call = .claimBatch worker names limit
  committing : ∃ k, (y.session i).prog = .commit k
  keyed : Keyed Run.id selected
  locked : ∀ r ∈ selected, .run r.id ∈ (y.session i).locks
  pending : ∀ r ∈ selected, lookup Run.id r.id y.committed.runs = some r ∧ r.state = .pending
  writes : ∃ env worker, (y.session i).writes = [claimPatch env worker selected]

theorem selects_reached (h : Sessions.Reached ls y)
    (hc : (y.session i).call = .claimBatch worker names limit) {k : Program (Answer K)}
    (hp : (y.session i).prog = .commit k) : ∃ selected, Selects y i selected := by
  obtain ⟨env, selected, -, hw, hkeyed, hrows⟩ := claiming_reached h hc hp
  exact ⟨selected, ⟨_, _, _, hc⟩, ⟨k, hp⟩, hkeyed, fun r hr => (hrows r hr).1,
    fun r hr => ⟨(hrows r hr).2.1, (Run.of_claimable (hrows r hr).2.2).1⟩, env, worker, hw⟩

/-- The attempt count of a run does not fall, until the run is deleted. -/
theorem count_run (h : Sessions.Sound y) {id : RunId} {r : PgTaskScheduler.Run}
    (hl : lookup Run.id id y.committed.runs = some r) (hr : Sessions.Run Sessions.Free y ls y') :
    (∃ r', lookup Run.id id y'.committed.runs = some r' ∧ r.attemptCount ≤ r'.attemptCount) ∨
      ∃ ls₁ ls₂ y₁, ls = ls₁ ++ ls₂ ∧ Sessions.Run Sessions.Free y ls₁ y₁ ∧
        lookup Run.id id y₁.committed.runs = none := by
  induction hr with
  | nil => exact Or.inl ⟨r, hl, le_rfl⟩
  | @snoc ls y₁ j act y₂ hr hG hs ih =>
    rcases ih with ⟨r₁, hl₁, hle⟩ | ⟨ls₁, ls₂, y₀, rfl, h₁, hnone⟩
    · rcases hl₂ : lookup Run.id id y₂.committed.runs with _ | r₂
      · exact Or.inr ⟨_, [], y₂, (List.append_nil _).symm, hr.snoc hG hs, hl₂⟩
      · refine Or.inl ⟨r₂, rfl, ?_⟩
        rcases (change_step (sound_run h hr) hs id).count hl₁ hl₂ with ⟨heq, -⟩ | ⟨-, heq⟩ <;> omega
    · exact Or.inr ⟨ls₁, ls₂ ++ [(j, act)], y₀, by simp, h₁, hnone⟩

/-- **An attempt is claimed once.** -/
theorem selects_once (h : Sessions.Reached ls y) (hi : Selects y i selected)
    (hs : Sessions.Step y i .commit y') (hr : Sessions.Run Sessions.Free y' ls' y'')
    (hj : Selects y'' j selected') {r r' : PgTaskScheduler.Run} (hmem : r ∈ selected)
    (hmem' : r' ∈ selected') (hid : r'.id = r.id) : r.attemptCount < r'.attemptCount ∨
      ∃ ls₁ ls₂ y₁, ls' = ls₁ ++ ls₂ ∧ Sessions.Run Sessions.Free y' ls₁ y₁ ∧
        lookup Run.id r.id y₁.committed.runs = none := by
  obtain ⟨env, worker, hw⟩ := hi.writes
  have hcommitted : y'.committed = y.committed.apply (claimPatch env worker selected) := by
    cases hs
    rw [hw]
    rfl
  have hl : lookup Run.id r.id y'.committed.runs = some (r.claim env worker) := by
    rw [hcommitted]
    exact congrArg RunView.run (claimed_view hi.keyed (fun r hr => (hi.pending r hr).1) hmem)
  refine (count_run (sound_step (sound_reached h) hs) hl hr).imp_left ?_
  rintro ⟨r₂, hl₂, hle⟩
  have hl' := (hj.pending r' hmem').1
  rw [hid] at hl'
  obtain rfl := Option.some.inj (hl'.symm.trans hl₂)
  exact Int.lt_of_lt_of_le (Int.lt_add_one_of_le le_rfl) hle

/-- Claims whose statements interleave with those of other sessions. -/
structure Sessions.ClaimsApart (y : Sessions K ι) : Prop where
  selects : ∀ i worker names limit k, (y.session i).call = .claimBatch worker names limit →
    (y.session i).prog = .commit k → ∃ selected, Selects y i selected
  /-- no two of them take the same run -/
  disjoint : ∀ i j selected selected', i ≠ j → Selects y i selected → Selects y j selected' →
    ∀ r ∈ selected, ∀ r' ∈ selected', r.id ≠ r'.id
  /-- a later one that takes the same run begins a later attempt, unless the run is deleted -/
  once : ∀ i selected y', Selects y i selected → Sessions.Step y i .commit y' →
    ∀ (ls : List (ι × Act (Call K) Env)) y'' j selected', Sessions.Run Sessions.Free y' ls y'' →
    Selects y'' j selected' → ∀ r ∈ selected, ∀ r' ∈ selected', r'.id = r.id →
    r.attemptCount < r'.attemptCount ∨ ∃ ls₁ ls₂ y₁, ls = ls₁ ++ ls₂ ∧
      Sessions.Run Sessions.Free y' ls₁ y₁ ∧ lookup Run.id r.id y₁.committed.runs = none

theorem claimsApart_reached (h : Sessions.Reached ls y) : y.ClaimsApart where
  selects _ _ _ _ _ hc hp := selects_reached h hc hp
  disjoint _ _ _ _ hij hi hj r hr r' hr' he :=
    (sound_reached h).exclusive _ _ hij _ (hi.locked r hr) (he ▸ hj.locked r' hr')
  once _ _ _ hi hs _ _ _ _ hr hj _ hmem _ hmem' hid := selects_once h hi hs hr hj hmem hmem' hid

/-- **A claim takes exactly the right tasks**, alone and among other sessions, and answers them if
Diesel can load their instants. -/
theorem claim_selects_first {w : World} (h : w.Reachable K) (hy : Sessions.Reached ls y) :
    (∀ (worker : WorkerId) (names : List String) (limit : NonZeroUsize) (env : ℕ → Env) patch rows,
      (limit.value : ℤ) ≤ i64Max →
      (claimBatchQuery worker names limit.value).run (env 0) w.store w.store = .ok (patch, rows) →
      ∃ selected s', ((claimBatch worker names limit).exec db env w.store w.store).2 = s' ∧
        Claims (env 0) worker names limit w.store s' selected ∧
        ClaimAnswers (env 0) s' selected
          ((claimBatch worker names limit).exec db env w.store w.store).1) ∧
    (∀ (worker : WorkerId) (names : List String) (limit : NonZeroUsize) (env : ℕ → Env),
      i64Max < limit.value → (claimBatch worker names limit).exec db env w.store w.store =
        (.error (.config "claim batch is too large"), w.store)) ∧
    y.ClaimsApart := by
  refine ⟨fun worker names limit env patch rows hlimit hrun => ?_,
    fun worker names limit env hlimit => claimBatch_refused hlimit env, claimsApart_reached hy⟩
  obtain ⟨selected, hstore, hclaims, hanswers⟩ := claimBatch_exec h.inv hlimit hrun
  exact ⟨selected, _, hstore, hclaims, hanswers⟩

/-- Two tasks of different priority. -/
def EnqueueOptions.urgent : EnqueueOptions :=
  { EnqueueOptions.standard with priority := ⟨5, by decide⟩ }

def World.waiting : World := .play [mail .standard, mail .urgent]

theorem claim_selects_first_waiting : ∃ selected s' claimed,
    ((claimBatch ⟨"worker", rfl⟩ ["mail"] ⟨1, by decide⟩).exec db (fun _ => .tick 3)
      World.waiting.store World.waiting.store) = (.ok claimed, s') ∧
    claimed.map ClaimedRun.runId = [⟨2⟩] ∧
    Claims (.tick 3) ⟨"worker", rfl⟩ ["mail"] ⟨1, by decide⟩ World.waiting.store s' selected ∧
    Lists s' selected claimed := by
  have hids : ((claimBatch ⟨"worker", rfl⟩ ["mail"] ⟨1, by decide⟩).exec db (fun _ => .tick 3)
      World.waiting.store World.waiting.store).1.toOption.map (List.map ClaimedRun.runId) =
        some [⟨2⟩] := by decide +kernel
  have hok : ((claimBatchQuery ⟨"worker", rfl⟩ ["mail"] 1).run (.tick 3) World.waiting.store
      World.waiting.store).isOk := by decide +kernel
  have hloads : ∀ r ∈ World.waiting.store.runs, r.Answerable (.tick 3) := by decide +kernel
  rcases hrun : (claimBatchQuery ⟨"worker", rfl⟩ ["mail"] 1).run (.tick 3) World.waiting.store
    World.waiting.store with e | ⟨patch, rows⟩
  · rw [hrun] at hok
    exact absurd hok (by simp [Except.isOk, Except.toBool])
  · have hwaiting : World.waiting.Reachable .everySecond := play_reachable _
    obtain ⟨selected, s', hstore, hclaims, hanswers⟩ := (claim_selects_first hwaiting
      (.nil (Sessions.initial .everySecond Unit))).1 ⟨"worker", rfl⟩ ["mail"] ⟨1, by decide⟩
        (fun _ => .tick 3) patch rows (by decide) hrun
    obtain ⟨claimed, hx, hlists⟩ :=
      hanswers.listed fun r hr => hloads r (hclaims.eligible r hr).1
    replace hids := (congrArg _ (congrArg Except.toOption hx)).symm.trans hids
    exact ⟨selected, s', claimed, Prod.ext hx hstore, Option.some.inj hids, hclaims, hlists⟩

/-- The run is claimed, but `claim_batch` answers with an error. -/
theorem claim_answer_lost : ¬ ∀ (w : World), w.Reachable .everySecond →
    ∀ (worker : WorkerId) (names : List String) (limit : NonZeroUsize) (env : ℕ → Env) patch rows,
      (limit.value : ℤ) ≤ i64Max →
      (claimBatchQuery worker names limit.value).run (env 0) w.store w.store = .ok (patch, rows) →
      ∃ claimed, ((claimBatch worker names limit).exec db env w.store w.store).1 = .ok claimed ∧
        (claimed.map ClaimedRun.runId).Perm (rows.map Run.id) := by
  intro hall
  have hok : ((claimBatchQuery ⟨"worker", rfl⟩ ["mail"] 7).run (.tick 2)
      (World.play [mail .farLease]).store (World.play [mail .farLease]).store).isOk := by
    decide +kernel
  have hlost : ((claimBatch ⟨"worker", rfl⟩ ["mail"] ⟨7, by decide⟩).exec db (fun _ => .tick 2)
      (World.play [mail .farLease]).store (World.play [mail .farLease]).store).1 =
        .error (.database .timestampTooLarge) := by decide +kernel
  rcases hrun : (claimBatchQuery ⟨"worker", rfl⟩ ["mail"] 7).run (.tick 2)
    (World.play [mail .farLease]).store (World.play [mail .farLease]).store with e | ⟨patch, rows⟩
  · rw [hrun] at hok
    exact absurd hok (by simp [Except.isOk, Except.toBool])
  · obtain ⟨claimed, hx, -⟩ := hall _ (play_reachable _) ⟨"worker", rfl⟩ ["mail"] ⟨7, by decide⟩
      (fun _ => .tick 2) patch rows (by decide) hrun
    exact absurd (hx.symm.trans hlost) (by simp)

end PgTaskScheduler
