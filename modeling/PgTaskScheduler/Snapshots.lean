import PgTaskScheduler.Claiming

/-!
# Execution snapshots

What a task is to execute is fixed when its run is inserted: as long as the run is stored, no
operation changes those columns, and every claim hands them out as they are.
-/

namespace PgTaskScheduler

open Tables ReadCommitted

variable {K : Croner}

/-- The columns of a run that its insertion fixes. -/
structure RunSnapshot where
  jobId : Option JobId
  jobName : String
  jobArgs : Json
  scheduledFor : Timestamp
  priority : ℤ
  maxAttempts : ℤ
  leaseDuration : LeaseInterval
  retryBackoff : BackoffInterval
  deduplicationKey : Option String
  createdAt : Timestamp
deriving DecidableEq

def Run.snapshot (r : Run) : RunSnapshot :=
  ⟨r.jobId, r.jobName, r.jobArgs, r.scheduledFor, r.priority, r.maxAttempts, r.leaseDuration,
    r.retryBackoff, r.deduplicationKey, r.createdAt⟩

/-- What the answer of a claim says about the snapshot. -/
structure ClaimedRun.Carries (c : ClaimedRun) (s : RunSnapshot) : Prop where
  jobId : c.jobId = s.jobId
  jobName : c.jobName = s.jobName
  jobArgs : c.jobArgs = s.jobArgs
  scheduledFor : c.scheduledFor.val = s.scheduledFor
  lease : c.leaseDuration.micros = s.leaseDuration.micros

theorem ClaimedRun.Reads.carries {c : ClaimedRun} {r : Run} (h : c.Reads r) :
    c.Carries r.snapshot := ⟨h.jobId, h.jobName, h.jobArgs, h.scheduledFor, h.lease⟩

@[simp] theorem Run.snapshot_claim (env : Env) (worker : WorkerId) (r : Run) :
    (r.claim env worker).snapshot = r.snapshot := rfl

/-- **No change of a run touches its snapshot.** -/
theorem Change.snapshot {Ok : Env → Prop} {c : Call K} {v v' : RunView} (h : Change Ok c v v')
    {r r' : Run} (hr : v.run = some r) (hr' : v'.run = some r') : r'.snapshot = r.snapshot := by
  cases h with
  | same => rw [Option.some.inj (hr'.symm.trans hr)]
  | enqueued => exact absurd hr.symm (Option.some_ne_none r)
  | materialized => exact absurd hr.symm (Option.some_ne_none r)
  | pruned => exact absurd hr'.symm (Option.some_ne_none r')
  | _ =>
    obtain rfl := Option.some.inj hr
    obtain rfl := Option.some.inj hr'
    rfl

section Runs

variable {ι : Type} [DecidableEq ι] {y y' : Sessions K ι} {ls ls' : List (ι × Act (Call K) Env)}
  {i : ι} {a : Act (Call K) Env}

/-- The steps that are taken while the run is stored. -/
def Stored (id : RunId) (y : Sessions K ι) (_ : ι) (_ : Act (Call K) Env) : Prop :=
  (lookup Run.id id y.committed.runs).isSome

/-- Along steps that find the run stored, it keeps its snapshot. -/
theorem snapshot_run (h : Sessions.Sound y) {r : Run}
    (hr : lookup Run.id r.id y.committed.runs = some r) (hrun : Sessions.Run (Stored r.id) y ls y')
    {r' : Run} (hr' : lookup Run.id r.id y'.committed.runs = some r') :
    r'.snapshot = r.snapshot := by
  refine (hrun.invariant (P := fun y => Sessions.Sound y ∧
    ∀ r', lookup Run.id r.id y.committed.runs = some r' → r'.snapshot = r.snapshot)
    ⟨h, fun r' hr' => ?_⟩ fun y i a y' h hG hs => ⟨sound_step h.1 hs, fun r' hr' => ?_⟩).2 r' hr'
  · rw [Option.some.inj (hr'.symm.trans hr)]
  · obtain ⟨r₁, hr₁⟩ := Option.isSome_iff_exists.mp hG
    exact ((change_step h.1 hs r.id).snapshot hr₁ hr').trans (h.2 r₁ hr₁)

/-- **Execution snapshots are immutable**, and every claim answers them. -/
theorem execution_snapshots (h : Sessions.Reached ls y) {r : Run} (hr : r ∈ y.committed.runs)
    (hrun : Sessions.Run (Stored r.id) y ls' y') :
    (∀ r' ∈ y'.committed.runs, r'.id = r.id → r'.snapshot = r.snapshot) ∧
      ∀ i worker names limit claimed, (y'.session i).call = .claimBatch worker names limit →
        (y'.session i).prog = .commit (.ret (.ok (.claimed claimed))) →
        ∀ c ∈ claimed, c.runId = r.id → c.Carries r.snapshot := by
  have hsound := sound_reached h
  have hl := lookup_of_mem hsound.store.runIds hr
  have hsnapshot : ∀ r' ∈ y'.committed.runs, r'.id = r.id → r'.snapshot = r.snapshot := by
    intro r' hr' hid
    have hl' := lookup_of_mem (sound_run hsound hrun).store.runIds hr'
    exact snapshot_run hsound hl hrun (hid ▸ hl')
  refine ⟨hsnapshot, fun i worker names limit claimed hc hp c hmem hid => ?_⟩
  obtain ⟨env, candidates, hdecoded, -, -, hrows⟩ :=
    claimed_reached (h.append (free_run hrun)) hc hp
  obtain ⟨r', hr', hreads⟩ := 
    exists_of_mem_forall₂ (decodeClaimed_reads hdecoded) c hmem
  obtain ⟨r₀, hr₀, rfl⟩ := mem_claimedRows.mp hr'
  have hr₁ : r₀ ∈ y'.committed.runs := mem_of_lookup (hrows r₀ hr₀).2.1
  have hid' : r₀.id = r.id := hreads.runId.symm.trans hid
  have hcarries := hreads.carries
  rw [Run.snapshot_claim, hsnapshot r₀ hr₁ hid'] at hcarries
  exact hcarries

end Runs

/-- What a claim is about to answer. -/
def claimedAnswer (σ : Server K) : Option (List ClaimedRun) :=
  match σ.call, σ.prog with
  | .claimBatch .., .commit (.ret (.ok (.claimed claimed))) => some claimed
  | _, _ => none

theorem eq_of_claimedAnswer {σ : Server K} {claimed : List ClaimedRun}
    (h : claimedAnswer σ = some claimed) :
    (∃ worker names limit, σ.call = .claimBatch worker names limit) ∧
      σ.prog = .commit (.ret (.ok (.claimed claimed))) := by
  unfold claimedAnswer at h
  split at h
  · next hc he => exact ⟨⟨_, _, _, hc⟩, by rw [he, Option.some.inj h]⟩
  · exact absurd h (by simp)

/-- The first attempt of a task fails, a producer enqueues its key again with other arguments, and
a worker claims the task again. -/
def claimedAgain : List (Bool × Act (Call .everySecond) Env) :=
  serve true claimMail [3] ++
  (true, .call (.failRun ⟨1⟩ ⟨3⟩ "boom" true)) :: statement true 4 ++ statement true 4 ++
  [(true, .commit)] ++ serve false (.enqueue "mail" (.ok ⟨"[1]"⟩) .keyed) [5, 6] ++
  (true, .call claimMail) :: statement true 7

theorem execution_snapshots_claimedAgain : ∃ y y' : Sessions .everySecond Bool,
    Sessions.Reached (serve false (mail .keyed) [1, 2]) y ∧
      Sessions.Run (Stored ⟨1⟩) y claimedAgain y' ∧
      ∃ r ∈ y.committed.runs, ∃ claimed, (y'.session true).prog =
          .commit (.ret (.ok (.claimed claimed))) ∧ claimed.map ClaimedRun.attempt = [2] ∧
        ∀ c ∈ claimed, c.Carries r.snapshot := by
  have h : (Sessions.play _ _ (serve false (mail .keyed) [1, 2])).map (fun y =>
      (y.committed.runs.map Run.id, (y.replayWhile db (program _)
        (fun y => (lookup Run.id ⟨1⟩ y.committed.runs).isSome) claimedAgain).map fun y =>
          (claimedAnswer (y.session true)).map fun claimed =>
            (claimed.map ClaimedRun.attempt, claimed.map ClaimedRun.runId))) =
        some ([⟨1⟩], some (some ([2], [⟨1⟩]))) := by decide +kernel
  obtain ⟨y, hy, he⟩ := Option.map_eq_some_iff.mp h
  obtain ⟨hruns, hrest⟩ := Prod.mk.inj he
  obtain ⟨y', hy', hclaimed⟩ := Option.map_eq_some_iff.mp hrest
  obtain ⟨claimed, hclaimed, hlists⟩ := Option.map_eq_some_iff.mp hclaimed
  obtain ⟨hattempts, hids⟩ := Prod.mk.inj hlists
  obtain ⟨r, hr, hid⟩ : ∃ r ∈ y.committed.runs, r.id = ⟨1⟩ :=
    List.mem_map.mp (hruns ▸ List.mem_singleton_self _)
  obtain ⟨⟨worker, names, limit, hcall⟩, hp⟩ := eq_of_claimedAnswer hclaimed
  have hrun : Sessions.Run (Stored r.id) y claimedAgain y' := by
    rw [hid]
    exact System.replayWhile_sound (fun _ => trivial) (fun _ _ _ hp => hp) hy'
  refine ⟨y, y', play_reached hy, hid ▸ hrun, r, hr, claimed, hp, hattempts, fun c hc => ?_⟩
  have hcid : c.runId = r.id := by
    have hmem := List.mem_map_of_mem (f := ClaimedRun.runId) hc
    rw [hids, List.mem_singleton] at hmem
    rw [hmem, hid]
  exact (execution_snapshots (play_reached hy) hr hrun).2 true worker names limit claimed hcall hp c
    hc hcid

end PgTaskScheduler
