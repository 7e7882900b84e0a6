import PgTaskScheduler.Sessions

/-!
# `claim_batch` from statement to answer

Between its statement and its commit a session that serves `claim_batch` holds the candidates
locked, so they are still what it has read. Its answer repeats the rows that it has written.
-/

namespace PgTaskScheduler

open Tables ReadCommitted

variable {K : Croner}

/-! ## The answer -/

/-- The answer repeats the columns of a claimed row. -/
structure ClaimedRun.Reads (c : ClaimedRun) (r : Run) : Prop where
  runId : c.runId = r.id
  jobId : c.jobId = r.jobId
  jobName : c.jobName = r.jobName
  jobArgs : c.jobArgs = r.jobArgs
  scheduledFor : c.scheduledFor.val = r.scheduledFor
  attempt : (c.attempt : ℤ) = r.attemptCount
  token : r.leaseToken = some c.leaseToken
  expires : r.leaseExpiresAt = some c.leaseExpiresAt.val
  lease : c.leaseDuration.micros = r.leaseDuration.micros

theorem LeaseDuration.micros_of_fromPgInterval {iv : PgInterval} {l : LeaseDuration}
    (h : fromPgInterval iv = .ok l) : l.micros = iv.microseconds := by
  unfold fromPgInterval at h
  split_ifs at h
  obtain rfl := Except.ok.inj h
  rfl

theorem ClaimedRow.reads {r : Run} {row : ClaimedRow} {c : ClaimedRun}
    (hrow : ClaimedRow.read r = .ok row) (hc : row.toClaimedRun = .ok c) : c.Reads r := by
  unfold ClaimedRow.read at hrow
  split at hrow
  · next token expires htoken hexpires =>
    obtain ⟨scheduledFor, hs, hrow⟩ := bind_eq_ok hrow
    obtain ⟨leaseExpiresAt, he, hrow⟩ := bind_eq_ok hrow
    obtain rfl := Except.ok.inj hrow
    unfold ClaimedRow.toClaimedRun at hc
    split_ifs at hc with hpos
    split at hc
    · next l hl =>
      obtain rfl := Except.ok.inj hc
      exact ⟨rfl, rfl, rfl, rfl, readTimestamp_eq_ok hs, Int.toNat_of_nonneg (le_of_lt hpos),
        htoken, by rw [hexpires, readTimestamp_eq_ok he],
        LeaseDuration.micros_of_fromPgInterval hl⟩
    · exact absurd hc (by simp)
  · exact absurd hrow (by simp)

theorem decodeClaimed_reads {rows : List Run} {claimed : List ClaimedRun}
    (h : decodeClaimed rows = .ok claimed) :
    List.Forall₂ (fun r c => ClaimedRun.Reads c r) rows claimed := by
  obtain ⟨decoded, hdecoded, hclaimed⟩ := bind_eq_ok h
  have hread := mapRows_eq_ok_iff.mp (mapError_eq_ok.mp hdecoded)
  have hrun := mapRows_eq_ok_iff.mp hclaimed
  clear h hdecoded hclaimed
  induction hread generalizing claimed with
  | nil =>
    cases hrun
    exact .nil
  | cons hrow _ ih =>
    cases hrun with
    | cons hc hrest => exact .cons (ClaimedRow.reads hrow hc) (ih hrest)

/-! ## The phases of a claim -/

theorem program_claimBatch (worker : WorkerId) (names : List String) (limit : NonZeroUsize) :
    program K (.claimBatch worker names limit) =
      if i64Max < limit.value then .ret (.error (.config "claim batch is too large"))
      else .stmt (claimBatchQuery worker names limit.value) fun rows =>
        .commit (.ret ((decodeClaimed rows).map .claimed)) := by
  unfold program claimBatch
  dsimp only
  split_ifs <;> rfl

/-- The rows of the candidates after the claim, in the order of the answer. -/
def claimedRows (env : Env) (worker : WorkerId) (candidates : List Run) : List Run :=
  (candidates.map (Run.claim env worker)).insertionSort Run.answerOrder

theorem mem_claimedRows {env : Env} {worker : WorkerId} {candidates : List Run} {r' : Run} :
    r' ∈ claimedRows env worker candidates ↔ ∃ r ∈ candidates, r.claim env worker = r' := by
  rw [claimedRows, List.mem_insertionSort, List.mem_map]

/-- Where `claim_batch` is in its program, and what it knows of the committed store. -/
inductive ClaimPhase (worker : WorkerId) (names : List String) (limit : NonZeroUsize) (C : Store)
    (σ : Server K) : Prop
  | called (hp : σ.prog = program K (.claimBatch worker names limit)) (hw : σ.writes = [])
  | claiming {env candidates} (hp : σ.prog =
      .commit (.ret ((decodeClaimed (claimedRows env worker candidates)).map .claimed)))
    (hw : σ.writes = [claimPatch env worker candidates]) (hkeyed : Keyed Run.id candidates)
    (hrows : ∀ r ∈ candidates, .run r.id ∈ σ.locks ∧ lookup Run.id r.id C.runs = some r ∧
      r.claimable env names)
  | answered {x} (hp : σ.prog = .ret x)

/-- What a session that serves `claim_batch` knows. -/
def Claiming (C : Store) (σ : Server K) : Prop :=
  ∀ worker names limit, σ.call = .claimBatch worker names limit →
    ClaimPhase worker names limit C σ

theorem claiming_stable : Sessions.Stable (Claiming (K := K)) where
  start C c worker names limit hc := .called (congrArg (program K) hc) rfl
  answered C c a worker names limit _ := .answered rfl
  snapshot C σ sn h worker names limit hc := by
    cases h worker names limit hc with
    | called hp hw => exact .called hp hw
    | claiming hp hw hkeyed hrows => exact .claiming hp hw hkeyed hrows
    | answered hp => exact .answered hp
  exec := by
    intro C σ sn env β w b s k h hC hsn hagree _ hp hr worker names limit hc
    cases h worker names limit hc with
    | called hp' hw =>
      rw [program_claimBatch] at hp'
      split_ifs at hp' with hlimit
      · exact absurd (hp.symm.trans hp') (by simp)
      · cases hp.symm.trans hp'
        rw [hw, Storage.applyAll_nil, Storage.applyAll_nil] at hr
        obtain ⟨rfl, rfl, -⟩ := claimBatchQuery_ok hr
        simp only [hw, Storage.applyAll_nil, List.nil_append]
        refine .claiming rfl rfl (claimCandidates_keyed hsn.runIds) fun r hr => ?_
        obtain ⟨hl, hclaimable, -⟩ := claimCandidates_mem hr
        refine ⟨List.mem_append_right _ ?_, hl, hclaimable⟩
        exact mem_acquires_of_locked
          (mem_locked_run (r := r.claim env worker) (List.mem_map_of_mem hr))
    | claiming hp' => exact absurd (hp.symm.trans hp') (by simp)
    | answered hp' => exact absurd (hp.symm.trans hp') (by simp)
  commit := by
    intro C σ k h _ _ hp worker names limit hc
    cases h worker names limit hc with
    | called hp' =>
      rw [program_claimBatch] at hp'
      split_ifs at hp' <;> exact absurd (hp.symm.trans hp') (by simp)
    | claiming hp' =>
      cases hp.symm.trans hp'
      exact .answered rfl
    | answered hp' => exact absurd (hp.symm.trans hp') (by simp)
  agree := by
    intro C C' σ h _ _ hagree worker names limit hc
    cases h worker names limit hc with
    | called hp hw => exact .called hp hw
    | claiming hp hw hkeyed hrows =>
      refine .claiming hp hw hkeyed fun r hr => ?_
      obtain ⟨hlock, hl, hclaimable⟩ := hrows r hr
      exact ⟨hlock, (agree_run hagree hlock).trans hl, hclaimable⟩
    | answered hp => exact .answered hp

variable {ι : Type} [DecidableEq ι] {y : Sessions K ι} {ls : List (ι × Act (Call K) Env)} {i : ι}
  {worker : WorkerId} {names : List String} {limit : NonZeroUsize}

/-- A claim that is about to commit. -/
theorem claiming_reached (h : Sessions.Reached ls y)
    (hc : (y.session i).call = .claimBatch worker names limit) {k : Program (Answer K)}
    (hp : (y.session i).prog = .commit k) : ∃ env candidates,
      k = .ret ((decodeClaimed (claimedRows env worker candidates)).map .claimed) ∧
      (y.session i).writes = [claimPatch env worker candidates] ∧ Keyed Run.id candidates ∧
      ∀ r ∈ candidates, .run r.id ∈ (y.session i).locks ∧
        lookup Run.id r.id y.committed.runs = some r ∧ r.claimable env names := by
  cases stable_reached claiming_stable h i worker names limit hc with
  | called hp' =>
    rw [program_claimBatch] at hp'
    split_ifs at hp' <;> exact absurd (hp.symm.trans hp') (by simp)
  | @claiming env candidates hp' hw hkeyed hrows =>
    cases hp.symm.trans hp'
    exact ⟨env, candidates, rfl, hw, hkeyed, hrows⟩
  | answered hp' => exact absurd (hp.symm.trans hp') (by simp)

/-- A claim that is about to commit and to answer `claimed`. -/
theorem claimed_reached (h : Sessions.Reached ls y)
    (hc : (y.session i).call = .claimBatch worker names limit) {claimed : List ClaimedRun}
    (hp : (y.session i).prog = .commit (.ret (.ok (.claimed claimed)))) : ∃ env candidates,
      decodeClaimed (claimedRows env worker candidates) = .ok claimed ∧
      (y.session i).writes = [claimPatch env worker candidates] ∧ Keyed Run.id candidates ∧
      ∀ r ∈ candidates, .run r.id ∈ (y.session i).locks ∧
        lookup Run.id r.id y.committed.runs = some r ∧ r.claimable env names := by
  obtain ⟨env, candidates, hk, hw, hkeyed, hrows⟩ := claiming_reached h hc hp
  obtain ⟨decoded, hdecoded, he⟩ := bind_eq_ok (Prog.ret.inj hk).symm
  obtain rfl : decoded = claimed := by simpa using he
  exact ⟨env, candidates, hdecoded, hw, hkeyed, hrows⟩

end PgTaskScheduler
