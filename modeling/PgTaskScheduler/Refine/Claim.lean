import PgTaskScheduler.Refine.Finalize

/-!
# `claim_batch` refines the lifecycle

The candidates are locked in their newest version, which is still pending. Each becomes `running`
and gets its attempt; the unique index on tokens keeps every other attempt apart.
-/

namespace PgTaskScheduler

open Tables ReadCommitted

variable {K : Croner} {env : Env} {worker : WorkerId} {names : List String} {limit : ℕ}
  {snap cur : Store}

/-! ## The candidates -/

theorem claimCandidates_mem {r : Run} (h : r ∈ claimCandidates env names limit snap cur) :
    lookup Run.id r.id cur.runs = some r ∧ r.claimable env names ∧ env.skipRun r.id = false := by
  obtain ⟨hl, hp, hskip, -⟩ := mem_selectForUpdate h
  exact ⟨hl, hp, hskip⟩

theorem claimCandidates_keyed (h : Keyed Run.id snap.runs) :
    Keyed Run.id (claimCandidates env names limit snap cur) := keyed_selectForUpdate h

/-- What `CLAIM_BATCH` writes for the given candidates. -/
def claimPatch (env : Env) (worker : WorkerId) (candidates : List Run) : Patch where
  runs := { update := candidates.map (Run.claim env worker) }
  insertAttempts := candidates.map (Run.claimAttempt env worker)

theorem claimBatchQuery_ok {w : Patch} {rows : List Run}
    (h : (claimBatchQuery worker names limit).run env snap cur = .ok (w, rows)) :
    w = claimPatch env worker (claimCandidates env names limit snap cur) ∧
      rows = ((claimCandidates env names limit snap cur).map
        (Run.claim env worker)).insertionSort Run.answerOrder ∧
      checkClaimed ((claimCandidates env names limit snap cur).map (Run.claim env worker))
        ((claimCandidates env names limit snap cur).map (Run.claimAttempt env worker))
        cur.attempts = .ok () := by
  obtain ⟨_, -, h⟩ := bind_eq_ok (mapError_eq_ok.mp h)
  obtain ⟨_, -, h⟩ := bind_eq_ok h
  obtain ⟨_, hcheck, h⟩ := bind_eq_ok h
  obtain ⟨rfl, rfl⟩ := Prod.mk.inj (Except.ok.inj h)
  exact ⟨rfl, rfl, hcheck⟩

theorem checkClaimed_eq_ok_iff {claimed : List Run} {recorded attempts : List Attempt} :
    checkClaimed claimed recorded attempts = .ok () ↔
      (∀ r ∈ claimed, r.check = .ok ()) ∧ (∀ a ∈ recorded, a.check = .ok ()) ∧
      (Keyed Attempt.key recorded ∧ ∀ a ∈ recorded, ∀ b ∈ attempts, b.key ≠ a.key) ∧
      Keyed Attempt.leaseToken recorded ∧
        ∀ a ∈ recorded, ∀ b ∈ attempts, b.leaseToken ≠ a.leaseToken := by
  unfold checkClaimed
  rw [← checkAll_eq_ok_iff, ← checkAll_eq_ok_iff]
  rcases checkAll Run.check claimed with e | ⟨⟩
  · simp [bind, Except.bind]
  · rcases checkAll Attempt.check recorded with e | ⟨⟩
    · simp [bind, Except.bind]
    · simp [bind, Except.bind]

/-! ## The answer -/

theorem ClaimedRow.read_eq_ok {r : Run} {row : ClaimedRow} (h : ClaimedRow.read r = .ok row) :
    row.attempt = r.attemptCount ∧ row.leaseDuration = r.leaseDuration.val := by
  unfold ClaimedRow.read at h
  split at h
  · obtain ⟨_, -, h⟩ := bind_eq_ok h
    obtain ⟨_, -, h⟩ := bind_eq_ok h
    obtain rfl := Except.ok.inj h
    exact ⟨rfl, rfl⟩
  · exact nomatch h

theorem ClaimedRow.toClaimedRun_ok {row : ClaimedRow} {iv : LeaseInterval}
    (hpos : 0 < row.attempt) (hlease : row.leaseDuration = iv.val) :
    ∃ c, row.toClaimedRun = .ok c := by
  obtain ⟨l, hl, -⟩ := LeaseDuration.fromPgInterval_of_leaseCheck iv
  unfold ClaimedRow.toClaimedRun
  rw [if_pos hpos, hlease, hl]
  exact ⟨_, rfl⟩

/-- Claimed rows decode, unless one holds an instant that `chrono` cannot represent. -/
theorem decodeClaimed_consistent {rows : List Run} (h : ∀ r ∈ rows, 0 < r.attemptCount) :
    Consistent (decodeClaimed rows) := by
  unfold decodeClaimed
  rcases hread : mapRows ClaimedRow.read rows with e | decoded
  · exact consistent_database e
  · rcases @mapRows_ok_or_error _ _ _ ClaimedRow.toClaimedRun decoded with
      ⟨runs, hruns⟩ | ⟨row, hrow, e, he, -⟩
    · intro detail hd
      have hd : mapRows ClaimedRow.toClaimedRun decoded = .error (.invariant detail) := hd
      exact nomatch hruns.symm.trans hd
    · obtain ⟨r, hr, hread⟩ := exists_of_mem_mapRows hread row hrow
      obtain ⟨hattempt, hlease⟩ := ClaimedRow.read_eq_ok hread
      obtain ⟨c, hc⟩ := ClaimedRow.toClaimedRun_ok (hattempt ▸ h r hr) hlease
      exact nomatch hc.symm.trans he

/-! ## The transaction -/

section Good

variable {Ok : Env → Prop} {s : Store} {L : List RowRef} {candidates : List Run}

/-- The claimed rows fit a store that still has the candidates as they were locked. -/
theorem claimPatch_fits (hs : Inv s)
    (hrows : ∀ r ∈ candidates, lookup Run.id r.id s.runs = some r)
    (hcheck : checkClaimed (candidates.map (Run.claim env worker))
      (candidates.map (Run.claimAttempt env worker)) s.attempts = .ok ())
    (hrun : ∀ r ∈ candidates, .run r.id ∈ L)
    (htoken : ∀ r ∈ candidates, .token (env.token r.id) ∈ L) :
    (claimPatch env worker candidates).Fits L s := by
  obtain ⟨hruns, hattempts, -, hkeyed', hfresh⟩ := checkClaimed_eq_ok_iff.mp hcheck
  constructor
  case runsUpdate =>
    intro r' hr'
    obtain ⟨r, hr, rfl⟩ := List.mem_map.mp hr'
    refine ⟨hrun r hr, hruns _ hr', fun r₀ hr₀ he => ?_⟩
    obtain rfl : r₀ = r := eq_of_key hs.runIds hr₀ (mem_of_lookup (hrows r hr)) he
    exact ⟨rfl, rfl⟩
  case attemptsInsert =>
    intro a ha
    obtain ⟨r, hr, rfl⟩ := List.mem_map.mp ha
    exact ⟨hrun r hr, htoken r hr, hattempts _ ha, hfresh _ ha⟩
  case attemptsKeyed => exact hkeyed'
  all_goals simp [claimPatch]

/-- A candidate becomes running with one more attempt; every other run stays as it is. -/
theorem onView_claimPatch (hkeyed : Keyed Run.id candidates) {id : RunId}
    (hrows : ∀ r ∈ candidates, lookup Run.id r.id s.runs = some r) :
    (claimPatch env worker candidates).onView id (s.view id) =
      match lookup Run.id id candidates with
      | some r => ⟨some (r.claim env worker), (s.view id).attempts ++ [r.claimAttempt env worker]⟩
      | none => s.view id := by
  rcases hl : lookup Run.id id candidates with _ | r
  · have hne := lookup_eq_none_iff.mp hl
    refine Patch.onView_of_untouched (fun a ha => (Store.mem_view_attempts.mp ha).2) ?_ ?_ ?_ ?_ ?_
    · simp [claimPatch]
    · intro r' hr'
      obtain ⟨r, hr, rfl⟩ := List.mem_map.mp hr'
      exact hne r hr
    · simp [claimPatch]
    · simp [claimPatch]
    · intro a ha
      obtain ⟨r, hr, rfl⟩ := List.mem_map.mp ha
      exact hne r hr
  · have hr := mem_of_lookup hl
    obtain rfl := key_of_lookup hl
    have hfilter : (candidates.map (Run.claimAttempt env worker)).filter
        (fun a => decide (a.runId = r.id)) = [r.claimAttempt env worker] := by
      rw [List.filter_map, filter_eq_singleton hkeyed hr (by simp [Run.claimAttempt])]
      · rfl
      · exact fun b _ hb => of_decide_eq_true hb
    have hmap : lookup Run.id r.id (candidates.map (Run.claim env worker)) =
        some (r.claim env worker) := by
      rw [lookup_map (f := Run.claim env worker) fun _ => rfl, hl]
      rfl
    simp [Patch.onView, claimPatch, hmap, Store.view_run, hrows r hr, hfilter]

theorem claimBatch_good {limit : NonZeroUsize} : (claimBatch worker names limit).Good db Inv Ok
    (Commits Ok (.claimBatch worker names limit : Call K)) Consistent [] [] [] s := by
  unfold claimBatch
  split_ifs
  · exact fun _ h => nomatch h
  refine good_first (fun _ _ _ _ => query_error) fun C₁ C₂ h₁ h₂ env hOk w rows hw => ?_
  obtain ⟨rfl, rfl, hcheck⟩ := claimBatchQuery_ok hw
  have hkeyed : Keyed Run.id (claimCandidates env names limit.value C₁ C₂) :=
    claimCandidates_keyed h₁.runIds
  obtain ⟨hruns, hattempts, hpk, htokens, hfresh⟩ := checkClaimed_eq_ok_iff.mp hcheck
  refine good_commit (fun _ => rfl) (fun C hC hagree => ?_) fun C _ => ?_
  · have hrun : ∀ r ∈ claimCandidates env names limit.value C₁ C₂, RowRef.run r.id ∈
        (claimBatchQuery worker names limit.value).acquires db env C₁ C₂
          (claimPatch env worker (claimCandidates env names limit.value C₁ C₂)) :=
      fun r hr => mem_acquires_of_locked
        (mem_locked_run (r := r.claim env worker) (List.mem_map_of_mem hr))
    have htoken : ∀ r ∈ claimCandidates env names limit.value C₁ C₂,
        RowRef.token (env.token r.id) ∈
          (claimBatchQuery worker names limit.value).acquires db env C₁ C₂
            (claimPatch env worker (claimCandidates env names limit.value C₁ C₂)) :=
      fun r hr => mem_acquires_of_locked
        (mem_locked_token (a := r.claimAttempt env worker) (List.mem_map_of_mem hr))
    have hrows : ∀ r ∈ claimCandidates env names limit.value C₁ C₂,
        lookup Run.id r.id C.runs = some r := fun r hr =>
      (agree_run hagree (hrun r hr)).trans (claimCandidates_mem hr).1
    refine ⟨claimPatch_fits hC hrows ?_ hrun htoken, Transition.of_runs rfl fun id => ?_⟩
    · refine checkClaimed_eq_ok_iff.mpr ⟨hruns, hattempts, ⟨hpk.1, ?_⟩, htokens, ?_⟩
      · intro a ha b hb
        obtain ⟨r, hr, rfl⟩ := List.mem_map.mp ha
        intro he
        have hid : b.runId = r.id := congrArg Prod.fst he
        have hb' : b ∈ (C.view r.id).attempts := Store.mem_view_attempts.mpr ⟨hb, hid⟩
        rw [agree_view hagree (hrun r hr)] at hb'
        exact hpk.2 _ ha b (Store.mem_view_attempts.mp hb').1 he
      · intro a ha
        obtain ⟨r, hr, rfl⟩ := List.mem_map.mp ha
        exact agree_token hagree (htoken r hr) (hfresh _ ha)
    · rw [onView_claimPatch hkeyed hrows]
      rcases hl : lookup Run.id id (claimCandidates env names limit.value C₁ C₂) with _ | r
      · exact .same _ _
      · obtain rfl := key_of_lookup hl
        rw [Store.view_eq_some (hrows r (mem_of_lookup hl))]
        exact .claimed hOk (claimCandidates_mem (mem_of_lookup hl)).2.1
  · refine decodeClaimed_consistent fun r' hr' => ?_
    obtain ⟨r, hr, rfl⟩ := List.mem_map.mp (List.mem_insertionSort _ |>.mp hr')
    have hcheck := hattempts _ (List.mem_map_of_mem hr)
    exact (Attempt.check_eq_ok_iff.mp hcheck).2.2.2.1

end Good

end PgTaskScheduler
