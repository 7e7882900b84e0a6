import PgTaskScheduler.Refine.Finalize

/-!
# `recover_expired`, `cancel`, `prune_terminal` and `enqueue` refine the lifecycle

Recovery and cancellation read the run in its newest version and its attempts in their snapshot.
When the open attempt is not in the snapshot they close nothing and leave the run as it is.
-/

namespace PgTaskScheduler

open Tables ReadCommitted

variable {K : Croner} {env : Env} {snap cur : Store} {limit : ℕ}

/-! ## `recover_expired` -/

theorem recoverCandidates_mem {r : Run} (h : r ∈ recoverCandidates env limit snap cur) :
    lookup Run.id r.id cur.runs = some r ∧ r.expired env ∧ env.skipRun r.id = false := by
  obtain ⟨hl, hp, hskip, -⟩ := mem_selectForUpdate h
  exact ⟨hl, hp, hskip⟩

/-- The attempts that `recorded` closes. -/
def recoverRecorded (env : Env) (candidates : List Run) (snap cur : Store) : List Attempt :=
  (targets Attempt.key (·.expiring candidates) snap.attempts cur.attempts).map
    (Attempt.close env .expired (some "lease expired"))

/-- The rows of `recovered`. -/
def recoverRows (env : Env) (candidates : List Run) (recorded : List Attempt) : List Run :=
  (candidates.filter fun r => recorded.any fun a => a.runId = r.id).map (Run.recover env)

/-- What `RECOVER` writes for the given candidates and closed attempts. -/
def recoverPatch (env : Env) (candidates : List Run) (recorded : List Attempt) : Patch where
  runs := { update := recoverRows env candidates recorded }
  updateAttempts := recorded

theorem recoverQuery_ok {w : Patch} {states : List StoredRunState}
    (h : (recoverQuery limit).run env snap cur = .ok (w, states)) :
    let candidates := recoverCandidates env limit snap cur
    let recorded := recoverRecorded env candidates snap cur
    w = recoverPatch env candidates recorded ∧ states = w.runs.update.map Run.state ∧
      (∀ a ∈ recorded, a.check = .ok ()) ∧ ∀ r ∈ w.runs.update, r.check = .ok () := by
  obtain ⟨_, hattempts, h⟩ := bind_eq_ok (mapError_eq_ok.mp h)
  obtain ⟨_, hruns, h⟩ := bind_eq_ok h
  obtain ⟨rfl, rfl⟩ := Prod.mk.inj (Except.ok.inj h)
  exact ⟨rfl, rfl, checkAll_eq_ok_iff.mp hattempts, checkAll_eq_ok_iff.mp hruns⟩

/-- Every attempt in `recorded` is the open one of a candidate, closed. -/
def Recorded (env : Env) (s : Store) (candidates : List Run) (recorded : List Attempt) : Prop :=
  ∀ x ∈ recorded, ∃ r ∈ candidates, ∃ prev a, s.view r.id = ⟨some r, prev ++ [a]⟩ ∧ a.isOpen ∧
    x = a.close env .expired (some "lease expired") ∧ x.runId = r.id

theorem recoverRecorded_recorded (hcur : Inv cur) {candidates : List Run}
    (hrows : ∀ r ∈ candidates, lookup Run.id r.id cur.runs = some r ∧ r.expired env) :
    Recorded env cur candidates (recoverRecorded env candidates snap cur) := by
  intro x hx
  obtain ⟨a, ha, rfl⟩ := List.mem_map.mp hx
  obtain ⟨hmem, hexp, -⟩ := mem_targets.mp ha
  obtain ⟨r, hr, hexp⟩ := List.any_eq_true.mp hexp
  simp only [Bool.and_eq_true, decide_eq_true_eq] at hexp
  obtain ⟨hl, hrexp⟩ := hrows r hr
  obtain ⟨prev, hview, hopen, hid⟩ := hcur.attempt_of_token (mem_of_lookup hl)
    (Run.state_of_expired hrexp) hmem hexp.1
  exact ⟨r, hr, prev, a, hview, hopen, rfl, hid⟩

section Recover

variable {Ok : Env → Prop} {s C : Store} {L : List RowRef} {candidates : List Run}
  {recorded : List Attempt}

theorem recoverPatch_fits (hs : Inv s)
    (hrows : ∀ r ∈ candidates, lookup Run.id r.id s.runs = some r)
    (hrecorded : Recorded env s candidates recorded) (hrun : ∀ r ∈ candidates, .run r.id ∈ L)
    (hattempts : ∀ a ∈ recorded, a.check = .ok ())
    (hruns : ∀ r ∈ (recoverPatch env candidates recorded).runs.update, r.check = .ok ()) :
    (recoverPatch env candidates recorded).Fits L s := by
  constructor
  case runsUpdate =>
    intro r' hr'
    obtain ⟨r, hr, rfl⟩ := List.mem_map.mp hr'
    have hr := (List.mem_filter.mp hr).1
    refine ⟨hrun r hr, hruns _ hr', fun r₀ hr₀ he => ?_⟩
    obtain rfl : r₀ = r := eq_of_key hs.runIds hr₀ (mem_of_lookup (hrows r hr)) he
    exact ⟨rfl, rfl⟩
  case attemptsUpdate =>
    intro x hx
    obtain ⟨r, hr, prev, a, hview, -, rfl, hid⟩ := hrecorded x hx
    refine ⟨hid ▸ hrun r hr, hattempts _ hx, fun a₀ ha₀ he => ?_⟩
    have hk := (hs.coupled r.id).keyed
    have ha₀' : a₀ ∈ (s.view r.id).attempts :=
      Store.mem_view_attempts.mpr ⟨ha₀, (congrArg Prod.fst he).trans hid⟩
    have ha' : a ∈ (s.view r.id).attempts := by
      rw [hview]
      simp
    rw [eq_of_key hk ha₀' ha' he]
    rfl
  all_goals simp [recoverPatch, Keyed]

/-- A candidate whose attempt was closed moves on; every other run stays as it is. -/
theorem onView_recoverPatch (hs : Inv s) (hkeyed : Keyed Run.id candidates)
    (hrecorded : Recorded env s candidates recorded) (id : RunId) :
    ((∃ x ∈ recorded, x.runId = id) ∧ ∃ r ∈ candidates, r.id = id ∧
      ∃ prev a, s.view id = ⟨some r, prev ++ [a]⟩ ∧ a.isOpen ∧
        (recoverPatch env candidates recorded).onView id (s.view id) =
          ⟨some (r.recover env), prev ++ [a.close env .expired (some "lease expired")]⟩) ∨
    (∀ x ∈ recorded, x.runId ≠ id) ∧
      (recoverPatch env candidates recorded).onView id (s.view id) = s.view id := by
  have hids : ∀ b ∈ (s.view id).attempts, b.runId = id :=
    fun b hb => (Store.mem_view_attempts.mp hb).2
  by_cases hx : ∃ x ∈ recorded, x.runId = id
  · obtain ⟨x, hx, rfl⟩ := hx
    obtain ⟨r, hr, prev, a, hview, hopen, hxa, hid⟩ := hrecorded x hx
    rw [← hid] at hview
    have hone : ∀ b ∈ recorded, b.runId = x.runId → b = x := by
      intro b hb hbid
      obtain ⟨r₂, hr₂, prev₂, a₂, hview₂, -, hba, hid₂⟩ := hrecorded b hb
      rw [← hid₂, hbid, hview] at hview₂
      obtain ⟨-, hlast⟩ := List.append_inj' (congrArg RunView.attempts hview₂) rfl
      rw [hba, hxa, List.singleton_inj.mp hlast]
    have hlookup : lookup Run.id x.runId
        (recoverPatch env candidates recorded).runs.update = some (r.recover env) := by
      have hmem : r ∈ candidates.filter fun r => recorded.any fun a => a.runId = r.id := by
        rw [List.mem_filter, List.any_eq_true]
        exact ⟨hr, x, hx, by simpa using hid⟩
      rw [recoverPatch, recoverRows, lookup_map (f := Run.recover env) fun _ => rfl, hid,
        lookup_of_mem (hkeyed.filter _) hmem]
      rfl
    refine Or.inl ⟨⟨x, hx, rfl⟩, r, hr, hid.symm, prev, a, hview, hopen, ?_⟩
    rw [Patch.onView_rewrite (hs.coupled _) hview hids (by simp [recoverPatch]) rfl hlookup hx
      (by rw [hxa]; rfl) hone, hxa]
  · refine Or.inr ⟨fun x hmem he => hx ⟨x, hmem, he⟩, ?_⟩
    refine Patch.onView_of_untouched hids (by simp [recoverPatch]) ?_ ?_ ?_ ?_
    · intro r' hr' he
      obtain ⟨r, hr, rfl⟩ := List.mem_map.mp hr'
      obtain ⟨x, hx', hxr⟩ := List.any_eq_true.mp (List.mem_filter.mp hr).2
      exact hx ⟨x, hx', (of_decide_eq_true hxr).trans he⟩
    · simp [recoverPatch]
    · exact fun a ha he => hx ⟨a, ha, he⟩
    · simp [recoverPatch]

theorem change_recoverPatch {limit : NonZeroUsize} (hs : Inv s) (hOk : Ok env)
    (hkeyed : Keyed Run.id candidates)
    (hrows : ∀ r ∈ candidates, lookup Run.id r.id s.runs = some r ∧ r.expired env)
    (hrecorded : Recorded env s candidates recorded) (id : RunId) :
    Change Ok (.recoverExpired limit : Call K) (s.view id)
      ((recoverPatch env candidates recorded).onView id (s.view id)) := by
  rcases onView_recoverPatch hs hkeyed hrecorded id with
    ⟨-, r, hr, -, prev, a, hview, hopen, hnew⟩ | ⟨-, hsame⟩
  · rw [hnew, hview]
    exact .recovered hOk (hrows r hr).2 hopen
  · rw [hsame]
    exact .same _ _

theorem RecoverySummary.add_consistent {states : List StoredRunState} :
    (∀ st ∈ states, st = .pending ∨ st = .failed) → ∀ summary : RecoverySummary,
      Consistent (summary.add states) := by
  induction states with
  | nil => exact fun _ summary => consistent_ok summary
  | cons st states ih =>
    intro h summary
    have ih := ih fun st hst => h st (List.mem_cons_of_mem _ hst)
    obtain rfl | rfl := h st List.mem_cons_self
    · exact ih _
    · exact ih _

theorem recoverExpired_good {limit : NonZeroUsize} : (recoverExpired limit).Good db Inv Ok
    (Commits Ok (.recoverExpired limit : Call K)) Consistent [] [] [] s := by
  unfold recoverExpired
  split_ifs
  · exact fun _ h => nomatch h
  refine good_first (fun _ _ _ _ => lockingQuery_error) fun C₁ C₂ h₁ h₂ env hOk w states hw => ?_
  obtain ⟨rfl, rfl, hattempts, hruns⟩ := recoverQuery_ok hw
  have hrows := fun r (hr : r ∈ recoverCandidates env limit.value C₁ C₂) =>
    recoverCandidates_mem hr
  have hrecorded := @recoverRecorded_recorded env C₁ C₂ h₂ _
    fun r hr => ⟨(hrows r hr).1, (hrows r hr).2.1⟩
  refine good_commit (fun _ => rfl) (fun C hC hagree => ?_) fun C _ => ?_
  · have hrun : ∀ r ∈ recoverCandidates env limit.value C₁ C₂, RowRef.run r.id ∈
        (recoverQuery limit.value).acquires db env C₁ C₂
          (recoverPatch env (recoverCandidates env limit.value C₁ C₂)
            (recoverRecorded env (recoverCandidates env limit.value C₁ C₂) C₁ C₂)) :=
      fun r hr => mem_acquires_of_locks (List.mem_map_of_mem (f := fun r => RowRef.run r.id) hr)
    have hrowsC := fun r hr => (agree_run hagree (hrun r hr)).trans (hrows r hr).1
    have hrecordedC : Recorded env C (recoverCandidates env limit.value C₁ C₂)
        (recoverRecorded env (recoverCandidates env limit.value C₁ C₂) C₁ C₂) := by
      intro x hx
      obtain ⟨r, hr, prev, a, hview, hrest⟩ := hrecorded x hx
      exact ⟨r, hr, prev, a, (agree_view hagree (hrun r hr)).trans hview, hrest⟩
    refine ⟨recoverPatch_fits hC hrowsC hrecordedC hrun hattempts hruns,
      Transition.of_runs rfl fun id => ?_⟩
    exact change_recoverPatch hC hOk (keyed_selectForUpdate h₁.runIds)
      (fun r hr => ⟨hrowsC r hr, (hrows r hr).2.1⟩) hrecordedC id
  · refine RecoverySummary.add_consistent (fun st hst => ?_) _
    obtain ⟨r', hr', rfl⟩ := List.mem_map.mp hst
    obtain ⟨r, -, rfl⟩ := List.mem_map.mp hr'
    rw [Run.recover_state]
    split_ifs
    · exact Or.inl rfl
    · exact Or.inr rfl

end Recover

/-! ## `cancel` -/

section Cancel

variable {Ok : Env → Prop} {s : Store} {id : RunId}

theorem cancelTarget_some {t : Run} (h : cancelTarget id snap cur = some t) :
    lookup Run.id id cur.runs = some t ∧ (lookup Run.id id snap.runs).isSome := by
  unfold cancelTarget at h
  split_ifs at h with hs
  exact ⟨h, hs⟩

/-- What `CANCEL` writes for a locked target. -/
def cancelPatch (env : Env) (t : Run) (attempts : List Attempt) : Patch where
  runs := { update := if t.cancellable attempts then [t.cancel env] else [] }
  updateAttempts := attempts

/-- The attempts that `CANCEL` closes. -/
def cancelClosed (env : Env) (t : Run) (snap cur : Store) : List Attempt :=
  (cancelAttempts t snap cur).map (Attempt.close env .cancelled none)

theorem cancelQuery_ok {w : Patch} {changed : List RunId}
    (h : (cancelQuery id).run env snap cur = .ok (w, changed)) :
    cancelTarget id snap cur = none ∧ w = {} ∧ changed = [] ∨
      ∃ t, cancelTarget id snap cur = some t ∧
        w = cancelPatch env t (cancelClosed env t snap cur) ∧
        changed = w.runs.update.map Run.id ∧
        (∀ a ∈ w.updateAttempts, a.check = .ok ()) ∧ ∀ r ∈ w.runs.update, r.check = .ok () := by
  replace h := mapError_eq_ok.mp h
  dsimp only at h
  rcases ht : cancelTarget id snap cur with _ | t
  · rw [ht] at h
    obtain ⟨rfl, rfl⟩ := Prod.mk.inj (Except.ok.inj h)
    exact Or.inl ⟨rfl, rfl, rfl⟩
  · rw [ht] at h
    obtain ⟨_, hattempts, h⟩ := bind_eq_ok h
    obtain ⟨_, hruns, h⟩ := bind_eq_ok h
    obtain ⟨rfl, rfl⟩ := Prod.mk.inj (Except.ok.inj h)
    exact Or.inr ⟨t, rfl, rfl, rfl, checkAll_eq_ok_iff.mp hattempts, checkAll_eq_ok_iff.mp hruns⟩

/-- The closed attempt is the open one of the target, if its snapshot has it. -/
theorem mem_cancelClosed (hcur : Inv cur) {t : Run} (ht : lookup Run.id id cur.runs = some t)
    {x : Attempt} (hx : x ∈ cancelClosed env t snap cur) :
    t.state = .running ∧ ∃ prev a, cur.view id = ⟨some t, prev ++ [a]⟩ ∧ a.isOpen ∧
      x = a.close env .cancelled none ∧ x.runId = id := by
  obtain ⟨a, ha, rfl⟩ := List.mem_map.mp hx
  obtain ⟨hmem, hopen, -⟩ := mem_targets.mp ha
  simp only [Bool.and_eq_true, decide_eq_true_eq] at hopen
  obtain ⟨prev, hview, hopen', hid⟩ := hcur.attempt_of_token (mem_of_lookup ht) hopen.1.1 hmem
    hopen.1.2
  obtain rfl := key_of_lookup ht
  exact ⟨hopen.1.1, prev, a, hview, hopen', rfl, hid⟩

/-- Whatever the snapshot shows, a run is cancelled together with its open attempt or not at all. -/
theorem change_cancelPatch (hs : Inv s) (hOk : Ok env) {t : Run} {attempts : List Attempt}
    (ht : lookup Run.id id s.runs = some t)
    (hclosed : ∀ x ∈ attempts, t.state = .running ∧ ∃ prev a,
      s.view id = ⟨some t, prev ++ [a]⟩ ∧ a.isOpen ∧ x = a.close env .cancelled none ∧ x.runId = id)
    (id' : RunId) : Change Ok (.cancel id : Call K) (s.view id')
      ((cancelPatch env t attempts).onView id' (s.view id')) := by
  have hid : t.id = id := key_of_lookup ht
  have hids : ∀ b ∈ (s.view id').attempts, b.runId = id' :=
    fun b hb => (Store.mem_view_attempts.mp hb).2
  have hview := Store.view_eq_some ht
  by_cases hne : id' = id
  · subst hne
    rcases attempts with _ | ⟨x, rest⟩
    · by_cases hp : t.state = .pending
      · have hpatch : (cancelPatch env t []).onView id' (s.view id') =
            ⟨some (t.cancel env), (s.view id').attempts⟩ := by
          have hl : lookup Run.id id' [t.cancel env] = some (t.cancel env) := by
            rw [lookup_cons, if_pos (show (t.cancel env).id = id' from hid)]
          simp [Patch.onView, cancelPatch, Run.cancellable, hp, hl, Store.view_run, ht]
        rw [hpatch, hview]
        exact .cancelledPending hOk hid hp
      · have hpatch : cancelPatch env t [] = {} := by
          simp [cancelPatch, Run.cancellable, hp]
        rw [hpatch, Patch.onView_of_untouched hids] <;> try simp
        exact .same _ _
    · obtain ⟨hrun, prev, a, hview', hopen, hxa, hxid⟩ := hclosed x List.mem_cons_self
      have hone : ∀ b ∈ x :: rest, b.runId = id' → b = x := by
        intro b hb _
        obtain ⟨-, prev₂, a₂, hview₂, -, hba, -⟩ := hclosed b hb
        rw [hview'] at hview₂
        obtain ⟨-, hlast⟩ := List.append_inj' (congrArg RunView.attempts hview₂) rfl
        rw [hba, hxa, List.singleton_inj.mp hlast]
      have hcan : t.cancellable (x :: rest) := by
        simp [Run.cancellable, hrun, hxid, hid]
      have hl : lookup Run.id id' (cancelPatch env t (x :: rest)).runs.update =
          some (t.cancel env) := by
        rw [cancelPatch, if_pos hcan, lookup_cons, if_pos (show (t.cancel env).id = id' from hid)]
      rw [Patch.onView_rewrite (hs.coupled id') hview' hids (by simp [cancelPatch]) rfl hl
        List.mem_cons_self (by rw [hxa]; rfl) hone, hview', hxa]
      exact .cancelledRunning hOk hid hrun hopen
  · rw [Patch.onView_of_untouched hids (by simp [cancelPatch])]
    · exact .same _ _
    · intro r' hr' he
      simp only [cancelPatch] at hr'
      split_ifs at hr'
      · rw [List.mem_singleton.mp hr'] at he
        exact hne (he.symm.trans hid)
      · simp at hr'
    · simp [cancelPatch]
    · intro a ha he
      obtain ⟨-, -, -, -, -, -, haid⟩ := hclosed a ha
      exact hne (he.symm.trans haid)
    · simp [cancelPatch]

theorem cancelPatch_fits {L : List RowRef} (hs : Inv s) {t : Run} {attempts : List Attempt}
    (ht : lookup Run.id id s.runs = some t) (hL : .run id ∈ L)
    (hclosed : ∀ x ∈ attempts, t.state = .running ∧ ∃ prev a,
      s.view id = ⟨some t, prev ++ [a]⟩ ∧ a.isOpen ∧ x = a.close env .cancelled none ∧ x.runId = id)
    (hattempts : ∀ a ∈ attempts, a.check = .ok ())
    (hruns : ∀ r ∈ (cancelPatch env t attempts).runs.update, r.check = .ok ()) :
    (cancelPatch env t attempts).Fits L s := by
  have hid : t.id = id := key_of_lookup ht
  constructor
  case runsUpdate =>
    intro r' hr'
    obtain rfl : r' = t.cancel env := by
      simp only [cancelPatch] at hr'
      split_ifs at hr'
      · exact List.mem_singleton.mp hr'
      · exact nomatch hr'
    refine ⟨hid ▸ hL, hruns _ hr', fun r₀ hr₀ he => ?_⟩
    obtain rfl : r₀ = t := eq_of_key hs.runIds hr₀ (mem_of_lookup ht) he
    exact ⟨rfl, rfl⟩
  case attemptsUpdate =>
    intro x hx
    obtain ⟨-, prev, a, hview, -, rfl, hxid⟩ := hclosed x hx
    refine ⟨hxid ▸ hL, hattempts _ hx, fun a₀ ha₀ he => ?_⟩
    have ha₀' : a₀ ∈ (s.view id).attempts :=
      Store.mem_view_attempts.mpr ⟨ha₀, (congrArg Prod.fst he).trans hxid⟩
    have ha' : a ∈ (s.view id).attempts := by
      rw [hview]
      simp
    rw [eq_of_key (hs.coupled id).keyed ha₀' ha' he]
    rfl
  all_goals simp [cancelPatch, Keyed]

theorem cancel_good : (cancel id).Good db Inv Ok (Commits Ok (.cancel id : Call K)) Consistent
    [] [] [] s := by
  refine good_first (fun _ _ _ _ => lockingQuery_error) fun C₁ C₂ h₁ h₂ env hOk w changed hw => ?_
  have hrest : ∀ C, Inv C → (if changed ≠ [] then Prog.ret (.ok CancelOutcome.cancelled)
      else .stmt (taskExists id) fun found => .commit (.ret (.ok
        (if found then CancelOutcome.alreadyTerminal else .notFound)))).Good db Inv Ok
      (Commits Ok (.cancel id : Call K)) Consistent [] [] [] C := by
    intro C _
    split_ifs
    · exact consistent_ok _
    · refine good_first (fun _ _ _ _ => query_error) fun _ _ _ _ env _ w b hw => ?_
      obtain ⟨rfl, -⟩ := readQuery_ok hw
      exact good_commit_quiet (Transition.refl Ok _) (fun C => C.apply_empty)
        fun _ _ => consistent_ok _
  obtain ⟨-, rfl, -⟩ | ⟨t, ht, rfl, -, hattempts, hruns⟩ := cancelQuery_ok hw
  · exact good_commit_quiet (Transition.refl Ok _) (fun C => C.apply_empty) hrest
  · obtain ⟨hl, -⟩ := cancelTarget_some ht
    refine good_commit (fun _ => rfl) (fun C hC hagree => ?_) hrest
    have hL : .run id ∈ (cancelQuery id).acquires db env C₁ C₂
        (cancelPatch env t (cancelClosed env t C₁ C₂)) := by
      refine mem_acquires_of_locks ?_
      show RowRef.run id ∈ ((cancelTarget id C₁ C₂).map fun r => .run r.id).toList
      simp [ht, show t.id = id from key_of_lookup hl]
    have hlC := (agree_run hagree hL).trans hl
    have hclosed : ∀ x ∈ cancelClosed env t C₁ C₂, t.state = .running ∧ ∃ prev a,
        C.view id = ⟨some t, prev ++ [a]⟩ ∧ a.isOpen ∧ x = a.close env .cancelled none ∧
          x.runId = id := by
      rw [agree_view hagree hL]
      exact fun x hx => mem_cancelClosed h₂ hl hx
    exact ⟨cancelPatch_fits hC hlC hL hclosed hattempts hruns,
      Transition.of_runs rfl (change_cancelPatch hC hOk hlC hclosed)⟩

end Cancel

/-! ## `prune_terminal` -/

section Prune

variable {Ok : Env → Prop} {s : Store} {before : DateTime}

theorem pruneCandidates_mem {r : Run} (h : r ∈ pruneCandidates env before limit snap cur) :
    lookup Run.id r.id cur.runs = some r ∧ r.doomed before ∧ env.skipRun r.id = false := by
  obtain ⟨hl, hp, hskip, -⟩ := mem_selectForUpdate h
  exact ⟨hl, hp, hskip⟩

theorem pruneQuery_ok {w : Patch} {count : ℕ}
    (h : (pruneQuery before limit).run env snap cur = .ok (w, count)) :
    w = { runs := { delete := (pruneCandidates env before limit snap cur).map Run.id } } ∧
      count = (pruneCandidates env before limit snap cur).length := by
  obtain ⟨_, -, h⟩ := bind_eq_ok (mapError_eq_ok.mp h)
  obtain ⟨rfl, rfl⟩ := Prod.mk.inj (Except.ok.inj h)
  exact ⟨rfl, rfl⟩

/-- Deleting terminal runs that are locked with everything below them. -/
theorem prune_transition {limit : NonZeroUsize} {candidates : List Run}
    (hrows : ∀ r ∈ candidates, lookup Run.id r.id s.runs = some r ∧ r.doomed before) :
    Transition Ok (.pruneTerminal before limit : Call K) s
      (s.apply { runs := { delete := candidates.map Run.id } }) := by
  refine Transition.of_runs rfl fun id => ?_
  by_cases hid : id ∈ candidates.map Run.id
  · obtain ⟨r, hr, rfl⟩ := List.mem_map.mp hid
    obtain ⟨hl, hdoomed⟩ := hrows r hr
    rw [Patch.onView, if_pos hid, Store.view_eq_some hl]
    exact .pruned hdoomed
  · rw [Patch.onView_of_untouched (fun b hb => (Store.mem_view_attempts.mp hb).2) hid]
    · exact .same _ _
    all_goals simp

theorem pruneTerminal_good {limit : NonZeroUsize} : (pruneTerminal before limit).Good db Inv Ok
    (Commits Ok (.pruneTerminal before limit : Call K)) Consistent [] [] [] s := by
  unfold pruneTerminal
  split_ifs
  · exact fun _ h => nomatch h
  refine good_first (fun _ _ _ _ => query_error) fun C₁ C₂ h₁ h₂ env hOk w count hw => ?_
  obtain ⟨rfl, rfl⟩ := pruneQuery_ok hw
  refine good_commit (fun _ => rfl) (fun C hC hagree => ?_) fun C _ => consistent_ok _
  have hrefs : ∀ r ∈ pruneCandidates env before limit.value C₁ C₂, ∀ ref ∈ r.refs,
      ref ∈ (pruneQuery before limit.value).acquires db env C₁ C₂
        { runs := { delete := (pruneCandidates env before limit.value C₁ C₂).map Run.id } } :=
    fun r hr ref href => mem_acquires_of_locked (refs_subset_locked_deleted
      (mem_of_lookup (pruneCandidates_mem hr).1) (List.mem_map_of_mem (f := Run.id) hr) href)
  have hview : ∀ r ∈ pruneCandidates env before limit.value C₁ C₂,
      C.view r.id = C₂.view r.id := fun r hr => agree_view hagree (hrefs r hr _ List.mem_cons_self)
  have hrows : ∀ r ∈ pruneCandidates env before limit.value C₁ C₂,
      lookup Run.id r.id C.runs = some r ∧ r.doomed before := fun r hr =>
    ⟨(congrArg RunView.run (hview r hr)).trans (pruneCandidates_mem hr).1,
      (pruneCandidates_mem hr).2.1⟩
  refine ⟨?_, prune_transition hrows⟩
  constructor
  case runsDelete =>
    intro r hr hd
    obtain ⟨r', hr', he⟩ := List.mem_map.mp hd
    obtain rfl : r' = r := eq_of_key hC.runIds (mem_of_lookup (hrows r' hr').1) hr he
    exact hrefs r' hr'
  case attemptsDelete =>
    intro a ha hd
    obtain ⟨r, hr, he⟩ := List.mem_map.mp hd
    refine ⟨he ▸ hrefs r hr _ List.mem_cons_self, ?_⟩
    have ha' : a ∈ (C.view r.id).attempts := Store.mem_view_attempts.mpr ⟨ha, he.symm⟩
    rw [hview r hr] at ha'
    exact mem_acquires_of_locked (mem_locked_token_deleted (Store.mem_view_attempts.mp ha').1 hd)
  all_goals simp [Keyed]

end Prune

/-! ## `enqueue` -/

section Enqueue

variable {Ok : Env → Prop} {s : Store}

/-- The index entries of a row that conflicts with none are new. -/
theorem conflicting_eq_none {ι : Type} [DecidableEq ι] {key : Run → Option ι} {r : Run}
    {runs : List Run} (h : conflicting key r runs = none) :
    ∀ k, key r = some k → ∀ b ∈ runs, key b ≠ some k := by
  intro k hk b hb he
  rw [conflicting, hk, Option.bind_some, List.find?_eq_none] at h
  exact h b hb (by simpa using he)

theorem conflicting_eq_some {ι : Type} [DecidableEq ι] {key : Run → Option ι} {r b : Run}
    {runs : List Run} (h : conflicting key r runs = some b) :
    b ∈ runs ∧ key b = key r ∧ (key r).isSome := by
  rw [conflicting, Option.bind_eq_some_iff] at h
  obtain ⟨k, hk, hf⟩ := h
  exact ⟨List.mem_of_find?_eq_some hf, by simpa [hk] using List.find?_some hf, by simp [hk]⟩

theorem checkRunId_eq_ok_iff {r : Run} {runs : List Run} :
    checkRunId r runs = .ok () ↔ ∀ b ∈ runs, b.id ≠ r.id := by
  simp [checkRunId]

/-- Inserting one run whose row and index entries are new and locked. -/
theorem insert_fits {L : List RowRef} {r : Run} (hcheck : r.check = .ok ())
    (hrefs : r.refs ⊆ L) (hid : ∀ b ∈ s.runs, b.id ≠ r.id)
    (hocc : ∀ k, r.occurrence = some k → ∀ b ∈ s.runs, b.occurrence ≠ some k)
    (hdedup : ∀ k, r.deduplication = some k → ∀ b ∈ s.runs, b.deduplication ≠ some k) :
    Patch.Fits { runs := { insert := [r] } } L s := by
  constructor
  case runsInsert =>
    intro r' hr'
    obtain rfl := List.mem_singleton.mp hr'
    exact ⟨hrefs, hcheck,
      fun b hb => ⟨hid b hb, fun k hk => hocc k hk b hb, fun k hk => hdedup k hk b hb⟩⟩
  all_goals simp [Keyed]

/-- What a store says about the row to insert, another says too if they agree on its entries. -/
theorem agree_insert {L : List RowRef} {C : Store} (hagree : db.Agree L s C) {r : Run}
    (hrefs : r.refs ⊆ L) (hid : ∀ b ∈ s.runs, b.id ≠ r.id)
    (hocc : ∀ k, r.occurrence = some k → ∀ b ∈ s.runs, b.occurrence ≠ some k)
    (hdedup : ∀ k, r.deduplication = some k → ∀ b ∈ s.runs, b.deduplication ≠ some k) :
    (∀ b ∈ C.runs, b.id ≠ r.id) ∧
      (∀ k, r.occurrence = some k → ∀ b ∈ C.runs, b.occurrence ≠ some k) ∧
      ∀ k, r.deduplication = some k → ∀ b ∈ C.runs, b.deduplication ≠ some k := by
  refine ⟨?_, fun k hk => ?_, fun k hk => ?_⟩
  · rw [← lookup_eq_none_iff, agree_run hagree (hrefs List.mem_cons_self), lookup_eq_none_iff]
    exact hid
  · exact agree_occurrence hagree (hrefs (by simp [Run.refs, hk])) (hocc k hk)
  · exact agree_deduplication hagree (hrefs (by simp [Run.refs, hk])) (hdedup k hk)

/-- A new run appears without attempts; every other run stays as it is. -/
theorem onView_insert (hs : Inv s) {r : Run} (hid : ∀ b ∈ s.runs, b.id ≠ r.id) (id : RunId) :
    Patch.onView { runs := { insert := [r] } } id (s.view id) =
      if r.id = id then ⟨some r, []⟩ else s.view id := by
  split_ifs with he
  · subst he
    have hnone : lookup Run.id r.id s.runs = none := lookup_eq_none_iff.mpr hid
    have horphan : (s.view r.id).attempts = [] := (hs.coupled r.id).orphan hnone
    have hl : lookup Run.id r.id [r] = some r := by rw [lookup_cons, if_pos rfl]
    simp [Patch.onView, Store.view_run, hnone, horphan, hl]
  · exact Patch.onView_of_untouched (fun b hb => (Store.mem_view_attempts.mp hb).2) (by simp)
      (by simp) (by simpa using he) (by simp) (by simp)

theorem onView_insert_view (hs : Inv s) {r : Run} (hid : ∀ b ∈ s.runs, b.id ≠ r.id) :
    s.view r.id = ⟨none, []⟩ := by
  have hnone : lookup Run.id r.id s.runs = none := lookup_eq_none_iff.mpr hid
  exact congrArg₂ RunView.mk hnone ((hs.coupled r.id).orphan hnone)

/-- Writing rows that are there already. -/
theorem keep_fits {L : List RowRef} (hs : Inv s) {b : Run} (hb : lookup Run.id b.id s.runs = some b)
    (hL : .run b.id ∈ L) : Patch.Fits { runs := { update := [b] } } L s := by
  constructor
  case runsUpdate =>
    intro r' hr'
    obtain rfl := List.mem_singleton.mp hr'
    refine ⟨hL, hs.runsValid _ (mem_of_lookup hb), fun r₀ hr₀ he => ?_⟩
    obtain rfl : r₀ = r' := eq_of_key hs.runIds hr₀ (mem_of_lookup hb) he
    exact ⟨rfl, rfl⟩
  all_goals simp [Keyed]

theorem onView_keep {b : Run} (hb : lookup Run.id b.id s.runs = some b) (id : RunId) :
    Patch.onView { runs := { update := [b] } } id (s.view id) = s.view id := by
  by_cases he : b.id = id
  · subst he
    have hl : lookup Run.id b.id [b] = some b := by rw [lookup_cons, if_pos rfl]
    simp [Patch.onView, hl, Store.view_run, hb, ← Store.view_eq_some hb]
  · exact Patch.onView_of_untouched (fun b hb => (Store.mem_view_attempts.mp hb).2) (by simp)
      (by simpa using he) (by simp) (by simp) (by simp)

variable {name : JobName} {args : Json} {options : EnqueueOptions}

/-- A conflicting row gets the key that it has. -/
theorem enqueueQuery_ok {w : Patch} {id : RunId}
    (h : (enqueueQuery name args options).run env snap cur = .ok (w, id)) :
    (∃ b ∈ cur.runs, b.deduplication = (enqueuedRun env name args options).deduplication ∧
      b.deduplication.isSome ∧ w = { runs := { update := [b] } } ∧ id = b.id) ∨
    ((enqueuedRun env name args options).check = .ok () ∧
      (∀ b ∈ cur.runs, b.id ≠ env.runId) ∧
      (∀ k, (enqueuedRun env name args options).deduplication = some k →
        ∀ b ∈ cur.runs, b.deduplication ≠ some k) ∧
      w = { runs := { insert := [enqueuedRun env name args options] } } ∧ id = env.runId) := by
  obtain ⟨_, -, h⟩ := bind_eq_ok (mapError_eq_ok.mp h)
  obtain ⟨_, -, h⟩ := bind_eq_ok h
  obtain ⟨_, -, h⟩ := bind_eq_ok h
  obtain ⟨_, -, h⟩ := bind_eq_ok h
  obtain ⟨_, hcheck, h⟩ := bind_eq_ok h
  dsimp only at h
  rcases hc : conflicting Run.deduplication (enqueuedRun env name args options) cur.runs with _ | b
  · rw [hc] at h
    obtain ⟨_, hid, h⟩ := bind_eq_ok h
    obtain ⟨rfl, rfl⟩ := Prod.mk.inj (Except.ok.inj h)
    exact Or.inr ⟨hcheck, checkRunId_eq_ok_iff.mp hid, conflicting_eq_none hc, rfl, rfl⟩
  · rw [hc] at h
    obtain ⟨rfl, rfl⟩ := Prod.mk.inj (Except.ok.inj h)
    obtain ⟨hb, hkey, hsome⟩ := conflicting_eq_some hc
    have hkept : { b with
        deduplicationKey := (enqueuedRun env name args options).deduplicationKey } = b := by
      have hk : b.deduplicationKey = (enqueuedRun env name args options).deduplicationKey := by
        unfold Run.deduplication at hkey hsome
        rcases hbk : b.deduplicationKey with _ | x <;>
          rcases hrk : (enqueuedRun env name args options).deduplicationKey with _ | y <;>
          simp_all
      rw [← hk]
    exact Or.inl ⟨b, hb, hkey, hkey ▸ hsome, by rw [hkept], rfl⟩

theorem enqueue_good {taskName : String}
    {args : Except String Json} : (enqueue taskName args options).Good db Inv Ok
      (Commits Ok (.enqueue taskName args options : Call K)) Consistent [] [] [] s := by
  unfold enqueue
  split
  · exact fun _ h => nomatch h
  · exact fun _ h => nomatch h
  next name json hname =>
  refine good_first (fun _ _ _ _ => query_error) fun C₁ C₂ h₁ h₂ env hOk w id hw => ?_
  have hrest : ∀ C, Inv C → (Prog.stmt notify fun _ => .commit (.ret (.ok id))).Good db Inv Ok
      (Commits Ok (.enqueue taskName (.ok json) options : Call K)) Consistent [] [] [] C := by
    refine fun C _ => good_first (fun _ _ _ _ => query_error) fun _ _ _ _ env _ w b hw => ?_
    obtain ⟨rfl, -⟩ := readQuery_ok hw
    exact good_commit_quiet (Transition.refl Ok _) (fun C => C.apply_empty)
      fun _ _ => consistent_ok _
  obtain ⟨b, hb, -, -, rfl, rfl⟩ | ⟨hcheck, hid, hdedup, rfl, rfl⟩ := enqueueQuery_ok hw
  · refine good_commit (fun _ => rfl) (fun C hC hagree => ?_) hrest
    have hL : .run b.id ∈ (enqueueQuery name json options).acquires db env C₁ C₂
        { runs := { update := [b] } } :=
      mem_acquires_of_locked (mem_locked_run (List.mem_singleton_self b))
    have hl := (agree_run hagree hL).trans (lookup_of_mem h₂.runIds hb)
    refine ⟨keep_fits hC hl hL, Transition.of_runs rfl fun id => ?_⟩
    rw [onView_keep hl]
    exact .same _ _
  · refine good_commit (fun _ => rfl) (fun C hC hagree => ?_) hrest
    have hrefs : (enqueuedRun env name json options).refs ⊆
        (enqueueQuery name json options).acquires db env C₁ C₂
          { runs := { insert := [enqueuedRun env name json options] } } :=
      fun ref href => mem_acquires_of_locked
        (refs_subset_locked_run (List.mem_singleton_self _) href)
    obtain ⟨hid, hocc, hdedup⟩ := agree_insert hagree hrefs hid
      (fun k hk => nomatch hk) hdedup
    refine ⟨insert_fits hcheck hrefs hid hocc hdedup,
      Transition.of_runs rfl fun id => ?_⟩
    rw [onView_insert hC hid]
    split_ifs with he
    · rw [← he, onView_insert_view hC hid]
      exact .enqueued hOk hname rfl
    · exact .same _ _

end Enqueue

end PgTaskScheduler
