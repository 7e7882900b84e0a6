import PgTaskScheduler.Transition

/-!
# `finalize_run`, `fail_run` and `renew_lease` refine the lifecycle

The first statement locks the run row. Until the transaction ends nobody else changes that run or
its attempts, so the second statement finds the open attempt that the run row mirrors, in its
snapshot and in the newest rows, and no other attempt with that token.
-/

namespace PgTaskScheduler

open Tables ReadCommitted

variable {K : Croner} {env : Env} {snap cur : Store} {w : Patch} {id : RunId} {token : LeaseToken}

/-! ## The two kinds of statements -/

/-- The UPDATE of the run row finds no live run, or the one with the given id. -/
theorem updateLive_ok {β : Type} {texts : List String} {set : Env → Run → Run}
    {read : Run → Except DbError β} {b : Option β} (hk : Keyed Run.id cur.runs)
    (h : (updateLive id token texts set read).run env snap cur = .ok (w, b)) :
    w = {} ∧ b = none ∨ ∃ r v, lookup Run.id id cur.runs = some r ∧ r.live env id token ∧
      (set env r).check = .ok () ∧ read (set env r) = .ok v ∧
      w = { runs := { update := [set env r] } } ∧ b = some v := by
  obtain ⟨_, -, h⟩ := bind_eq_ok (mapError_eq_ok.mp h)
  obtain ⟨_, hcheck, h⟩ := bind_eq_ok h
  have hone := eq_nil_or_singleton (@Keyed.targets _ _ _ _ (·.live env id token) snap.runs _ hk)
    fun a ha => (Run.state_of_live (mem_targets.mp ha).2.1).1
  rcases hone with hnil | ⟨r, hr⟩
  · rw [hnil] at h
    obtain ⟨rfl, rfl⟩ := Prod.mk.inj (Except.ok.inj h)
    exact Or.inl ⟨rfl, rfl⟩
  · right
    rw [hr] at h hcheck
    obtain ⟨v, hv, h⟩ := bind_eq_ok h
    obtain ⟨rfl, rfl⟩ := Prod.mk.inj (Except.ok.inj h)
    obtain ⟨hmem, hlive, -⟩ := mem_targets.mp (hr ▸ List.mem_singleton_self r)
    refine ⟨r, v, ?_, hlive, checkAll_eq_ok_iff.mp hcheck _ (by simp), hv, rfl, rfl⟩
    exact (lookup_eq_some_iff hk).mpr ⟨hmem, (Run.state_of_live hlive).1⟩

/-- A token leads to one open attempt. -/
theorem targets_openWith {a : Attempt} (hk : Keyed Attempt.leaseToken cur.attempts)
    (ha : a ∈ cur.attempts) (hsnap : a ∈ snap.attempts) (hopen : a.openWith token) :
    targets Attempt.key (·.openWith token) snap.attempts cur.attempts = [a] := by
  have htoken : ∀ b : Attempt, b.openWith token → b.leaseToken = token := fun b hb => by
    simp only [Attempt.openWith, Bool.and_eq_true, decide_eq_true_eq] at hb
    exact hb.1
  refine filter_eq_singleton hk ha ?_ fun b _ hb => ?_
  · simp only [Bool.and_eq_true, List.any_eq_true, decide_eq_true_eq]
    exact ⟨hopen, a, hsnap, rfl, hopen⟩
  · rw [htoken b (Bool.and_eq_true_iff.mp hb).1, htoken a hopen]

/-- The UPDATE of the attempt row touches the one open attempt with the token. -/
theorem updateOpen_ok {bind : Except DbError Unit} {set : Env → Attempt → Attempt} {n : ℕ}
    {a : Attempt} (hk : Keyed Attempt.leaseToken cur.attempts) (ha : a ∈ cur.attempts)
    (hsnap : a ∈ snap.attempts) (hopen : a.openWith token)
    (h : (updateOpen token bind set).run env snap cur = .ok (w, n)) :
    w = { updateAttempts := [set env a] } ∧ n = 1 ∧ (set env a).check = .ok () := by
  obtain ⟨_, -, h⟩ := bind_eq_ok (mapError_eq_ok.mp h)
  obtain ⟨_, hcheck, h⟩ := bind_eq_ok h
  rw [targets_openWith hk ha hsnap hopen] at h hcheck
  obtain ⟨rfl, rfl⟩ := Prod.mk.inj (Except.ok.inj h)
  exact ⟨rfl, rfl, checkAll_eq_ok_iff.mp hcheck _ (by simp)⟩

/-! ## The transaction -/

/-- What the first statement has found, on any store that agrees with it on the locked run. -/
theorem Inv.live_run {s : Store} (h : Inv s) {r : Run} (hl : lookup Run.id id s.runs = some r)
    (hr : r.live env id token) :
    ∃ prev a, s.view id = ⟨some r, prev ++ [a]⟩ ∧ Mirrors r a ∧ a.openWith token := by
  obtain ⟨hid, hrun, htoken⟩ := Run.state_of_live hr
  obtain ⟨prev, a, hview, -, hm, -, -⟩ := h.exists_open (mem_of_lookup hl) hrun
  rw [hid] at hview
  have hat : a.leaseToken = token := Option.some.inj (hm.token.symm.trans htoken)
  exact ⟨prev, a, hview, hm, by simp [Attempt.openWith, hat, hm.isOpen]⟩

/-- A live run and its open attempt rewritten together: the writes of one transaction. -/
theorem fits_rewrite {s : Store} {L : List RowRef} {r r' : Run} {prev : List Attempt}
    {a a' : Attempt} (hs : Inv s) (hview : s.view id = ⟨some r, prev ++ [a]⟩)
    (hL : .run id ∈ L) (hr : r'.check = .ok ()) (ha : a'.check = .ok ())
    (hrow : r'.id = r.id ∧ r'.occurrence = r.occurrence ∧ r'.deduplication = r.deduplication)
    (hattempt : a'.key = a.key ∧ a'.leaseToken = a.leaseToken) :
    Patch.Fits { runs := { update := [r'] }, updateAttempts := [a'] } L s := by
  have hl : lookup Run.id id s.runs = some r := congrArg RunView.run hview
  have hid : r.id = id := key_of_lookup hl
  have hmem : a ∈ s.attempts ∧ a.runId = id :=
    Store.mem_view_attempts.mp (by rw [hview]; simp)
  have hkeyed : Keyed Attempt.key (s.view id).attempts := (hs.coupled id).keyed
  constructor
  case runsUpdate =>
    intro r'' hr''
    obtain rfl := List.mem_singleton.mp hr''
    refine ⟨by rw [hrow.1, hid]; exact hL, hr, fun r₀ hr₀ he => ?_⟩
    obtain rfl : r₀ = r := eq_of_key hs.runIds hr₀ (mem_of_lookup hl) (he.trans hrow.1)
    exact hrow.2
  case attemptsUpdate =>
    intro a'' ha''
    obtain rfl := List.mem_singleton.mp ha''
    have hrun : a''.runId = id := (congrArg Prod.fst hattempt.1).trans hmem.2
    refine ⟨by rw [hrun]; exact hL, ha, fun a₀ ha₀ he => ?_⟩
    have hrun₀ : a₀.runId = id := (congrArg Prod.fst he).trans hrun
    have ha₀' : a₀ ∈ (s.view id).attempts := Store.mem_view_attempts.mpr ⟨ha₀, hrun₀⟩
    have ha' : a ∈ (s.view id).attempts := Store.mem_view_attempts.mpr hmem
    rw [eq_of_key hkeyed ha₀' ha' (he.trans hattempt.1)]
    exact hattempt.2
  all_goals simp [Keyed]

/-- The two writes of a transaction are one patch. -/
theorem applyAll_rewrite (r : Run) (a : Attempt) (C : Store) :
    db.applyAll [{ runs := { update := [r] } }, { updateAttempts := [a] }] C =
      C.apply { runs := { update := [r] }, updateAttempts := [a] } := by
  simp [Storage.applyAll, Store.apply]

/-- A run and its last attempt rewritten; every other run stays as it is. -/
theorem onView_rewritten {C : Store} {r r' : Run} {prev : List Attempt} {a a' : Attempt}
    (hC : Inv C) (hview : C.view id = ⟨some r, prev ++ [a]⟩) (hrow : r'.id = r.id)
    (hkey : a'.key = a.key) (id' : RunId) :
    Patch.onView { runs := { update := [r'] }, updateAttempts := [a'] } id' (C.view id') =
      if id' = id then ⟨some r', prev ++ [a']⟩ else C.view id' := by
  have hid : r.id = id := key_of_lookup (congrArg RunView.run hview)
  have harun : a'.runId = id := by
    refine (congrArg Prod.fst hkey).trans (Store.mem_view_attempts (s := C).mp ?_).2
    rw [hview]
    simp
  split_ifs with hne
  · subst hne
    rw [@Patch.onView_rewrite _ _ _ r r' _ a a' (hC.coupled id') hview
      (fun b hb => (Store.mem_view_attempts.mp hb).2) (by simp) rfl
      (by simp [lookup_cons, hrow, hid]) (List.mem_singleton_self a') hkey (by simp)]
  · rw [Patch.onView_of_untouched (fun b hb => (Store.mem_view_attempts.mp hb).2) (by simp)]
    · intro r'' hr''
      rw [List.mem_singleton.mp hr'', hrow, hid]
      exact Ne.symm hne
    · simp
    · intro a'' ha''
      rw [List.mem_singleton.mp ha'', harun]
      exact Ne.symm hne
    · simp

section Good

variable {Ok : Env → Prop} {c : Call K} {α : Type} {L : List RowRef} {s : Store}

/-- Committing the rewritten run and attempt. -/
theorem good_commit_rewrite {r r' : Run} {prev : List Attempt} {a a' : Attempt} (x : α)
    (hview : s.view id = ⟨some r, prev ++ [a]⟩) (hL : .run id ∈ L) (hr : r'.check = .ok ())
    (ha : a'.check = .ok ())
    (hrow : r'.id = r.id ∧ r'.occurrence = r.occurrence ∧ r'.deduplication = r.deduplication)
    (hattempt : a'.key = a.key ∧ a'.leaseToken = a.leaseToken)
    (hchange : Change Ok c ⟨some r, prev ++ [a]⟩ ⟨some r', prev ++ [a']⟩) :
    (Prog.commit (.ret (.ok x))).Good db Inv Ok (Commits Ok c) Consistent
      rs [{ runs := { update := [r'] } }, { updateAttempts := [a'] }] L s := by
  refine good_commit (applyAll_rewrite r' a') (fun C hC hagree => ?_) fun C _ => consistent_ok x
  have hview' : C.view id = ⟨some r, prev ++ [a]⟩ := (agree_view hagree hL).trans hview
  refine ⟨fits_rewrite hC hview' hL hr ha hrow hattempt, Transition.of_runs rfl fun id' => ?_⟩
  rw [onView_rewritten hC hview' hrow.1 hattempt.1]
  split_ifs with he
  · rw [he, hview']
    exact hchange
  · exact .same _ _

/-- The second statement updates exactly one attempt, the one that the locked run mirrors. -/
theorem good_second {bind : Except DbError Unit} {set : Env → Attempt → Attempt} {r r' : Run}
    {prev : List Attempt} {a : Attempt} {detail : String} {next : Program α}
    (hview : s.view id = ⟨some r, prev ++ [a]⟩) (hL : .run id ∈ L) (ha : a.openWith token)
    (hnext : ∀ env C rs L', Ok env → C.view id = ⟨some r, prev ++ [a]⟩ → .run id ∈ L' →
      (set env a).check = .ok () → next.Good db Inv Ok (Commits Ok c) Consistent
        rs [{ runs := { update := [r'] } }, { updateAttempts := [set env a] }] L' C) :
    (Prog.stmt (updateOpen token bind set) fun n =>
      if n ≠ 1 then .ret (.error (.invariant detail)) else next).Good db Inv Ok (Commits Ok c)
      Consistent rs [{ runs := { update := [r'] } }] L s := by
  refine good_next (fun _ _ _ _ => query_error)
    fun C₁ C₂ h₁ hagree₁ h₂ hagree₂ env hOk w n hw => ?_
  have hmem : ∀ {C : Store}, db.Agree L s C → a ∈ C.attempts := fun {C} hC => by
    refine (@Store.mem_view_attempts C id a |>.mp ?_).1
    rw [agree_view hC hL, hview]
    simp
  have hattempts : ∀ C : Store, (C.apply { runs := { update := [r'] } }).attempts = C.attempts :=
    fun C => by simp [Store.apply]
  obtain ⟨rfl, rfl, hcheck⟩ := updateOpen_ok (a := a)
    ((hattempts C₂).symm ▸ h₂.tokens : Keyed Attempt.leaseToken (C₂.apply _).attempts)
    ((hattempts C₂).symm ▸ hmem hagree₂ : a ∈ (C₂.apply _).attempts)
    ((hattempts C₁).symm ▸ hmem hagree₁ : a ∈ (C₁.apply _).attempts) ha hw
  exact hnext env C₂ _ _ hOk ((agree_view hagree₂ hL).trans hview) (List.mem_append_left _ hL)
    hcheck

/-- Answering after `IS_TERMINAL` when nothing was written. -/
theorem good_terminal {answer : Bool → α} {ws : List Patch} (hws : ∀ C, db.applyAll ws C = C) :
    (Prog.stmt (terminal id) fun t => .commit (.ret (.ok (answer t)))).Good db Inv Ok
      (Commits Ok c) Consistent rs ws L s := by
  refine good_next (fun _ _ _ _ => query_error) fun C₁ C₂ _ _ _ _ env _ w b hw => ?_
  obtain ⟨rfl, -⟩ := readQuery_ok hw
  refine good_commit_quiet (Transition.refl Ok _) (fun C => ?_) fun C _ => consistent_ok _
  rw [Storage.applyAll_snoc, hws, db_apply, Store.apply_empty]

/-- The UPDATE of the live run locks it. -/
theorem mem_acquires_updateLive {β : Type} {texts : List String} {set : Env → Run → Run}
    {read : Run → Except DbError β} {C₁ C₂ : Store} {r' : Run} (hid : r'.id = id) :
    .run id ∈ (updateLive id token texts set read).acquires db env C₁ C₂
      { runs := { update := [r'] } } := by
  rw [← hid]
  exact mem_acquires_of_locked (mem_locked_run (List.mem_singleton_self r'))

/-! ## The three operations -/

theorem finalizeRun_good {outcome : Outcome} : (finalizeRun id token outcome).Good db Inv Ok
    (Commits Ok (.finalizeRun id token outcome : Call K)) Consistent [] [] [] s := by
  refine good_first (fun _ _ _ _ => query_error) fun C₁ C₂ h₁ h₂ env hOk w b hw => ?_
  obtain ⟨rfl, rfl⟩ | ⟨r, v, hl, hlive, hcheck, -, rfl, rfl⟩ := updateLive_ok h₂.runIds hw
  · exact good_terminal fun C => C.apply_empty
  · obtain ⟨prev, a, hview, hm, ha⟩ := h₂.live_run hl hlive
    refine good_second hview (mem_acquires_updateLive (Run.state_of_live hlive).1) ha
      fun env' C rs L' hOk' hview' hL hcheck' => ?_
    exact good_commit_rewrite _ hview' hL hcheck hcheck'
      ⟨rfl, rfl, rfl⟩ ⟨rfl, rfl⟩ (.finalized hOk hOk' hlive ha)

theorem failRun_good {error : String} {retryable : Bool} :
    (failRun id token error retryable).Good db Inv Ok
      (Commits Ok (.failRun id token error retryable : Call K)) Consistent [] [] [] s := by
  refine good_first (fun _ _ _ _ => query_error) fun C₁ C₂ h₁ h₂ env hOk w b hw => ?_
  obtain ⟨rfl, rfl⟩ | ⟨r, ⟨state, t⟩, hl, hlive, hcheck, hread, rfl, rfl⟩ :=
    updateLive_ok h₂.runIds hw
  · exact good_terminal fun C => C.apply_empty
  · obtain ⟨prev, a, hview, hm, ha⟩ := h₂.live_run hl hlive
    refine good_second hview (mem_acquires_updateLive (Run.state_of_live hlive).1) ha
      fun env' C rs L' hOk' hview' hL hcheck' => ?_
    have hcommit : ∀ x : FailureOutcome, (Prog.commit (.ret (.ok x))).Good db Inv Ok
        (Commits Ok (.failRun id token error retryable : Call K)) Consistent rs _ _ C :=
      fun x => good_commit_rewrite x hview' hL hcheck hcheck'
        ⟨rfl, rfl, rfl⟩ ⟨rfl, rfl⟩ (.failed hOk hOk' hlive ha)
    -- `FAIL` sets no other state than these two
    obtain rfl | rfl : state = .pending ∨ state = .failed := by
      obtain ⟨t', -, ht⟩ := bind_eq_ok (x := readTimestamp (r.fail env retryable error).availableAt)
        (f := fun t => .ok ((r.fail env retryable error).state, t)) hread
      obtain ⟨rfl, -⟩ := Prod.mk.inj (Except.ok.inj ht)
      unfold Run.fail
      dsimp only
      split_ifs
      · exact Or.inl rfl
      · exact Or.inr rfl
    · exact hcommit _
    · exact hcommit _

theorem renewLease_good : (renewLease id token).Good db Inv Ok
    (Commits Ok (.renewLease id token : Call K)) Consistent [] [] [] s := by
  refine good_first (fun _ _ _ _ => query_error) fun C₁ C₂ h₁ h₂ env hOk w b hw => ?_
  obtain ⟨rfl, rfl⟩ | ⟨r, v, hl, hlive, hcheck, hread, rfl, rfl⟩ := updateLive_ok h₂.runIds hw
  · exact good_commit_quiet (Transition.refl Ok _) (fun C => C.apply_empty)
      fun C _ => consistent_ok _
  · obtain ⟨prev, a, hview, hm, ha⟩ := h₂.live_run hl hlive
    have hv : v.val = env.clock .leaseExpiresAt r.id + r.leaseDuration.micros :=
      readTimestamp_eq_ok hread
    refine good_second hview (mem_acquires_updateLive (Run.state_of_live hlive).1) ha
      fun env' C rs L' hOk' hview' hL hcheck' => ?_
    rw [hv] at hcheck' ⊢
    exact good_commit_rewrite _ hview' hL hcheck hcheck'
      ⟨rfl, rfl, rfl⟩ ⟨rfl, rfl⟩ (.renewed hOk hlive ha)

end Good

end PgTaskScheduler
