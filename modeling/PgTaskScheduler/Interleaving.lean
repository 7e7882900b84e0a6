import PgTaskScheduler.Sessions

/-!
# The transactions of two statements

`finalize_run`, `fail_run` and `renew_lease` update the run row and then the attempt row. Whatever
other sessions do in between, the second statement finds exactly the open attempt of the run that
the first one has locked, and it does not fail.
-/

namespace PgTaskScheduler

open Tables ReadCommitted

variable {K : Croner}

/-! ## The shape of the programs -/

/-- The operations of two statements, with the run and the lease token they carry. -/
inductive Call.Carries : Call K → RunId → LeaseToken → Prop
  | finalizeRun {id token outcome} : Carries (.finalizeRun id token outcome) id token
  | failRun {id token error retryable} : Carries (.failRun id token error retryable) id token
  | renewLease {id token} : Carries (.renewLease id token) id token

variable {id : RunId} {token : LeaseToken} {c : Call K}

/-- What follows the UPDATE of the run `r`: an UPDATE of its attempt that the database accepts, and
a check that it has updated one row. -/
def Continues (token : LeaseToken) (r : Run) (p : Program (Answer K)) : Prop :=
  ∃ (α : Type) (bind : Except DbError Unit) (set : Env → Attempt → Attempt) (detail : String)
    (next : Program α) (f : α → Answer K),
    p = (Prog.stmt (updateOpen token bind set) fun n =>
      if n ≠ 1 then .ret (.error (.invariant detail)) else next).map f ∧
    bind = .ok () ∧ next.Closing ∧ ∀ env a, Mirrors r a → a.check = .ok () →
      (set env a).check = .ok () ∧ (set env a).key = a.key

/-- What follows when the run was not live. -/
def Misses (id : RunId) (p : Program (Answer K)) : Prop :=
  p.Closing ∨ ∃ k, p = .stmt (terminal id) k ∧ ∀ b, (k b).Closing

/-- The first statement, and what follows it. -/
theorem Call.Carries.program_eq (hc : c.Carries id token) :
    ∃ (β : Type) (texts : List String) (set : Env → Run → Run) (read : Run → Except DbError β)
      (k : Option β → Program (Answer K)),
      program K c = .stmt (updateLive id token texts set read) k ∧ Misses id (k none) ∧
      ∀ env r v, r.live env id token → checkAll bindText texts = .ok () →
        (set env r).check = .ok () → read (set env r) = .ok v →
        (set env r).id = r.id ∧ Continues token r (k (some v)) := by
  cases hc with
  | @finalizeRun _ _ outcome =>
    refine ⟨_, _, _, _, _, rfl, Or.inr ⟨_, rfl, fun _ => trivial⟩, fun env r v _ htexts _ _ =>
      ⟨rfl, _, _, _, _, _, _, rfl, htexts, trivial, fun env' a _ ha => ⟨?_, rfl⟩⟩⟩
    exact Attempt.close_check ha _ _ (by cases outcome <;> simp)
  | failRun =>
    refine ⟨_, _, _, _, _, rfl, Or.inr ⟨_, rfl, fun _ => trivial⟩, ?_⟩
    rintro env r ⟨state, t⟩ _ htexts _ _
    refine ⟨rfl, _, _, _, _, _, _, rfl, htexts, ?_, fun env' a _ ha => ⟨?_, rfl⟩⟩
    · cases state <;> trivial
    · exact Attempt.close_check ha _ _ (Or.inr (Or.inl rfl))
  | renewLease =>
    refine ⟨_, _, _, _, _, rfl, Or.inl trivial, fun env r v hr _ hcheck hread => ?_⟩
    obtain ⟨-, -, -, hrange, -, -, -, hstate, -⟩ := Run.check_eq_ok_iff.mp hcheck
    have hv := readTimestamp_eq_ok hread
    have hv' : InRange v.val := hv ▸ hrange _ rfl
    refine ⟨rfl, _, _, _, _, _, _, rfl, if_pos hv', trivial, fun env' a hm ha => ⟨?_, rfl⟩⟩
    refine Attempt.renew_check ha hv' ?_
    simp only [Run.stateCheck, Run.renew, (Run.state_of_live hr).2.1, Run.leaseAfterStart,
      hm.started, Bool.and_eq_true, Option.any_some, decide_eq_true_eq] at hstate
    rw [hv]
    exact hstate.1.1.2

theorem updateLive_texts {β : Type} {env : Env} {snap cur : Store} {texts : List String}
    {set : Env → Run → Run} {read : Run → Except DbError β} {w : Patch} {b : Option β}
    (h : (updateLive id token texts set read).run env snap cur = .ok (w, b)) :
    checkAll bindText texts = .ok () := by
  obtain ⟨⟨⟩, htexts, -⟩ := bind_eq_ok (mapError_eq_ok.mp h)
  exact htexts

/-! ## The stages of a transaction -/

variable {ι : Type} [DecidableEq ι] {y y' : Sessions K ι} {ls : List (ι × Act (Call K) Env)}
  {i : ι} {a : Act (Call K) Env}

/-- The first statement has updated the run `r`, which is still there and locked. -/
def Second (C : Store) (σ : Server K) (id : RunId) (token : LeaseToken) : Prop :=
  ∃ (r r' : Run) (env : Env), lookup Run.id id C.runs = some r ∧ r.live env id token ∧
    .run id ∈ σ.locks ∧ σ.writes = [{ runs := { update := [r'] } }] ∧ Continues token r σ.prog

/-- Where a session is in a transaction of two statements: before the first, between them, or at
`IS_TERMINAL` after a first one that has found nothing; or no statement is left. -/
def Stage (C : Store) (σ : Server K) : Prop := ∀ id token, σ.call.Carries id token →
  (σ.prog = program K σ.call ∧ σ.writes = []) ∨ Second C σ id token ∨
    ((∀ w ∈ σ.writes, w.runs.update = []) ∧ Misses id σ.prog) ∨ σ.prog.Closing

omit [DecidableEq ι] in
/-- **The second statement updates the open attempt of the locked run**, in its snapshot as in the
newest rows, and nothing else. -/
theorem Second.run_eq (hy : Sessions.Sound y) {sn : Store} (hsn : (y.session i).snap = some sn)
    (h : Second y.committed (y.session i) id token) :
    ∃ (bind : Except DbError Unit) (set : Env → Attempt → Attempt) (k : ℕ → Program (Answer K))
      (a : Attempt), (y.session i).prog = .stmt (updateOpen token bind set) k ∧ (k 1).Closing ∧
      a ∈ y.committed.attempts ∧ a.runId = id ∧ a.openWith token ∧ ∀ env,
        (set env a).key = a.key ∧ (updateOpen token bind set).run env
          (db.applyAll (y.session i).writes sn) (db.applyAll (y.session i).writes y.committed) =
            .ok ({ updateAttempts := [set env a] }, 1) := by
  obtain ⟨r, r', env, hl, hlive, hL, hwrites, α, bind, set, detail, next, f, hp, hbind, hnext,
    hset⟩ := h
  obtain ⟨prev, a, hview, hm, hopen⟩ := hy.store.live_run hl hlive
  obtain ⟨hI, hagree⟩ := hy.snap i sn hsn
  have hmem : ∀ {C : Store}, C.view id = y.committed.view id → a ∈ C.attempts ∧ a.runId = id :=
    fun hC => Store.mem_view_attempts.mp (by rw [hC, hview]; simp)
  have hattempts : ∀ C : Store, (db.applyAll (y.session i).writes C).attempts = C.attempts := by
    intro C
    rw [hwrites]
    simp [Store.apply]
  obtain ⟨ha, hid⟩ := hmem rfl
  refine ⟨bind, set, _, a, hp, hnext.map f, ha, hid, hopen, fun env' => ?_⟩
  obtain ⟨hcheck, hkey⟩ := hset env' a hm (hy.store.attemptsValid a ha)
  refine ⟨hkey, updateOpen_of_open ?_ ?_ ?_ hopen hbind hcheck⟩
  · rw [hattempts]
    exact hy.store.tokens
  · rwa [hattempts]
  · rw [hattempts]
    exact (hmem (agree_view hagree hL)).1

omit [DecidableEq ι] in
/-- What a first statement leaves. -/
theorem stage_first (hy : Sessions.Sound y) (hc : (y.session i).call.Carries id token)
    {β : Type} {s : Query β} {k : β → Program (Answer K)} {env : Env} {sn : Store} {w : Patch}
    {b : β} (hp : (y.session i).prog = .stmt s k)
    (hprog : (y.session i).prog = program K (y.session i).call)
    (hwrites : (y.session i).writes = [])
    (hr : s.run env (db.applyAll (y.session i).writes sn)
      (db.applyAll (y.session i).writes y.committed) = .ok (w, b)) {rs : List Store} :
    Second y.committed ⟨(y.session i).call, k b, none, rs, (y.session i).writes ++ [w],
        (y.session i).locks ++ s.acquires db env (db.applyAll (y.session i).writes sn)
          (db.applyAll (y.session i).writes y.committed) w⟩ id token ∨
      w.runs.update = [] ∧ Misses id (k b) := by
  obtain ⟨β', texts, set, read, k', hprogram, hmiss, hcont⟩ := hc.program_eq
  rw [hprog, hprogram] at hp
  cases hp
  simp only [hwrites, Storage.applyAll_nil] at hr ⊢
  obtain ⟨rfl, rfl⟩ | ⟨r, v, hl, hlive, hcheck, hread, rfl, rfl⟩ :=
    updateLive_ok hy.store.runIds hr
  · exact Or.inr ⟨rfl, hmiss⟩
  · obtain ⟨hid, hnext⟩ := hcont env r v hlive (updateLive_texts hr) hcheck hread
    refine Or.inl ⟨r, set env r, env, hl, hlive, List.mem_append_right _ ?_, rfl, hnext⟩
    exact mem_acquires_updateLive (hid.trans (Run.state_of_live hlive).1)

theorem stage_step (hy : Sessions.Sound y) (hs : Sessions.Step y i a y')
    (h : ∀ j, Stage y.committed (y.session j)) : ∀ j, Stage y'.committed (y'.session j) := by
  intro j
  by_cases hj : j = i
  · subst hj
    cases hs with
    | call c hp =>
      rw [System.set_session_self]
      exact fun _ _ _ => Or.inl ⟨rfl, rfl⟩
    | snapshot hp hsn =>
      rw [System.set_session_self]
      exact h j
    | fail env hp hsn hOk hw hr =>
      rw [System.set_session_self]
      exact fun _ _ _ => Or.inr (Or.inr (Or.inr trivial))
    | rollback hp =>
      rw [System.set_session_self]
      exact fun _ _ _ => Or.inr (Or.inr (Or.inr trivial))
    | exec env hp hsn hOk hw hr hl =>
      rw [System.set_session_self]
      intro id token hc
      rcases h j id token hc with ⟨hprog, hwrites⟩ | hsecond | ⟨hempty, hmiss⟩ | hcl
      · rcases stage_first hy hc hp hprog hwrites hr with hsecond | ⟨hempty, hmiss⟩
        · exact Or.inr (Or.inl hsecond)
        · refine Or.inr (Or.inr (Or.inl ⟨?_, hmiss⟩))
          rw [hwrites]
          simpa using hempty
      · obtain ⟨bind, set, k, a, hp', hclosed, -, -, -, hrun⟩ := hsecond.run_eq hy hsn
        cases hp.symm.trans hp'
        obtain ⟨-, rfl⟩ := Prod.mk.inj (Except.ok.inj (hr.symm.trans (hrun env).2))
        exact Or.inr (Or.inr (Or.inr hclosed))
      · rcases hmiss with hcl | ⟨k, hp', hk⟩
        · rw [hp] at hcl
          exact hcl.elim
        · cases hp.symm.trans hp'
          exact Or.inr (Or.inr (Or.inr (hk _)))
      · rw [hp] at hcl
        exact hcl.elim
    | commit hp =>
      simp only [Function.update_self]
      refine fun id token hc => Or.inr (Or.inr (Or.inr ?_))
      rcases h j id token hc with ⟨hprog, -⟩ | hsecond | ⟨-, hcl | ⟨k, hp', -⟩⟩ | hcl
      · obtain ⟨β, texts, set, read, k, hprogram, -⟩ := Call.Carries.program_eq hc
        exact nomatch hp.symm.trans (hprog.trans hprogram)
      · obtain ⟨-, -, -, -, -, -, -, α, bind, set, detail, next, f, hp', -⟩ := hsecond
        exact nomatch hp.symm.trans hp'
      · rw [hp] at hcl
        exact hcl
      · exact nomatch hp.symm.trans hp'
      · rw [hp] at hcl
        exact hcl
  · obtain ⟨hsession, hcommitted⟩ := hy.other_step hj hs
    rw [hsession]
    intro id token hc
    refine (h j id token hc).imp_right fun hrest => hrest.imp_left ?_
    rintro ⟨r, r', env, hl, hlive, hL, hrest⟩
    rcases hcommitted with heq | ⟨-, hagree⟩
    · rw [heq]
      exact ⟨r, r', env, hl, hlive, hL, hrest⟩
    · exact ⟨r, r', env, (agree_run hagree hL).trans hl, hlive, hL, hrest⟩

theorem stage_reached (h : Sessions.Reached ls y) (i : ι) : Stage y.committed (y.session i) := by
  refine (h.invariant (P := fun y => Sessions.Sound y ∧ ∀ i, Stage y.committed (y.session i)) ?_
    fun _ _ _ _ hy _ hs => ⟨sound_step hy.1 hs, stage_step hy.1 hs hy.2⟩).2 i
  exact ⟨sound_initial, fun _ _ _ hc => nomatch hc⟩

/-- **What follows a first statement that has updated the run** updates one attempt, the open one of
the run, and only commits after it. -/
theorem second_reached (h : Sessions.Reached ls y) (hc : (y.session i).call.Carries id token)
    (hw : ∃ w ∈ (y.session i).writes, w.runs.update ≠ []) {β : Type} {s : Query β}
    {k : β → Program (Answer K)} (hp : (y.session i).prog = .stmt s k) {sn : Store}
    (hsn : (y.session i).snap = some sn) :
    ∃ (bind : Except DbError Unit) (set : Env → Attempt → Attempt) (k' : ℕ → Program (Answer K))
      (a : Attempt), (y.session i).prog = .stmt (updateOpen token bind set) k' ∧ (k' 1).Closing ∧
      a ∈ y.committed.attempts ∧ a.runId = id ∧ a.openWith token ∧ ∀ env,
        (set env a).key = a.key ∧ (updateOpen token bind set).run env
          (db.applyAll (y.session i).writes sn) (db.applyAll (y.session i).writes y.committed) =
            .ok ({ updateAttempts := [set env a] }, 1) := by
  obtain ⟨w, hw, hne⟩ := hw
  rcases stage_reached h i id token hc with ⟨-, hwrites⟩ | hsecond | ⟨hempty, -⟩ | hcl
  · rw [hwrites] at hw
    exact nomatch hw
  · exact hsecond.run_eq (sound_reached h) hsn
  · exact absurd (hempty w hw) hne
  · rw [hp] at hcl
    exact hcl.elim

/-! ## The discipline -/

/-- What holds of sessions that interleave their statements. -/
structure Sessions.Disciplined (y : Sessions K ι) : Prop where
  coupling : y.committed.Coupling
  /-- a row is locked by one session -/
  exclusive : ∀ i j, i ≠ j → ∀ ref ∈ (y.session i).locks, ref ∉ (y.session j).locks
  /-- no two open transactions have updated the same run -/
  writers : ∀ i j, i ≠ j → ∀ w ∈ (y.session i).writes, ∀ w' ∈ (y.session j).writes,
    ∀ r ∈ w.runs.update, ∀ r' ∈ w'.runs.update, r.id ≠ r'.id
  /-- after a first statement that has updated the run, the second updates exactly one attempt,
  the open one of the run, and does not fail -/
  second : ∀ i id token, (y.session i).call.Carries id token →
    (∃ w ∈ (y.session i).writes, w.runs.update ≠ []) →
    (∀ env y', ¬ Sessions.Step y i (.fail env) y') ∧
    ∀ env y', Sessions.Step y i (.exec env) y' → ∃ a a', a ∈ y.committed.attempts ∧
      a.runId = id ∧ a.openWith token ∧ a'.key = a.key ∧
      (y'.session i).writes = (y.session i).writes ++ [{ updateAttempts := [a'] }]
  /-- the checks that the code makes of itself do not fail -/
  consistent : ∀ i detail, (y.session i).prog ≠ .ret (.error (.invariant detail))
  /-- a closed attempt stays as it was closed, until its run is deleted -/
  closed : ∀ (ls : List (ι × Act (Call K) Env)) y', Sessions.Run Sessions.Free y ls y' →
    ∀ a ∈ y.committed.attempts, a.isOpen = false → a ∈ y'.committed.attempts ∨
      ∃ ls₁ ls₂ y₁, ls = ls₁ ++ ls₂ ∧ Sessions.Run Sessions.Free y ls₁ y₁ ∧
        lookup Run.id a.runId y₁.committed.runs = none
  /-- a run comes to be running by one claim that finds it pending, and ends that period -/
  claimed : ∀ i act y', Sessions.Step y i act y' → ∀ r' ∈ y'.committed.runs, r'.state = .running →
    (∀ r ∈ y.committed.runs, r.id = r'.id → r.state ≠ .running) →
    ∃ r ∈ y.committed.runs, r.id = r'.id ∧ r.state = .pending ∧
      r'.attemptCount = r.attemptCount + 1 ∧
      ∃ worker names limit, (y.session i).call = .claimBatch worker names limit

/-- Closed attempts over a run of steps. -/
theorem closed_run (h : Sessions.Sound y) (hr : Sessions.Run Sessions.Free y ls y') {b : Attempt}
    (hb : b ∈ y.committed.attempts) (hclosed : b.isOpen = false) :
    b ∈ y'.committed.attempts ∨ ∃ ls₁ ls₂ y₁, ls = ls₁ ++ ls₂ ∧
      Sessions.Run Sessions.Free y ls₁ y₁ ∧ lookup Run.id b.runId y₁.committed.runs = none := by
  induction hr with
  | nil => exact Or.inl hb
  | @snoc ls y₁ j act y₂ hr hG hs ih =>
    rcases ih with hmem | ⟨ls₁, ls₂, y₀, rfl, h₁, hnone⟩
    · refine (closed_step (sound_run h hr) hs hmem hclosed).imp_right fun hnone => ?_
      exact ⟨_, [], y₂, (List.append_nil _).symm, hr.snoc hG hs, hnone⟩
    · exact Or.inr ⟨ls₁, ls₂ ++ [(j, act)], y₀, by simp, h₁, hnone⟩

/-- **Transactions that interleave statement by statement are disciplined.** -/
theorem statement_level_concurrency (h : Sessions.Reached ls y) : y.Disciplined where
  coupling := (sound_reached h).store.coupling
  exclusive := (sound_reached h).exclusive
  writers i j hij w hw w' hw' r hr r' hr' he :=
    (sound_reached h).exclusive i j hij _ (writesLocked_reached h i w hw r hr)
      (he ▸ writesLocked_reached h j w' hw' r' hr')
  second i id token hc hw := by
    refine ⟨fun env y' hs => ?_, fun env y' hs => ?_⟩
    · cases hs with
      | fail _ hp hsn _ _ hr =>
        obtain ⟨bind, set, k', a, hp', -, -, -, -, hrun⟩ := second_reached h hc hw hp hsn
        cases hp.symm.trans hp'
        exact nomatch hr.symm.trans (hrun env).2
    · cases hs with
      | exec _ hp hsn _ _ hr _ =>
        obtain ⟨bind, set, k', a, hp', -, ha, hid, hopen, hrun⟩ := second_reached h hc hw hp hsn
        cases hp.symm.trans hp'
        cases hr.symm.trans (hrun env).2
        exact ⟨a, set env a, ha, hid, hopen, (hrun env).1, by rw [System.set_session_self]⟩
  consistent i detail hp := by
    have hgood := (sound_reached h).good i
    rw [hp] at hgood
    exact hgood detail rfl
  closed ls' y' hr b hb hclosed := closed_run (sound_reached h) hr hb hclosed
  claimed i act y' hs r' hr' hrun hne := by
    have hy := sound_reached h
    have hl' := lookup_of_mem (sound_step hy hs).store.runIds hr'
    obtain ⟨r, worker, names, limit, hl, hpending, hcall, hcount⟩ :=
      (change_step hy hs r'.id).to_running hl' hrun fun r hl =>
        hne r (mem_of_lookup hl) (key_of_lookup hl)
    exact ⟨r, mem_of_lookup hl, key_of_lookup hl, hpending, hcount, worker, names, limit, hcall⟩

/-- A worker is between the two statements of `finalize_run` when a user cancels its task. -/
def finalizing : List (Bool × Act (Call .everySecond) Env) :=
  serve false (mail .standard) [1, 2] ++ serve false claimMail [3] ++
  [(true, .call (.cancel ⟨1⟩)), (true, .snapshot),
    (false, .call (.finalizeRun ⟨1⟩ ⟨3⟩ .completed))] ++ statement false 4

theorem statement_level_concurrency_finalizing : ∃ y : Sessions .everySecond Bool,
    Sessions.Reached finalizing y ∧ y.committed.runs.map Run.state = [.running] ∧
      (y.session false).writes.map (fun w => w.runs.update.map Run.state) = [[.completed]] ∧
      y.Disciplined := by
  have h : (Sessions.play _ _ finalizing).map (fun y => (y.committed.runs.map Run.state,
      (y.session false).writes.map fun w => w.runs.update.map Run.state)) =
        some ([.running], [[.completed]]) := by decide +kernel
  obtain ⟨y, hy, he⟩ := Option.map_eq_some_iff.mp h
  obtain ⟨hruns, hwrites⟩ := Prod.mk.inj he
  exact ⟨y, play_reached hy, hruns, hwrites, statement_level_concurrency (play_reached hy)⟩

end PgTaskScheduler
