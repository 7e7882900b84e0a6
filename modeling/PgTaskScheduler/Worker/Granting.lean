import PgTaskScheduler.Selection
import PgTaskScheduler.Worker.Fleet

/-!
# Where a dispatch comes from

A worker dispatches what `claim_batch` has answered, and `claim_batch` answers only after its
commit. So for every task of a fleet the store has once held the attempt that it works on, claimed
for the worker of the task and still open.
-/

namespace PgTaskScheduler

open Tables ReadCommitted

variable {K : Croner} {F ι ω : Type}

/-! ## Claims that are answered -/

/-- The store holds the attempt that `c` is about, just claimed for `worker`. -/
structure ClaimedRun.Begun (c : ClaimedRun) (worker : WorkerId) (s : Store) : Prop where
  run : ∃ r ∈ s.runs, c.Reads r ∧ r.state = .running ∧ r.workerId = some worker.value
  attempt : ∃ a ∈ s.attempts, a.runId = c.runId ∧ a.attemptNumber = c.attempt ∧
    a.leaseToken = c.leaseToken ∧ a.workerId = worker.value ∧ a.isOpen = true

/-- A claim that commits begins what it answers: the next attempts of the runs. -/
theorem begun_claimPatch {s : Store} {env : Env} {worker : WorkerId} {candidates : List Run}
    {claimed : List ClaimedRun} (hkeyed : Keyed Run.id candidates)
    (hrows : ∀ r ∈ candidates, lookup Run.id r.id s.runs = some r)
    (hdecoded : decodeClaimed (claimedRows env worker candidates) = .ok claimed) {c : ClaimedRun}
    (hc : c ∈ claimed) : c.Begun worker (s.apply (claimPatch env worker candidates)) ∧
      ∀ r, lookup Run.id c.runId s.runs = some r → (c.attempt : ℤ) = r.attemptCount + 1 := by
  obtain ⟨r', hr', hreads⟩ := exists_of_mem_forall₂ (decodeClaimed_reads hdecoded) c hc
  obtain ⟨r, hr, rfl⟩ := mem_claimedRows.mp hr'
  have hview : (s.apply (claimPatch env worker candidates)).view r.id =
      ⟨some (r.claim env worker), (s.view r.id).attempts ++ [r.claimAttempt env worker]⟩ :=
    claimed_view hkeyed hrows hr
  have hmem : r.claimAttempt env worker ∈
      ((s.apply (claimPatch env worker candidates)).view r.id).attempts := by
    rw [hview]
    exact List.mem_append_right _ (List.mem_singleton_self _)
  refine ⟨⟨⟨_, mem_of_lookup (congrArg RunView.run hview), hreads, rfl, rfl⟩,
    ⟨_, (Store.mem_view_attempts.mp hmem).1, hreads.runId.symm, hreads.attempt.symm, ?_, rfl, rfl⟩⟩,
    fun r' hr' => ?_⟩
  · exact Option.some.inj hreads.token
  · rw [hreads.runId] at hr'
    obtain rfl := Option.some.inj ((hrows r hr).symm.trans hr')
    exact hreads.attempt

section Sessions

variable [DecidableEq ι] {y y' : Sessions K ι} {i j : ι} {a : Act (Call K) Env}
  {worker : WorkerId} {names : List String} {limit : NonZeroUsize} {runs : List ClaimedRun}

/-- **`claim_batch` answers after its commit**: a new answer is about attempts that the store holds
now and did not hold before. -/
theorem claimed_step (hclaiming : ∀ i, Claiming y.committed (y.session i))
    (hs : Sessions.Step y i a y') (hc : (y'.session j).call = .claimBatch worker names limit)
    (hp : (y'.session j).prog = .ret (.ok (.claimed runs))) :
    (y.session j).call = .claimBatch worker names limit ∧
        (y.session j).prog = .ret (.ok (.claimed runs)) ∨
      j = i ∧ (runs.map ClaimedRun.runId).Nodup ∧ ∀ c ∈ runs, c.Begun worker y'.committed ∧
        ∀ r, lookup Run.id c.runId y.committed.runs = some r →
          (c.attempt : ℤ) = r.attemptCount + 1 := by
  by_cases hj : j = i
  case neg =>
    left
    cases hs with
    | commit hp' =>
      simp only [Function.update_of_ne hj] at hc hp
      exact ⟨hc, hp⟩
    | _ =>
      rw [System.set_session_of_ne _ hj] at hc hp
      exact ⟨hc, hp⟩
  subst hj
  cases hs with
  | call c hp' =>
    rw [System.set_session_self] at hc hp
    have hc : c = .claimBatch worker names limit := hc
    have hp : program K c = .ret (.ok (.claimed runs)) := hp
    rw [hc, program_claimBatch] at hp
    split_ifs at hp
    exact absurd hp (by simp)
  | snapshot hp' =>
    rw [System.set_session_self] at hc hp
    exact absurd (hp'.symm.trans hp) (by simp)
  | @exec env sn β s k w b hp' =>
    rw [System.set_session_self] at hc hp
    -- the statement is followed by the commit
    cases hclaiming j worker names limit hc with
    | called hcalled =>
      rw [program_claimBatch] at hcalled
      split_ifs at hcalled
      · exact absurd (hp'.symm.trans hcalled) (by simp)
      · cases hp'.symm.trans hcalled
        exact absurd hp (by simp)
    | claiming hp'' => exact absurd (hp'.symm.trans hp'') (by simp)
    | answered hp'' => exact absurd (hp'.symm.trans hp'') (by simp)
  | fail env hp' =>
    rw [System.set_session_self] at hp
    exact absurd hp (by simp [Session.start])
  | @commit k hp' =>
    right
    simp only [Function.update_self] at hc hp
    have hc : (y.session j).call = .claimBatch worker names limit := hc
    have hp : k = .ret (.ok (.claimed runs)) := hp
    cases hclaiming j worker names limit hc with
    | called hcalled =>
      rw [program_claimBatch] at hcalled
      split_ifs at hcalled <;> exact absurd (hp'.symm.trans hcalled) (by simp)
    | @claiming env candidates hcommit hw hkeyed hrows =>
      have hk := Prog.commit.inj (hp'.symm.trans hcommit)
      obtain ⟨decoded, hdecoded, he⟩ := bind_eq_ok (Prog.ret.inj (hp.symm.trans hk)).symm
      obtain rfl : decoded = runs := by simpa using he
      have hl : ∀ r ∈ candidates, lookup Run.id r.id y.committed.runs = some r :=
        fun r hr => (hrows r hr).2.1
      refine ⟨rfl, (lists_claimed hkeyed hl hdecoded).once, fun c hmem => ?_⟩
      show c.Begun worker (db.applyAll (y.session j).writes y.committed) ∧ _
      rw [hw]
      exact begun_claimPatch hkeyed hl hdecoded hmem
    | answered hp'' => exact absurd (hp'.symm.trans hp'') (by simp)
  | rollback hp' =>
    left
    rw [System.set_session_self] at hc hp
    exact ⟨hc, hp'.trans hp⟩

end Sessions

namespace Fleet

variable [DecidableEq ι] [DecidableEq ω] {sch : ω → Scheduler F} {G : Label K ι ω → Prop}
  {f f' : Fleet K ι ω} {l : Label K ι ω} {ls : List (Label K ι ω)} {worker : WorkerId}
  {c : ClaimedRun}

/-- Before the fleet came to `f` by `ls`, the store has held the attempt of `c`, just claimed. -/
def Granted (sch : ω → Scheduler F) (G : Label K ι ω → Prop) (ls : List (Label K ι ω))
    (f : Fleet K ι ω) (worker : WorkerId) (c : ClaimedRun) : Prop :=
  ∃ pre post f₁, ls = pre ++ post ∧ Reached sch G pre f₁ ∧ Run sch G f₁ post f ∧
    c.Begun worker f₁.sessions.committed

theorem Granted.snoc (h : Granted sch G ls f worker c) (hG : G l) (hs : f.Step sch l f') :
    Granted sch G (ls ++ [l]) f' worker c := by
  obtain ⟨pre, post, f₁, rfl, hpre, hpost, hbegun⟩ := h
  exact ⟨pre, post ++ [l], f₁, List.append_assoc .., hpre, hpost.snoc hG hs, hbegun⟩

theorem Reached.snoc (h : Reached sch G ls f) (hG : G l) (hs : f.Step sch l f') :
    Reached sch G (ls ++ [l]) f' := by
  obtain ⟨f₀, h₀, hr⟩ := h
  exact ⟨f₀, h₀, hr.snoc hG hs⟩

/-- What is answered and what is handed to a worker has been claimed before. -/
structure Granting (sch : ω → Scheduler F) (G : Label K ι ω → Prop) (ls : List (Label K ι ω))
    (f : Fleet K ι ω) : Prop where
  claiming : ∀ i, Claiming f.sessions.committed (f.sessions.session i)
  answered : ∀ i worker names limit runs,
    (f.sessions.session i).call = .claimBatch worker names limit →
    (f.sessions.session i).prog = .ret (.ok (.claimed runs)) →
    ∀ c ∈ runs, Granted sch G ls f worker c
  received : ∀ v, ∀ c ∈ (workerEvents v ls).flatMap WorkerEvent.received,
    Granted sch G ls f (sch v).config.workerId c

theorem Step.claiming (h : Sound sch f)
    (hclaiming : ∀ i, Claiming f.sessions.committed (f.sessions.session i)) (hs : f.Step sch l f') :
    ∀ i, Claiming f'.sessions.committed (f'.sessions.session i) := by
  have hstep : ∀ {i a y}, Sessions.Step f.sessions i a y →
      ∀ j, Claiming y.committed (y.session j) := fun hs =>
    claiming_stable.step h.sessions hclaiming hs (sound_step h.sessions hs)
  cases hs with
  | database _ hs => exact hstep hs
  | call _ hs => exact hstep hs
  | request _ _ _ hs => exact hstep hs
  | @abandoned i e =>
    intro j
    show Claiming f.sessions.committed ((f.sessions.abort i e).session j)
    unfold Sessions.abort
    by_cases hj : j = i
    · subst hj
      rw [System.set_session_self]
      exact claiming_stable.answered _ _ _
    · rw [System.set_session_of_ne _ hj]
      exact hclaiming j
  | _ => exact hclaiming

theorem Step.answered (h : Granting sch G ls f) (hr : Reached sch G ls f) (hG : G l)
    (hs : f.Step sch l f') {i : ι} {names : List String} {limit : NonZeroUsize}
    {runs : List ClaimedRun} (hc : (f'.sessions.session i).call = .claimBatch worker names limit)
    (hp : (f'.sessions.session i).prog = .ret (.ok (.claimed runs))) :
    ∀ c ∈ runs, Granted sch G (ls ++ [l]) f' worker c := by
  have hsame : (f.sessions.session i).call = .claimBatch worker names limit →
      (f.sessions.session i).prog = .ret (.ok (.claimed runs)) →
      ∀ c ∈ runs, Granted sch G (ls ++ [l]) f' worker c := fun hc hp c hmem =>
    (h.answered i worker names limit runs hc hp c hmem).snoc hG hs
  have hstep : ∀ {j a y}, Sessions.Step f.sessions j a y → f'.sessions = y →
      ∀ c ∈ runs, Granted sch G (ls ++ [l]) f' worker c := by
    rintro j a y hy rfl
    rcases claimed_step h.claiming hy hc hp with ⟨hc, hp⟩ | ⟨-, -, hnew⟩
    · exact hsame hc hp
    · exact fun c hmem => ⟨ls ++ [l], [], f', (List.append_nil _).symm, hr.snoc hG hs, .nil,
        (hnew c hmem).1⟩
  cases id hs with
  | database _ hy => exact hstep hy rfl
  | call _ hy => exact hstep hy rfl
  | request _ _ _ hy => exact hstep hy rfl
  | @abandoned j e =>
    have hp : ((f.sessions.abort j e).session i).prog = .ret (.ok (.claimed runs)) := hp
    have hc : ((f.sessions.abort j e).session i).call = .claimBatch worker names limit := hc
    unfold Sessions.abort at hc hp
    by_cases hi : i = j
    · subst hi
      rw [System.set_session_self] at hp
      exact absurd hp (by simp [Session.start])
    · rw [System.set_session_of_ne _ hi] at hc hp
      exact hsame hc hp
  | _ => exact hsame hc hp

omit [DecidableEq ι] [DecidableEq ω] in
/-- A session that answers claimed runs to the loop of a worker serves its claim. -/
theorem Sound.claim_of_reply (h : Sound sch f) {c : Client ω} {i : ι} (hlent : f.lent i = some c)
    (htask : c.task = none) {runs : List ClaimedRun} {w : Worker}
    (hn : (f.worker c.worker).next (sch c.worker) (.reply (.ok (.claimed runs)) : WorkerEvent K) =
      some w) : ∃ limit, (f.sessions.session i).call =
        .claimBatch (sch c.worker).config.workerId (sch c.worker).registry.names limit := by
  have hwaits := h.waits i c hlent
  rw [htask] at hwaits
  have hcall := hwaits.resolve_right id
  cases Worker.step_of_next hn with
  | answered hphase =>
    rcases hphase with ⟨-, n, he⟩ | ⟨-, s, he⟩ <;> exact absurd he (by simp)
  | @claimed limit _ hphase =>
    have houtstanding : (f.worker c.worker).outstanding (sch c.worker) =
        some (Call.claimBatch (K := K) (sch c.worker).config.workerId
          (sch c.worker).registry.names limit) := by
      simp [Worker.outstanding, hphase]
    exact ⟨limit, Option.some.inj (hcall.symm.trans houtstanding)⟩

/-- What a step hands to a worker, a session has answered to the claim of this worker. -/
theorem Step.received (h : Sound sch f) (hs : f.Step sch l f') {v : ω} {ev : WorkerEvent K}
    (hev : l.event = some (v, ev)) {c : ClaimedRun} (hc : c ∈ ev.received) :
    ∃ i names limit runs, c ∈ runs ∧
      (f.sessions.session i).call = .claimBatch (sch v).config.workerId names limit ∧
      (f.sessions.session i).prog = .ret (.ok (.claimed runs)) := by
  cases hs with
  | database | call | released | abandoned => exact absurd hev (by simp [Label.event])
  | @worker u ev' w hinternal =>
    obtain ⟨rfl, rfl⟩ := Prod.mk.inj (Option.some.inj hev)
    cases ev' with
    | reply x => exact hinternal.elim
    | _ => exact absurd hc List.not_mem_nil
  | @request c' =>
    obtain ⟨rfl, rfl⟩ := Prod.mk.inj (Option.some.inj hev)
    unfold Client.request at hc
    rcases htask : c'.task with _ | n <;> rw [htask] at hc <;> exact absurd hc List.not_mem_nil
  | @broken c' =>
    obtain ⟨rfl, rfl⟩ := Prod.mk.inj (Option.some.inj hev)
    unfold Client.reply at hc
    rcases htask : c'.task with _ | n <;> rw [htask] at hc <;> exact absurd hc List.not_mem_nil
  | @reply c' i x now w hlent hp hn =>
    obtain ⟨rfl, rfl⟩ := Prod.mk.inj (Option.some.inj hev)
    unfold Client.reply at hc hn
    rcases htask : c'.task with _ | n <;> rw [htask] at hc hn
    · rcases x with e | a
      · exact absurd hc List.not_mem_nil
      cases a with
      | claimed runs =>
        obtain ⟨limit, hcall⟩ := h.claim_of_reply hlent htask hn
        exact ⟨i, _, limit, runs, hc, hcall, hp⟩
      | _ => exact absurd hc List.not_mem_nil
    · exact absurd hc List.not_mem_nil

theorem granting_reached (h : Reached sch G ls f) : Granting sch G ls f := by
  refine h.history (P := fun ls f => Granting sch G ls f) (fun f₀ h₀ => ?_)
    fun ls f l f' hr ih hG hs => ?_
  · refine ⟨?_, ?_, fun v c hc => absurd hc List.not_mem_nil⟩ <;> rw [h₀.sessions]
    · exact fun i => claiming_stable.answered _ _ _
    · exact fun i _ _ _ _ hc => absurd hc (by simp [Sessions.initial, Session.start])
  · have hsound := sound_reached hr
    refine ⟨hs.claiming hsound ih.claiming, fun i worker names limit runs hc hp =>
      hs.answered ih hr hG hc hp, fun v c hc => ?_⟩
    unfold workerEvents at hc
    rw [List.filterMap_append, List.flatMap_append] at hc
    rcases List.mem_append.mp hc with hc | hc
    · exact (ih.received v c hc).snoc hG hs
    · rcases hev : l.event with _ | ⟨u, ev⟩
      · exact absurd hc (by simp [hev])
      · by_cases hu : u = v
        · subst hu
          obtain ⟨i, names, limit, runs, hmem, hcall, hp⟩ :=
            hs.received hsound hev (by simpa [hev] using hc)
          exact (ih.answered i _ names limit runs hcall hp c hmem).snoc hG hs
        · exact absurd hc (by simp [hev, hu])

/-- **No handler runs without a claim.** For every task of every worker the store has held, before,
the attempt under the number and the token of the task, claimed for this worker and open. -/
theorem dispatches_granted (h : Reached sch G ls f) (v : ω) :
    ∀ d ∈ (f.worker v).dispatches, Granted sch G ls f (sch v).config.workerId d.claimed := by
  intro d hd
  refine (granting_reached h).received v d.claimed ?_
  rw [Worker.received_reached (reached_worker h v)]
  exact List.mem_append_left _ (List.mem_map_of_mem hd)

theorem dispatches_granted_mail :
    ∃ (ls : List (Label .everySecond Bool Bool)) (f : Fleet .everySecond Bool Bool),
      (f.worker true).dispatches.length = 1 ∧ ∀ d ∈ (f.worker true).dispatches,
        Granted (fun _ => Worker.mailScheduler) Honest ls f ⟨"mailer", rfl⟩ d.claimed := by
  obtain ⟨ls, f, h, -, htasks⟩ := mailDay_reached
  refine ⟨ls, f, ?_, dispatches_granted (h.mono fun _ hl => hl.1) true⟩
  rw [Worker.dispatches, List.length_map, htasks]

end Fleet

end PgTaskScheduler
