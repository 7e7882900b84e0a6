import PgTaskScheduler.InternalErrors
import PgTaskScheduler.Fencing

/-!
# Recovery is complete and exact

`recover_expired` moves the first expired runs, in the order of their deadlines, out of `running`,
each with its open attempt: in a reachable store every expired run has one, so the guard
`EXISTS (… recorded …)` holds none back. Repeated calls therefore leave no run stuck.
-/

namespace PgTaskScheduler

open Tables ReadCommitted Histories

instance : Std.Total Run.expiryOrder := ⟨fun a b => by unfold Run.expiryOrder; grind⟩

instance : IsTrans Run Run.expiryOrder :=
  ⟨fun a b c hab hbc => by unfold Run.expiryOrder at *; grind⟩

variable {K : Croner} {s : Store} {limit : NonZeroUsize} {env : ℕ → Env}

theorem Run.expiry_of_expired {env : Env} {r : Run} (h : r.expired env) :
    ∃ e, r.leaseExpiresAt = some e ∧ e ≤ env.clock .predicate r.id := by
  simp only [Run.expired, Bool.and_eq_true, Option.any_eq_true, decide_eq_true_eq] at h
  exact h.2

/-! ## One call -/

/-- The unlocked running runs whose lease has expired. -/
def Store.recoverable (env : Env) (s : Store) : List Run :=
  s.runs.filter fun r => r.expired env && !env.skipRun r.id

/-- The clock reads instants that a `TIMESTAMPTZ` can hold. -/
def Env.ClockInRange (env : Env) : Prop := ∀ site id, InRange (env.clock site id)

/-- An expired run is pending and available at once, or failed when no attempt is left. -/
structure Requeued (env : Env) (r r' : Run) : Prop where
  pending : r.attemptCount < r.maxAttempts →
    r'.state = .pending ∧ r'.availableAt = env.clock .availableAt r.id
  failed : ¬ r.attemptCount < r.maxAttempts → r'.state = .failed ∧ r'.lastError.isSome

theorem Run.requeued_recover (env : Env) (r : Run) : Requeued env r (r.recover env) where
  pending h := by simp [Run.recover, h]
  failed h := by simp [Run.recover, h]

/-- What a call moves: the first unlocked expired runs, each with its open attempt. -/
structure Recovered (env : Env) (limit : NonZeroUsize) (s s' : Store) (moved : List Run) :
    Prop where
  first : First Run.expiryOrder limit.value (s.recoverable env) moved
  rows : ∀ r ∈ moved, r.state = .running ∧ env.skipRun r.id = false ∧
    (∃ e, r.leaseExpiresAt = some e ∧ e ≤ env.clock .predicate r.id) ∧
    ∃ prev a r', Requeued env r r' ∧ s.view r.id = ⟨some r, prev ++ [a]⟩ ∧
      s.openAttempts r.id = [a] ∧ s'.view r.id =
        ⟨some r', prev ++ [a.close env .expired (some "lease expired")]⟩
  others : ∀ id, (∀ r ∈ moved, r.id ≠ id) → s'.view id = s.view id
  jobs : s'.jobs = s.jobs

theorem Requeued.state_ne_running {env : Env} {r r' : Run} (h : Requeued env r r') :
    r'.state ≠ .running := by
  by_cases hleft : r.attemptCount < r.maxAttempts
  · rw [(h.pending hleft).1]
    exact nofun
  · rw [(h.failed hleft).1]
    exact nofun

theorem Run.recover_check {env : Env} {r : Run} (h : r.check = .ok ()) (hclock : env.ClockInRange) :
    (r.recover env).check = .ok () := by
  obtain ⟨hcount, hmax, havail, -, ⟨hnonneg, hone, hle, -⟩, hkey, hname, -, -⟩ :=
    Run.check_eq_ok_iff.mp h
  refine Run.check_eq_ok_iff.mpr ⟨hcount, hmax, ?_, nofun, ⟨hnonneg, hone, hle, ?_⟩, hkey, hname,
    ?_, nofun⟩
  · unfold Run.recover
    dsimp only
    split_ifs
    · exact hclock _ _
    · exact havail
  · rw [Run.recover_state]
    split_ifs with hleft
    · exact Or.inr hleft
    · exact Or.inl nofun
  · unfold Run.recover
    split_ifs <;> rfl

section Candidates

variable {candidates : List Run} {env : Env}

/-- **The guard holds no candidate back**: each has an open attempt, which is closed. -/
theorem exists_recorded (hs : Inv s)
    (hrows : ∀ r ∈ candidates, lookup Run.id r.id s.runs = some r ∧ r.expired env) {r : Run}
    (hr : r ∈ candidates) : ∃ x ∈ recoverRecorded env candidates s s, x.runId = r.id := by
  obtain ⟨hl, hexpired⟩ := hrows r hr
  obtain ⟨prev, a, -, -, hm, ha, hid⟩ :=
    hs.exists_open (mem_of_lookup hl) (Run.state_of_expired hexpired)
  refine ⟨a.close env .expired (some "lease expired"), List.mem_map_of_mem ?_, hid⟩
  rw [targets_self, List.mem_filter]
  exact ⟨ha, List.any_eq_true.mpr ⟨r, hr, by simp [hm.token, hm.isOpen]⟩⟩

theorem recoverRows_eq (hs : Inv s)
    (hrows : ∀ r ∈ candidates, lookup Run.id r.id s.runs = some r ∧ r.expired env) :
    recoverRows env candidates (recoverRecorded env candidates s s) =
      candidates.map (Run.recover env) := by
  unfold recoverRows
  congr 1
  refine List.filter_eq_self.mpr fun r hr => ?_
  obtain ⟨x, hx, hid⟩ := exists_recorded hs hrows hr
  exact List.any_eq_true.mpr ⟨x, hx, by simpa using hid⟩

end Candidates

/-- The count of each new state. -/
def recoverySummary (moved : List Run) : RecoverySummary where
  requeued := (moved.filter fun r => r.attemptsLeft).length
  failed := (moved.filter fun r => ¬ r.attemptsLeft).length

theorem recoverySummary_eq (env : Env) (moved : List Run) :
    RecoverySummary.add ⟨0, 0⟩ ((moved.map (Run.recover env)).map Run.state) =
      .ok (recoverySummary moved) := by
  rw [RecoverySummary.add_eq, recoverySummary]
  · simp only [List.map_map, Nat.zero_add, List.count_eq_countP, List.countP_map,
      ← List.countP_eq_length_filter]
    congr 2 <;>
    · refine List.countP_congr fun r _ => ?_
      simp only [Function.comp_apply, Run.recover_state]
      split_ifs with hleft <;> simp [hleft]
  · intro st hst
    obtain ⟨r', hr', rfl⟩ := List.mem_map.mp hst
    obtain ⟨r, -, rfl⟩ := List.mem_map.mp hr'
    exact r.recover_requeued_or_failed env

theorem recoverExpired_exec (hs : Inv s) (hlimit : (limit.value : ℤ) ≤ i64Max)
    (hclock : (env 0).ClockInRange) : ∃ moved s',
      (recoverExpired limit).exec db env s s = (.ok (recoverySummary moved), s') ∧
      Recovered (env 0) limit s s' moved := by
  set candidates := recoverCandidates (env 0) limit.value s s with hcandidates
  have hfirst : First Run.expiryOrder limit.value (s.recoverable (env 0)) candidates :=
    selectForUpdate_first hs.runIds
  have hrows : ∀ r ∈ candidates, lookup Run.id r.id s.runs = some r ∧ r.expired (env 0) :=
    fun r hr => ⟨(recoverCandidates_mem hr).1, (recoverCandidates_mem hr).2.1⟩
  have hkeyed : Keyed Run.id candidates := keyed_selectForUpdate hs.runIds
  have hrecovered := recoverRows_eq hs hrows
  have hattempts : checkAll Attempt.check (recoverRecorded (env 0) candidates s s) = .ok () := by
    refine checkAll_eq_ok_iff.mpr fun x hx => ?_
    obtain ⟨a, ha, rfl⟩ := List.mem_map.mp hx
    exact Attempt.close_check (hs.attemptsValid a (mem_targets.mp ha).1) _ _ (Or.inr (Or.inr rfl))
  have hruns : checkAll Run.check (recoverRows (env 0) candidates
      (recoverRecorded (env 0) candidates s s)) = .ok () := by
    rw [hrecovered]
    refine checkAll_eq_ok_iff.mpr fun r' hr' => ?_
    obtain ⟨r, hr, rfl⟩ := List.mem_map.mp hr'
    exact Run.recover_check (hs.runsValid r (mem_of_lookup (hrows r hr).1)) hclock
  have hrun : (recoverQuery limit.value).run (env 0) s s =
      .ok (recoverPatch (env 0) candidates (recoverRecorded (env 0) candidates s s),
        (candidates.map (Run.recover (env 0))).map Run.state) := by
    rw [← hrecovered]
    show Except.mapError _ (checkAll Attempt.check (recoverRecorded (env 0) candidates s s) >>=
      _) = _
    rw [hattempts]
    show Except.mapError _ (checkAll Run.check (recoverRows (env 0) candidates
      (recoverRecorded (env 0) candidates s s)) >>= _) = _
    rw [hruns]
    rfl
  have hrecorded : Recorded (env 0) s candidates (recoverRecorded (env 0) candidates s s) :=
    recoverRecorded_recorded hs hrows
  have hviews : ∀ id, (s.apply (recoverPatch (env 0) candidates
      (recoverRecorded (env 0) candidates s s))).view id = _ := Store.view_apply _ s
  refine ⟨candidates, s.apply (recoverPatch (env 0) candidates
    (recoverRecorded (env 0) candidates s s)), ?_, hfirst, fun r hr => ?_, fun id hid => ?_, ?_⟩
  · unfold recoverExpired
    rw [if_neg (not_lt.mpr hlimit), Prog.exec_stmt_ok hrun, db_apply]
    show (RecoverySummary.add _ _, _) = _
    rw [recoverySummary_eq]
  · obtain ⟨hl, hexpired, hskip⟩ := recoverCandidates_mem hr
    refine ⟨Run.state_of_expired hexpired, hskip, Run.expiry_of_expired hexpired, ?_⟩
    rcases onView_recoverPatch hs hkeyed hrecorded r.id with
      ⟨-, r', hr', hid, prev, a, hview, hopen, hnew⟩ | ⟨hnone, -⟩
    · obtain rfl : r' = r := eq_of_key hkeyed hr' hr hid
      refine ⟨prev, a, _, r'.requeued_recover _, hview, ?_, (hviews _).trans hnew⟩
      obtain ⟨b, hb, -⟩ :=
        hs.openAttempts_of_running (mem_of_lookup hl) (Run.state_of_expired hexpired)
      have ha : a ∈ s.openAttempts r'.id := by
        rw [Store.openAttempts_eq, hview]
        exact List.mem_filter.mpr ⟨by simp, hopen⟩
      rw [hb] at ha ⊢
      rw [List.mem_singleton.mp ha]
    · obtain ⟨x, hx, hid⟩ := exists_recorded hs hrows hr
      exact absurd hid (hnone x hx)
  · rcases onView_recoverPatch hs hkeyed hrecorded id with
      ⟨-, r, hr, hrid, -⟩ | ⟨-, hsame⟩
    · exact absurd hrid (hid r hr)
    · exact (hviews id).trans hsame
  · simp [Store.apply, recoverPatch]

/-- A call that the code refuses moves nothing. -/
theorem recoverExpired_refused (h : i64Max < limit.value) :
    (recoverExpired limit).exec db env s s =
      (.error (.config "recovery batch is too large"), s) := by
  unfold recoverExpired
  rw [if_pos h]
  rfl

/-! ## Repeated calls -/

/-- The running runs whose lease has expired at `t`. -/
def Store.stale (t : Timestamp) (s : Store) : List Run :=
  s.runs.filter fun r => decide (r.state = .running) && r.leaseExpiresAt.any fun e => e ≤ t

section Repeated

variable {t : Timestamp} {s' : Store} {moved : List Run} {env : Env}

/-- What is running after a call was running before it, and was not moved. -/
theorem Recovered.running (h : Recovered env limit s s' moved) (hs' : Inv s') {r : Run}
    (hr : r ∈ s'.runs) (hrun : r.state = .running) : r ∈ s.runs ∧ r ∉ moved := by
  have hl : (s'.view r.id).run = some r := lookup_of_mem hs'.runIds hr
  have hnot : ∀ b ∈ moved, b.id ≠ r.id := by
    intro b hb hid
    obtain ⟨-, -, -, prev, a, r', hrequeued, -, -, hview⟩ := h.rows b hb
    rw [← hid, hview] at hl
    obtain rfl := Option.some.inj hl
    exact hrequeued.state_ne_running hrun
  rw [h.others r.id hnot] at hl
  exact ⟨mem_of_lookup hl, fun hmem => hnot r hmem rfl⟩

/-- The stale runs are the first of the recoverable ones. -/
theorem stale_eq_filter (hskip : ∀ id, env.skipRun id = false)
    (hclock : ∀ id, t ≤ env.clock .predicate id) :
    s.stale t = (s.recoverable env).filter fun r => r.leaseExpiresAt.any fun e => e ≤ t := by
  unfold Store.stale Store.recoverable
  rw [List.filter_filter]
  refine List.filter_congr fun r _ => ?_
  rw [Bool.eq_iff_iff]
  simp only [Run.expired, hskip, Bool.and_eq_true, decide_eq_true_eq, Option.any_eq_true,
    Bool.not_false, and_true]
  constructor
  · rintro ⟨hrun, e, he, hle⟩
    exact ⟨⟨e, he, hle⟩, hrun, e, he, hle.trans (hclock r.id)⟩
  · rintro ⟨hle, hrun, -⟩
    exact ⟨hrun, hle⟩

theorem Recovered.stale_length (h : Recovered env limit s s' moved) (hs : Inv s) (hs' : Inv s')
    (hskip : ∀ id, env.skipRun id = false) (hclock : ∀ id, t ≤ env.clock .predicate id) :
    (s'.stale t).length ≤ (s.stale t).length - limit.value := by
  have hnodup : ∀ {C : Store}, Inv C → C.runs.Nodup := fun hC => List.Nodup.of_map Run.id hC.runIds
  have hfirst : First Run.expiryOrder limit.value (s.stale t)
      (moved.filter fun r => r.leaseExpiresAt.any fun e => e ≤ t) := by
    rw [stale_eq_filter hskip hclock]
    refine h.first.filter ((hnodup hs).filter _) fun a ha b hab hb => ?_
    obtain ⟨e, he, -⟩ := Run.expiry_of_expired
      (Bool.and_eq_true_iff.mp (List.mem_filter.mp ha).2).1
    obtain ⟨e', he', hle⟩ := (Option.any_eq_true _ _).mp hb
    have hle : e' ≤ t := of_decide_eq_true hle
    have hee : e ≤ e' := by
      unfold Run.expiryOrder nullsLast at hab
      rw [he, he'] at hab
      exact hab.elim le_of_lt fun heq => heq.1.le
    simpa [he] using hee.trans hle
  rw [← hfirst.length_rest ((hnodup hs).filter _)]
  refine (List.subperm_of_subset ((hnodup hs').filter _) fun r hr => ?_).length_le
  obtain ⟨hmem, hstale⟩ := List.mem_filter.mp hr
  simp only [Bool.and_eq_true, decide_eq_true_eq] at hstale
  obtain ⟨hold, hnot⟩ := h.running hs' hmem hstale.1
  refine List.mem_filter.mpr ⟨List.mem_filter.mpr ⟨hold, by simpa using hstale⟩, ?_⟩
  simpa using Or.inl hnot

end Repeated

variable {w w' : World} {es : List (Event K)}

/-- A call of `recover_expired` while no row is locked. -/
structure Recovers (limit : NonZeroUsize) (e : Event K) : Prop where
  call : e.call = .recoverExpired limit
  unlocked : ∀ id, (e.env 0).skipRun id = false
  clock : (e.env 0).ClockInRange

theorem Recovers.outcome {e : Event K} (he : Recovers limit e) (hs : Inv s)
    (hlimit : (limit.value : ℤ) ≤ i64Max) : ∃ moved,
      (e.outcome s).1 = .ok (.recovered (recoverySummary moved)) ∧
      Recovered (e.env 0) limit s (e.outcome s).2 moved := by
  obtain ⟨moved, s', hexec, hrecovered⟩ := recoverExpired_exec hs hlimit he.clock
  have hout : e.outcome s = (.ok (.recovered (recoverySummary moved)), s') := by
    unfold Event.outcome
    rw [he.call, program, Prog.exec_map, hexec]
    rfl
  rw [hout]
  exact ⟨moved, rfl, hrecovered⟩

/-- **Repeated calls leave fewer and fewer stale runs**, and start none. -/
theorem recovers_reaches {t : Timestamp} (hw : w.Sane) (hr : Reaches (scheduler K) w es w')
    (hes : ∀ e ∈ es, Recovers limit e) (hlimit : (limit.value : ℤ) ≤ i64Max) (ht : t ≤ w.clock) :
    (∀ r ∈ w'.store.runs, r.state = .running → r ∈ w.store.runs) ∧
      (w'.store.stale t).length ≤ (w.store.stale t).length - es.length * limit.value := by
  induction hr with
  | nil => exact ⟨fun _ hr _ => hr, by simp⟩
  | @snoc es w' e hr he ih =>
    obtain ⟨hrunning, hlength⟩ := ih fun e' he' => hes e' (by simp [he'])
    have hrecovers : Recovers limit e := hes e (by simp)
    have hsane := hw.reaches hr
    obtain ⟨moved, -, hrecovered⟩ := hrecovers.outcome hsane.inv hlimit
    have hclock : ∀ id, t ≤ (e.env 0).clock .predicate id := fun id =>
      (ht.trans (clock_le_reaches hr)).trans
        ((he 0).within.now.trans ((he 0).within.clock _ _).1)
    have hstep := hrecovered.stale_length hsane.inv (hsane.after he).inv hrecovers.unlocked hclock
    refine ⟨fun r hmem hrun => ?_, ?_⟩
    · obtain ⟨hold, -⟩ := hrecovered.running (hsane.after he).inv hmem hrun
      exact hrunning r hold hrun
    · refine hstep.trans ?_
      rw [List.length_append, List.length_singleton, Nat.add_mul, Nat.one_mul, ← Nat.sub_sub]
      exact Nat.sub_le_sub_right hlength _

/-! ## Recoveries that interleave -/

variable {ι : Type} [DecidableEq ι] {y y' y'' : Sessions K ι} {ls ls' : List (ι × Act (Call K) Env)}
  {i j : ι} {moved moved' : List PgTaskScheduler.Run}

/-- The candidates whose attempt was closed. -/
def movedRows (candidates : List Run) (recorded : List Attempt) : List Run :=
  candidates.filter fun r => recorded.any fun a => a.runId = r.id

/-- The session is about to commit a recovery that moves the runs `moved` and counts each. -/
structure Counts (y : Sessions K ι) (i : ι) (moved : List Run) : Prop where
  call : ∃ limit, (y.session i).call = .recoverExpired limit
  answer : (y.session i).prog = .commit (.ret (.ok (.recovered (recoverySummary moved))))
  locked : ∀ r ∈ moved, .run r.id ∈ (y.session i).locks
  rows : ∃ env, ∀ r ∈ moved, r.state = .running ∧ ∃ prev a r', Requeued env r r' ∧
    y.committed.view r.id = ⟨some r, prev ++ [a]⟩ ∧ a.isOpen ∧
    (db.applyAll (y.session i).writes y.committed).view r.id =
      ⟨some r', prev ++ [a.close env .expired (some "lease expired")]⟩
  others : ∀ id, (∀ r ∈ moved, r.id ≠ id) →
    (db.applyAll (y.session i).writes y.committed).view id = y.committed.view id

omit [DecidableEq ι] in
theorem counts_of (h : Sessions.Sound y) (hc : (y.session i).call = .recoverExpired limit)
    {env : Env} {sn C : Store} {w : Patch} {states : List StoredRunState} (hsn : Inv sn)
    (hC : Inv C) (hr : (recoverQuery limit.value).run env sn C = .ok (w, states))
    (hp : (y.session i).prog = .commit (.ret ((RecoverySummary.add ⟨0, 0⟩ states).map .recovered)))
    (hw : (y.session i).writes = [w])
    (hl : (y.session i).locks = (recoverQuery limit.value).acquires db env sn C w)
    (ha : db.Agree (y.session i).locks C y.committed) :
    Counts y i (movedRows (recoverCandidates env limit.value sn C)
      (recoverRecorded env (recoverCandidates env limit.value sn C) sn C)) := by
  obtain ⟨rfl, rfl, -⟩ := recoverQuery_ok hr
  set candidates := recoverCandidates env limit.value sn C
  set recorded := recoverRecorded env candidates sn C with hrec
  have hlocked : ∀ r ∈ candidates, .run r.id ∈ (y.session i).locks := fun r hr =>
    hl ▸ mem_acquires_of_locks (List.mem_map_of_mem (f := fun r => RowRef.run r.id) hr)
  have hrows : ∀ r ∈ candidates, lookup Run.id r.id C.runs = some r ∧ r.expired env :=
    fun r hr => ⟨(recoverCandidates_mem hr).1, (recoverCandidates_mem hr).2.1⟩
  have hrecorded : Recorded env y.committed candidates recorded := by
    intro x hx
    obtain ⟨r, hr, prev, a, hview, hrest⟩ := @recoverRecorded_recorded env sn C hC _ hrows x hx
    exact ⟨r, hr, prev, a, (agree_view ha (hlocked r hr)).trans hview, hrest⟩
  have hkeyed : Keyed Run.id candidates := keyed_selectForUpdate hsn.runIds
  have hafter : ∀ id, (db.applyAll (y.session i).writes y.committed).view id =
      (recoverPatch env candidates recorded).onView id (y.committed.view id) := by
    intro id
    rw [hw]
    exact Store.view_apply _ _ id
  refine ⟨⟨limit, hc⟩, ?_, fun r hr => hlocked r (List.mem_filter.mp hr).1,
    ⟨env, fun r hr => ?_⟩, fun id hid => ?_⟩
  · rw [hp]
    show Prog.commit (.ret ((RecoverySummary.add ⟨0, 0⟩
      (((movedRows candidates recorded).map (Run.recover env)).map Run.state)).map _)) = _
    rw [recoverySummary_eq]
    rfl
  · obtain ⟨hmem, hany⟩ := List.mem_filter.mp hr
    obtain ⟨x, hx, hxr⟩ := List.any_eq_true.mp hany
    refine ⟨Run.state_of_expired (hrows r hmem).2, ?_⟩
    rcases onView_recoverPatch h.store hkeyed hrecorded r.id with
      ⟨-, r', hr', hid, prev, a, hview, hopen, hnew⟩ | ⟨hnone, -⟩
    · obtain rfl : r' = r := eq_of_key hkeyed hr' hmem hid
      exact ⟨prev, a, _, r'.requeued_recover env, hview, hopen, (hafter _).trans hnew⟩
    · exact absurd (of_decide_eq_true hxr) (hnone x hx)
  · rcases onView_recoverPatch h.store hkeyed hrecorded id with
      ⟨⟨x, hx, hxid⟩, r, hr, hrid, -⟩ | ⟨-, hsame⟩
    · refine absurd hrid (hid r (List.mem_filter.mpr ⟨hr, List.any_eq_true.mpr ⟨x, hx, ?_⟩⟩))
      simpa using hxid.trans hrid.symm
    · exact (hafter id).trans hsame

theorem counts_reached (h : Sessions.Reached ls y)
    (hc : (y.session i).call = .recoverExpired limit) {k : Program (Answer K)}
    (hp : (y.session i).prog = .commit k) : ∃ moved, Counts y i moved := by
  obtain ⟨env, sn, C, w, states, hsn, hC, hr, rfl, hw, hl, ha⟩ :=
    single_reached (program_recoverExpired limit) h hc hp
  exact ⟨_, counts_of (sound_reached h) hc hsn hC hr hp hw hl ha⟩

/-- **An attempt is counted once.** -/
theorem counts_once (h : Sessions.Reached ls y) (hi : Counts y i moved)
    (hs : Sessions.Step y i .commit y') (hr : Sessions.Run Sessions.Free y' ls' y'')
    (hj : Counts y'' j moved') {r r' : Run} (hmem : r ∈ moved) (hmem' : r' ∈ moved')
    (hid : r'.id = r.id) (hcount : r'.attemptCount = r.attemptCount) :
    ∃ ls₁ ls₂ y₁, ls' = ls₁ ++ ls₂ ∧ Sessions.Run Sessions.Free y' ls₁ y₁ ∧
      lookup Run.id r.id y₁.committed.runs = none := by
  have hy' : Sessions.Sound y' := sound_step (sound_reached h) hs
  have hcommitted : y'.committed = db.applyAll (y.session i).writes y.committed := by
    cases hs
    rfl
  obtain ⟨env, hrows⟩ := hi.rows
  obtain ⟨-, prev, a, r₁, -, hview, -, hafter⟩ := hrows r hmem
  rw [← hcommitted] at hafter
  obtain ⟨ha, hrun⟩ : a.close env .expired (some "lease expired") ∈ y'.committed.attempts ∧
      (a.close env .expired (some "lease expired")).runId = r.id :=
    Store.mem_view_attempts.mp (by rw [hafter]; simp)
  rcases closed_run hy' hr ha rfl with hclosed | ⟨ls₁, ls₂, y₁, rfl, h₁, hnone⟩
  · obtain ⟨env', hrows'⟩ := hj.rows
    obtain ⟨-, prev', b, r₂, -, hview', hopen, -⟩ := hrows' r' hmem'
    have hlast : ∀ {C : Store} {r : Run} {prev : List Attempt} {a : Attempt}, Inv C →
        C.view r.id = ⟨some r, prev ++ [a]⟩ → a.attemptNumber = r.attemptCount := by
      intro C r prev a hC hview
      have hcoupled := hC.coupled r.id
      rw [hview] at hcoupled
      exact hcoupled.last_number
    have hkey : b.key = (a.close env .expired (some "lease expired")).key := by
      have hb : b ∈ (y''.committed.view r'.id).attempts := by
        rw [hview']
        simp
      refine Prod.ext ((Store.mem_view_attempts.mp hb).2.trans (hid.trans hrun.symm)) ?_
      show b.attemptNumber = a.attemptNumber
      rw [hlast (sound_run hy' hr).store hview', hlast (sound_reached h).store hview, hcount]
    have heq : b = a.close env .expired (some "lease expired") :=
      eq_of_key ((sound_run hy' hr).store.coupled r'.id).keyed (by rw [hview']; simp)
        (Store.mem_view_attempts.mpr ⟨hclosed, hrun.trans hid.symm⟩) hkey
    rw [heq] at hopen
    exact absurd hopen (by simp)
  · exact ⟨ls₁, ls₂, y₁, rfl, h₁, hrun ▸ hnone⟩

/-- **A selected run is counted**, if the snapshot of the statement shows the same attempt. -/
theorem counts_selected (h : Sessions.Reached ls y)
    (hc : (y.session i).call = .recoverExpired limit) {env : Env}
    (hs : Sessions.Step y i (.exec env) y') {sn : Store} (hsn : (y.session i).snap = some sn)
    {r r₀ : Run} (hr : r ∈ recoverCandidates env limit.value sn y.committed) (hr₀ : r₀ ∈ sn.runs)
    (hid : r₀.id = r.id) (hrun : r₀.state = .running) (htoken : r₀.leaseToken = r.leaseToken)
    (hcount : r₀.attemptCount = r.attemptCount) : ∃ moved, r ∈ moved ∧ Counts y' i moved := by
  have hy := sound_reached h
  have hy' := sound_step hy hs
  obtain ⟨hI, hagree⟩ := hy.snap i sn hsn
  cases hs with
  | exec _ hp hsn' _ _ hrun' _ =>
    obtain rfl := Option.some.inj (hsn.symm.trans hsn')
    rcases stable_reached (.single (program_recoverExpired limit)) h i hc with
      ⟨hprog, hwrites, hheld⟩ | ⟨_, _, _, _, _, -, -, -, -, hp', -⟩ | ⟨x, hp'⟩
    · rcases program_recoverExpired (K := K) limit with hprogram | ⟨x, hprogram⟩ <;>
        rw [hprogram] at hprog <;> cases hp.symm.trans hprog
      simp only [hwrites, Storage.applyAll_nil] at hrun'
      refine ⟨_, ?_, @counts_of K limit ι _ _ hy' (by rwa [System.set_session_self]) _ _ _ _ _ hI
        hy.store hrun' (by rw [System.set_session_self])
        (by rw [System.set_session_self, hwrites]; rfl)
        (by rw [System.set_session_self, hwrites, hheld]; rfl) (.refl db _ _)⟩
      refine List.mem_filter.mpr ⟨hr, ?_⟩
      obtain ⟨hl, hexpired, -⟩ := recoverCandidates_mem hr
      obtain ⟨prev, a, hview, -, hm, ha, haid⟩ :=
        hy.store.exists_open (mem_of_lookup hl) (Run.state_of_expired hexpired)
      obtain ⟨prev₀, a₀, hview₀, -, hm₀, ha₀, ha₀id⟩ := hI.exists_open hr₀ hrun
      have hkey : a₀.key = a.key := by
        have h₀ := hI.coupled r₀.id
        have h₁ := hy.store.coupled r.id
        rw [hview₀] at h₀
        rw [hview] at h₁
        refine Prod.ext (ha₀id.trans (hid.trans haid.symm)) ?_
        exact h₀.last_number.trans (hcount.trans h₁.last_number.symm)
      refine List.any_eq_true.mpr ⟨a.close env .expired (some "lease expired"),
        List.mem_map_of_mem (mem_targets.mpr ⟨ha, ?_, a₀, ha₀, hkey, ?_⟩), decide_eq_true haid⟩
      · exact List.any_eq_true.mpr ⟨r, hr, by simp [hm.token, hm.isOpen]⟩
      · refine List.any_eq_true.mpr ⟨r, hr, ?_⟩
        simp [← htoken, hm₀.token, hm₀.isOpen]
    · cases hp.symm.trans hp'
    · cases hp.symm.trans hp'

/-! ## Recovery is complete and exact -/

/-- Recovery from a store: what one call moves, what a refused call does, and what is left when
calls are repeated. -/
structure Recovery (w : World) (limit : NonZeroUsize) : Prop where
  call : (limit.value : ℤ) ≤ i64Max → ∀ env : ℕ → Env, (env 0).ClockInRange → ∃ moved s',
    (recoverExpired limit).exec db env w.store w.store = (.ok (recoverySummary moved), s') ∧
    (recoverySummary moved).requeued + (recoverySummary moved).failed = moved.length ∧
    Recovered (env 0) limit w.store s' moved
  refused : i64Max < limit.value → ∀ env : ℕ → Env,
    ∃ e, (recoverExpired limit).exec db env w.store w.store = (.error e, w.store)
  repeated : (limit.value : ℤ) ≤ i64Max →
    ∀ (es : List (Event K)) w', Reaches (scheduler K) w es w' → (∀ e ∈ es, Recovers limit e) →
    (w.store.stale w.clock).length ⌈/⌉ limit.value ≤ es.length →
    ∀ r ∈ w.store.stale w.clock, ∀ r' ∈ w'.store.runs, r'.id = r.id → r'.state ≠ .running

/-- Recoveries whose statements interleave with those of other sessions. -/
structure Sessions.RecoversOnce (y : Sessions K ι) : Prop where
  counts : ∀ i limit k, (y.session i).call = .recoverExpired limit →
    (y.session i).prog = .commit k → ∃ moved, Counts y i moved
  /-- no two of them count the same run -/
  disjoint : ∀ i j moved moved', i ≠ j → Counts y i moved → Counts y j moved' →
    ∀ r ∈ moved, ∀ r' ∈ moved', r.id ≠ r'.id
  /-- what one has counted no later one counts again, unless the run is deleted in between -/
  once : ∀ i moved y', Counts y i moved → Sessions.Step y i .commit y' →
    ∀ (ls : List (ι × Act (Call K) Env)) y'' j moved', Sessions.Run Sessions.Free y' ls y'' →
    Counts y'' j moved' → ∀ r ∈ moved, ∀ r' ∈ moved', r'.id = r.id →
    r'.attemptCount = r.attemptCount → ∃ ls₁ ls₂ y₁, ls = ls₁ ++ ls₂ ∧
      Sessions.Run Sessions.Free y' ls₁ y₁ ∧ lookup Run.id r.id y₁.committed.runs = none
  /-- a run that one has selected is counted, if its snapshot shows the same attempt -/
  selected : ∀ i limit env y' sn, (y.session i).call = .recoverExpired limit →
    Sessions.Step y i (.exec env) y' → (y.session i).snap = some sn →
    ∀ r ∈ recoverCandidates env limit.value sn y.committed, (∃ r₀ ∈ sn.runs, r₀.id = r.id ∧
      r₀.state = .running ∧ r₀.leaseToken = r.leaseToken ∧ r₀.attemptCount = r.attemptCount) →
    ∃ moved, r ∈ moved ∧ Counts y' i moved

theorem recoversOnce_reached (h : Sessions.Reached ls y) : y.RecoversOnce where
  counts i limit k hc hp := counts_reached h hc hp
  disjoint i j moved moved' hij hi hj r hr r' hr' he :=
    (sound_reached h).exclusive i j hij _ (hi.locked r hr) (he ▸ hj.locked r' hr')
  once i moved y' hi hs ls' y'' j moved' hr hj r hmem r' hmem' hid hcount :=
    counts_once h hi hs hr hj hmem hmem' hid hcount
  selected i limit env y' sn hc hs hsn r hr hsame := by
    obtain ⟨r₀, hr₀, hid, hrun, htoken, hcount⟩ := hsame
    exact counts_selected h hc hs hsn hr hr₀ hid hrun htoken hcount

theorem recoverySummary_total (moved : List Run) :
    (recoverySummary moved).requeued + (recoverySummary moved).failed = moved.length := by
  have hsplit := List.length_eq_length_filter_add (l := moved) fun r => decide r.attemptsLeft
  simp only [recoverySummary, decide_not] at *
  omega

/-- **Recovery is complete and exact**, alone and among other sessions. -/
theorem recovery_exact {w : World} (h : w.Reachable K) (limit : NonZeroUsize)
    (hy : Sessions.Reached ls y) : Recovery (K := K) w limit ∧ y.RecoversOnce := by
  refine ⟨⟨fun hlimit env hclock => ?_, fun hlimit env => ⟨_, recoverExpired_refused hlimit⟩,
    fun hlimit es w' hr hes hmany r hstale r' hr' hid hrun => ?_⟩, recoversOnce_reached hy⟩
  · obtain ⟨moved, s', hexec, hrecovered⟩ := recoverExpired_exec h.inv hlimit hclock
    exact ⟨moved, s', hexec, recoverySummary_total moved, hrecovered⟩
  · obtain ⟨hrunning, hlength⟩ := recovers_reaches h.sane hr hes hlimit le_rfl
    have hnone : w'.store.stale w.clock = [] := by
      have hle := (ceilDiv_le_iff_le_mul limit.range.1).mp hmany
      rw [Nat.mul_comm] at hle
      refine List.length_eq_zero_iff.mp ?_
      omega
    obtain ⟨hmem, hexpired⟩ := List.mem_filter.mp hstale
    obtain rfl : r' = r := eq_of_key h.inv.runIds (hrunning r' hr' hrun) hmem hid
    exact List.filter_eq_nil_iff.mp hnone r' hr' hexpired

/-- Two running tasks; the lease of the later one is shorter. -/
def World.abandoned : World := .play [mail .standard, claimMail,
  mail { EnqueueOptions.standard with leaseDuration := ⟨1000000, by decide⟩ }, claimMail]

theorem recovery_exact_abandoned :
    (((recoverExpired ⟨1, by decide⟩).exec db (fun _ => .tick 400000000) World.abandoned.store
      World.abandoned.store).1, ((recoverExpired ⟨1, by decide⟩).exec db
        (fun _ => .tick 400000000) World.abandoned.store World.abandoned.store).2.runs.map
          fun r => (r.id, r.state)) = (.ok ⟨1, 0⟩, [(⟨1⟩, .running), (⟨3⟩, .pending)]) ∧
    (World.abandoned.store.stale 400000000).map Run.id = [⟨1⟩, ⟨3⟩] ∧
    Recovery (K := .everySecond) World.abandoned ⟨1, by decide⟩ ∧
    ∃ y : Sessions .everySecond Unit, Sessions.Reached (claiming .standard) y ∧ y.RecoversOnce := by
  have h : (Sessions.play .everySecond Unit (claiming .standard)).isSome := by decide +kernel
  obtain ⟨y, hy⟩ := Option.isSome_iff_exists.mp h
  obtain ⟨hrecovery, honce⟩ := recovery_exact (play_reachable [mail .standard, claimMail,
    mail { EnqueueOptions.standard with leaseDuration := ⟨1000000, by decide⟩ }, claimMail])
    ⟨1, by decide⟩ (play_reached hy)
  exact ⟨by decide +kernel, by decide +kernel, hrecovery, y, play_reached hy, honce⟩

/-- A limit beyond `i64::MAX` is refused, and the expired task stays running. -/
theorem recovery_refuses_limit : ¬ ∀ (w : World), w.Reachable .everySecond →
    ∀ (limit : NonZeroUsize) (env : ℕ → Env), (env 0).ClockInRange → ∃ moved s',
      (recoverExpired limit).exec db env w.store w.store = (.ok (recoverySummary moved), s') ∧
      First Run.expiryOrder limit.value (w.store.recoverable (env 0)) moved := by
  intro hall
  obtain ⟨moved, s', hexec, -⟩ := hall World.claimed (play_reachable _)
    ⟨9223372036854775808, by decide⟩ (fun _ => .tick 400000000)
    fun _ _ => (by decide : InRange 400000000)
  rw [recoverExpired_refused (by decide)] at hexec
  exact absurd hexec (by simp)

end PgTaskScheduler
