import PgTaskScheduler.Fencing
import PgTaskScheduler.Snapshots

/-!
# Nothing runs early

An attempt starts at a reading of the clock that is not before `available_at` of the run it claims.
Nothing moves `available_at` of a pending run: after an insertion it is the requested instant, and
after a retryable failure it is the instant that `fail_run` has answered.
-/

namespace PgTaskScheduler

open Tables ReadCommitted Histories

variable {K : Croner}

/-! ## Where attempts start -/

section Started

variable {Ok : Env → Prop} {c : Call K} {v v' : RunView}

/-- An attempt keeps the instant at which it has started; a claim sets it. -/
theorem Change.started (h : Change Ok c v v') {a : Attempt} (ha : a ∈ v'.attempts) :
    (∃ b ∈ v.attempts, b.key = a.key ∧ b.startedAt = a.startedAt) ∨
      ∃ worker names limit env r, c = .claimBatch worker names limit ∧ Ok env ∧ v.run = some r ∧
        r.claimable env names ∧ a = r.claimAttempt env worker := by
  have hlast : ∀ {prev : List Attempt} {b b' : Attempt}, a ∈ prev ++ [b'] →
      b'.key = b.key → b'.startedAt = b.startedAt →
      ∃ x ∈ prev ++ [b], x.key = a.key ∧ x.startedAt = a.startedAt := by
    intro prev b b' ha hkey hstart
    rcases List.mem_append.mp ha with ha | ha
    · exact ⟨a, List.mem_append_left _ ha, rfl, rfl⟩
    · obtain rfl := List.mem_singleton.mp ha
      exact ⟨b, by simp, hkey.symm, hstart.symm⟩
  cases h with
  | same => exact Or.inl ⟨a, ha, rfl, rfl⟩
  | enqueued => exact absurd ha List.not_mem_nil
  | materialized => exact absurd ha List.not_mem_nil
  | @claimed worker names limit env r as hOk hr =>
    rcases List.mem_append.mp ha with ha | ha
    · exact Or.inl ⟨a, ha, rfl, rfl⟩
    · exact Or.inr ⟨worker, names, limit, env, r, rfl, hOk, rfl, hr, List.mem_singleton.mp ha⟩
  | finalized => exact Or.inl (hlast ha rfl rfl)
  | failed => exact Or.inl (hlast ha rfl rfl)
  | renewed => exact Or.inl (hlast ha rfl rfl)
  | recovered => exact Or.inl (hlast ha rfl rfl)
  | cancelledPending => exact Or.inl ⟨a, ha, rfl, rfl⟩
  | cancelledRunning => exact Or.inl (hlast ha rfl rfl)
  | pruned => exact absurd ha List.not_mem_nil

/-- How `available_at` of a pending run comes about: it was that of the run before, or the run was
running. -/
theorem Change.available (h : Change Ok c v v') {r r' : Run} (hr : v.run = some r)
    (hr' : v'.run = some r') (hs : r'.state = .pending) :
    r.state = .pending ∧ r'.availableAt = r.availableAt ∧ r'.attemptCount = r.attemptCount ∨
      r.state = .running ∧ r'.attemptCount = r.attemptCount := by
  cases h with
  | same =>
    obtain rfl := Option.some.inj (hr.symm.trans hr')
    exact Or.inl ⟨hs, rfl, rfl⟩
  | enqueued => exact absurd hr.symm (Option.some_ne_none r)
  | materialized => exact absurd hr.symm (Option.some_ne_none r)
  | pruned => exact absurd hr'.symm (Option.some_ne_none r')
  | claimed | cancelledPending | cancelledRunning =>
    obtain rfl := Option.some.inj hr'
    exact absurd hs (by simp [Run.claim, Run.cancel])
  | renewed _ hlive | finalized _ _ hlive | failed _ _ hlive =>
    obtain rfl := Option.some.inj hr
    obtain rfl := Option.some.inj hr'
    exact Or.inr ⟨(Run.state_of_live hlive).2.1, rfl⟩
  | recovered _ hexpired =>
    obtain rfl := Option.some.inj hr
    obtain rfl := Option.some.inj hr'
    exact Or.inr ⟨Run.state_of_expired hexpired, rfl⟩

/-- A claim raises the attempt count; nothing else does, or lets a run be running. -/
theorem Change.count (h : Change Ok c v v') {r r' : Run} (hr : v.run = some r)
    (hr' : v'.run = some r') :
    r'.attemptCount = r.attemptCount ∧ (r'.state = .running → r.state = .running) ∨
      r.state = .pending ∧ r'.attemptCount = r.attemptCount + 1 := by
  cases h with
  | same =>
    obtain rfl := Option.some.inj (hr.symm.trans hr')
    exact Or.inl ⟨rfl, id⟩
  | enqueued => exact absurd hr.symm (Option.some_ne_none r)
  | materialized => exact absurd hr.symm (Option.some_ne_none r)
  | pruned => exact absurd hr'.symm (Option.some_ne_none r')
  | claimed _ hclaimable =>
    obtain rfl := Option.some.inj hr
    obtain rfl := Option.some.inj hr'
    exact Or.inr ⟨(Run.of_claimable hclaimable).1, rfl⟩
  | renewed _ hlive | finalized _ _ hlive | failed _ _ hlive =>
    obtain rfl := Option.some.inj hr
    obtain rfl := Option.some.inj hr'
    exact Or.inl ⟨rfl, fun _ => (Run.state_of_live hlive).2.1⟩
  | recovered _ hexpired =>
    obtain rfl := Option.some.inj hr
    obtain rfl := Option.some.inj hr'
    exact Or.inl ⟨rfl, fun _ => Run.state_of_expired hexpired⟩
  | cancelledPending | cancelledRunning =>
    obtain rfl := Option.some.inj hr
    obtain rfl := Option.some.inj hr'
    exact Or.inl ⟨rfl, fun hs => absurd hs (by simp [Run.cancel])⟩

/-- What an insertion stores. -/
theorem Change.inserted (h : Change Ok c v v') {r' : Run} (hr : v.run = none)
    (hr' : v'.run = some r') :
    (∃ taskName args options name json env, c = .enqueue taskName args options ∧
      r' = enqueuedRun env name json options) ∨
    c.Materializes ∧ ∃ env job, r' = materializedRun env job := by
  cases h with
  | same => exact absurd (hr'.symm.trans hr) (Option.some_ne_none r')
  | enqueued => exact Or.inl ⟨_, _, _, _, _, _, rfl, (Option.some.inj hr').symm⟩
  | materialized _ hc => exact Or.inr ⟨hc, _, _, (Option.some.inj hr').symm⟩
  | _ => exact absurd hr (Option.some_ne_none _)

/-- A run that a round of the materializer adds is that of an occurrence which is due. -/
theorem Round.created {rs : List Store} {s s' : Store} (h : Round K Ok rs s s') {r : Run}
    (hr : r ∈ s'.runs) (hnew : r ∉ s.runs) : ∃ j env, Ok env ∧
      lookup SchedulerJob.id j.id s.jobs = some j ∧ j.due env ∧ r.jobId = some j.id ∧
      r.scheduledFor = j.nextRunAt := by
  cases h with
  | idle => exact absurd hr hnew
  | corrupt => exact absurd (by simpa [Store.apply] using hr) hnew
  | kept => exact absurd (by simpa [Store.apply] using hr) hnew
  | @inserted env env₁ _ j job _ _ hOk _ _ hj hdue hread =>
    have hr : r ∈ s.runs ∨ r = materializedRun env₁ job := by
      simpa [Store.apply, Edit.apply] using hr
    obtain rfl := hr.resolve_left hnew
    obtain ⟨hid, hslot, -⟩ := DueJob.read_eq_ok hread
    exact ⟨j, env, hOk, hj, hdue, congrArg some hid, hslot⟩

/-- The transactions of a call, one after the other. -/
abbrev Transacts (Ok : Env → Prop) (c : Call K) : Store → Store → Prop :=
  Relation.ReflTransGen (Alone (Effect Ok c))

/-- A call that leads from `s` to `s'` inserts the run `r` in the transaction that commits `C'`
after `C`, for an occurrence that `C` shows as due. -/
structure Scheduled (Ok : Env → Prop) (c : Call K) (s C C' s' : Store) (r : Run) : Prop where
  before : Transacts Ok c s C
  commit : Alone (Effect Ok c) C C'
  after : Transacts Ok c C' s'
  absent : ∀ b ∈ C.runs, b.id ≠ r.id
  present : ∃ b ∈ C'.runs, b.id = r.id
  cursor : ∃ j env, Ok env ∧ lookup SchedulerJob.id j.id C.jobs = some j ∧ j.due env ∧
    r.jobId = some j.id ∧ r.scheduledFor = j.nextRunAt

/-- A run that a call of the materializer adds is added by one of its transactions. -/
theorem exists_scheduled {s s' : Store} (h : Transacts Ok c s s') (hm : c.Materializes) {r : Run}
    (hnone : lookup Run.id r.id s.runs = none) (hr : lookup Run.id r.id s'.runs = some r) :
    ∃ C C', Scheduled Ok c s C C' s' r := by
  induction h generalizing r with
  | refl => exact absurd (hr.symm.trans hnone) (by simp)
  | @tail B s' hB hlast ih =>
    have hcommit : Alone (Effect Ok c) B s' := hlast
    obtain ⟨rs, -, heffect⟩ := hlast
    rcases hr₁ : lookup Run.id r.id B.runs with _ | r₁
    · have hnew : r ∉ B.runs := fun hmem => lookup_eq_none_iff.mp hr₁ r hmem rfl
      exact ⟨B, s', hB, hcommit, .refl, lookup_eq_none_iff.mp hr₁, ⟨r, mem_of_lookup hr, rfl⟩,
        (heffect.round hm).created (mem_of_lookup hr) hnew⟩
    · -- the later transactions keep the occurrence
      have hid : r₁.id = r.id := key_of_lookup hr₁
      have hsnapshot := (heffect.transition.runs r.id).snapshot hr₁ hr
      rw [← hid] at hnone hr₁
      obtain ⟨C, C', hsched⟩ := ih hnone hr₁
      obtain ⟨j, env, hOk, hj, hdue, hjob, hslot⟩ := hsched.cursor
      refine ⟨C, C', hsched.before, hsched.commit, hsched.after.tail hcommit, hid ▸ hsched.absent,
        hid ▸ hsched.present, j, env, hOk, hj, hdue, ?_, ?_⟩
      · rw [← hjob]
        exact congrArg RunSnapshot.jobId hsnapshot
      · rw [← hslot]
        exact congrArg RunSnapshot.scheduledFor hsnapshot

end Started

/-! ## The first attempt -/

/-- A run that has not been claimed is available at the requested instant, and its first attempt
starts no earlier. -/
structure Punctual (v : RunView) : Prop where
  fresh : ∀ r, v.run = some r → r.state = .pending → r.attemptCount = 0 →
    r.availableAt = r.scheduledFor
  first : ∀ r, v.run = some r → ∀ a ∈ v.attempts, a.attemptNumber = 1 → r.scheduledFor ≤ a.startedAt

theorem Punctual.empty : Punctual ⟨none, []⟩ where
  fresh r hr := absurd hr.symm (Option.some_ne_none r)
  first r hr := absurd hr.symm (Option.some_ne_none r)

section Punctual

variable {w : World} {stop : Timestamp} {c : Call K} {v v' : RunView} {r : Run}

theorem Coupled.count_pos (hv : Coupled v) (hr : v.run = some r) (hs : r.state = .running) :
    1 ≤ r.attemptCount := by
  obtain ⟨prev, a, hattempts, -⟩ := hv.live r hr hs
  rw [hv.count r hr, hattempts, List.length_append]
  simp

theorem Coupled.number_le (hv : Coupled v) (hr : v.run = some r) {a : Attempt}
    (ha : a ∈ v.attempts) : a.attemptNumber ≤ r.attemptCount := by
  have hmem : a.attemptNumber ∈ numbers v.attempts.length := by
    rw [← hv.numbered]
    exact List.mem_map_of_mem ha
  obtain ⟨i, hi, he⟩ := List.mem_map.mp hmem
  have hlt := List.mem_range.mp hi
  rw [hv.count r hr, ← he]
  omega

theorem Punctual.step (hc : Change (w.Readings stop) c v v') (hv : Coupled v) (h : Punctual v) :
    Punctual v' where
  fresh r' hr' hs hcount := by
    rcases hr : v.run with _ | r
    · rcases hc.inserted hr hr' with ⟨_, _, _, _, _, _, -, rfl⟩ | ⟨-, _, _, rfl⟩ <;> rfl
    · have hscheduled : r'.scheduledFor = r.scheduledFor :=
        congrArg RunSnapshot.scheduledFor (hc.snapshot hr hr')
      rcases hc.available hr hr' hs with ⟨hpending, havail, hcount'⟩ | ⟨hrunning, hcount'⟩
      · rw [havail, hscheduled]
        exact h.fresh r hr hpending (hcount'.symm.trans hcount)
      · have := hv.count_pos hr hrunning
        omega
  first r' hr' a ha hnum := by
    rcases hc.started ha with ⟨b, hb, hkey, hstart⟩ | ⟨_, _, _, env, r, -, hOk, hr, hclaim, rfl⟩
    · obtain ⟨r, hr⟩ : ∃ r, v.run = some r := by
        rw [← Option.ne_none_iff_exists']
        exact fun hnone => absurd (hv.orphan hnone ▸ hb) List.not_mem_nil
      have hscheduled : r'.scheduledFor = r.scheduledFor :=
        congrArg RunSnapshot.scheduledFor (hc.snapshot hr hr')
      rw [hscheduled, ← hstart]
      exact h.first r hr b hb ((congrArg Prod.snd hkey).trans hnum)
    · obtain ⟨hpending, havail, -⟩ := Run.of_claimable hclaim
      have hscheduled : r'.scheduledFor = r.scheduledFor :=
        congrArg RunSnapshot.scheduledFor (hc.snapshot hr hr')
      have hcount : r.attemptCount + 1 = 1 := hnum
      rw [hscheduled, ← h.fresh r hr hpending (by omega)]
      exact havail.trans (hOk.within.clock .startedAt r.id).1

theorem punctual_reachable (h : w.Reachable K) (id : RunId) : Punctual (w.store.view id) :=
  h.view_invariant (P := fun _ => Punctual) (fun _ => .empty)
    (fun _ _ _ _ _ _ hv _ hP hc => hP.step hc hv) id

end Punctual

/-! ## A retried attempt -/

/-- Attempt `n` has been closed and attempt `n + 1` waits for the instant `t`. -/
structure NotBefore (n : ℤ) (t : Timestamp) (v : RunView) : Prop where
  count : ∀ r, v.run = some r → n ≤ r.attemptCount
  waiting : ∀ r, v.run = some r → r.attemptCount = n →
    r.state ≠ .running ∧ (r.state = .pending → r.availableAt = t)
  next : ∀ a ∈ v.attempts, a.attemptNumber = n + 1 → t ≤ a.startedAt

theorem NotBefore.step {w : World} {stop : Timestamp} {c : Call K} {v v' : RunView} {n : ℤ}
    {t : Timestamp} {r : Run} (hc : Change (w.Readings stop) c v v') (hr : v.run = some r)
    (h : NotBefore n t v) : NotBefore n t v' where
  count r' hr' := by
    have hn := h.count r hr
    rcases hc.count hr hr' with ⟨hcount, -⟩ | ⟨-, hcount⟩ <;> omega
  waiting r' hr' hcount' := by
    have hn := h.count r hr
    rcases hc.count hr hr' with ⟨hcount, hrun⟩ | ⟨-, hcount⟩
    · obtain ⟨hne, havail⟩ := h.waiting r hr (hcount.symm.trans hcount')
      refine ⟨fun hs => hne (hrun hs), fun hs => ?_⟩
      rcases hc.available hr hr' hs with ⟨hpending, hsame, -⟩ | ⟨hrunning, -⟩
      · exact hsame.trans (havail hpending)
      · exact absurd hrunning hne
    · omega
  next a ha hnum := by
    rcases hc.started ha with ⟨b, hb, hkey, hstart⟩ | ⟨_, _, _, env, r₀, -, hOk, hr₀, hclaim, rfl⟩
    · rw [← hstart]
      exact h.next b hb ((congrArg Prod.snd hkey).trans hnum)
    · obtain ⟨hpending, havail, -⟩ := Run.of_claimable hclaim
      have hcount : r₀.attemptCount + 1 = n + 1 := hnum
      rw [← (h.waiting r₀ hr₀ (by omega)).2 hpending]
      exact havail.trans (hOk.within.clock .startedAt r₀.id).1

theorem updateOpen_patch {token : LeaseToken} {bind : Except DbError Unit}
    {set : Env → Attempt → Attempt} {env : Env} {snap cur : Store} {w : Patch} {n : ℕ}
    (h : (updateOpen token bind set).run env snap cur = .ok (w, n)) :
    ∃ rows, w = { updateAttempts := rows } := by
  obtain ⟨_, -, h⟩ := bind_eq_ok (mapError_eq_ok.mp h)
  obtain ⟨_, -, h⟩ := bind_eq_ok h
  obtain ⟨rfl, -⟩ := Prod.mk.inj (Except.ok.inj h)
  exact ⟨_, rfl⟩

/-- What `fail_run` has done when it answers `Retried`. -/
theorem exec_failRun_retried {s : Store} (hs : Inv s) {env : ℕ → Env} {id : RunId}
    {token : LeaseToken} {error : String} {retryable : Bool} {t : DateTime}
    (h : ((failRun id token error retryable).exec db env s s).1 = .ok (.retried t)) :
    ∃ r, lookup Run.id id s.runs = some r ∧ r.live (env 0) id token ∧
      (r.fail (env 0) retryable error).state = .pending ∧
      t.val = (env 0).clock .availableAt id + r.retryBackoff.micros ∧
      (r.fail (env 0) retryable error).availableAt = t.val ∧
      lookup Run.id id ((failRun id token error retryable).exec db env s s).2.runs =
        some (r.fail (env 0) retryable error) := by
  unfold failRun at h ⊢
  rcases hq : (failQuery id token retryable error).run (env 0) s s with e | ⟨w, b⟩
  · rw [Prog.exec_stmt_error hq] at h
    exact absurd h (by simp)
  · rw [Prog.exec_stmt_ok hq] at h ⊢
    rcases updateLive_ok hs.runIds hq with ⟨rfl, rfl⟩ | ⟨r, v, hl, hlive, -, hread, rfl, rfl⟩
    · dsimp only at h
      have hterminal : (terminal id).run (env 0) (db.apply {} s) (db.apply {} s) =
          .ok ({}, _) := rfl
      rw [Prog.exec_stmt_ok hterminal] at h
      exact absurd (Except.ok.inj h) (by split_ifs <;> simp)
    · obtain ⟨hid, -, -⟩ := Run.state_of_live hlive
      obtain ⟨d, hd, he⟩ := bind_eq_ok (show (readTimestamp _ >>= fun t => _) = _ from hread)
      obtain rfl := Except.ok.inj he
      dsimp only at h ⊢
      rcases hq' : (recordAttempt token .failed (some error)).run (env 0)
        (db.apply { runs := { update := [r.fail (env 0) retryable error] } } s)
        (db.apply { runs := { update := [r.fail (env 0) retryable error] } } s) with e | ⟨w', n⟩
      · rw [Prog.exec_stmt_error hq'] at h
        exact absurd h (by simp)
      · rw [Prog.exec_stmt_ok hq'] at h ⊢
        obtain ⟨rows, rfl⟩ := updateOpen_patch hq'
        by_cases hn : n ≠ 1
        · rw [if_pos hn] at h
          exact absurd h (by simp [Prog.exec])
        rw [if_neg hn] at h ⊢
        by_cases hleft : retryable ∧ r.attemptsLeft
        · have hstate : (r.fail (env 0) retryable error).state = .pending :=
            (Run.fail_state ..).trans (if_pos hleft)
          have havail : (r.fail (env 0) retryable error).availableAt =
              (env 0).clock .availableAt r.id + r.retryBackoff.micros := if_pos hleft
          rw [hstate] at h ⊢
          obtain rfl : d = t := by simpa [Prog.exec] using h
          have hval := readTimestamp_eq_ok hd
          refine ⟨r, hl, hlive, hstate, ?_, hval.symm, ?_⟩
          · rw [hval, havail, hid]
          · have hupdate : lookup Run.id id [r.fail (env 0) retryable error] =
                some (r.fail (env 0) retryable error) := by
              rw [lookup_cons, if_pos (show (r.fail (env 0) retryable error).id = id from hid)]
            simp [Prog.exec, Store.apply, Edit.lookup_apply, hl, hupdate]
        · have hstate : (r.fail (env 0) retryable error).state = .failed :=
            (Run.fail_state ..).trans (if_neg hleft)
          rw [hstate] at h
          exact absurd h (by simp [Prog.exec])

/-! ## Histories -/

section Histories

variable {t : Timestamp} {es : List (Event K)} {w : World}

/-- The event `e` is the claim that starts the attempt: `claim_batch` inserts its row, for a pending
run that is available by then. -/
structure Starts (w : World) (e : Event K) (a : Attempt) : Prop where
  claims : ∃ worker names limit, e.call = .claimBatch worker names limit
  absent : ∀ b ∈ w.store.attempts, b.key ≠ a.key
  present : ∃ b ∈ ((scheduler K).after w e).store.attempts,
    b.key = a.key ∧ b.startedAt = a.startedAt
  available : ∃ r ∈ w.store.runs, r.id = a.runId ∧ r.state = .pending ∧
    a.attemptNumber = r.attemptCount + 1 ∧ r.availableAt ≤ a.startedAt

/-- The claim is told from the key of the attempt and the instant at which it starts. -/
theorem Starts.of_key {e : Event K} {a b : Attempt} (h : Starts w e b) (hkey : b.key = a.key)
    (hstart : b.startedAt = a.startedAt) : Starts w e a where
  claims := h.claims
  absent := hkey ▸ h.absent
  present := hkey ▸ hstart ▸ h.present
  available := by
    obtain ⟨r, hr, hid, hpending, hnumber, hle⟩ := h.available
    exact ⟨r, hr, hid.trans (congrArg Prod.fst hkey), hpending,
      (congrArg Prod.snd hkey).symm.trans hnumber, hstart ▸ hle⟩

/-- An attempt that an event adds is started by it. -/
theorem World.Sane.starts (hw : w.Sane) {e : Event K} (he : (scheduler K).allowed w e) {a : Attempt}
    (ha : a ∈ ((scheduler K).after w e).store.attempts) :
    (∃ b ∈ w.store.attempts, b.key = a.key ∧ b.startedAt = a.startedAt) ∨ Starts w e a := by
  rcases (hw.change he a.runId).started (Store.mem_view_attempts.mpr ⟨ha, rfl⟩) with
    ⟨b, hb, hkey, hstart⟩ | ⟨worker, names, limit, env, r, hcall, hOk, hr, hclaim, hattempt⟩
  · exact Or.inl ⟨b, (Store.mem_view_attempts.mp hb).1, hkey, hstart⟩
  · obtain ⟨hpending, havail, -⟩ := Run.of_claimable hclaim
    have hnumber : a.attemptNumber = r.attemptCount + 1 := by
      rw [hattempt]
      rfl
    refine Or.inr ⟨⟨worker, names, limit, hcall⟩, fun b hb hkey => ?_, ⟨a, ha, rfl, rfl⟩, r,
      mem_of_lookup hr, key_of_lookup hr, hpending, hnumber, ?_⟩
    · -- the attempts of the run are numbered up to its count
      have hmem := Store.mem_view_attempts.mpr ⟨hb, congrArg Prod.fst hkey⟩
      have hle : b.attemptNumber ≤ r.attemptCount := (hw.inv.coupled a.runId).number_le hr hmem
      have hnum : b.attemptNumber = a.attemptNumber := congrArg Prod.snd hkey
      omega
    · rw [hattempt]
      exact havail.trans (hOk.within.clock .startedAt r.id).1

/-- Every attempt goes back to the claim that has started it. -/
theorem exists_claim (h : Reaches (scheduler K) (.initial t) es w) {a : Attempt}
    (ha : a ∈ w.store.attempts) : ∃ es₁ e es₂ w₁, es = es₁ ++ e :: es₂ ∧
      Reaches (scheduler K) (.initial t) es₁ w₁ ∧ (scheduler K).allowed w₁ e ∧ Starts w₁ e a := by
  induction h generalizing a with
  | nil => exact absurd ha List.not_mem_nil
  | @snoc es w e h he ih =>
    rcases ((World.Sane.initial t).reaches h).starts he ha with ⟨b, hb, hkey, hstart⟩ | hstarts
    · obtain ⟨es₁, e₁, es₂, w₁, rfl, h₁, he₁, hstarts⟩ := ih hb
      exact ⟨es₁, e₁, es₂ ++ [e], w₁, by simp, h₁, he₁, hstarts.of_key hkey hstart⟩
    · exact ⟨es, e, [], w, rfl, h, he, hstarts⟩

/-- The run has been deleted on the way. -/
def DeletedOn (id : RunId) (w : World) (es : List (Event K)) (w' : World) : Prop :=
  ∃ es₁ es₂ w₁, es = es₁ ++ es₂ ∧ Reaches (scheduler K) w es₁ w₁ ∧ Reaches (scheduler K) w₁ es₂ w' ∧
    lookup Run.id id w₁.store.runs = none

/-- A run whose attempt `n` is closed waits for `u` until it is deleted. -/
theorem notBefore_reaches {n : ℤ} {u : Timestamp} {id : RunId} (hw : w.Sane)
    (h : NotBefore n u (w.store.view id)) {es' : List (Event K)} {w' : World}
    (hr : Reaches (scheduler K) w es' w') :
    NotBefore n u (w'.store.view id) ∨ DeletedOn id w es' w' := by
  by_cases hnone : lookup Run.id id w.store.runs = none
  · exact Or.inr ⟨[], es', w, rfl, .nil, hr, hnone⟩
  have hinv := hr.unless (P := fun w => w.Sane ∧ lookup Run.id id w.store.runs ≠ none ∧
    NotBefore n u (w.store.view id)) (Q := fun w => lookup Run.id id w.store.runs = none)
    ⟨hw, hnone, h⟩ fun w e ⟨hw, hne, h⟩ he => ?_
  · exact hinv.imp_left fun h => h.2.2
  · obtain ⟨r, hr⟩ := Option.ne_none_iff_exists'.mp hne
    by_cases hgone : lookup Run.id id ((scheduler K).after w e).store.runs = none
    · exact Or.inr hgone
    · exact Or.inl ⟨hw.after he, hgone, h.step (hw.change he id) hr⟩

/-- **Nothing runs early.** Every attempt has started at or after `available_at` of the run that was
claimed for it; a new run is available at its requested instant, for a materialized one the cursor
of its schedule, before which its first attempt does not start; and after a retryable failure the
next attempt does not start before the instant that `fail_run` has answered, which is its reading of
the clock plus the backoff. -/
theorem nothing_runs_early (h : Reaches (scheduler K) (.initial t) es w) :
    (∀ a ∈ w.store.attempts, ∃ es₁ e es₂ w₁, es = es₁ ++ e :: es₂ ∧
      Reaches (scheduler K) (.initial t) es₁ w₁ ∧ (scheduler K).allowed w₁ e ∧ Starts w₁ e a) ∧
    (∀ e, (scheduler K).allowed w e → ∀ r ∈ ((scheduler K).after w e).store.runs,
      (∀ b ∈ w.store.runs, b.id ≠ r.id) → r.availableAt = r.scheduledFor ∧
        ((∃ taskName args options, e.call = .enqueue taskName args options ∧
          ∀ u, options.availability = .at u → r.scheduledFor = u.val) ∨
        e.call.Materializes ∧ ∃ C C', Scheduled (w.Readings e.stop) e.call w.store C C'
          ((scheduler K).after w e).store r)) ∧
    (∀ r ∈ w.store.runs, ∀ a ∈ w.store.attempts, a.runId = r.id → a.attemptNumber = 1 →
      r.scheduledFor ≤ a.startedAt) ∧
    ∀ e, (scheduler K).allowed w e → ∀ id token error retryable u,
      e.call = .failRun id token error retryable →
      (e.outcome w.store).1 = .ok (.failed (.retried u)) → ∃ r ∈ w.store.runs, r.id = id ∧
        u.val = (e.env 0).clock .availableAt id + r.retryBackoff.micros ∧
        ∀ es' w', Reaches (scheduler K) ((scheduler K).after w e) es' w' →
          (∀ a ∈ w'.store.attempts, a.runId = id → a.attemptNumber = r.attemptCount + 1 →
            u.val ≤ a.startedAt) ∨ DeletedOn id ((scheduler K).after w e) es' w' := by
  have hw : w.Sane := (World.Sane.initial t).reaches h
  refine ⟨fun a ha => exists_claim h ha, ?_, ?_, ?_⟩
  · intro e he r hr hnew
    have hl := lookup_of_mem (hw.after he).inv.runIds hr
    have hnone : (w.store.view r.id).run = none := lookup_eq_none_iff.mpr hnew
    rcases (hw.change he r.id).inserted hnone hl with
      ⟨taskName, args, options, name, json, env, hcall, hr⟩ | ⟨hm, env, job, hr⟩
    · refine ⟨by rw [hr]; rfl, Or.inl ⟨taskName, args, options, hcall, fun u hu => ?_⟩⟩
      rw [hr, enqueuedRun, hu]
      rfl
    · refine ⟨by rw [hr]; rfl, Or.inr ⟨hm, ?_⟩⟩
      have hrounds : Transacts (w.Readings e.stop) e.call w.store _ :=
        (exec_good (c := e.call) hw.inv he).2.2
      exact exists_scheduled hrounds hm hnone hl
  · intro r hr a ha hid hnum
    have hview : (w.store.view r.id).run = some r := lookup_of_mem hw.inv.runIds hr
    exact (punctual_reachable ⟨t, es, h⟩ r.id).first r hview a
      (Store.mem_view_attempts.mpr ⟨ha, hid⟩) hnum
  · intro e he id token error retryable u hcall hanswer
    have hexec := Prog.exec_map (D := db) (Answer.failed (K := K))
      (failRun id token error retryable) e.env w.store w.store
    have houtcome : e.outcome w.store =
        (((failRun id token error retryable).exec db e.env w.store w.store).1.map .failed,
          ((failRun id token error retryable).exec db e.env w.store w.store).2) := by
      rw [← hexec, Event.outcome, hcall]
      rfl
    rw [houtcome] at hanswer
    obtain ⟨x, hx, hxu⟩ := bind_eq_ok (show _ >>= (fun x => Except.ok (Answer.failed x)) = _ from
      hanswer)
    obtain rfl : x = .retried u := by simpa using hxu
    obtain ⟨r, hl, -, hstate, hval, havail, hl'⟩ := exec_failRun_retried hw.inv hx
    have hl₁ : lookup Run.id id ((scheduler K).after w e).store.runs =
        some (r.fail (e.env 0) retryable error) := by
      rw [← hl']
      exact congrArg (fun x => lookup Run.id id x.2.runs) houtcome
    have hcoupled := (hw.after he).inv.coupled id
    have hbefore : NotBefore r.attemptCount u.val (((scheduler K).after w e).store.view id) := by
      refine ⟨fun r' hr' => ?_, fun r' hr' _ => ?_, fun a ha hnum => ?_⟩
      · rw [← Option.some.inj (hl₁.symm.trans hr')]
        exact le_rfl
      · rw [← Option.some.inj (hl₁.symm.trans hr')]
        exact ⟨by simp [hstate], fun _ => havail⟩
      · have hle : a.attemptNumber ≤ r.attemptCount := hcoupled.number_le hl₁ ha
        omega
    refine ⟨r, mem_of_lookup hl, key_of_lookup hl, hval, fun es' w' hr' => ?_⟩
    refine (notBefore_reaches (hw.after he) hbefore hr').imp_left fun h a ha hid hnum => ?_
    exact h.next a (Store.mem_view_attempts.mpr ⟨ha, hid⟩) hnum

end Histories

/-- The first attempt of a task fails, and a worker claims the task again. -/
def retriedTask : List (Call .everySecond) :=
  [mail .keyed, claimMail, .failRun ⟨1⟩ ⟨2⟩ "boom" true, claimMail]

/-- The instant that a retryable failure is answered with. -/
def retriedAt : Except SchedulerError (Answer K) → Option Timestamp
  | .ok (.failed (.retried u)) => some u.val
  | _ => none

theorem exists_of_retriedAt {x : Except SchedulerError (Answer K)} {t : Timestamp}
    (h : retriedAt x = some t) : ∃ u : DateTime, x = .ok (.failed (.retried u)) ∧ u.val = t := by
  unfold retriedAt at h
  split at h
  · exact ⟨_, rfl, Option.some.inj h⟩
  · exact absurd h (by simp)

/-- The failure of the first attempt. -/
def firstFailure : Event .everySecond :=
  .next (.play [mail .keyed, claimMail]) (.failRun ⟨1⟩ ⟨2⟩ "boom" true)

theorem nothing_runs_early_retried :
    (World.play retriedTask).store.attempts.map (fun a => (a.attemptNumber, a.startedAt)) =
      [(1, 2), (2, 4)] ∧
    (∀ a ∈ (World.play retriedTask).store.attempts, ∃ es₁ e es₂ w₁,
      (World.initial 0).script retriedTask = es₁ ++ e :: es₂ ∧
      Reaches (scheduler .everySecond) (.initial 0) es₁ w₁ ∧
      (scheduler .everySecond).allowed w₁ e ∧ Starts w₁ e a) ∧
    (∀ r ∈ (World.play retriedTask).store.runs, ∀ a ∈ (World.play retriedTask).store.attempts,
      a.runId = r.id → a.attemptNumber = 1 → r.scheduledFor ≤ a.startedAt) ∧
    ∃ u : DateTime, u.val = 3 ∧ ∃ r ∈ (World.play [mail .keyed, claimMail]).store.runs, r.id = ⟨1⟩ ∧
      u.val = (firstFailure.env 0).clock .availableAt ⟨1⟩ + r.retryBackoff.micros ∧
      ∀ es' w', Reaches (scheduler .everySecond) ((scheduler .everySecond).after
          (.play [mail .keyed, claimMail]) firstFailure) es' w' →
        (∀ a ∈ w'.store.attempts, a.runId = ⟨1⟩ → a.attemptNumber = r.attemptCount + 1 →
          u.val ≤ a.startedAt) ∨
        DeletedOn ⟨1⟩ ((scheduler .everySecond).after (.play [mail .keyed, claimMail])
          firstFailure) es' w' := by
  obtain ⟨hstarts, -, hfirst, -⟩ := nothing_runs_early (play_reaches retriedTask)
  obtain ⟨-, -, -, hretried⟩ := nothing_runs_early (play_reaches [mail .keyed, claimMail])
  have hallowed : (scheduler .everySecond).allowed (.play [mail .keyed, claimMail]) firstFailure :=
    (play_numbered _).allowed _
  have hanswer : retriedAt
      (firstFailure.outcome (World.play [mail .keyed, claimMail]).store).1 = some 3 := by
    decide +kernel
  obtain ⟨u, hu, hval⟩ := exists_of_retriedAt hanswer
  exact ⟨by decide +kernel, hstarts, hfirst, u, hval,
    hretried firstFailure hallowed _ _ _ _ u rfl hu⟩

end PgTaskScheduler
