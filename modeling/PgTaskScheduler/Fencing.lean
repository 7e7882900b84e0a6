import PgTaskScheduler.AttemptHistory

/-!
# Lease tokens fence

An operation that carries a lease token changes the store only if the run is live under the token,
and then it changes that run and its open attempt only, provided that Diesel can load the instant
that the statement answers with. The token of a closed attempt is never again the token of a live
run, so the attempt stays as it was closed.
-/

namespace PgTaskScheduler

open Tables ReadCommitted Histories

variable {K : Croner} {s : Store} {id : RunId} {token : LeaseToken} {r : Run} {α β : Type}

/-! ## The statements, run alone -/

/-- The UPDATE of the run row finds nothing to update. -/
theorem updateLive_of_not_live {env : Env} {texts : List String} {set : Env → Run → Run}
    {read : Run → Except DbError β} (h : ∀ r ∈ s.runs, r.live env id token = false) :
    (∃ e, (updateLive id token texts set read).run env s s = .error e) ∨
      (updateLive id token texts set read).run env s s = .ok ({}, none) := by
  have hnil : targets Run.id (·.live env id token) s.runs s.runs = [] := by
    rw [targets_self, List.filter_eq_nil_iff]
    exact fun r hr => by simp [h r hr]
  simp only [updateLive, query, hnil]
  rcases checkAll bindText texts with e | ⟨⟩
  · exact Or.inl ⟨_, rfl⟩
  · exact Or.inr rfl

/-- A program that starts with the UPDATE leaves the store alone when no run is live. -/
theorem exec_of_not_live {env : ℕ → Env} {texts : List String} {set : Env → Run → Run}
    {read : Run → Except DbError β} {k : Option β → Program α} (hk : (k none).Quiet db)
    (h : ∀ r ∈ s.runs, r.live (env 0) id token = false) :
    ((Prog.stmt (updateLive id token texts set read) k).exec db env s s).2 = s := by
  have hrun : (∃ e, (updateLive id token texts set read).run (env 0) s s = .error e) ∨ _ :=
    updateLive_of_not_live h
  rcases hrun with ⟨e, he⟩ | hok
  · rw [Prog.exec_stmt_error he]
  · rw [Prog.exec_stmt_ok hok, db_apply, Store.apply_empty]
    exact hk.exec db env s

/-- The UPDATE of the run row rewrites the live run and answers with what is read of the new row. -/
theorem updateLive_of_live {env : Env} {texts : List String} {set : Env → Run → Run}
    {read : Run → Except DbError β} (hs : Inv s) (hr : r ∈ s.runs) (hlive : r.live env id token)
    (htexts : ∀ t ∈ texts, TextOk t) (hcheck : (set env r).check = .ok ()) :
    (updateLive id token texts set read).run env s s = ((read (set env r)).map fun v =>
      (({ runs := { update := [set env r] } } : Patch), some v)).mapError .database := by
  have hone : targets Run.id (·.live env id token) s.runs s.runs = [r] := by
    rw [targets_self]
    exact filter_eq_singleton hs.runIds hr hlive fun b _ hb =>
      (Run.state_of_live hb).1.trans (Run.state_of_live hlive).1.symm
  have hbind : checkAll bindText texts = .ok () :=
    checkAll_eq_ok_iff.mpr fun t ht => bindText_eq_ok_iff.mpr (htexts t ht)
  have hrows : checkAll Run.check [set env r] = .ok () :=
    checkAll_eq_ok_iff.mpr fun r' hr' => by rw [List.mem_singleton.mp hr', hcheck]
  simp only [updateLive, query, hone, List.map_cons, List.map_nil, hbind, hrows]
  rcases read (set env r) with e | v
  · rfl
  · rfl

/-- The transaction of a live run is rolled back when the new row cannot be read. -/
theorem exec_of_unread {env : ℕ → Env} {texts : List String} {set : Env → Run → Run}
    {read : Run → Except DbError β} {k : Option β → Program α} {e : DbError} (hs : Inv s)
    (hr : r ∈ s.runs) (hlive : r.live (env 0) id token) (htexts : ∀ t ∈ texts, TextOk t)
    (hcheck : (set (env 0) r).check = .ok ()) (hread : read (set (env 0) r) = .error e) :
    (Prog.stmt (updateLive id token texts set read) k).exec db env s s =
      (.error (.database e), s) := by
  refine Prog.exec_stmt_error ?_
  rw [updateLive_of_live hs hr hlive htexts hcheck, hread]
  rfl

/-- The UPDATE of the attempt row rewrites the open attempt with the token. -/
theorem updateOpen_of_open {snap cur : Store} {env : Env} {bind : Except DbError Unit}
    {set : Env → Attempt → Attempt} {a : Attempt} (hk : Keyed Attempt.leaseToken cur.attempts)
    (ha : a ∈ cur.attempts) (hsnap : a ∈ snap.attempts) (hopen : a.openWith token)
    (hbind : bind = .ok ()) (hcheck : (set env a).check = .ok ()) :
    (updateOpen token bind set).run env snap cur = .ok ({ updateAttempts := [set env a] }, 1) := by
  have hone := targets_openWith hk ha hsnap hopen
  have hrows : checkAll Attempt.check [set env a] = .ok () :=
    checkAll_eq_ok_iff.mpr fun a' ha' => by rw [List.mem_singleton.mp ha', hcheck]
  simp only [updateOpen, query, hone, List.map_cons, List.map_nil, hbind, hrows]
  rfl

/-! ## What a fenced operation does -/

/-- From `s` to `s'` the run and its open attempt are rewritten, and nothing else changes. -/
structure Rewritten (s s' : Store) (r r' : Run) (a a' : Attempt) : Prop where
  opened : s.openAttempts r.id = [a]
  run : ∃ prev, s.view r.id = ⟨some r, prev ++ [a]⟩ ∧ s'.view r.id = ⟨some r', prev ++ [a']⟩
  others : ∀ id, id ≠ r.id → s'.view id = s.view id
  runs : s'.runs = overwrite Run.id [r'] s.runs
  attempts : s'.attempts = overwrite Attempt.key [a'] s.attempts
  jobs : s'.jobs = s.jobs

/-- Both statements run, one after the other. -/
theorem exec_of_live {p : Program α} {env : ℕ → Env} {texts : List String}
    {set : Env → Run → Run} {read : Run → Except DbError β} {v : β} {bind : Except DbError Unit}
    {setAttempt : Env → Attempt → Attempt} {k : Option β → Program α} {detail : String} {x : α}
    (hp : p = .stmt (updateLive id token texts set read) k)
    (hk : k (some v) = .stmt (updateOpen token bind setAttempt) fun n =>
      if n ≠ 1 then .ret (.error (.invariant detail)) else .commit (.ret (.ok x)))
    (hs : Inv s) (hr : r ∈ s.runs) (hlive : r.live (env 0) id token)
    (htexts : ∀ t ∈ texts, TextOk t) (hcheck : (set (env 0) r).check = .ok ())
    (hread : read (set (env 0) r) = .ok v) (hbind : bind = .ok ())
    (hset : (set (env 0) r).id = r.id)
    (hattempt : ∀ a, Mirrors r a → a.check = .ok () →
      (setAttempt (env 0) a).check = .ok () ∧ (setAttempt (env 0) a).key = a.key) :
    (p.exec db env s s).1 = .ok x ∧
      ∃ a, Rewritten s (p.exec db env s s).2 r (set (env 0) r) a (setAttempt (env 0) a) := by
  subst hp
  obtain ⟨hid, hrun, htoken⟩ := Run.state_of_live hlive
  obtain ⟨prev, a, hview, -, hm, ha, harun⟩ := hs.exists_open hr hrun
  have hopen : a.openWith token := by
    have hat : a.leaseToken = token := Option.some.inj (hm.token.symm.trans htoken)
    simp [Attempt.openWith, hat, hm.isOpen]
  obtain ⟨hacheck, hakey⟩ := hattempt a hm (hs.attemptsValid a ha)
  have hattempts : (s.apply { runs := { update := [set (env 0) r] } }).attempts = s.attempts := by
    simp [Store.apply]
  have hfirst : (updateLive id token texts set read).run (env 0) s s =
      .ok ({ runs := { update := [set (env 0) r] } }, some v) := by
    rw [updateLive_of_live hs hr hlive htexts hcheck, hread]
    rfl
  have hsecond : (updateOpen token bind setAttempt).run (env 0)
      (s.apply { runs := { update := [set (env 0) r] } }) (s.apply _) = _ :=
    updateOpen_of_open (hattempts.symm ▸ hs.tokens) (hattempts.symm ▸ ha) (hattempts.symm ▸ ha)
      hopen hbind hacheck
  let w : Patch :=
    { runs := { update := [set (env 0) r] }, updateAttempts := [setAttempt (env 0) a] }
  have hexec : (Prog.stmt (updateLive id token texts set read) k).exec db env s s =
      (.ok x, s.apply w) := by
    rw [Prog.exec_stmt_ok hfirst, hk, db_apply, Prog.exec_stmt_ok hsecond, if_neg (by decide),
      ← applyAll_rewrite]
    rfl
  have hviews : ∀ id', (s.apply w).view id' =
      if id' = r.id then ⟨some (set (env 0) r), prev ++ [setAttempt (env 0) a]⟩ else s.view id' :=
    fun id' => (Store.view_apply _ s id').trans (onView_rewritten hs hview hset hakey id')
  rw [hexec]
  refine ⟨rfl, a, ?_, ⟨prev, hview, ?_⟩, fun id' hne => ?_, ?_, ?_, ?_⟩
  · obtain ⟨b, hb, -⟩ := hs.openAttempts_of_running hr hrun
    have hab : a ∈ s.openAttempts r.id :=
      List.mem_filter.mpr ⟨ha, by simp [harun, hm.isOpen]⟩
    rw [hb] at hab ⊢
    rw [List.mem_singleton.mp hab]
  · rw [hviews, if_pos rfl]
  · rw [hviews, if_neg hne]
  · simp [Store.apply, Edit.apply, w]
  · simp [Store.apply, w]
  · simp [Store.apply, w]

/-! ## What the database accepts -/

section Checks

variable {env : Env} {a : Attempt}

theorem Run.finalize_check (h : r.check = .ok ()) (o : Outcome) :
    (r.finalize env o.stored.1 o.stored.2.2).check = .ok () := by
  obtain ⟨hcount, hmax, havail, -, ⟨hnonneg, hone, hle, -⟩, hkey, hname, -, -⟩ :=
    Run.check_eq_ok_iff.mp h
  refine Run.check_eq_ok_iff.mpr ⟨hcount, hmax, havail, nofun, ⟨hnonneg, hone, hle, Or.inl ?_⟩,
    hkey, hname, ?_, nofun⟩
  · cases o <;> exact nofun
  · cases o <;> rfl

theorem Run.fail_check (h : r.check = .ok ()) (retryable : Bool) (error : String)
    (havail : InRange (r.fail env retryable error).availableAt) :
    (r.fail env retryable error).check = .ok () := by
  obtain ⟨hcount, hmax, -, -, ⟨hnonneg, hone, hle, -⟩, hkey, hname, -, -⟩ :=
    Run.check_eq_ok_iff.mp h
  refine Run.check_eq_ok_iff.mpr ⟨hcount, hmax, havail, nofun, ⟨hnonneg, hone, hle, ?_⟩,
    hkey, hname, ?_, nofun⟩
  · rw [Run.fail_state]
    split_ifs with hleft
    · exact Or.inr hleft.2
    · exact Or.inl nofun
  · unfold Run.fail
    split_ifs <;> rfl

theorem Run.renew_check (h : r.check = .ok ()) (hrun : r.state = .running)
    (hrange : InRange (env.clock .leaseExpiresAt r.id + r.leaseDuration.micros))
    (hstart : ∀ t ∈ r.startedAt, t < env.clock .leaseExpiresAt r.id + r.leaseDuration.micros) :
    (r.renew env).check = .ok () := by
  obtain ⟨hcount, hmax, havail, -, hattempts, hkey, hname, hstate, hworker⟩ :=
    Run.check_eq_ok_iff.mp h
  refine Run.check_eq_ok_iff.mpr ⟨hcount, hmax, havail, fun e he => ?_, hattempts, hkey, hname, ?_,
    hworker⟩
  · rwa [← Option.some.inj he]
  · simp only [Run.stateCheck, hrun, Run.leaseAfterStart, Bool.and_eq_true, Option.any_eq_true,
      decide_eq_true_eq] at hstate
    obtain ⟨⟨⟨⟨hw, ht⟩, t, hts, -⟩, hf⟩, he⟩ := hstate
    simp [Run.stateCheck, Run.renew, hrun, Run.leaseAfterStart, hw, ht, hts, hf, he, hstart t hts]

theorem Attempt.close_check (h : a.check = .ok ()) (o : StoredAttemptOutcome)
    (error : Option String) (he : error = none ∨ o = .failed ∨ o = .expired) :
    (a.close env o error).check = .ok () := by
  obtain ⟨hrange, -, -, hnum, hlt, hname⟩ := Attempt.check_eq_ok_iff.mp h
  refine Attempt.check_eq_ok_iff.mpr ⟨hrange, ?_, rfl, hnum, hlt, hname⟩
  rcases he with rfl | rfl | rfl <;> simp [Attempt.errorCheck, Attempt.close]

theorem Attempt.renew_check (h : a.check = .ok ()) {t : Timestamp} (hrange : InRange t)
    (hlt : a.startedAt < t) : ({ a with leaseExpiresAt := t } : Attempt).check = .ok () := by
  obtain ⟨-, herror, hterminal, hnum, -, hname⟩ := Attempt.check_eq_ok_iff.mp h
  exact Attempt.check_eq_ok_iff.mpr ⟨hrange, herror, hterminal, hnum, hlt, hname⟩

end Checks

/-! ## The three operations -/

/-- The program changes the store only if the run is live under the token. If Diesel can load the
instant of the new row, `loads`, it answers as told, and rewrites the run and its open attempt;
otherwise it fails. -/
structure Fenced (p : Program α) (env : ℕ → Env) (s : Store) (id : RunId) (token : LeaseToken)
    (loads : Run → Prop) (answers : Run → α → Prop) (set : Run → Run)
    (setAttempt : Run → Attempt → Attempt) : Prop where
  dead : (∀ r ∈ s.runs, r.live (env 0) id token = false) → (p.exec db env s s).2 = s
  live : ∀ r ∈ s.runs, r.live (env 0) id token → loads r → ∃ x a,
    (p.exec db env s s).1 = .ok x ∧ answers r x ∧
      Rewritten s (p.exec db env s s).2 r (set r) a (setAttempt r a)
  unloaded : ∀ r ∈ s.runs, r.live (env 0) id token → ¬ loads r →
    p.exec db env s s = (.error (.database .timestampTooLarge), s)

theorem Rewritten.mem {s' : Store} {r' : Run} {a a' : Attempt} (h : Rewritten s s' r r' a a') :
    a ∈ s.attempts := by
  obtain ⟨prev, hview, -⟩ := h.run
  exact (Store.mem_view_attempts.mp (by rw [hview]; simp)).1

theorem Rewritten.mirrors {s' : Store} {r' : Run} {a a' : Attempt}
    (h : Rewritten s s' r r' a a') (hs : Inv s) (hr : r ∈ s.runs) (hrun : r.state = .running) :
    Mirrors r a := by
  obtain ⟨prev, hview, -⟩ := h.run
  obtain ⟨prev', b, hview', -, hm, -⟩ := hs.exists_open hr hrun
  obtain ⟨-, heq⟩ := RunView.mk.inj (hview.symm.trans hview')
  obtain ⟨-, hab⟩ := List.append_inj' heq rfl
  rwa [List.singleton_inj.mp hab]

/-- Rewriting the run changes the store, unless the row and its attempt are as they were. -/
theorem Rewritten.ne_iff {s' : Store} {r' : Run} {a a' : Attempt}
    (h : Rewritten s s' r r' a a') (hs : Inv s) (hr : r ∈ s.runs) (ha : r' = r → a' = a) :
    s' ≠ s ↔ r' ≠ r := by
  refine not_congr ⟨?_, fun hrow => ?_⟩
  · rintro rfl
    obtain ⟨prev, hview, hview'⟩ := h.run
    exact Option.some.inj (RunView.mk.inj (hview'.symm.trans hview)).1
  · have hruns : s'.runs = s.runs := by rw [h.runs, hrow, overwrite_self hs.runIds hr]
    have hattempts : s'.attempts = s.attempts := by
      rw [h.attempts, ha hrow, overwrite_self hs.attemptKeys h.mem]
    rcases s with ⟨jobs, runs, attempts⟩
    rcases s' with ⟨jobs', runs', attempts'⟩
    exact Store.mk.injEq .. |>.mpr ⟨h.jobs, hruns, hattempts⟩

section Changes

variable {p : Program α} {env : ℕ → Env} {loads : Run → Prop} {answers : Run → α → Prop}
  {set : Run → Run} {setAttempt : Run → Attempt → Attempt}

/-- A fenced operation changes the store exactly when the run is live, its new instant is loaded and
its new row is another. -/
theorem Fenced.ne_iff (h : Fenced p env s id token loads answers set setAttempt) (hs : Inv s)
    (hsame : ∀ r a, r.state = .running → Mirrors r a → set r = r → setAttempt r a = a) :
    (p.exec db env s s).2 ≠ s ↔
      ∃ r ∈ s.runs, r.live (env 0) id token ∧ loads r ∧ set r ≠ r := by
  have hlive_iff : ∀ r ∈ s.runs, r.live (env 0) id token → loads r →
      ((p.exec db env s s).2 ≠ s ↔ set r ≠ r) := by
    intro r hr hlive hloads
    obtain ⟨x, a, -, -, hrw⟩ := h.live r hr hlive hloads
    have hrun := (Run.state_of_live hlive).2.1
    exact hrw.ne_iff hs hr (hsame r a hrun (hrw.mirrors hs hr hrun))
  constructor
  · intro hne
    obtain ⟨r, hr, hlive⟩ : ∃ r ∈ s.runs, r.live (env 0) id token := by
      by_contra hnone
      refine hne (h.dead fun r hr => ?_)
      by_contra hlive
      exact hnone ⟨r, hr, by simpa using hlive⟩
    have hloads : loads r := by
      by_contra hnot
      exact hne (congrArg Prod.snd (h.unloaded r hr hlive hnot))
    exact ⟨r, hr, hlive, hloads, (hlive_iff r hr hlive hloads).mp hne⟩
  · rintro ⟨r, hr, hlive, hloads, hrow⟩
    exact (hlive_iff r hr hlive hloads).mpr hrow

/-- An operation that ends the attempt leaves another row whenever it changes one. -/
theorem Fenced.ne_iff_of_ends (h : Fenced p env s id token loads answers set setAttempt)
    (hs : Inv s) (hset : ∀ r, (set r).state ≠ .running) :
    (p.exec db env s s).2 ≠ s ↔ ∃ r ∈ s.runs, r.live (env 0) id token ∧ loads r := by
  have hrow : ∀ r, r.state = .running → set r ≠ r := fun r hrun he => hset r (by rw [he, hrun])
  rw [h.ne_iff hs fun r a hrun _ he => absurd he (hrow r hrun)]
  refine exists_congr fun r => and_congr_right fun hr => and_congr_right fun hlive => ?_
  exact and_iff_left (hrow r (Run.state_of_live hlive).2.1)

end Changes

theorem quiet_terminal {f : Bool → α} :
    (Prog.stmt (terminal id) fun t => .commit (.ret (.ok (f t)))).Quiet db :=
  quiet_readQuery fun _ => trivial

theorem finalizeRun_fenced (hs : Inv s) {env : ℕ → Env} {outcome : Outcome}
    (htext : ∀ t ∈ outcome.stored.2.2, TextOk t) :
    Fenced (finalizeRun id token outcome) env s id token (fun _ => True) (fun _ x => x = .applied)
      (Run.finalize (env 0) outcome.stored.1 outcome.stored.2.2)
      (fun _ => Attempt.close (env 0) outcome.stored.2.1 outcome.stored.2.2) where
  dead h := exec_of_not_live quiet_terminal h
  live r hr hlive _ := by
    have htexts : ∀ t ∈ outcome.stored.2.2.toList, TextOk t := fun t ht =>
      htext t (by simpa using ht)
    obtain ⟨hanswer, a, hrw⟩ := exec_of_live (p := finalizeRun id token outcome) rfl rfl hs hr
      hlive htexts (Run.finalize_check (hs.runsValid r hr) outcome) rfl
      (checkAll_eq_ok_iff.mpr fun t ht => bindText_eq_ok_iff.mpr (htexts t ht)) rfl
      fun a _ ha => ⟨Attempt.close_check ha _ _ (by cases outcome <;> simp), rfl⟩
    exact ⟨_, a, hanswer, rfl, hrw⟩
  unloaded _ _ _ h := absurd trivial h

theorem failRun_fenced (hs : Inv s) {env : ℕ → Env} {error : String} {retryable : Bool}
    (htext : TextOk error) (havail : ∀ r ∈ s.runs, r.live (env 0) id token →
      InRange (r.fail (env 0) retryable error).availableAt) :
    Fenced (failRun id token error retryable) env s id token
      (fun r => Decodable (r.fail (env 0) retryable error).availableAt)
      (fun r x => if retryable ∧ r.attemptsLeft
        then ∃ t, x = .retried t ∧ t.val = (r.fail (env 0) retryable error).availableAt
        else x = .failed)
      (Run.fail (env 0) retryable error)
      (fun _ => Attempt.close (env 0) .failed (some error)) := by
  have htexts : ∀ t ∈ [error], TextOk t := fun t ht => by rwa [List.mem_singleton.mp ht]
  have hcheck : ∀ r ∈ s.runs, r.live (env 0) id token →
      (r.fail (env 0) retryable error).check = .ok () := fun r hr hlive =>
    Run.fail_check (hs.runsValid r hr) retryable error (havail r hr hlive)
  refine ⟨exec_of_not_live quiet_terminal, fun r hr hlive hdec => ?_, fun r hr hlive hdec =>
    exec_of_unread hs hr hlive htexts (hcheck r hr hlive) ?_⟩
  · have hread : readFailure (r.fail (env 0) retryable error) =
        .ok ((r.fail (env 0) retryable error).state, ⟨_, hdec⟩) := by
      rw [readFailure, readTimestamp_of_decodable hdec]
      rfl
    have hbind : checkAll bindText [error] = .ok () :=
      checkAll_eq_ok_iff.mpr fun t ht => bindText_eq_ok_iff.mpr (htexts t ht)
    rw [Run.fail_state] at hread
    by_cases hleft : retryable ∧ r.attemptsLeft
    · rw [if_pos hleft] at hread
      obtain ⟨hanswer, a, hrw⟩ := exec_of_live (p := failRun id token error retryable) rfl rfl hs
        hr hlive htexts (hcheck r hr hlive) hread hbind rfl
        fun a _ ha => ⟨Attempt.close_check ha _ _ (Or.inr (Or.inl rfl)), rfl⟩
      exact ⟨_, a, hanswer, by rw [if_pos hleft]; exact ⟨_, rfl, rfl⟩, hrw⟩
    · rw [if_neg hleft] at hread
      obtain ⟨hanswer, a, hrw⟩ := exec_of_live (p := failRun id token error retryable) rfl rfl hs
        hr hlive htexts (hcheck r hr hlive) hread hbind rfl
        fun a _ ha => ⟨Attempt.close_check ha _ _ (Or.inr (Or.inl rfl)), rfl⟩
      exact ⟨_, a, hanswer, by rw [if_neg hleft], hrw⟩
  · rw [readFailure, readTimestamp_of_not_decodable hdec]
    rfl

theorem renewLease_fenced (hs : Inv s) {env : ℕ → Env}
    (hdeadline : ∀ r ∈ s.runs, r.live (env 0) id token →
      InRange ((env 0).clock .leaseExpiresAt r.id + r.leaseDuration.micros) ∧
        ∀ t ∈ r.startedAt, t < (env 0).clock .leaseExpiresAt r.id + r.leaseDuration.micros) :
    Fenced (renewLease id token) env s id token
      (fun r => Decodable ((env 0).clock .leaseExpiresAt r.id + r.leaseDuration.micros))
      (fun r x => ∃ t, x = .renewed t ∧
        t.val = (env 0).clock .leaseExpiresAt r.id + r.leaseDuration.micros)
      (Run.renew (env 0)) (fun r a => { a with
        leaseExpiresAt := (env 0).clock .leaseExpiresAt r.id + r.leaseDuration.micros }) := by
  have hcheck : ∀ r ∈ s.runs, r.live (env 0) id token → (r.renew (env 0)).check = .ok () :=
    fun r hr hlive => Run.renew_check (hs.runsValid r hr) (Run.state_of_live hlive).2.1
      (hdeadline r hr hlive).1 (hdeadline r hr hlive).2
  refine ⟨exec_of_not_live trivial, fun r hr hlive hdec => ?_, fun r hr hlive hdec =>
    exec_of_unread hs hr hlive nofun (hcheck r hr hlive) ?_⟩
  · obtain ⟨hrange, hstart⟩ := hdeadline r hr hlive
    have hread : readRenewal (r.renew (env 0)) = .ok ⟨_, hdec⟩ := readTimestamp_of_decodable hdec
    obtain ⟨hanswer, a, hrw⟩ := exec_of_live (p := renewLease id token) rfl rfl hs hr hlive nofun
      (hcheck r hr hlive) hread (if_pos hrange) rfl
      fun a hm ha => ⟨Attempt.renew_check ha hrange (hstart _ hm.started), rfl⟩
    exact ⟨_, a, hanswer, ⟨_, rfl, rfl⟩, hrw⟩
  · exact readTimestamp_of_not_decodable hdec

/-! ## Tokens of closed attempts -/

/-- No attempt but `a` has its token, nor can one be inserted with it. -/
def Frozen (a : Attempt) (w : World) : Prop :=
  a.leaseToken ∈ w.spent ∧ ∀ b ∈ w.store.attempts, b.leaseToken = a.leaseToken → b = a

section Frozen

variable {w w' : World} {e : Event K} {es : List (Event K)} {a : Attempt}

theorem World.Sane.frozen (hw : w.Sane) (ha : a ∈ w.store.attempts) : Frozen a w :=
  ⟨hw.spent a ha, fun _ hb ht => eq_of_key hw.inv.tokens hb ha ht⟩

/-- A closed attempt is never rewritten, and its token is not drawn again. -/
theorem Frozen.after (h : Frozen a w) (hclosed : a.isOpen = false) (hw : w.Sane)
    (he : (scheduler K).allowed w e) : Frozen a ((scheduler K).after w e) := by
  refine ⟨Or.inl h.1, fun b hb ht => ?_⟩
  rcases (hw.change he b.runId).attempt b (Store.mem_view_attempts.mpr ⟨hb, rfl⟩) with
    hold | ⟨b₀, hb₀, hopen, -, ht₀⟩ | ⟨env, r, hOk, -, ht'⟩
  · exact h.2 b (Store.mem_view_attempts.mp hold).1 ht
  · obtain rfl := h.2 b₀ (Store.mem_view_attempts.mp hb₀).1 (ht₀.trans ht)
    exact nomatch hclosed.symm.trans hopen
  · exact absurd (by rw [← ht', ht]; exact h.1) (hOk.token r.id)

theorem Frozen.reaches (h : Frozen a w) (hclosed : a.isOpen = false) (hw : w.Sane)
    (hr : Reaches (scheduler K) w es w') : Frozen a w' :=
  (hr.invariant (P := fun w => w.Sane ∧ Frozen a w) ⟨hw, h⟩
    fun _ _ hw he => ⟨hw.1.after he, hw.2.after hclosed hw.1 he⟩).2

/-- No run is live under the token of a closed attempt. -/
theorem Frozen.not_live (h : Frozen a w) (hclosed : a.isOpen = false) (hw : w.Sane) {env : Env}
    {id : RunId} : ∀ r ∈ w.store.runs, r.live env id a.leaseToken = false := by
  intro r hr
  by_contra hlive
  obtain ⟨-, hrun, ht⟩ := Run.state_of_live (Bool.not_eq_false _ ▸ hlive)
  obtain ⟨prev, b, -, -, hm, hb, -⟩ := hw.inv.exists_open hr hrun
  obtain rfl := h.2 b hb (Option.some.inj (hm.token.symm.trans ht))
  exact nomatch hclosed.symm.trans hm.isOpen

end Frozen

/-- The operations that close an attempt: completion or failure under its token, recovery, and
cancellation of its run. -/
def Call.Closes (c : Call K) (a : Attempt) : Prop :=
  (∃ id outcome, c = .finalizeRun id a.leaseToken outcome) ∨
  (∃ id error retryable, c = .failRun id a.leaseToken error retryable) ∨
  (∃ limit, c = .recoverExpired limit) ∨ c = .cancel a.runId

/-- A closed attempt that was not there before was open, and was closed by one of these. -/
theorem Change.closes {Ok : Env → Prop} {c : Call K} {v v' : RunView} (h : Change Ok c v v')
    {a : Attempt} (hid : ∀ r, v.run = some r → r.id = a.runId) (ha : a ∈ v'.attempts)
    (hnew : a ∉ v.attempts) (hclosed : a.isOpen = false) :
    ∃ b ∈ v.attempts, b.isOpen ∧ b.key = a.key ∧ b.leaseToken = a.leaseToken ∧ c.Closes a := by
  have htoken : ∀ {token : LeaseToken} {b : Attempt}, b.openWith token →
      b.isOpen ∧ b.leaseToken = token := fun hb => by
    simp only [Attempt.openWith, Bool.and_eq_true, decide_eq_true_eq] at hb
    exact ⟨hb.2, hb.1⟩
  have hlast : ∀ {prev : List Attempt} {b b' : Attempt}, a ∈ prev ++ [b'] → a ∉ prev ++ [b] →
      a = b' := by
    intro prev b b' hmem hnot
    rcases List.mem_append.mp hmem with hmem | hmem
    · exact absurd (List.mem_append_left _ hmem) hnot
    · exact List.mem_singleton.mp hmem
  cases h with
  | same => exact absurd ha hnew
  | enqueued => exact absurd ha List.not_mem_nil
  | materialized => exact absurd ha List.not_mem_nil
  | claimed =>
    rcases List.mem_append.mp ha with ha | ha
    · exact absurd ha hnew
    · rw [List.mem_singleton.mp ha] at hclosed
      exact absurd hclosed.symm Bool.false_ne_true
  | finalized _ _ _ hb =>
    obtain rfl := hlast ha hnew
    obtain ⟨hopen, ht⟩ := htoken hb
    exact ⟨_, by simp, hopen, rfl, rfl, Or.inl ⟨_, _, by rw [← ht]; rfl⟩⟩
  | failed _ _ _ hb =>
    obtain rfl := hlast ha hnew
    obtain ⟨hopen, ht⟩ := htoken hb
    exact ⟨_, by simp, hopen, rfl, rfl, Or.inr (Or.inl ⟨_, _, _, by rw [← ht]; rfl⟩)⟩
  | renewed _ _ hb =>
    obtain rfl := hlast ha hnew
    exact absurd (hclosed.symm.trans (htoken hb).1) Bool.false_ne_true
  | recovered _ _ hb =>
    obtain rfl := hlast ha hnew
    exact ⟨_, by simp, hb, rfl, rfl, Or.inr (Or.inr (Or.inl ⟨_, rfl⟩))⟩
  | cancelledPending => exact absurd ha hnew
  | cancelledRunning _ hr _ hb =>
    obtain rfl := hlast ha hnew
    exact ⟨_, by simp, hb, rfl, rfl, Or.inr (Or.inr (Or.inr (by rw [← hr, hid _ rfl])))⟩
  | pruned => exact absurd ha List.not_mem_nil

theorem exists_closing {t : Timestamp} {es : List (Event K)} {w : World}
    (h : Reaches (scheduler K) (.initial t) es w) {a : Attempt} (ha : a ∈ w.store.attempts)
    (hclosed : a.isOpen = false) : ∃ es₁ e es₂ w₁, es = es₁ ++ e :: es₂ ∧
      Reaches (scheduler K) (.initial t) es₁ w₁ ∧
      Reaches (scheduler K) ((scheduler K).after w₁ e) es₂ w ∧
      e.call.Closes a ∧ a ∈ ((scheduler K).after w₁ e).store.attempts ∧
      ∃ b ∈ w₁.store.attempts, b.isOpen ∧ b.key = a.key ∧ b.leaseToken = a.leaseToken := by
  rcases h.last_change fun w => a ∈ w.store.attempts with hsame | ⟨es₁, e, es₂, w₁, he, h₁,
    hallowed, hne, heq, h₂⟩
  · exact nomatch (hsame ▸ ha : a ∈ (World.initial t).store.attempts)
  · have hafter : a ∈ ((scheduler K).after w₁ e).store.attempts := heq ▸ ha
    have hw₁ : w₁.Sane := (World.Sane.initial t).reaches h₁
    have hnew : a ∉ w₁.store.attempts := fun h => hne (propext (iff_of_true h ha))
    obtain ⟨b, hb, hopen, hkey, ht, hcloses⟩ := (hw₁.change hallowed a.runId).closes
      (fun r hr => key_of_lookup hr) (Store.mem_view_attempts.mpr ⟨hafter, rfl⟩)
      (fun h => hnew (Store.mem_view_attempts.mp h).1) hclosed
    exact ⟨es₁, e, es₂, w₁, he, h₁, h₂, hcloses, hafter, b, (Store.mem_view_attempts.mp hb).1,
      hopen, hkey, ht⟩

/-- **Lease tokens fence.** With values that the database accepts, `finalize_run`, `fail_run` and
`renew_lease` change the store if and only if the run is live under the token, Diesel can load the
instant that the statement answers with and, for a renewal, the instants written are not those that
are there; they change only that run and its open attempt. Every closed attempt was closed by one
operation, and from then on it stays as it is and no operation that carries its token changes
anything. -/
theorem token_fencing {t : Timestamp} {es : List (Event K)} {w : World}
    (h : Reaches (scheduler K) (.initial t) es w) :
    (∀ (env : ℕ → Env) (stop : Timestamp), (env 0).Within w.clock stop → ∀ id token,
      (∀ outcome : Outcome, (∀ text ∈ outcome.stored.2.2, TextOk text) →
        Fenced (finalizeRun id token outcome) env w.store id token (fun _ => True)
          (fun _ x => x = .applied)
          (Run.finalize (env 0) outcome.stored.1 outcome.stored.2.2)
          (fun _ => Attempt.close (env 0) outcome.stored.2.1 outcome.stored.2.2) ∧
        (((finalizeRun id token outcome).exec db env w.store w.store).2 ≠ w.store ↔
          ∃ r ∈ w.store.runs, r.live (env 0) id token)) ∧
      (∀ error retryable, TextOk error →
        (∀ r ∈ w.store.runs, r.live (env 0) id token →
          InRange (r.fail (env 0) retryable error).availableAt) →
        Fenced (failRun id token error retryable) env w.store id token
          (fun r => Decodable (r.fail (env 0) retryable error).availableAt)
          (fun r x => if retryable ∧ r.attemptsLeft
            then ∃ t, x = .retried t ∧ t.val = (r.fail (env 0) retryable error).availableAt
            else x = .failed)
          (Run.fail (env 0) retryable error)
          (fun _ => Attempt.close (env 0) .failed (some error)) ∧
        (((failRun id token error retryable).exec db env w.store w.store).2 ≠ w.store ↔
          ∃ r ∈ w.store.runs, r.live (env 0) id token ∧
            Decodable (r.fail (env 0) retryable error).availableAt)) ∧
      ((∀ r ∈ w.store.runs, r.live (env 0) id token →
          InRange ((env 0).clock .leaseExpiresAt r.id + r.leaseDuration.micros)) →
        Fenced (renewLease id token) env w.store id token
          (fun r => Decodable ((env 0).clock .leaseExpiresAt r.id + r.leaseDuration.micros))
          (fun r x => ∃ t, x = .renewed t ∧
            t.val = (env 0).clock .leaseExpiresAt r.id + r.leaseDuration.micros)
          (Run.renew (env 0)) (fun r a => { a with
            leaseExpiresAt := (env 0).clock .leaseExpiresAt r.id + r.leaseDuration.micros }) ∧
        (((renewLease id token).exec db env w.store w.store).2 ≠ w.store ↔
          ∃ r ∈ w.store.runs, r.live (env 0) id token ∧
            Decodable ((env 0).clock .leaseExpiresAt r.id + r.leaseDuration.micros) ∧
            r.renew (env 0) ≠ r))) ∧
    ∀ a ∈ w.store.attempts, a.isOpen = false →
      (∃ es₁ e es₂ w₁, es = es₁ ++ e :: es₂ ∧ Reaches (scheduler K) (.initial t) es₁ w₁ ∧
        Reaches (scheduler K) ((scheduler K).after w₁ e) es₂ w ∧ e.call.Closes a ∧
        a ∈ ((scheduler K).after w₁ e).store.attempts ∧
        ∃ b ∈ w₁.store.attempts, b.isOpen ∧ b.key = a.key ∧ b.leaseToken = a.leaseToken) ∧
      ∀ es' w', Reaches (scheduler K) w es' w' →
        (∀ b ∈ w'.store.attempts, b.leaseToken = a.leaseToken → b = a) ∧
        ∀ env id,
          (∀ outcome, ((finalizeRun id a.leaseToken outcome).exec db env w'.store w'.store).2 =
            w'.store) ∧
          (∀ error retryable,
            ((failRun id a.leaseToken error retryable).exec db env w'.store w'.store).2 =
              w'.store) ∧
          ((renewLease id a.leaseToken).exec db env w'.store w'.store).2 = w'.store := by
  have hw : w.Reachable K := ⟨t, es, h⟩
  refine ⟨fun env stop hwithin id token => ⟨fun outcome htext => ?_,
    fun error retryable htext havail => ?_, fun hdeadline => ?_⟩, fun a ha hclosed =>
    ⟨exists_closing h ha hclosed, fun es' w' hreach => ?_⟩⟩
  · have hfenced : Fenced (finalizeRun id token outcome) env w.store id token _ _ _ _ :=
      finalizeRun_fenced hw.inv htext
    refine ⟨hfenced, (hfenced.ne_iff_of_ends hw.inv fun r =>
      outcome.stored_state_ne_running).trans ?_⟩
    simp only [and_true]
  · have hfenced := failRun_fenced hw.inv htext havail
    exact ⟨hfenced, hfenced.ne_iff_of_ends hw.inv fun r => Run.fail_state_ne_running _ _ _ r⟩
  · have hstart : ∀ r ∈ w.store.runs, r.live (env 0) id token → ∀ start ∈ r.startedAt,
        start < (env 0).clock .leaseExpiresAt r.id + r.leaseDuration.micros := by
      intro r hr hlive start hstart
      -- the clock has passed the start of the attempt, and a lease is positive
      obtain ⟨prev, a, hview, -, hm, -, -⟩ := hw.inv.exists_open hr (Run.state_of_live hlive).2.1
      have hstarted := (hw.chronicle r.id).started a (by rw [hview]; simp)
      obtain rfl := Option.some.inj (hm.started.symm.trans hstart)
      calc a.startedAt ≤ w.clock := hstarted
        _ ≤ (env 0).clock .leaseExpiresAt r.id := (hwithin.clock_bounds .leaseExpiresAt r.id).1
        _ < _ := Int.lt_add_of_pos_right _ r.leaseDuration.micros_pos
    have hfenced := renewLease_fenced hw.inv fun r hr hlive =>
      ⟨hdeadline r hr hlive, hstart r hr hlive⟩
    refine ⟨hfenced, hfenced.ne_iff hw.inv fun r a _ hm hrow => ?_⟩
    -- the deadline of the attempt is that of its run
    have hexpires : some a.leaseExpiresAt = (r.renew (env 0)).leaseExpiresAt := by
      rw [hrow, hm.expires]
    rw [← Option.some.inj hexpires]
  · have hw' := hw.sane.reaches hreach
    have hfrozen := (hw.sane.frozen ha).reaches hclosed hw.sane hreach
    have hdead : ∀ (env : Env) (id : RunId), ∀ r ∈ w'.store.runs,
        r.live env id a.leaseToken = false := fun env id => hfrozen.not_live hclosed hw'
    exact ⟨hfrozen.2, fun env id => ⟨fun outcome => exec_of_not_live quiet_terminal (hdead _ _),
      fun error retryable => exec_of_not_live quiet_terminal (hdead _ _),
      exec_of_not_live trivial (hdead _ _)⟩⟩

/-- A worker completes a task while it holds the lease; afterwards its token is dead. -/
def completedTask : List (Call .everySecond) := [
  mail .standard,
  claimMail,
  .finalizeRun ⟨1⟩ ⟨2⟩ .completed]

theorem token_fencing_completed :
    ((finalizeRun ⟨1⟩ ⟨2⟩ .completed).exec db (fun _ => .tick 3) World.claimed.store
      World.claimed.store).2 ≠ World.claimed.store ∧
    ((renewLease ⟨1⟩ ⟨2⟩).exec db (fun _ => .tick 3) World.claimed.store
      World.claimed.store).2 ≠ World.claimed.store ∧
    (World.play completedTask).store.attempts.map Attempt.isOpen = [false] ∧
    ∀ a ∈ (World.play completedTask).store.attempts, a.isOpen = false → ∀ env id,
      ((renewLease id a.leaseToken).exec db env (World.play completedTask).store
        (World.play completedTask).store).2 = (World.play completedTask).store := by
  have hwithin : (Env.tick 3).Within World.claimed.clock 3 :=
    ⟨by decide +kernel, fun _ _ => ⟨le_rfl, le_rfl⟩⟩
  have hclaimed := (token_fencing (play_reaches _)).1 (fun _ => .tick 3) 3 hwithin ⟨1⟩ ⟨2⟩
  refine ⟨?_, ?_, by decide +kernel, fun a ha hclosed env id => ?_⟩
  · refine (hclaimed.1 .completed nofun).2.mpr ?_
    decide +kernel
  · refine (hclaimed.2.2 (by decide +kernel)).2.mpr ?_
    decide +kernel
  · exact ((((token_fencing (play_reaches completedTask)).2 a ha hclosed).2 [] _ .nil).2
      env id).2.2

/-- A retry of this task is due in the year 262143. -/
def EnqueueOptions.farBackoff : EnqueueOptions :=
  { EnqueueOptions.standard with retryBackoff := ⟨8209320192000000000, by decide⟩ }

/-- PostgreSQL stores the instant of the retry and Diesel cannot load it: the run stays as it is. -/
theorem live_failure_rolled_back : ¬ ∀ (w : World), w.Reachable .everySecond →
    ∀ (env : ℕ → Env) (stop : Timestamp), (env 0).Within w.clock stop →
    ∀ id token error retryable, TextOk error →
      (∀ r ∈ w.store.runs, r.live (env 0) id token →
        InRange (r.fail (env 0) retryable error).availableAt) →
      (((failRun id token error retryable).exec db env w.store w.store).2 ≠ w.store ↔
        ∃ r ∈ w.store.runs, r.live (env 0) id token) := by
  intro hall
  have hreach : (World.play [mail .farBackoff, claimMail]).Reachable .everySecond :=
    play_reachable _
  obtain ⟨r, hr, hlive, hdec⟩ : ∃ r ∈ (World.play [mail .farBackoff, claimMail]).store.runs,
      r.live (.tick 3) ⟨1⟩ ⟨2⟩ ∧ ¬ Decodable (r.fail (.tick 3) true "unreachable").availableAt := by
    decide +kernel
  have hrange : ∀ r ∈ (World.play [mail .farBackoff, claimMail]).store.runs,
      r.live (.tick 3) ⟨1⟩ ⟨2⟩ → InRange (r.fail (.tick 3) true "unreachable").availableAt := by
    decide +kernel
  have htext : TextOk "unreachable" := by decide
  have hfenced := @failRun_fenced _ ⟨1⟩ ⟨2⟩ hreach.inv (fun _ => .tick 3) _ _ htext hrange
  have hsame := hfenced.unloaded r hr hlive hdec
  refine (hall _ hreach (fun _ => .tick 3) 3 ⟨by decide +kernel, fun _ _ => ⟨le_rfl, le_rfl⟩⟩ _ _ _
    _ htext hrange).mpr ⟨r, hr, hlive⟩ (congrArg Prod.snd hsame)

end PgTaskScheduler
