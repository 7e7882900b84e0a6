import PgTaskScheduler.FailurePaths
import PgTaskScheduler.Fencing

/-!
# Renewals extend leases

`RENEW` computes the deadline anew from the clock. No deadline lies further ahead than the lease
that was computed last, so a renewal never brings it forward.
-/

namespace PgTaskScheduler

open Tables ReadCommitted Histories

variable {K : Croner} {s : Store} {id : RunId} {token : LeaseToken} {r : Run} {env : ℕ → Env}

/-! ## No deadline lies further ahead than a lease -/

/-- The deadline of a running run is at most a lease after `t`. -/
def WithinLease (t : Timestamp) (v : RunView) : Prop :=
  ∀ r, v.run = some r → r.state = .running → ∀ e ∈ r.leaseExpiresAt, e ≤ t + r.leaseDuration.micros

/-- A deadline that has just been computed. -/
theorem withinLease_clock {lo t : Timestamp} {env : Env} {r r' : Run} {as : List Attempt}
    (henv : env.Within lo t) (hlease : r'.leaseDuration = r.leaseDuration)
    (hexpires : r'.leaseExpiresAt =
      some (env.clock .leaseExpiresAt r.id + r.leaseDuration.micros)) :
    WithinLease t ⟨some r', as⟩ := by
  intro r'' he _ e hmem
  obtain rfl := Option.some.inj he
  rw [hexpires] at hmem
  obtain rfl := Option.some.inj hmem
  rw [hlease]
  exact Int.add_le_add_right (henv.clock .leaseExpiresAt r.id).2 _

theorem withinLease_idle {t : Timestamp} {r : Run} {as : List Attempt} (h : r.state ≠ .running) :
    WithinLease t ⟨some r, as⟩ := by
  intro r' he hrun
  obtain rfl := Option.some.inj he
  exact absurd hrun h

theorem withinLease_step (w : World) (stop : Timestamp) (c : Call K) (v v' : RunView)
    (hstop : w.clock ≤ stop) (h : WithinLease w.clock v) (hc : Change (w.Readings stop) c v v') :
    WithinLease stop v' := by
  cases hc with
  | same =>
    intro r hr hrun e he
    exact (h r hr hrun e he).trans (Int.add_le_add_right hstop _)
  | enqueued => exact withinLease_idle nofun
  | materialized => exact withinLease_idle nofun
  | claimed hOk => exact withinLease_clock hOk.within rfl rfl
  | @finalized _ _ outcome => exact withinLease_idle outcome.stored_state_ne_running
  | @failed _ _ error retryable env _ r =>
    exact withinLease_idle (r.fail_state_ne_running env retryable error)
  | renewed hOk => exact withinLease_clock hOk.within rfl rfl
  | @recovered _ env r => exact withinLease_idle (r.recover_state_ne_running env)
  | cancelledPending => exact withinLease_idle nofun
  | cancelledRunning => exact withinLease_idle nofun
  | pruned => exact fun _ hr => nomatch hr

theorem withinLease_reachable {w : World} (h : w.Reachable K) (id : RunId) :
    WithinLease w.clock (w.store.view id) :=
  h.view_invariant (P := WithinLease) (fun _ _ hr => nomatch hr)
    (fun w stop c v v' hstop _ _ hP hc => withinLease_step w stop c v v' hstop hP hc) id

/-- What the CHECK says about the lease of a running run. -/
theorem Run.lease_of_check (hcheck : r.check = .ok ()) (hrun : r.state = .running) :
    ∃ start expires, r.startedAt = some start ∧ r.leaseExpiresAt = some expires ∧
      start < expires := by
  have hstate := (Run.check_eq_ok_iff.mp hcheck).2.2.2.2.2.2.2.1
  simp only [Run.stateCheck, hrun, Run.leaseAfterStart, Bool.and_eq_true, Option.any_eq_true,
    decide_eq_true_eq] at hstate
  obtain ⟨⟨⟨-, start, hstart, expires, hexpires, hlt⟩, -⟩, -⟩ := hstate
  exact ⟨start, expires, hstart, hexpires, hlt⟩

/-! ## One renewal -/

/-- A renewal fails, finds no live run, or rewrites the deadline of one. -/
theorem renewLease_cases (hs : Inv s) :
    (∃ e, ((renewLease id token).exec db env s s) = (.error e, s)) ∨
    (renewLease id token).exec db env s s = (.ok .fenced, s) ∨
    ∃ r ∈ s.runs, r.live (env 0) id token ∧ ∃ t a,
      ((renewLease id token).exec db env s s).1 = .ok (.renewed t) ∧
      t.val = (env 0).clock .leaseExpiresAt r.id + r.leaseDuration.micros ∧
      Rewritten s ((renewLease id token).exec db env s s).2 r (r.renew (env 0)) a
        { a with leaseExpiresAt := t.val } := by
  rcases hrun : (renewQuery id token).run (env 0) s s with e | ⟨w, _ | v⟩
  · exact Or.inl ⟨e, Prog.exec_stmt_error hrun⟩
  · obtain rfl := updateLive_none hrun
    refine Or.inr (Or.inl ?_)
    unfold renewLease
    rw [Prog.exec_stmt_ok hrun, db_apply, Store.apply_empty]
    rfl
  · obtain ⟨-, hnone⟩ | ⟨r, v', hl, hlive, hcheck, hread, -, -⟩ := updateLive_ok hs.runIds hrun
    · exact nomatch hnone
    · have hmem := mem_of_lookup hl
      have hv : v'.val = (env 0).clock .leaseExpiresAt r.id + r.leaseDuration.micros :=
        readTimestamp_eq_ok hread
      have hdeadline : ∀ b ∈ s.runs, b.live (env 0) id token →
          InRange ((env 0).clock .leaseExpiresAt b.id + b.leaseDuration.micros) ∧
            ∀ t ∈ b.startedAt, t < (env 0).clock .leaseExpiresAt b.id + b.leaseDuration.micros := by
        intro b hb hblive
        obtain rfl : b = r := eq_of_key hs.runIds hb hmem
          ((Run.state_of_live hblive).1.trans (Run.state_of_live hlive).1.symm)
        refine ⟨(Run.check_eq_ok_iff.mp hcheck).2.2.2.1 _ rfl, fun t ht => ?_⟩
        obtain ⟨start, expires, hstart, hexpires, hlt⟩ :=
          Run.lease_of_check hcheck (Run.state_of_live hlive).2.1
        obtain rfl : start = t := Option.some.inj (hstart.symm.trans ht)
        obtain rfl := Option.some.inj hexpires
        exact hlt
      obtain ⟨x, a, hx, ⟨t, rfl, ht⟩, hrw⟩ :=
        (renewLease_fenced hs hdeadline).live r hmem hlive (hv ▸ v'.property)
      exact Or.inr (Or.inr ⟨r, hmem, hlive, t, a, hx, ht, by rwa [ht]⟩)

/-! ## Every renewal -/

/-- What a renewal that answers `answer` does between `s` and `s'`. -/
structure Renewal (env : Env) (id : RunId) (token : LeaseToken) (s s' : Store)
    (answer : Except SchedulerError RenewalOutcome) : Prop where
  renewed : ∀ e, answer = .ok (.renewed e) → ∃ r ∈ s.runs, r.live env id token ∧
    e.val = env.clock .leaseExpiresAt id + r.leaseDuration.micros ∧
    (∃ previous, r.leaseExpiresAt = some previous ∧ previous ≤ e.val) ∧
    ∃ a, Rewritten s s' r
      { r with leaseExpiresAt := some e.val, updatedAt := env.clock .updatedAt id }
      a { a with leaseExpiresAt := e.val }
  fenced : answer = .ok .fenced → s' = s
  failed : ∀ e, answer = .error e → s' = s

/-- **A renewal never shortens a lease.** -/
theorem renewal_extends_lease {w : World} (h : w.Reachable K) :
    (∀ r ∈ w.store.runs, r.state = .running → ∃ start expires, r.startedAt = some start ∧
      r.leaseExpiresAt = some expires ∧ start < expires ∧
      expires ≤ w.clock + r.leaseDuration.micros) ∧
    ∀ id token (env : ℕ → Env) stop, (∀ n, w.Readings stop (env n)) →
      Renewal (env 0) id token w.store ((renewLease id token).exec db env w.store w.store).2
        ((renewLease id token).exec db env w.store w.store).1 := by
  have hlease : ∀ r ∈ w.store.runs, r.state = .running → ∃ start expires,
      r.startedAt = some start ∧ r.leaseExpiresAt = some expires ∧ start < expires ∧
      expires ≤ w.clock + r.leaseDuration.micros := by
    intro r hr hrun
    obtain ⟨start, expires, hstart, hexpires, hlt⟩ := Run.lease_of_check (h.inv.runsValid r hr) hrun
    exact ⟨start, expires, hstart, hexpires, hlt, withinLease_reachable h r.id r
      (lookup_of_mem h.inv.runIds hr) hrun expires hexpires⟩
  refine ⟨hlease, fun id token env stop hreadings => ?_⟩
  rcases @renewLease_cases w.store id token env h.inv with
    ⟨e, he⟩ | hfenced | ⟨r, hr, hlive, t, a, ht, htval, hrw⟩
  · rw [he]
    exact ⟨fun _ h => absurd h (by simp), fun h => absurd h (by simp), fun _ _ => rfl⟩
  · rw [hfenced]
    exact ⟨fun _ h => absurd h (by simp), fun _ => rfl, fun _ h => absurd h (by simp)⟩
  · rw [ht]
    refine ⟨fun e he => ?_, fun h => absurd h (by simp), fun _ h => absurd h (by simp)⟩
    obtain rfl : t = e := by simpa using he
    obtain ⟨rfl, hrun, -⟩ := Run.state_of_live hlive
    obtain ⟨start, expires, -, hexpires, -, hle⟩ := hlease r hr hrun
    have hclock : w.clock ≤ (env 0).clock .leaseExpiresAt r.id :=
      (hreadings 0).within.now.trans ((hreadings 0).within.clock _ _).1
    refine ⟨r, hr, hlive, htval, ⟨expires, hexpires, ?_⟩, a, ?_⟩
    · rw [htval]
      exact hle.trans (Int.add_le_add_right hclock _)
    · rw [htval] at hrw ⊢
      exact hrw

/-- The task that a worker has claimed, renewed. -/
theorem renewal_extends_lease_claimed :
    ((renewLease ⟨1⟩ ⟨2⟩).exec db (fun _ => .tick 5) World.claimed.store World.claimed.store).1 =
      .ok (.renewed ⟨300000005, by decide⟩) ∧
    (∀ r ∈ World.claimed.store.runs, r.state = .running → ∃ start expires,
      r.startedAt = some start ∧ r.leaseExpiresAt = some expires ∧ start < expires ∧
      expires ≤ World.claimed.clock + r.leaseDuration.micros) ∧
    Renewal (.tick 5) ⟨1⟩ ⟨2⟩ World.claimed.store
      ((renewLease ⟨1⟩ ⟨2⟩).exec db (fun _ => .tick 5) World.claimed.store
        World.claimed.store).2 (.ok (.renewed ⟨300000005, by decide⟩)) := by
  have hanswer : ((renewLease ⟨1⟩ ⟨2⟩).exec db (fun _ => .tick 5) World.claimed.store
      World.claimed.store).1 = .ok (.renewed ⟨300000005, by decide⟩) := by decide +kernel
  obtain ⟨hlease, hrenewal⟩ :=
    renewal_extends_lease (w := World.claimed) (play_reachable [mail .standard, claimMail])
  refine ⟨hanswer, hlease, ?_⟩
  have hreadings : ∀ _ : ℕ, World.claimed.Readings 5 (.tick 5) :=
    fun _ => (play_numbered [mail .standard, claimMail]).readings (by decide +kernel)
  have h := hrenewal ⟨1⟩ ⟨2⟩ (fun _ => .tick 5) 5 hreadings
  rwa [hanswer] at h

end PgTaskScheduler
