import PgTaskScheduler.Coupling

/-!
# The retry budget is exact

A run is claimed as often as its attempt count says, at most `max_attempts` times. After a retryable
failure or an expired lease it is retried exactly while attempts are left, and it is dead-lettered
only by the operations that may do so.
-/

namespace PgTaskScheduler

open Tables ReadCommitted Histories

variable {K : Croner}

/-! ## Counting claims -/

/-- The number of claims of a run after one more event: a claim moves it from pending to running. -/
def tally (id : RunId) (w : World) (e : Event K) (n : ℕ) : ℕ :=
  match lookup Run.id id ((scheduler K).after w e).store.runs with
  | none => 0
  | some r' =>
    if r'.state = .running ∧ (lookup Run.id id w.store.runs).any (fun r => r.state = .pending)
    then n + 1 else n

/-- How often the events claim a run, since it was inserted. -/
def timesClaimed (id : RunId) (w : World) (es : List (Event K)) : ℕ :=
  (es.foldl (fun p e => ((scheduler K).after p.1 e, tally id p.1 e p.2)) (w, 0)).2

theorem foldl_tally_fst {w w' : World} {es : List (Event K)} (id : RunId)
    (h : Reaches (scheduler K) w es w') :
    (es.foldl (fun p e => ((scheduler K).after p.1 e, tally id p.1 e p.2)) (w, 0)).1 = w' := by
  induction h with
  | nil => rfl
  | snoc _ _ ih => rw [List.foldl_append, List.foldl_cons, List.foldl_nil, ih]

theorem timesClaimed_snoc {w w' : World} {es : List (Event K)} {id : RunId} (e : Event K)
    (h : Reaches (scheduler K) w es w') :
    timesClaimed id w (es ++ [e]) = tally id w' e (timesClaimed id w es) := by
  unfold timesClaimed
  rw [List.foldl_append, List.foldl_cons, List.foldl_nil, foldl_tally_fst id h]

/-- What a change does to the attempt count of a run that has one. -/
theorem Change.attemptCount {Ok : Env → Prop} {c : Call K} {v v' : RunView}
    (h : Change Ok c v v') {r' : Run} (hr' : v'.run = some r') :
    r'.attemptCount = v.run.elim 0 Run.attemptCount +
      if r'.state = .running ∧ v.run.any (fun r => r.state = .pending) then 1 else 0 := by
  have hne : ∀ {n : ℤ} {p : Prop} [Decidable p], ¬ p → n = n + if p then 1 else 0 :=
    fun hp => by rw [if_neg hp, Int.add_zero]
  cases h with
  | same =>
    rw [hr']
    refine hne fun ⟨hs, hp⟩ => ?_
    simp [hs] at hp
  | enqueued =>
    obtain rfl := Option.some.inj hr'
    exact hne fun h => nomatch h.1
  | materialized =>
    obtain rfl := Option.some.inj hr'
    exact hne fun h => nomatch h.1
  | claimed _ hr =>
    obtain rfl := Option.some.inj hr'
    rw [if_pos ⟨rfl, by simpa using (Run.of_claimable hr).1⟩]
    rfl
  | finalized _ _ hr =>
    obtain rfl := Option.some.inj hr'
    refine hne fun ⟨_, hp⟩ => ?_
    simp [(Run.state_of_live hr).2.1] at hp
  | failed _ _ hr =>
    obtain rfl := Option.some.inj hr'
    refine hne fun ⟨_, hp⟩ => ?_
    simp [(Run.state_of_live hr).2.1] at hp
  | renewed _ hr =>
    obtain rfl := Option.some.inj hr'
    refine hne fun ⟨_, hp⟩ => ?_
    simp [(Run.state_of_live hr).2.1] at hp
  | recovered _ hr =>
    obtain rfl := Option.some.inj hr'
    refine hne fun ⟨_, hp⟩ => ?_
    simp [Run.state_of_expired hr] at hp
  | cancelledPending =>
    obtain rfl := Option.some.inj hr'
    exact hne fun h => nomatch h.1
  | cancelledRunning =>
    obtain rfl := Option.some.inj hr'
    exact hne fun h => nomatch h.1
  | pruned => exact nomatch hr'

/-- **A run has been claimed as often as its attempt count says.** -/
theorem timesClaimed_eq {t : Timestamp} {es : List (Event K)} {w : World}
    (h : Reaches (scheduler K) (.initial t) es w) (id : RunId) :
    (timesClaimed id (.initial t) es : ℤ) =
      (lookup Run.id id w.store.runs).elim 0 Run.attemptCount := by
  induction h with
  | nil => rfl
  | @snoc es w e h he ih =>
    rw [timesClaimed_snoc e h, tally]
    have hchange := (World.Reachable.sane ⟨t, es, h⟩).change he id
    rcases hr' : lookup Run.id id ((scheduler K).after w e).store.runs with _ | r'
    · rfl
    · have hcount := hchange.attemptCount hr'
      rw [Store.view_run, ← ih] at hcount
      simp only [Option.elim_some, hcount]
      split_ifs
      · exact Int.natCast_add ..
      · exact (Int.add_zero _).symm

/-! ## Retrying -/

/-- The operations after which a run may be retried. -/
def Call.MayRetry (c : Call K) : Prop :=
  (∃ id token error, c = .failRun id token error true) ∨ ∃ limit, c = .recoverExpired limit

/-- A retryable failure and an expired lease decide alike. -/
theorem Change.retry {Ok : Env → Prop} {c : Call K} {r r' : Run} {prev as : List Attempt}
    {a a' : Attempt} (h : Change Ok c ⟨some r, prev ++ [a]⟩ ⟨some r', as⟩) (hc : c.MayRetry)
    (ha : a.isOpen) (ha' : a' ∈ as) (hclosed : a'.isOpen = false) (hkey : a'.key = a.key)
    (hone : ∀ b ∈ as, ∀ b' ∈ as, b.key = b'.key → b = b') :
    r'.state = if r.attemptsLeft then .pending else .failed := by
  generalize hv : (⟨some r, prev ++ [a]⟩ : RunView) = v at h
  generalize hv' : (⟨some r', as⟩ : RunView) = v' at h
  cases h with
  | same =>
    -- the attempt is still open
    obtain ⟨-, rfl⟩ := RunView.mk.inj (hv'.trans hv.symm)
    rw [hone a' ha' a (by simp) hkey, ha] at hclosed
    exact nomatch hclosed
  | failed =>
    obtain ⟨hr, -⟩ := RunView.mk.inj hv
    obtain ⟨hr', -⟩ := RunView.mk.inj hv'
    obtain rfl := Option.some.inj hr
    obtain rfl := Option.some.inj hr'
    rcases hc with ⟨_, _, _, hc⟩ | ⟨_, hc⟩
    · obtain ⟨-, -, -, rfl⟩ := Call.failRun.inj hc
      simp [Run.fail_state]
    · exact nomatch hc
  | recovered =>
    obtain ⟨hr, -⟩ := RunView.mk.inj hv
    obtain ⟨hr', -⟩ := RunView.mk.inj hv'
    obtain rfl := Option.some.inj hr
    obtain rfl := Option.some.inj hr'
    rfl
  | materialized _ hm => rcases hc with ⟨_, _, _, rfl⟩ | ⟨_, rfl⟩ <;> exact hm.elim
  | _ => rcases hc with ⟨_, _, _, hc⟩ | ⟨_, hc⟩ <;> exact nomatch hc

theorem Change.maxAttempts {Ok : Env → Prop} {c : Call K} {v v' : RunView} (h : Change Ok c v v')
    {r r' : Run} (hr : v.run = some r) (hr' : v'.run = some r') :
    r'.maxAttempts = r.maxAttempts := by
  cases h with
  | same => rw [Option.some.inj (hr.symm.trans hr')]
  | enqueued => exact nomatch hr
  | materialized => exact nomatch hr
  | pruned => exact nomatch hr'
  | _ =>
    obtain rfl := Option.some.inj hr
    obtain rfl := Option.some.inj hr'
    rfl

/-- **The retry budget is exact.** A run is claimed as often as its attempt count says, within its
budget, which never changes; it is retried after a retryable failure or an expired lease of attempt
`k` if and only if `k < max_attempts`; and it was dead-lettered by an operation that may do so. -/
theorem retry_budget {t : Timestamp} {es : List (Event K)} {w : World}
    (h : Reaches (scheduler K) (.initial t) es w) :
    (∀ r ∈ w.store.runs, (timesClaimed r.id (.initial t) es : ℤ) = r.attemptCount ∧
      (timesClaimed r.id (.initial t) es : ℤ) ≤ r.maxAttempts ∧
      (r.state = .pending → r.attemptCount + 1 ≤ i32Max)) ∧
    (∀ e : Event K, (scheduler K).allowed w e → ∀ id r r',
      lookup Run.id id w.store.runs = some r →
      lookup Run.id id ((scheduler K).after w e).store.runs = some r' →
      r'.maxAttempts = r.maxAttempts ∧
      (e.call.MayRetry → ∀ a ∈ w.store.openAttempts id,
        ∀ a' ∈ (((scheduler K).after w e).store.view id).attempts, a'.key = a.key →
        a'.isOpen = false →
        (r'.state = .pending ↔ a.attemptNumber < r.maxAttempts) ∧
        (r'.state = .failed ↔ a.attemptNumber = r.maxAttempts))) ∧
    ∀ r ∈ w.store.runs, r.state = .failed → ∃ es₁ e es₂ w₁ r₁ prev a a', es = es₁ ++ e :: es₂ ∧
      Reaches (scheduler K) (.initial t) es₁ w₁ ∧
      w₁.store.view r.id = ⟨some r₁, prev ++ [a]⟩ ∧ r₁.state = .running ∧
      ((scheduler K).after w₁ e).store.view r.id = ⟨some r, prev ++ [a']⟩ ∧
      w.store.view r.id = ⟨some r, prev ++ [a']⟩ ∧
      e.call.DeadLetters r.id r.attemptCount r.maxAttempts := by
  have hw : w.Reachable K := ⟨t, es, h⟩
  refine ⟨fun r hr => ?_, fun e he id r r' hr hr' => ⟨?_, fun hc a ha a' ha' hkey hclosed => ?_⟩,
    fun r hr hs => ?_⟩
  · have hcount := timesClaimed_eq h r.id
    rw [lookup_of_mem hw.inv.runIds hr, Option.elim_some] at hcount
    obtain ⟨-, -, hmax, hpending⟩ := hw.inv.attemptsCheck hr
    have hi32 : r.maxAttempts ≤ i32Max :=
      (Run.check_eq_ok_iff.mp (hw.inv.runsValid r hr)).2.1.2
    refine ⟨hcount, hcount ▸ hmax, fun hs => ?_⟩
    have hlt : r.attemptCount < r.maxAttempts := hpending.resolve_left fun hne => hne hs
    omega
  · exact (hw.sane.change he id).maxAttempts hr hr'
  · -- the open attempt is the last one, numbered by the attempt count
    obtain rfl := key_of_lookup hr
    have hmem := mem_of_lookup hr
    have hrun : r.state = .running := by
      by_contra hne
      rw [hw.inv.openAttempts_of_not_running hmem hne] at ha
      exact nomatch ha
    obtain ⟨b, hb, hm, hnum⟩ := hw.inv.openAttempts_of_running hmem hrun
    rw [hb] at ha
    obtain rfl := List.mem_singleton.mp ha
    obtain ⟨prev, b, hview, -, hm', hbmem, hbid⟩ := hw.inv.exists_open hmem hrun
    obtain rfl : a = b := by
      have hbo : b ∈ w.store.openAttempts r.id :=
        List.mem_filter.mpr ⟨hbmem, by simp [hbid, hm'.isOpen]⟩
      rw [hb] at hbo
      exact (List.mem_singleton.mp hbo).symm
    have hchange := hw.sane.change he r.id
    rw [hview, Store.view_eq_some hr'] at hchange
    have hkeyed := ((hw.sane.after he).inv.coupled r.id).keyed
    have hstate := hchange.retry hc hm'.isOpen ha' hclosed hkey
      fun b hb b' hb' => eq_of_key hkeyed hb hb'
    obtain ⟨-, -, hmax, -⟩ := hw.inv.attemptsCheck hmem
    rw [hstate, hnum]
    split_ifs with hleft
    · exact ⟨iff_of_true rfl hleft, iff_of_false (fun h => nomatch h) (ne_of_lt hleft)⟩
    · exact ⟨iff_of_false (fun h => nomatch h) hleft,
        iff_of_true rfl (le_antisymm hmax (not_lt.mp hleft))⟩
  · have hview := Store.view_eq_some (lookup_of_mem hw.inv.runIds hr)
    rcases h.last_change fun w => w.store.view r.id with hsame | ⟨es₁, e, es₂, w₁, rfl, h₁, he,
      hne, heq, -⟩
    · exact nomatch (congrArg RunView.run (hsame.symm.trans hview))
    · have hw₁ : w₁.Reachable K := ⟨t, es₁, h₁⟩
      have hchange := hw₁.sane.change he r.id
      rw [heq, hview] at hchange
      obtain ⟨r₁, prev, a, a', hv₁, has, hrun, hdead⟩ := hchange.to_failed (by rwa [← hview])
        (fun r₁ hr₁ => hw₁.inv.attemptsCheck (mem_of_lookup hr₁)) hs
      rw [has] at hview
      exact ⟨es₁, e, es₂, w₁, r₁, prev, a, a', rfl, h₁, hv₁, hrun, heq.trans hview, hview, hdead⟩

/-- A task with two attempts that fails twice. -/
def deadLettered : List (Call .everySecond) := [
  mail { EnqueueOptions.standard with retryBackoff := .zero, maxAttempts := ⟨2, by decide⟩ },
  claimMail,
  .failRun ⟨1⟩ ⟨2⟩ "timeout" true,
  claimMail,
  .failRun ⟨1⟩ ⟨4⟩ "timeout" true]

theorem retry_budget_deadLettered : ∃ r ∈ (World.play deadLettered).store.runs,
    r.state = .failed ∧ r.maxAttempts = 2 ∧
    (timesClaimed r.id (.initial 0) ((World.initial 0).script deadLettered) : ℤ) =
      r.attemptCount ∧
    ∃ es₁ e es₂ w₁, (World.initial 0).script deadLettered = es₁ ++ e :: es₂ ∧
      Reaches (scheduler .everySecond) (.initial 0) es₁ w₁ ∧
      e.call.DeadLetters r.id r.attemptCount r.maxAttempts := by
  obtain ⟨r, hr⟩ : ∃ r, (World.play deadLettered).store.runs = [r] :=
    List.length_eq_one_iff.mp (by decide +kernel)
  have hstate : (World.play deadLettered).store.runs.map (fun r => (r.state, r.maxAttempts)) =
      [(.failed, 2)] := by decide +kernel
  rw [hr] at hstate
  obtain ⟨hs, hm⟩ : r.state = .failed ∧ r.maxAttempts = 2 := by simpa using hstate
  have hmem : r ∈ (World.play deadLettered).store.runs := by
    rw [hr]
    exact List.mem_singleton_self r
  have h := retry_budget (play_reaches deadLettered)
  obtain ⟨es₁, e, es₂, w₁, r₁, prev, a, a', he, h₁, -, -, -, -, hdead⟩ := h.2.2 r hmem hs
  exact ⟨r, hmem, hs, hm, (h.1 r hmem).1, es₁, e, es₂, w₁, he, h₁, hdead⟩

end PgTaskScheduler
