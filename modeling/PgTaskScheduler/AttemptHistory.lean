import PgTaskScheduler.Coupling

/-!
# The attempts of a run agree with its outcome

`Chronicle` is what the attempts of a run say about it: every attempt but the last has failed or
expired, the last one agrees with the state of the run, and they follow one another in time. Every
change keeps it, because a change looks at the last attempt only.
-/

namespace PgTaskScheduler

open Tables ReadCommitted Histories

/-! ## The last attempt -/

/-- The attempt ended without completing the run, and the run may be retried. -/
def Attempt.Retryable (a : Attempt) : Prop :=
  a.outcome = some .failed ∨ a.outcome = some .expired

/-- The state of a run and its last attempt. -/
def Run.AgreesWith (r : Run) (a : Attempt) : Prop :=
  match r.state with
  | .pending => a.Retryable
  | .running => a.outcome = none
  | .completed => a.outcome = some .completed
  | .failed => a.outcome = some .failed ∧ a.error = r.lastError ∨
      a.outcome = some .expired ∧ r.attemptCount = r.maxAttempts
  | .cancelled => a.outcome = some .cancelled ∨ a.Retryable

structure Chronicle (t : Timestamp) (v : RunView) : Prop where
  earlier : ∀ prev a, v.attempts = prev ++ [a] → ∀ b ∈ prev, b.Retryable
  last : ∀ r prev a, v.run = some r → v.attempts = prev ++ [a] → r.AgreesWith a
  untried : ∀ r, v.run = some r → v.attempts = [] → r.state = .pending ∨ r.state = .cancelled
  started : ∀ a ∈ v.attempts, a.startedAt ≤ t
  finished : ∀ a ∈ v.attempts, a.isOpen = false →
    ∃ f, a.finishedAt = some f ∧ a.startedAt ≤ f ∧ f ≤ t
  ordered : v.attempts.Pairwise fun a b => ∃ f, a.finishedAt = some f ∧ f ≤ b.startedAt

theorem Attempt.Retryable.closed {a : Attempt} (h : a.Retryable) : a.isOpen = false := by
  rcases h with h | h <;> simp [Attempt.isOpen, h]

section Chronicle

variable {t t' : Timestamp} {r r' : Run} {as prev : List Attempt} {a a' : Attempt}

theorem Chronicle.mono {v : RunView} (h : Chronicle t v) (ht : t ≤ t') : Chronicle t' v where
  earlier := h.earlier
  last := h.last
  untried := h.untried
  started a ha := (h.started a ha).trans ht
  finished a ha ho := by
    obtain ⟨f, hf, hs, hft⟩ := h.finished a ha ho
    exact ⟨f, hf, hs, hft.trans ht⟩
  ordered := h.ordered

/-- A run without attempts. -/
theorem Chronicle.untried_run {o : Option Run} (hs : ∀ r, o = some r → r.state = .pending) :
    Chronicle t ⟨o, []⟩ where
  earlier prev a h := by simp at h
  last _ prev a _ h := by simp at h
  untried r h _ := Or.inl (hs r h)
  started _ h := nomatch h
  finished _ h := nomatch h
  ordered := List.Pairwise.nil

/-- One more attempt of a pending run. -/
theorem Chronicle.snoc (h : Chronicle t ⟨some r, as⟩) (hs : r.state = .pending)
    (hopen : a.outcome = none) (hr : r'.state = .running) (ht : t ≤ a.startedAt)
    (ht' : a.startedAt ≤ t') : Chronicle t' ⟨some r', as ++ [a]⟩ := by
  have hretry : ∀ b ∈ as, b.Retryable := by
    intro b hb
    rcases List.eq_nil_or_concat as with rfl | ⟨prev, c, rfl⟩
    · exact nomatch hb
    · rw [List.concat_eq_append] at *
      rcases List.mem_append.mp hb with hb | hb
      · exact h.earlier prev c rfl b hb
      · obtain rfl := List.mem_singleton.mp hb
        simpa [Run.AgreesWith, hs] using h.last r prev b rfl rfl
  refine ⟨fun prev b he c hc => ?_, fun r'' prev b he he' => ?_, fun r'' _ he => ?_,
    fun b hb => ?_, fun b hb ho => ?_, ?_⟩
  · obtain ⟨rfl, -⟩ := List.append_inj' he rfl
    exact hretry c hc
  · obtain rfl := Option.some.inj he
    obtain rfl : a = b := by simpa using (List.append_inj' he' rfl).2
    simpa [Run.AgreesWith, hr] using hopen
  · simp at he
  · rcases List.mem_append.mp hb with hb | hb
    · exact (h.started b hb).trans (ht.trans ht')
    · rw [List.mem_singleton.mp hb]
      exact ht'
  · rcases List.mem_append.mp hb with hb | hb
    · obtain ⟨f, hf, hs, hft⟩ := h.finished b hb ho
      exact ⟨f, hf, hs, hft.trans (ht.trans ht')⟩
    · rw [List.mem_singleton.mp hb] at ho
      simp [Attempt.isOpen, hopen] at ho
  · refine List.pairwise_append.mpr ⟨h.ordered, List.pairwise_singleton _ _, fun b hb c hc => ?_⟩
    rw [List.mem_singleton.mp hc]
    obtain ⟨f, hf, -, hft⟩ := h.finished b hb (hretry b hb).closed
    exact ⟨f, hf, hft.trans ht⟩

/-- The last attempt rewritten together with the run. -/
theorem Chronicle.rewrite (h : Chronicle t ⟨some r, prev ++ [a]⟩) (ht : t ≤ t')
    (hstart : a'.startedAt = a.startedAt) (hagree : r'.AgreesWith a')
    (hclose : a'.isOpen = false → ∃ f, a'.finishedAt = some f ∧ t ≤ f ∧ f ≤ t') :
    Chronicle t' ⟨some r', prev ++ [a']⟩ := by
  have hstarted : a.startedAt ≤ t := h.started a (by simp)
  obtain ⟨hprev, -, hlast⟩ := List.pairwise_append.mp h.ordered
  refine ⟨fun prev' b he c hc => ?_, fun r'' prev' b he he' => ?_, fun r'' _ he => ?_,
    fun b hb => ?_, fun b hb ho => ?_, ?_⟩
  · obtain ⟨rfl, -⟩ := List.append_inj' he rfl
    exact h.earlier prev a rfl c hc
  · obtain rfl := Option.some.inj he
    obtain rfl : a' = b := by simpa using (List.append_inj' he' rfl).2
    exact hagree
  · simp at he
  · rcases List.mem_append.mp hb with hb | hb
    · exact (h.started b (List.mem_append_left _ hb)).trans ht
    · rw [List.mem_singleton.mp hb, hstart]
      exact hstarted.trans ht
  · rcases List.mem_append.mp hb with hb | hb
    · obtain ⟨f, hf, hs, hft⟩ := h.finished b (List.mem_append_left _ hb) ho
      exact ⟨f, hf, hs, hft.trans ht⟩
    · obtain rfl := List.mem_singleton.mp hb
      obtain ⟨f, hf, htf, hft⟩ := hclose ho
      exact ⟨f, hf, by rw [hstart]; exact hstarted.trans htf, hft⟩
  · refine List.pairwise_append.mpr ⟨hprev, List.pairwise_singleton _ _, fun b hb c hc => ?_⟩
    rw [List.mem_singleton.mp hc, hstart]
    exact hlast b hb a (List.mem_singleton_self a)

/-- The row of an idle run changed, its attempts kept. -/
theorem Chronicle.row (h : Chronicle t ⟨some r, as⟩) (ht : t ≤ t') (hs : r'.state = .cancelled)
    (hp : r.state = .pending) : Chronicle t' ⟨some r', as⟩ where
  earlier := h.earlier
  last r'' prev b he he' := by
    obtain rfl := Option.some.inj he
    have hlast := h.last r prev b rfl he'
    simp only [Run.AgreesWith, hp] at hlast
    simp only [Run.AgreesWith, hs]
    exact Or.inr hlast
  untried r'' he _ := by
    obtain rfl := Option.some.inj he
    exact Or.inr hs
  started b hb := (h.started b hb).trans ht
  finished b hb ho := (h.mono ht).finished b hb ho
  ordered := h.ordered

end Chronicle

/-! ## Every change keeps the chronicle -/

variable {K : Croner}

theorem Run.fail_agreesWith (env env' : Env) (retryable : Bool) (error : String) (r : Run)
    (a : Attempt) :
    (r.fail env retryable error).AgreesWith (a.close env' .failed (some error)) := by
  unfold Run.AgreesWith Run.fail Attempt.Retryable Attempt.close
  dsimp only
  split_ifs
  · exact Or.inl rfl
  · exact Or.inl ⟨rfl, rfl⟩

theorem Run.recover_agreesWith (env : Env) (error : Option String) {r : Run} (a : Attempt)
    (hr : r.AttemptsCheck) : (r.recover env).AgreesWith (a.close env .expired error) := by
  unfold Run.AgreesWith Run.recover Attempt.Retryable Attempt.close
  dsimp only
  split_ifs with hleft
  · exact Or.inr rfl
  · exact Or.inr ⟨rfl, le_antisymm hr.2.2.1 (not_lt.mp hleft)⟩

theorem Outcome.agreesWith (o : Outcome) (env env' : Env) (r : Run) (a : Attempt) :
    (r.finalize env o.stored.1 o.stored.2.2).AgreesWith
      (a.close env' o.stored.2.1 o.stored.2.2) := by
  cases o with
  | completed => exact rfl
  | failed error => exact Or.inl ⟨rfl, rfl⟩

theorem Env.Within.clock_bounds {lo hi : Timestamp} {env : Env} (h : env.Within lo hi)
    (site : ClockSite) (id : RunId) : lo ≤ env.clock site id ∧ env.clock site id ≤ hi :=
  ⟨h.now.trans (h.clock site id).1, (h.clock site id).2⟩

/-- **Every change keeps the chronicle.** -/
theorem Change.chronicle {Ok : Env → Prop} {c : Call K} {v v' : RunView} {lo hi : Timestamp}
    (hlo : lo ≤ hi) (hOk : ∀ env, Ok env → env.Within lo hi) (hr : ∀ r, v.run = some r →
      r.AttemptsCheck) (h : Change Ok c v v') (hv : Chronicle lo v) : Chronicle hi v' := by
  have hclose : ∀ {env : Env} {o : StoredAttemptOutcome} {error : Option String} {a : Attempt},
      Ok env → (a.close env o error).isOpen = false →
        ∃ f, (a.close env o error).finishedAt = some f ∧ lo ≤ f ∧ f ≤ hi := by
    intro env o error a henv _
    exact ⟨_, rfl, (hOk env henv).clock_bounds .attempt a.runId⟩
  cases h with
  | same => exact hv.mono hlo
  | enqueued => exact .untried_run fun r h => by rw [← Option.some.inj h]; rfl
  | materialized => exact .untried_run fun r h => by rw [← Option.some.inj h]; rfl
  | @claimed _ _ _ env r as henv hclaim =>
    have hb := (hOk env henv).clock_bounds .startedAt r.id
    exact hv.snoc (Run.of_claimable hclaim).1 rfl rfl hb.1 hb.2
  | finalized _ henv' =>
    exact hv.rewrite hlo rfl (Outcome.agreesWith _ _ _ _ _) (hclose henv')
  | failed _ henv' =>
    exact hv.rewrite hlo rfl (Run.fail_agreesWith _ _ _ _ _ _) (hclose henv')
  | @renewed _ _ env r prev a henv hlive ha =>
    simp only [Attempt.openWith, Attempt.isOpen, Bool.and_eq_true, Option.isNone_iff_eq_none] at ha
    refine hv.rewrite hlo rfl ?_ fun ho => ?_
    · simpa [Run.AgreesWith, Run.renew, (Run.state_of_live hlive).2.1] using ha.2
    · simp [Attempt.isOpen, ha.2] at ho
  | recovered henv =>
    exact hv.rewrite hlo rfl (Run.recover_agreesWith _ _ _ (hr _ rfl)) (hclose henv)
  | cancelledPending _ _ hp => exact hv.row hlo rfl hp
  | cancelledRunning henv => exact hv.rewrite hlo rfl (Or.inl rfl) (hclose henv)
  | pruned => exact .untried_run fun _ h => absurd h.symm (Option.some_ne_none _)

theorem World.Reachable.chronicle {w : World} (h : w.Reachable K) (id : RunId) :
    Chronicle w.clock (w.store.view id) :=
  h.view_invariant (fun _ => .untried_run fun _ h => absurd h.symm (Option.some_ne_none _))
    (fun _ _ _ _ _ hlo _ hcheck hv hchange => hchange.chronicle hlo (fun _ hOk => hOk.within)
      (fun r hr => Run.attemptsCheck_of_check (hcheck r hr)) hv) id

/-! ## Reading the chronicle -/

section Reading

variable {t : Timestamp} {r : Run} {as : List Attempt}

/-- The last attempt, if a run has any. -/
theorem exists_last {a : Attempt} (ha : a ∈ as) : ∃ prev b, as = prev ++ [b] := by
  rcases List.eq_nil_or_concat as with rfl | ⟨prev, b, rfl⟩
  · exact nomatch ha
  · exact ⟨prev, b, List.concat_eq_append⟩

/-- An attempt that cannot be retried is the last one. -/
theorem Chronicle.eq_last (h : Chronicle t ⟨some r, as⟩) {a : Attempt} (ha : a ∈ as)
    (hne : ¬ a.Retryable) : ∃ prev, as = prev ++ [a] ∧ r.AgreesWith a := by
  obtain ⟨prev, b, rfl⟩ := exists_last ha
  rcases List.mem_append.mp ha with ha | ha
  · exact absurd (h.earlier prev b rfl a ha) hne
  · obtain rfl := List.mem_singleton.mp ha
    exact ⟨prev, rfl, h.last r prev a rfl rfl⟩

theorem not_retryable_completed {a : Attempt} (h : a.outcome = some .completed) :
    ¬ a.Retryable := by
  simp [Attempt.Retryable, h]

theorem Chronicle.completed_iff (h : Chronicle t ⟨some r, as⟩) :
    r.state = .completed ↔ ∃ prev a, as = prev ++ [a] ∧ a.outcome = some .completed := by
  constructor
  · intro hs
    rcases List.eq_nil_or_concat as with rfl | ⟨prev, a, rfl⟩
    · rcases h.untried r rfl rfl with hs' | hs' <;> exact nomatch hs.symm.trans hs'
    · rw [List.concat_eq_append] at *
      exact ⟨prev, a, rfl, by simpa [Run.AgreesWith, hs] using h.last r prev a rfl rfl⟩
  · rintro ⟨prev, a, rfl, ha⟩
    have hagree := h.last r prev a rfl rfl
    unfold Run.AgreesWith at hagree
    split at hagree
    all_goals simp_all [Attempt.Retryable]

theorem Chronicle.cancelled (h : Chronicle t ⟨some r, as⟩) {a : Attempt} (ha : a ∈ as)
    (ho : a.outcome = some .cancelled) : r.state = .cancelled ∧ ∃ prev, as = prev ++ [a] := by
  obtain ⟨prev, he, hagree⟩ := h.eq_last ha (by simp [Attempt.Retryable, ho])
  refine ⟨?_, prev, he⟩
  unfold Run.AgreesWith at hagree
  split at hagree
  all_goals simp_all [Attempt.Retryable]

theorem Chronicle.failed (h : Chronicle t ⟨some r, as⟩) (hs : r.state = .failed) :
    ∃ prev a, as = prev ++ [a] ∧ (a.outcome = some .failed ∧ a.error = r.lastError ∨
      a.outcome = some .expired ∧ r.attemptCount = r.maxAttempts) := by
  rcases List.eq_nil_or_concat as with rfl | ⟨prev, a, rfl⟩
  · rcases h.untried r rfl rfl with hs' | hs' <;> exact nomatch hs.symm.trans hs'
  · rw [List.concat_eq_append] at *
    exact ⟨prev, a, rfl, by simpa [Run.AgreesWith, hs] using h.last r prev a rfl rfl⟩

theorem Chronicle.pending (h : Chronicle t ⟨some r, as⟩) (hs : r.state = .pending)
    {prev : List Attempt} {a : Attempt} (he : as = prev ++ [a]) : a.Retryable := by
  simpa [Run.AgreesWith, hs] using h.last r prev a rfl he

/-- At most one attempt is recorded as completed. -/
theorem Chronicle.countP_completed_le (h : Chronicle t ⟨some r, as⟩) :
    as.countP (fun a => a.outcome = some .completed) ≤ 1 := by
  rcases List.eq_nil_or_concat as with rfl | ⟨prev, a, rfl⟩
  · simp
  · rw [List.concat_eq_append] at *
    have hprev : prev.countP (fun a => a.outcome = some .completed) = 0 :=
      List.countP_eq_zero.mpr fun b hb => by
        have hretry := h.earlier prev a rfl b hb
        intro ho
        exact not_retryable_completed (of_decide_eq_true ho) hretry
    rw [List.countP_append, hprev, Nat.zero_add]
    exact List.countP_le_length

end Reading

/-- **The attempts of every run agree with its outcome.** The last part finds the operation that
cancelled a run: while it was pending, which left its attempts alone, or while it was running. -/
theorem attempt_history {t : Timestamp} {es : List (Event K)} {w : World}
    (h : Reaches (scheduler K) (.initial t) es w) {r : Run} (hr : r ∈ w.store.runs) :
    (∀ prev a, (w.store.view r.id).attempts = prev ++ [a] → ∀ b ∈ prev, b.Retryable) ∧
    (r.state = .completed ↔ ∃ prev a, (w.store.view r.id).attempts = prev ++ [a] ∧
      a.outcome = some .completed) ∧
    (∀ a ∈ (w.store.view r.id).attempts, a.outcome = some .cancelled →
      r.state = .cancelled ∧ ∃ prev, (w.store.view r.id).attempts = prev ++ [a]) ∧
    (r.state = .failed → ∃ prev a, (w.store.view r.id).attempts = prev ++ [a] ∧
      (a.outcome = some .failed ∧ a.error = r.lastError ∨
        a.outcome = some .expired ∧ r.attemptCount = r.maxAttempts)) ∧
    (r.state = .pending → ∀ prev a, (w.store.view r.id).attempts = prev ++ [a] → a.Retryable) ∧
    (∀ a ∈ (w.store.view r.id).attempts, ∀ f, a.finishedAt = some f → a.startedAt ≤ f) ∧
    (w.store.view r.id).attempts.Pairwise
      (fun a b => ∃ f, a.finishedAt = some f ∧ f ≤ b.startedAt) ∧
    (w.store.view r.id).attempts.countP (fun a => a.outcome = some .completed) ≤ 1 ∧
    (r.state = .cancelled → ∃ es₁ e es₂ w₁ r₁, es = es₁ ++ e :: es₂ ∧
      Reaches (scheduler K) (.initial t) es₁ w₁ ∧ e.call = .cancel r.id ∧
      lookup Run.id r.id w₁.store.runs = some r₁ ∧
      ((scheduler K).after w₁ e).store.view r.id = w.store.view r.id ∧
      (r₁.state = .pending ∧
          (∀ prev a, (w.store.view r.id).attempts = prev ++ [a] → a.Retryable) ∨
        r₁.state = .running ∧ ∃ prev a, (w.store.view r.id).attempts = prev ++ [a] ∧
          a.outcome = some .cancelled)) := by
  have hw : w.Reachable K := ⟨t, es, h⟩
  have hview := Store.view_eq_some (lookup_of_mem hw.inv.runIds hr)
  have hc := hw.chronicle r.id
  rw [hview] at hc
  refine ⟨hc.earlier, hc.completed_iff, fun a ha => hc.cancelled ha, hc.failed,
    fun hs prev a => hc.pending hs, fun a ha f hf => ?_, hc.ordered, hc.countP_completed_le,
    fun hs => ?_⟩
  · have hterminal := (Attempt.check_eq_ok_iff.mp
      (hw.inv.attemptsValid a (Store.mem_view_attempts.mp ha).1)).2.2.1
    have hclosed : a.isOpen = false := by
      rcases ho : a.outcome with _ | o
      · simp [Attempt.terminalCheck, hf, ho] at hterminal
      · simp [Attempt.isOpen, ho]
    obtain ⟨f', hf', hle, -⟩ := hc.finished a ha hclosed
    rwa [Option.some.inj (hf.symm.trans hf')]
  · rcases h.last_change fun w => w.store.view r.id with hsame | ⟨es₁, e, es₂, w₁, rfl, h₁, he,
      hne, heq, -⟩
    · exact nomatch (congrArg RunView.run (hsame.symm.trans hview))
    · have hw₁ : w₁.Reachable K := ⟨t, es₁, h₁⟩
      have hchange := hw₁.sane.change he r.id
      rw [heq, hview] at hchange
      obtain ⟨r₁, as, hv₁, hcall, hhow⟩ := hchange.to_cancelled (by rwa [← hview]) hs
      refine ⟨es₁, e, es₂, w₁, r₁, rfl, h₁, hcall, congrArg RunView.run hv₁, heq, ?_⟩
      refine hhow.imp (fun ⟨hp, has⟩ => ⟨hp, fun prev a ha => ?_⟩) id
      have hc₁ := hw₁.chronicle r.id
      rw [hv₁] at hc₁
      exact hc₁.pending hp (has ▸ ha)

/-- A task that failed once, was claimed again, and was then cancelled. -/
def cancelledWhileRunning : List (Call .everySecond) := [
  mail { EnqueueOptions.standard with retryBackoff := .zero },
  claimMail,
  .failRun ⟨1⟩ ⟨2⟩ "timeout" true,
  claimMail,
  .cancel ⟨1⟩]

theorem attempt_history_cancelled : ∃ r ∈ (World.play cancelledWhileRunning).store.runs,
    r.state = .cancelled ∧
    (∀ prev a, ((World.play cancelledWhileRunning).store.view r.id).attempts = prev ++ [a] →
      ∀ b ∈ prev, b.Retryable) ∧
    ∃ es₁ e es₂ w₁ r₁, (World.initial 0).script cancelledWhileRunning = es₁ ++ e :: es₂ ∧
      Reaches (scheduler .everySecond) (.initial 0) es₁ w₁ ∧ e.call = .cancel r.id ∧
      lookup Run.id r.id w₁.store.runs = some r₁ := by
  obtain ⟨r, hr⟩ : ∃ r, (World.play cancelledWhileRunning).store.runs = [r] :=
    List.length_eq_one_iff.mp (by decide +kernel)
  have hstate : (World.play cancelledWhileRunning).store.runs.map Run.state = [.cancelled] := by
    decide +kernel
  rw [hr] at hstate
  have hmem : r ∈ (World.play cancelledWhileRunning).store.runs := by
    rw [hr]
    exact List.mem_singleton_self r
  have h := attempt_history (play_reaches cancelledWhileRunning) hmem
  have hs : r.state = .cancelled := by simpa using hstate
  obtain ⟨es₁, e, es₂, w₁, r₁, he, h₁, hcall, hl, -⟩ := h.2.2.2.2.2.2.2.2 hs
  exact ⟨r, hmem, hs, h.1, es₁, e, es₂, w₁, r₁, he, h₁, hcall, hl⟩

end PgTaskScheduler
