import PgTaskScheduler.History

/-!
# Runs and attempts fit together

In every reachable world a run is running exactly while it has one open attempt, which repeats its
lease; the attempts of a run are numbered from 1 to its attempt count, within its budget.
-/

namespace PgTaskScheduler

open Tables ReadCommitted Histories

variable {K : Croner} {s : Store}

/-- The attempt rows of a run with `outcome IS NULL`. -/
def Store.openAttempts (s : Store) (id : RunId) : List Attempt :=
  s.attempts.filter fun a => decide (a.runId = id) && a.isOpen

theorem Store.openAttempts_eq (s : Store) (id : RunId) :
    s.openAttempts id = (s.view id).attempts.filter Attempt.isOpen := by
  rw [openAttempts, view, List.filter_filter]
  exact List.filter_congr fun a _ => Bool.and_comm ..

/-- The last attempt has the number of the attempt count. -/
theorem Coupled.last_number {r : Run} {prev : List Attempt} {a : Attempt}
    (h : Coupled ⟨some r, prev ++ [a]⟩) : a.attemptNumber = r.attemptCount := by
  have hnum := h.numbered
  have hcount := h.count r rfl
  simp only [List.length_append, List.length_singleton, List.map_append, List.map_cons,
    List.map_nil, numbers_succ, Int.natCast_add, Int.natCast_one] at hnum hcount
  obtain ⟨-, hlast⟩ := List.append_inj' hnum rfl
  rw [hcount]
  exact List.singleton_inj.mp hlast

/-- The open attempts of a running run: the one that repeats its lease. -/
theorem Inv.openAttempts_of_running (h : Inv s) {r : Run} (hr : r ∈ s.runs)
    (hs : r.state = .running) : ∃ a, s.openAttempts r.id = [a] ∧ Mirrors r a ∧
      a.attemptNumber = r.attemptCount := by
  obtain ⟨prev, a, hview, hprev, hm, -, -⟩ := h.exists_open hr hs
  have hfilter : prev.filter Attempt.isOpen = [] :=
    List.filter_eq_nil_iff.mpr fun b hb => by simp [hprev b hb]
  refine ⟨a, ?_, hm, ?_⟩
  · rw [Store.openAttempts_eq, hview, List.filter_append, hfilter]
    simp [hm.isOpen]
  · have hcoupled := h.coupled r.id
    rw [hview] at hcoupled
    exact hcoupled.last_number

theorem Inv.openAttempts_of_not_running (h : Inv s) {r : Run} (hr : r ∈ s.runs)
    (hs : r.state ≠ .running) : s.openAttempts r.id = [] := by
  have hidle := (h.coupled r.id).idle r (lookup_of_mem h.runIds hr) hs
  rw [Store.openAttempts_eq, List.filter_eq_nil_iff]
  exact fun a ha => by simp [hidle a ha]

theorem Inv.numbered (h : Inv s) {r : Run} (hr : r ∈ s.runs) :
    (s.view r.id).attempts.map Attempt.attemptNumber = numbers r.attemptCount.toNat := by
  have hcount := (h.coupled r.id).count r (lookup_of_mem h.runIds hr)
  rw [(h.coupled r.id).numbered, hcount, Int.toNat_natCast]

theorem Run.attemptsCheck_of_check {r : Run} (h : r.check = .ok ()) : r.AttemptsCheck :=
  (Run.check_eq_ok_iff.mp h).2.2.2.2.1

theorem Inv.attemptsCheck (h : Inv s) {r : Run} (hr : r ∈ s.runs) : r.AttemptsCheck :=
  Run.attemptsCheck_of_check (h.runsValid r hr)

theorem Inv.exists_run (h : Inv s) {a : Attempt} (ha : a ∈ s.attempts) :
    ∃ r ∈ s.runs, r.id = a.runId := by
  rcases hl : lookup Run.id a.runId s.runs with _ | r
  · have horphan := (h.coupled a.runId).orphan hl
    have hmem : a ∈ (s.view a.runId).attempts := Store.mem_view_attempts.mpr ⟨ha, rfl⟩
    rw [horphan] at hmem
    exact nomatch hmem
  · exact ⟨r, mem_of_lookup hl, key_of_lookup hl⟩

/-- The rows of `scheduler_runs` and `scheduler_run_attempts` fit together. -/
structure Store.Coupling (s : Store) : Prop where
  running_iff : ∀ r ∈ s.runs, r.state = .running ↔ ∃ a, s.openAttempts r.id = [a]
  mirrored : ∀ r ∈ s.runs, ∀ a ∈ s.openAttempts r.id,
    Mirrors r a ∧ a.attemptNumber = r.attemptCount
  idle : ∀ r ∈ s.runs, r.state ≠ .running → s.openAttempts r.id = []
  numbered : ∀ r ∈ s.runs,
    (s.view r.id).attempts.map Attempt.attemptNumber = numbers r.attemptCount.toNat
  budget : ∀ r ∈ s.runs, 0 ≤ r.attemptCount ∧ r.attemptCount ≤ r.maxAttempts ∧
    (r.state = .pending → r.attemptCount < r.maxAttempts)
  owned : ∀ a ∈ s.attempts, ∃ r ∈ s.runs, r.id = a.runId

theorem Inv.coupling (h : Inv s) : s.Coupling where
  running_iff r hr := by
    constructor
    · intro hs
      obtain ⟨a, ha, -⟩ := h.openAttempts_of_running hr hs
      exact ⟨a, ha⟩
    · rintro ⟨a, ha⟩
      by_contra hs
      rw [h.openAttempts_of_not_running hr hs] at ha
      exact nomatch ha
  mirrored r hr a ha := by
    by_cases hs : r.state = .running
    · obtain ⟨b, hb, hm, hn⟩ := h.openAttempts_of_running hr hs
      rw [hb] at ha
      rw [List.mem_singleton.mp ha]
      exact ⟨hm, hn⟩
    · rw [h.openAttempts_of_not_running hr hs] at ha
      exact nomatch ha
  idle r hr := h.openAttempts_of_not_running hr
  numbered r hr := h.numbered hr
  budget r hr := by
    obtain ⟨hnonneg, -, hmax, hpending⟩ := h.attemptsCheck hr
    exact ⟨hnonneg, hmax, fun hs => hpending.resolve_left fun hne => hne hs⟩
  owned a ha := h.exists_run ha

/-- **Runs and attempts are coupled in every reachable world.** -/
theorem run_attempt_coupling {w : World} (h : w.Reachable K) : w.store.Coupling := h.inv.coupling

/-- A task, claimed by a worker. -/
def World.claimed : World := .play [mail .standard, claimMail]

theorem run_attempt_coupling_claimed :
    World.claimed.store.runs.map Run.state = [.running] ∧ World.claimed.store.Coupling :=
  ⟨by decide +kernel, run_attempt_coupling (play_reachable _)⟩

end PgTaskScheduler
