import Mathlib.Data.List.Range
import PgTaskScheduler.Call

/-!
# The lifecycle of one run

A run and its attempts, seen together, change in few ways: `Change` lists them, each with the
operation that makes it and the readings it uses. `Coupled` is the invariant that ties the run row
to its attempt rows: a running run has exactly one open attempt, its last, which repeats the lease;
every other attempt is closed. Every `Change` keeps it.
-/

namespace PgTaskScheduler

open Tables

/-! ## Coupling -/

/-- The attempt repeats the lease of the run row. -/
structure Mirrors (r : Run) (a : Attempt) : Prop where
  isOpen : a.isOpen
  worker : r.workerId = some a.workerId
  token : r.leaseToken = some a.leaseToken
  started : r.startedAt = some a.startedAt
  expires : r.leaseExpiresAt = some a.leaseExpiresAt

/-- `1, …, n` -/
def numbers (n : ℕ) : List ℤ := (List.range n).map fun i : ℕ => (i : ℤ) + 1

@[simp] theorem numbers_succ (n : ℕ) : numbers (n + 1) = numbers n ++ [(n : ℤ) + 1] := by
  simp [numbers, List.range_succ]

@[simp] theorem numbers_zero : numbers 0 = [] := rfl

theorem nodup_numbers (n : ℕ) : (numbers n).Nodup :=
  List.Nodup.map (fun a b (h : (a : ℤ) + 1 = b + 1) => by omega) List.nodup_range

/-- The run row and its attempt rows fit together. -/
structure Coupled (v : RunView) : Prop where
  orphan : v.run = none → v.attempts = []
  numbered : v.attempts.map Attempt.attemptNumber = numbers v.attempts.length
  count : ∀ r, v.run = some r → r.attemptCount = v.attempts.length
  idle : ∀ r, v.run = some r → r.state ≠ .running → ∀ a ∈ v.attempts, a.isOpen = false
  live : ∀ r, v.run = some r → r.state = .running →
    ∃ prev a, v.attempts = prev ++ [a] ∧ (∀ b ∈ prev, b.isOpen = false) ∧ Mirrors r a

theorem Coupled.empty : Coupled ⟨none, []⟩ where
  orphan _ := rfl
  numbered := rfl
  count _ h := nomatch h
  idle _ h := nomatch h
  live _ h := nomatch h

/-- An idle run without attempts. -/
theorem Coupled.fresh {r : Run} (hs : r.state = .pending) (hc : r.attemptCount = 0) :
    Coupled ⟨some r, []⟩ where
  orphan h := nomatch h
  numbered := rfl
  count r' h := by
    obtain rfl := Option.some.inj h
    exact hc
  idle r' h _ a ha := by simp at ha
  live r' h hr := by
    obtain rfl := Option.some.inj h
    rw [hs] at hr
    exact nomatch hr

/-- The open attempt of a running run is its last one. -/
theorem Coupled.exists_open {r : Run} {as : List Attempt} (h : Coupled ⟨some r, as⟩)
    (hr : r.state = .running) :
    ∃ prev a, as = prev ++ [a] ∧ (∀ b ∈ prev, b.isOpen = false) ∧ Mirrors r a :=
  h.live r rfl hr

/-- Opening one more attempt. -/
theorem Coupled.open {r r' : Run} {as : List Attempt} {a : Attempt} (h : Coupled ⟨some r, as⟩)
    (hs : r.state ≠ .running) (hr : r'.state = .running)
    (hc : r'.attemptCount = r.attemptCount + 1) (hn : a.attemptNumber = r.attemptCount + 1)
    (hm : Mirrors r' a) : Coupled ⟨some r', as ++ [a]⟩ where
  orphan h := nomatch h
  numbered := by
    have hcount := h.count r rfl
    have hnum := h.numbered
    simp only at hcount hnum
    simp [hnum, hn, hcount]
  count r'' he := by
    obtain rfl := Option.some.inj he
    have hcount := h.count r rfl
    simp only at hcount
    simp [hc, hcount]
  idle r'' he hne := by
    obtain rfl := Option.some.inj he
    exact absurd hr hne
  live r'' he _ := by
    obtain rfl := Option.some.inj he
    exact ⟨as, a, rfl, fun b hb => h.idle r rfl hs b hb, hm⟩

/-- Rewriting the open attempt, which either stays open with the run or is closed with it. -/
theorem Coupled.rewrite {r r' : Run} {prev : List Attempt} {a a' : Attempt}
    (h : Coupled ⟨some r, prev ++ [a]⟩) (hr : r.state = .running)
    (hc : r'.attemptCount = r.attemptCount) (hn : a'.attemptNumber = a.attemptNumber)
    (hm : if r'.state = .running then Mirrors r' a' else a'.isOpen = false) :
    Coupled ⟨some r', prev ++ [a']⟩ := by
  obtain ⟨prev', _, he, hclosed, -⟩ := h.exists_open hr
  obtain ⟨rfl, -⟩ := List.append_inj' he rfl
  refine ⟨nofun, ?_, fun r'' he => ?_, fun r'' he hne => ?_, fun r'' he hrun => ?_⟩
  · have hnum := h.numbered
    simpa [hn] using hnum
  · obtain rfl := Option.some.inj he
    simpa [hc] using h.count r rfl
  · obtain rfl := Option.some.inj he
    intro c hmem
    rw [if_neg hne] at hm
    rcases List.mem_append.mp hmem with hmem | hmem
    · exact hclosed c hmem
    · obtain rfl : c = a' := by simpa using hmem
      exact hm
  · obtain rfl := Option.some.inj he
    rw [if_pos hrun] at hm
    exact ⟨prev, a', rfl, hclosed, hm⟩

/-- Changing the row of an idle run. -/
theorem Coupled.idle_row {r r' : Run} {as : List Attempt} (h : Coupled ⟨some r, as⟩)
    (hs : r.state ≠ .running) (hs' : r'.state ≠ .running)
    (hc : r'.attemptCount = r.attemptCount) : Coupled ⟨some r', as⟩ where
  orphan h := nomatch h
  numbered := h.numbered
  count r'' he := by
    obtain rfl := Option.some.inj he
    exact hc.trans (h.count r rfl)
  idle r'' he _ := h.idle r rfl hs
  live r'' he hr := by
    obtain rfl := Option.some.inj he
    exact absurd hr hs'

/-- Attempt numbers identify the attempts of a run. -/
theorem Coupled.keyed {v : RunView} (h : Coupled v) : Keyed Attempt.key v.attempts := by
  have hnodup : (v.attempts.map Attempt.attemptNumber).Nodup := by
    rw [h.numbered]
    exact nodup_numbers _
  refine List.Nodup.of_map Prod.snd ?_
  rw [List.map_map]
  exact hnodup

/-! ## Changes -/

variable {K : Croner}

/-- The operations that insert runs for schedules. -/
def Call.Materializes : Call K → Prop
  | .materializeOne | .materializeDueJobs => True
  | _ => False

/-- What one transaction of an operation may do to one run and its attempts. The transactions of
`finalize_run`, `fail_run` and `renew_lease` have two statements, each with its own readings. -/
inductive Change (Ok : Env → Prop) : Call K → RunView → RunView → Prop
  | same (c v) : Change Ok c v v
  | enqueued {taskName args options name json env} (hOk : Ok env)
    (hname : JobName.tryFrom taskName = .ok name) (hargs : args = .ok json) :
    Change Ok (.enqueue taskName args options) ⟨none, []⟩
      ⟨some (enqueuedRun env name json options), []⟩
  | materialized {c env job} (hOk : Ok env) (hc : c.Materializes) :
    Change Ok c ⟨none, []⟩ ⟨some (materializedRun env job), []⟩
  | claimed {worker names limit env r as} (hOk : Ok env) (hr : r.claimable env names) :
    Change Ok (.claimBatch worker names limit) ⟨some r, as⟩
      ⟨some (r.claim env worker), as ++ [r.claimAttempt env worker]⟩
  | finalized {id token outcome env env' r prev a} (hOk : Ok env) (hOk' : Ok env')
    (hr : r.live env id token) (ha : a.openWith token) :
    Change Ok (.finalizeRun id token outcome) ⟨some r, prev ++ [a]⟩
      ⟨some (r.finalize env outcome.stored.1 outcome.stored.2.2),
        prev ++ [a.close env' outcome.stored.2.1 outcome.stored.2.2]⟩
  | failed {id token error retryable env env' r prev a} (hOk : Ok env) (hOk' : Ok env')
    (hr : r.live env id token) (ha : a.openWith token) :
    Change Ok (.failRun id token error retryable) ⟨some r, prev ++ [a]⟩
      ⟨some (r.fail env retryable error), prev ++ [a.close env' .failed (some error)]⟩
  | renewed {id token env r prev a} (hOk : Ok env) (hr : r.live env id token)
    (ha : a.openWith token) :
    Change Ok (.renewLease id token) ⟨some r, prev ++ [a]⟩
      ⟨some (r.renew env), prev ++ [{ a with
        leaseExpiresAt := env.clock .leaseExpiresAt r.id + r.leaseDuration.micros }]⟩
  | recovered {limit env r prev a} (hOk : Ok env) (hr : r.expired env) (ha : a.isOpen) :
    Change Ok (.recoverExpired limit) ⟨some r, prev ++ [a]⟩
      ⟨some (r.recover env), prev ++ [a.close env .expired (some "lease expired")]⟩
  | cancelledPending {id env r as} (hOk : Ok env) (hid : r.id = id) (hr : r.state = .pending) :
    Change Ok (.cancel id) ⟨some r, as⟩ ⟨some (r.cancel env), as⟩
  | cancelledRunning {id env r prev a} (hOk : Ok env) (hid : r.id = id) (hr : r.state = .running)
    (ha : a.isOpen) :
    Change Ok (.cancel id) ⟨some r, prev ++ [a]⟩
      ⟨some (r.cancel env), prev ++ [a.close env .cancelled none]⟩
  | pruned {before limit r as} (hr : r.doomed before) :
    Change Ok (.pruneTerminal before limit) ⟨some r, as⟩ ⟨none, []⟩

theorem Run.state_of_live {env : Env} {id : RunId} {token : LeaseToken} {r : Run}
    (h : r.live env id token) : r.id = id ∧ r.state = .running ∧ r.leaseToken = some token := by
  simp only [Run.live, Bool.and_eq_true, decide_eq_true_eq] at h
  exact h.1

theorem Run.state_of_expired {env : Env} {r : Run} (h : r.expired env) : r.state = .running := by
  simp only [Run.expired, Bool.and_eq_true, decide_eq_true_eq] at h
  exact h.1

theorem Run.of_claimable {env : Env} {names : List String} {r : Run} (h : r.claimable env names) :
    r.state = .pending ∧ r.availableAt ≤ env.now ∧ r.jobName ∈ names := by
  simpa [Run.claimable] using h

theorem Run.of_doomed {before : DateTime} {r : Run} (h : r.doomed before) :
    r.state.Terminal ∧ ∃ t, r.finishedAt = some t ∧ t < before.val := by
  simpa [Run.doomed, Option.any_eq_true] using h

@[simp] theorem Attempt.isOpen_close (env : Env) (outcome : StoredAttemptOutcome)
    (error : Option String) (a : Attempt) : (a.close env outcome error).isOpen = false := rfl

theorem Run.fail_state_ne_running (env : Env) (retryable : Bool) (error : String) (r : Run) :
    (r.fail env retryable error).state ≠ .running := by
  unfold Run.fail
  dsimp only
  split_ifs <;> exact nofun

theorem Run.recover_state_ne_running (env : Env) (r : Run) :
    (r.recover env).state ≠ .running := by
  unfold Run.recover
  dsimp only
  split_ifs <;> exact nofun

theorem Outcome.stored_state_ne_running (o : Outcome) : o.stored.1 ≠ .running := by
  cases o <;> exact nofun

/-- The attempt inserted by a claim repeats the claimed row. -/
theorem Run.mirrors_claim (env : Env) (worker : WorkerId) (r : Run) :
    Mirrors (r.claim env worker) (r.claimAttempt env worker) := ⟨rfl, rfl, rfl, rfl, rfl⟩

/-- Both statements of a renewal write the same deadline. -/
theorem Mirrors.renew {r : Run} {a : Attempt} (h : Mirrors r a) (env : Env) :
    Mirrors (r.renew env) { a with
      leaseExpiresAt := env.clock .leaseExpiresAt r.id + r.leaseDuration.micros } :=
  ⟨h.isOpen, h.worker, h.token, h.started, rfl⟩

/-- **Every change keeps the run and its attempts coupled.** -/
theorem Change.coupled {Ok : Env → Prop} {c : Call K} {v v' : RunView} (h : Change Ok c v v')
    (hv : Coupled v) : Coupled v' := by
  cases h with
  | same => exact hv
  | enqueued => exact .fresh rfl rfl
  | materialized => exact .fresh rfl rfl
  | @claimed _ _ _ _ r as _ hr =>
    have hne : r.state ≠ .running := by
      rw [(Run.of_claimable hr).1]
      exact nofun
    exact hv.open hne rfl rfl rfl (r.mirrors_claim _ _)
  | @finalized _ _ outcome _ _ r prev a _ _ hr =>
    refine hv.rewrite (Run.state_of_live hr).2.1 rfl rfl ?_
    exact (if_neg outcome.stored_state_ne_running).mpr rfl
  | @failed _ _ error retryable env _ r prev a _ _ hr =>
    refine hv.rewrite (Run.state_of_live hr).2.1 rfl rfl ?_
    exact (if_neg (r.fail_state_ne_running env retryable error)).mpr rfl
  | @renewed _ _ env r prev a _ hr =>
    have hrun := (Run.state_of_live hr).2.1
    obtain ⟨prev', b, he, -, hm⟩ := hv.exists_open hrun
    obtain rfl : a = b := by simpa using (List.append_inj' he rfl).2
    refine hv.rewrite hrun rfl rfl ?_
    rw [if_pos (show (r.renew env).state = .running from hrun)]
    exact hm.renew env
  | @recovered _ env r prev a _ hr =>
    refine hv.rewrite (Run.state_of_expired hr) rfl rfl ?_
    exact (if_neg (r.recover_state_ne_running env)).mpr rfl
  | @cancelledPending _ _ r _ _ _ hr =>
    refine hv.idle_row ?_ (fun h => nomatch h) rfl
    rw [hr]
    exact nofun
  | @cancelledRunning _ env r prev a _ _ hr =>
    refine hv.rewrite hr rfl rfl ?_
    exact (if_neg (show (r.cancel env).state ≠ .running from nofun)).mpr rfl
  | pruned => exact .empty

/-- Where the attempts of a run come from: they were there, they were open and have been rewritten,
or they were inserted with a token that was drawn. -/
theorem Change.attempt {Ok : Env → Prop} {c : Call K} {v v' : RunView} (h : Change Ok c v v') :
    ∀ a ∈ v'.attempts, a ∈ v.attempts ∨
      (∃ b ∈ v.attempts, b.isOpen ∧ b.key = a.key ∧ b.leaseToken = a.leaseToken) ∨
      ∃ env, ∃ r : Run, Ok env ∧ a.isOpen ∧ a.leaseToken = env.token r.id := by
  have hlast : ∀ {prev : List Attempt} {b b' : Attempt}, b.isOpen → b'.key = b.key →
      b'.leaseToken = b.leaseToken → ∀ a ∈ prev ++ [b'], a ∈ prev ++ [b] ∨
        (∃ x ∈ prev ++ [b], x.isOpen ∧ x.key = a.key ∧ x.leaseToken = a.leaseToken) ∨
        ∃ env, ∃ r : Run, Ok env ∧ a.isOpen ∧ a.leaseToken = env.token r.id := by
    intro prev b b' hopen hkey htoken a ha
    rcases List.mem_append.mp ha with ha | ha
    · exact Or.inl (List.mem_append_left _ ha)
    · obtain rfl := List.mem_singleton.mp ha
      exact Or.inr (Or.inl ⟨b, by simp, hopen, hkey.symm, htoken.symm⟩)
  have hopen : ∀ {token : LeaseToken} {a : Attempt}, a.openWith token → a.isOpen := by
    intro token a ha
    simp only [Attempt.openWith, Bool.and_eq_true] at ha
    exact ha.2
  cases h with
  | same => exact fun a ha => Or.inl ha
  | enqueued => exact fun a ha => nomatch ha
  | materialized => exact fun a ha => nomatch ha
  | @claimed worker _ _ env r as hOk =>
    intro a ha
    rcases List.mem_append.mp ha with ha | ha
    · exact Or.inl ha
    · obtain rfl := List.mem_singleton.mp ha
      exact Or.inr (Or.inr ⟨env, r, hOk, rfl, rfl⟩)
  | finalized _ _ _ ha => exact hlast (hopen ha) rfl rfl
  | failed _ _ _ ha => exact hlast (hopen ha) rfl rfl
  | renewed _ _ ha => exact hlast (hopen ha) rfl rfl
  | recovered _ _ ha => exact hlast ha rfl rfl
  | cancelledPending => exact fun a ha => Or.inl ha
  | cancelledRunning _ _ _ ha => exact hlast ha rfl rfl
  | pruned => exact fun a ha => nomatch ha

/-! ## How a run comes to its state -/

theorem Run.fail_state (env : Env) (retryable : Bool) (error : String) (r : Run) :
    (r.fail env retryable error).state =
      if retryable ∧ r.attemptsLeft then .pending else .failed := rfl

theorem Run.recover_state (env : Env) (r : Run) :
    (r.recover env).state = if r.attemptsLeft then .pending else .failed := rfl

section States

variable {Ok : Env → Prop} {c : Call K} {r r' : Run} {as as' : List Attempt} {v v' : RunView}

/-- A terminal run changes only by being pruned. -/
theorem Change.of_terminal (h : Change Ok c ⟨some r, as⟩ v') (hs : r.state.Terminal) :
    v' = ⟨some r, as⟩ ∨ v' = ⟨none, []⟩ ∧ ∃ before limit, c = .pruneTerminal before limit ∧
      r.doomed before := by
  obtain ⟨hpending, hrunning⟩ := StoredRunState.terminal_iff.mp hs
  cases h with
  | same => exact Or.inl rfl
  | claimed _ hr => exact absurd (Run.of_claimable hr).1 hpending
  | finalized _ _ hr => exact absurd (Run.state_of_live hr).2.1 hrunning
  | failed _ _ hr => exact absurd (Run.state_of_live hr).2.1 hrunning
  | renewed _ hr => exact absurd (Run.state_of_live hr).2.1 hrunning
  | recovered _ hr => exact absurd (Run.state_of_expired hr) hrunning
  | cancelledPending _ _ hr => exact absurd hr hpending
  | cancelledRunning _ _ hr => exact absurd hr hrunning
  | pruned hr => exact Or.inr ⟨rfl, _, _, rfl, hr⟩

/-- A closed attempt stays as it is, unless its run is deleted. -/
theorem Change.keeps_closed (h : Change Ok c v v') {b : Attempt} (hb : b ∈ v.attempts)
    (hclosed : b.isOpen = false) : b ∈ v'.attempts ∨ v'.run = none := by
  have hlast : ∀ {prev : List Attempt} {a a' : Attempt}, a.isOpen → b ∈ prev ++ [a] →
      b ∈ prev ++ [a'] := by
    intro prev a a' hopen hb
    rcases List.mem_append.mp hb with hb | hb
    · exact List.mem_append_left _ hb
    · obtain rfl := List.mem_singleton.mp hb
      exact nomatch hclosed.symm.trans hopen
  have hopen : ∀ {token : LeaseToken} {a : Attempt}, a.openWith token → a.isOpen := by
    intro token a ha
    simp only [Attempt.openWith, Bool.and_eq_true] at ha
    exact ha.2
  cases h with
  | same => exact Or.inl hb
  | enqueued => exact nomatch hb
  | materialized => exact nomatch hb
  | claimed => exact Or.inl (List.mem_append_left _ hb)
  | finalized _ _ _ ha => exact Or.inl (hlast (hopen ha) hb)
  | failed _ _ _ ha => exact Or.inl (hlast (hopen ha) hb)
  | renewed _ _ ha => exact Or.inl (hlast (hopen ha) hb)
  | recovered _ _ ha => exact Or.inl (hlast ha hb)
  | cancelledPending => exact Or.inl hb
  | cancelledRunning _ _ _ ha => exact Or.inl (hlast ha hb)
  | pruned => exact Or.inr rfl

/-- A run comes to be running by being claimed, while it is pending. -/
theorem Change.to_running (h : Change Ok c v v') (hr' : v'.run = some r')
    (hs' : r'.state = .running) (hs : ∀ r, v.run = some r → r.state ≠ .running) :
    ∃ r worker names limit, v.run = some r ∧ r.state = .pending ∧
      c = .claimBatch worker names limit ∧ r'.attemptCount = r.attemptCount + 1 := by
  cases h with
  | same => exact absurd hs' (hs r' hr')
  | enqueued =>
    obtain rfl := Option.some.inj hr'
    exact nomatch hs'
  | materialized =>
    obtain rfl := Option.some.inj hr'
    exact nomatch hs'
  | claimed _ hr =>
    obtain rfl := Option.some.inj hr'
    exact ⟨_, _, _, _, rfl, (Run.of_claimable hr).1, rfl, rfl⟩
  | finalized _ _ hr => exact absurd (Run.state_of_live hr).2.1 (hs _ rfl)
  | failed _ _ hr => exact absurd (Run.state_of_live hr).2.1 (hs _ rfl)
  | renewed _ hr => exact absurd (Run.state_of_live hr).2.1 (hs _ rfl)
  | recovered _ hr => exact absurd (Run.state_of_expired hr) (hs _ rfl)
  | cancelledPending =>
    obtain rfl := Option.some.inj hr'
    exact nomatch hs'
  | cancelledRunning _ _ hr => exact absurd hr (hs _ rfl)
  | pruned => exact nomatch hr'

/-- A run disappears only by being pruned, and only when it is terminal. -/
theorem Change.of_absent (h : Change Ok c ⟨some r, as⟩ v') (hnone : v'.run = none) :
    ∃ before limit, c = .pruneTerminal before limit ∧ r.doomed before := by
  cases h with
  | pruned hr => exact ⟨_, _, rfl, hr⟩
  | _ => exact nomatch hnone

/-- A run becomes cancelled by `cancel`, while it is pending or running. -/
theorem Change.to_cancelled (h : Change Ok c v ⟨some r', as'⟩) (hne : v ≠ ⟨some r', as'⟩)
    (hs : r'.state = .cancelled) : ∃ r as, v = ⟨some r, as⟩ ∧ c = .cancel r'.id ∧
      (r.state = .pending ∧ as' = as ∨
        r.state = .running ∧ ∃ prev a, as' = prev ++ [a] ∧ a.outcome = some .cancelled) := by
  cases h with
  | same => exact absurd rfl hne
  | enqueued => exact nomatch hs
  | materialized => exact nomatch hs
  | claimed => exact nomatch hs
  | @finalized _ _ o => cases o <;> exact nomatch hs
  | @failed _ _ _ retryable _ _ r =>
    rw [Run.fail_state] at hs
    split_ifs at hs
  | renewed _ hr => exact nomatch (Run.state_of_live hr).2.1.symm.trans hs
  | recovered =>
    rw [Run.recover_state] at hs
    split_ifs at hs
  | cancelledPending _ hid hp => exact ⟨_, _, rfl, by rw [← hid]; rfl, Or.inl ⟨hp, rfl⟩⟩
  | cancelledRunning _ hid hr =>
    exact ⟨_, _, rfl, by rw [← hid]; rfl, Or.inr ⟨hr, _, _, rfl, rfl⟩⟩

/-- The operations that may dead-letter a run, and the attempt number at which they do. -/
def Call.DeadLetters (c : Call K) (id : RunId) (attempt maxAttempts : ℤ) : Prop :=
  (∃ token error, c = .finalizeRun id token (.failed error)) ∨
  (∃ token error, c = .failRun id token error false) ∨
  ((∃ token error, c = .failRun id token error true) ∨ ∃ limit, c = .recoverExpired limit) ∧
    attempt = maxAttempts

/-- A run becomes failed by an operation that dead-letters it, while it is running. -/
theorem Change.to_failed (h : Change Ok c v ⟨some r', as'⟩) (hne : v ≠ ⟨some r', as'⟩)
    (hcheck : ∀ r, v.run = some r → r.AttemptsCheck) (hs : r'.state = .failed) :
    ∃ r prev a a', v = ⟨some r, prev ++ [a]⟩ ∧ as' = prev ++ [a'] ∧ r.state = .running ∧
      c.DeadLetters r'.id r'.attemptCount r'.maxAttempts := by
  have hlast : ∀ {r : Run}, r.AttemptsCheck → ¬ r.attemptsLeft → r.attemptCount = r.maxAttempts :=
    fun hr hleft => le_antisymm hr.2.2.1 (not_lt.mp hleft)
  cases h with
  | same => exact absurd rfl hne
  | enqueued => exact nomatch hs
  | materialized => exact nomatch hs
  | claimed => exact nomatch hs
  | @finalized _ _ o _ _ r _ _ _ _ hr =>
    obtain ⟨hid, hrun, -⟩ := Run.state_of_live hr
    cases o with
    | completed => exact nomatch hs
    | failed error => exact ⟨_, _, _, _, rfl, rfl, hrun, Or.inl ⟨_, error, by rw [← hid]; rfl⟩⟩
  | @failed _ _ error retryable _ _ r _ _ _ _ hr =>
    obtain ⟨hid, hrun, -⟩ := Run.state_of_live hr
    refine ⟨_, _, _, _, rfl, rfl, hrun, Or.inr ?_⟩
    rw [Run.fail_state] at hs
    cases retryable with
    | false => exact Or.inl ⟨_, error, by rw [← hid]; rfl⟩
    | true =>
      split_ifs at hs with hleft
      exact Or.inr ⟨Or.inl ⟨_, error, by rw [← hid]; rfl⟩,
        @hlast r (hcheck r rfl) fun h => hleft ⟨rfl, h⟩⟩
  | renewed _ hr => exact nomatch (Run.state_of_live hr).2.1.symm.trans hs
  | @recovered _ _ r _ _ _ hr =>
    refine ⟨_, _, _, _, rfl, rfl, Run.state_of_expired hr, Or.inr (Or.inr ⟨Or.inr ⟨_, rfl⟩, ?_⟩)⟩
    rw [Run.recover_state] at hs
    split_ifs at hs with hleft
    exact @hlast r (hcheck r rfl) hleft
  | cancelledPending => exact nomatch hs
  | cancelledRunning => exact nomatch hs

end States

end PgTaskScheduler
