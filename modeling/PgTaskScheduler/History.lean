import Mathlib.Data.Set.Basic
import PgTaskScheduler.Histories
import PgTaskScheduler.Refine.Program

/-!
# Histories of operations

Operations run one after the other, each with its readings. The clock does not go back, so the
readings of an operation lie between the clock before it and the clock after it;
`gen_random_uuid()` never returns a lease token again. Everything else is free: the arguments, the
rows that are skipped as locked, the order in which rows with equal keys are found.
-/

namespace PgTaskScheduler

open Tables ReadCommitted Histories

variable {K : Croner}

/-- The readings of a transaction that starts at `lo` or later and ends at `hi` or earlier. -/
structure Env.Within (lo hi : Timestamp) (env : Env) : Prop where
  now : lo ≤ env.now
  clock : ∀ site id, env.now ≤ env.clock site id ∧ env.clock site id ≤ hi

/-- The store, the clock, and the lease tokens that `gen_random_uuid()` has returned. -/
structure World where
  store : Store
  clock : Timestamp
  spent : Set LeaseToken

variable (K) in
/-- An operation, the readings of its transactions, and the clock when it ends. -/
structure Event where
  call : Call K
  env : ℕ → Env
  stop : Timestamp

/-- The readings that are possible in a world. -/
structure World.Readings (w : World) (stop : Timestamp) (env : Env) : Prop where
  within : env.Within w.clock stop
  token : ∀ id, env.token id ∉ w.spent

/-- What an operation answers, and the store it leaves. -/
def Event.outcome (e : Event K) (s : Store) : Except SchedulerError (Answer K) × Store :=
  (program K e.call).exec db e.env s s

variable (K) in
/-- The scheduler as a machine over its operations. -/
def scheduler : Machine World (Event K) where
  allowed w e := ∀ n, w.Readings e.stop (e.env n)
  after w e :=
    { store := (e.outcome w.store).2
      clock := e.stop
      spent := w.spent ∪ {t | ∃ a ∈ (e.outcome w.store).2.attempts, a.leaseToken = t} }

/-- The schema as the migration leaves it. -/
def World.initial (t : Timestamp) : World := ⟨.empty, t, ∅⟩

variable (K) in
/-- A world that some history leads to. -/
def World.Reachable (w : World) : Prop := ∃ t es, Reaches (scheduler K) (.initial t) es w

/-! ## What every reachable world satisfies -/

/-- The store invariant, and no token of an attempt can be drawn again. -/
structure World.Sane (w : World) : Prop where
  inv : Inv w.store
  spent : ∀ a ∈ w.store.attempts, a.leaseToken ∈ w.spent

theorem World.Sane.initial (t : Timestamp) : (World.initial t).Sane := ⟨.empty, nofun⟩

section Step

variable {w w' : World} {e : Event K} {es : List (Event K)}

theorem World.Readings.clock_le {stop : Timestamp} {env : Env} (h : w.Readings stop env) :
    w.clock ≤ stop := by
  obtain ⟨h₁, h₂⟩ := h.within.clock .predicate env.runId
  exact (h.within.now.trans h₁).trans h₂

theorem clock_le_after (he : (scheduler K).allowed w e) :
    w.clock ≤ ((scheduler K).after w e).clock := (he 0).clock_le

theorem clock_le_reaches (h : Reaches (scheduler K) w es w') : w.clock ≤ w'.clock :=
  h.invariant (P := fun w' => w.clock ≤ w'.clock) le_rfl fun _ _ hle he =>
    hle.trans (clock_le_after he)

theorem World.Sane.after (hw : w.Sane) (he : (scheduler K).allowed w e) :
    ((scheduler K).after w e).Sane where
  inv := (exec_good hw.inv he).2.1
  spent a ha := Or.inr ⟨a, ha, rfl⟩

theorem World.Sane.reaches (hw : w.Sane) (h : Reaches (scheduler K) w es w') : w'.Sane :=
  h.invariant hw fun _ _ hw he => hw.after he

theorem World.Reachable.sane (h : w.Reachable K) : w.Sane := by
  obtain ⟨t, es, h⟩ := h
  exact (World.Sane.initial t).reaches h

theorem World.Reachable.inv (h : w.Reachable K) : Inv w.store := h.sane.inv

theorem World.Reachable.reaches (h : w.Reachable K) (h' : Reaches (scheduler K) w es w') :
    w'.Reachable K := by
  obtain ⟨t, es₀, h₀⟩ := h
  exact ⟨t, es₀ ++ es, h₀.append h'⟩

theorem World.Reachable.after (h : w.Reachable K) (he : (scheduler K).allowed w e) :
    ((scheduler K).after w e).Reachable K := h.reaches (.single he)

/-- One operation, seen from one run. -/
theorem World.Sane.change (hw : w.Sane) (he : (scheduler K).allowed w e) (id : RunId) :
    Change (w.Readings e.stop) e.call (w.store.view id)
      (((scheduler K).after w e).store.view id) :=
  exec_change hw.inv he id

/-- An invariant of a run that may mention the clock holds in every reachable world. -/
theorem World.Reachable.view_invariant {P : Timestamp → RunView → Prop}
    (hempty : ∀ t, P t ⟨none, []⟩)
    (hstep : ∀ (w : World) (stop : Timestamp) (c : Call K) (v v' : RunView), w.clock ≤ stop →
      Coupled v → (∀ r, v.run = some r → r.check = .ok ()) → P w.clock v →
      Change (w.Readings stop) c v v' → P stop v')
    (h : w.Reachable K) (id : RunId) : P w.clock (w.store.view id) := by
  obtain ⟨t, es, h⟩ := h
  refine (h.invariant (P := fun w => w.Sane ∧ P w.clock (w.store.view id))
    ⟨.initial t, hempty t⟩ fun w e hw he => ⟨hw.1.after he, ?_⟩).2
  exact hstep w e.stop e.call _ _ (he 0).clock_le (hw.1.inv.coupled id)
    (fun r hr => hw.1.inv.runsValid r (mem_of_lookup hr)) hw.2 (hw.1.change he id)

end Step

/-! ## One call after the other -/

/-- Readings at the instant `t`, with ids and tokens numbered by it. -/
def Env.tick (t : Timestamp) : Env where
  now := t
  clock _ _ := t
  token _ := ⟨t.toNat⟩
  runId := ⟨t.toNat⟩
  jobId := ⟨t.toNat⟩
  skipRun _ := false
  skipJob _ := false
  rank j := j.uuid

/-- The next call, an instant later. -/
def Event.next (w : World) (c : Call K) : Event K := ⟨c, fun _ => .tick (w.clock + 1), w.clock + 1⟩

/-- Calls one after the other, an instant each. -/
def World.playFrom (w : World) : List (Call K) → World
  | [] => w
  | c :: cs => ((scheduler K).after w (.next w c)).playFrom cs

/-- The events of `playFrom`. -/
def World.script (w : World) : List (Call K) → List (Event K)
  | [] => []
  | c :: cs => .next w c :: ((scheduler K).after w (.next w c)).script cs

/-- Calls one after the other on the empty schema. -/
def World.play (calls : List (Call K)) : World := (World.initial 0).playFrom calls

/-- The tokens are numbered by instants that have passed. -/
structure World.Numbered (w : World) : Prop where
  clock : (0 : ℤ) ≤ w.clock
  spent : ∀ t ∈ w.spent, (t.uuid : ℤ) ≤ w.clock

section Numbered

variable {w : World}

/-- Readings at a later instant are possible. -/
theorem World.Numbered.readings (h : w.Numbered) {t : Timestamp} (ht : w.clock < t) :
    w.Readings t (.tick t) := by
  refine ⟨⟨le_of_lt ht, fun _ _ => ⟨le_rfl, le_rfl⟩⟩, fun id hid => ?_⟩
  have htoken : ((t.toNat : ℕ) : ℤ) ≤ w.clock := h.spent _ hid
  exact absurd ((Int.self_le_toNat t).trans htoken) (not_le.mpr ht)

theorem World.Numbered.allowed (h : w.Numbered) (c : Call K) :
    (scheduler K).allowed w (.next w c) := fun _ => h.readings (Int.lt_succ _)

theorem World.Numbered.after (h : w.Numbered) (hw : w.Sane) (c : Call K) :
    ((scheduler K).after w (.next w c)).Numbered := by
  have hclock := h.clock
  refine ⟨Int.le_add_one hclock, fun t ht => ?_⟩
  show (t.uuid : ℤ) ≤ w.clock + 1
  rcases ht with ht | ⟨a, ha, rfl⟩
  · exact (h.spent t ht).trans (Int.le_add_one le_rfl)
  · have hchange : Change (fun env => env = .tick (w.clock + 1)) c (w.store.view a.runId)
        (((scheduler K).after w (.next w c)).store.view a.runId) :=
      @exec_change K (fun env => env = .tick (w.clock + 1)) _ c (fun _ => .tick (w.clock + 1))
        hw.inv (fun _ => rfl) a.runId
    rcases hchange.attempt a (Store.mem_view_attempts.mpr ⟨ha, rfl⟩) with
      hold | ⟨b, hb, -, -, htoken⟩ | ⟨env, r, rfl, -, htoken⟩
    · have := h.spent _ (hw.spent a (Store.mem_view_attempts.mp hold).1)
      omega
    · have := h.spent _ (hw.spent b (Store.mem_view_attempts.mp hb).1)
      rw [htoken] at this
      omega
    · rw [htoken]
      show (((w.clock + 1).toNat : ℕ) : ℤ) ≤ w.clock + 1
      omega

theorem World.Numbered.playFrom (h : w.Numbered) (hw : w.Sane) (calls : List (Call K)) :
    Reaches (scheduler K) w (w.script calls) (w.playFrom calls) ∧ (w.playFrom calls).Numbered := by
  induction calls generalizing w with
  | nil => exact ⟨.nil, h⟩
  | cons c calls ih =>
    obtain ⟨hreaches, hnumbered⟩ := ih (h.after hw c) (hw.after (h.allowed c))
    exact ⟨(Reaches.single (h.allowed c)).append hreaches, hnumbered⟩

end Numbered

theorem World.Numbered.initial : (World.initial 0).Numbered := ⟨le_rfl, nofun⟩

/-- **Every play is a history.** -/
theorem play_reaches (calls : List (Call K)) :
    Reaches (scheduler K) (.initial 0) ((World.initial 0).script calls) (World.play calls) :=
  (World.Numbered.initial.playFrom (.initial 0) calls).1

theorem play_numbered (calls : List (Call K)) : (World.play calls).Numbered :=
  (World.Numbered.initial.playFrom (.initial 0) calls).2

theorem play_reachable (calls : List (Call K)) : (World.play calls).Reachable K :=
  ⟨0, _, play_reaches calls⟩

/-! ## Operations for worked examples -/

def EnqueueOptions.standard : EnqueueOptions := {}

def mail (options : EnqueueOptions) : Call .everySecond :=
  .enqueue "mail" (.ok ⟨"\x7b\x7d"⟩) options

def claimMail : Call .everySecond := .claimBatch ⟨"worker", rfl⟩ ["mail"] ⟨10, by decide⟩

def RetryBackoff.zero : RetryBackoff := ⟨0, by decide⟩

def EnqueueOptions.keyed : EnqueueOptions :=
  { EnqueueOptions.standard with retryBackoff := .zero, deduplication := .key ⟨"order-1", rfl⟩ }

end PgTaskScheduler
