import PgTaskScheduler.Worker.Capacity

/-!
# Health

`update_health` runs at the end of every cycle. What the health of a worker says is determined by
the outcomes of its cycles: the last one, and how many have failed since the last success.
-/

namespace PgTaskScheduler

open Histories

variable {K : Croner} {F : Type}

namespace Worker

/-- The outcome of the cycle that an event ends: an error, or none. -/
def outcome (w : Worker) : WorkerEvent K → Option (Option CycleError)
  | .noneJoined =>
    match w.phase with
    | .joining (some e) => some (some e)
    | .joining none => if (NonZeroUsize.new w.permits).isNone then some none else none
    | _ => none
  | .noConnection detail =>
    match w.phase with
    | .claiming .. => some (some (.pool detail))
    | _ => none
  | .reply (.error e) =>
    match w.phase with
    | .claiming .. => some (some (.store e))
    | _ => none
  | .dispatched =>
    match w.phase with
    | .dispatching [] => some none
    | _ => none
  | _ => none

/-- The outcomes of the cycles that the events end. -/
def outcomes (sch : Scheduler F) (w₀ : Worker) (es : List (WorkerEvent K)) :
    List (Option CycleError) :=
  outputs (next sch) (fun w ev _ => (w.outcome ev).toList) w₀ es

/-- The failures since the last success. -/
def consecutive (os : List (Option CycleError)) : ℕ := (os.reverse.takeWhile Option.isSome).length

/-- What the outcomes of the cycles say about the health of the worker. -/
def reported (os : List (Option CycleError)) : WorkerHealth :=
  match os.getLast? with
  | none => {}
  | some none => ⟨.healthy, 0, none⟩
  | some (some e) => ⟨.degraded, min (consecutive os) u64Max, some e⟩

/-- The counter of failures and the health of a worker whose cycles have had the outcomes `os`. -/
structure Reports (os : List (Option CycleError)) (w : Worker) : Prop where
  failures : w.failures = min (consecutive os) u64Max
  health : w.health = if w.phase = .stopped then ⟨.stopped, w.failures, none⟩ else reported os

variable {sch : Scheduler F} {w w' : Worker} {ev : WorkerEvent K} {os : List (Option CycleError)}

@[simp] theorem consecutive_failed (e : CycleError) :
    consecutive (os ++ [some e]) = consecutive os + 1 := by
  simp [consecutive]

@[simp] theorem consecutive_succeeded : consecutive (os ++ [none]) = 0 := by
  simp [consecutive]

/-- The end of a cycle. -/
theorem Reports.endCycle (h : Reports os w) (error : Option CycleError) :
    Reports (os ++ [error]) (w.endCycle error) := by
  cases error with
  | none => exact ⟨by simp [Worker.endCycle], by simp [Worker.endCycle, reported]⟩
  | some e =>
    have hfailures : min (w.failures + 1) u64Max = min (consecutive os + 1) u64Max := by
      rw [h.failures]
      omega
    refine ⟨by simpa [Worker.endCycle] using hfailures, ?_⟩
    simpa [Worker.endCycle, reported] using hfailures

/-- A step that ends no cycle. -/
theorem Reports.keep (h : Reports os w) (hf : w'.failures = w.failures) (hh : w'.health = w.health)
    (hp : w.phase ≠ .stopped) (hp' : w'.phase ≠ .stopped) : Reports os w' := by
  refine ⟨hf.trans h.failures, ?_⟩
  rw [hh, h.health, if_neg hp, if_neg hp']

theorem Reports.step (h : Reports os w) (hsound : Sound sch w) (hs : w.Step sch ev w') :
    Reports (os ++ (w.outcome ev).toList) w' := by
  have hnone : ∀ {w' : Worker}, Reports os w' → w.outcome ev = none →
      Reports (os ++ (w.outcome ev).toList) w' := by
    intro w' h hnone
    rwa [hnone, Option.toList_none, List.append_nil]
  cases hs with
  | cancelled hp | pollTick hp | recoverTick hp | drained hp | materialize hp | recover hp
    | claim hp | timeout hp | claimed hp | woken hp =>
    exact hnone (h.keep rfl rfl (by simp [hp]) (by simp)) (by simp [outcome, hp])
  | missed hp | refused hp =>
    rcases hp with hp | hp <;>
      exact hnone (h.keep rfl rfl (by simp [hp]) (by simp)) (by simp [outcome, hp])
  | answered hp =>
    rcases hp with ⟨hp, -⟩ | ⟨hp, -⟩ <;>
      exact hnone (h.keep rfl rfl (by simp [hp]) (by simp)) (by simp [outcome])
  | joined hp =>
    rcases hp with ⟨e, hp⟩ | hp | hp <;>
      exact hnone (h.keep rfl rfl (by simp [hp]) (by simp [joinTask, hp])) rfl
  | task => exact hnone ⟨h.failures, h.health⟩ rfl
  | stopped hp hall => exact hnone ⟨h.failures, by simp⟩ (by simp [outcome, hp])
  | @unclaimed limit detail hp =>
    have ho : w.outcome (.noConnection detail : WorkerEvent K) = some (some (.pool detail)) := by
      simp [outcome, hp]
    rw [ho]
    exact h.endCycle (some (.pool detail))
  | @failed limit e hp =>
    have ho : w.outcome (.reply (.error e) : WorkerEvent K) = some (some (.store e)) := by
      simp [outcome, hp]
    rw [ho]
    exact h.endCycle (some (.store e))
  | @proceeded error hp =>
    cases error with
    | some e =>
      have ho : w.outcome (.noneJoined : WorkerEvent K) = some (some e) := by simp [outcome, hp]
      rw [ho]
      exact h.endCycle (some e)
    | none =>
      rcases hl : NonZeroUsize.new w.permits with _ | limit
      · have ho : w.outcome (.noneJoined : WorkerEvent K) = some none := by simp [outcome, hp, hl]
        have hproceed : w.proceed none = w.endCycle none := by simp [proceed, hl]
        rw [ho, hproceed]
        exact h.endCycle none
      · have hproceed : w.proceed none = { w with phase := .claiming limit false } := by
          simp [proceed, hl]
        rw [hproceed]
        refine hnone (h.keep rfl rfl (by simp [hp]) (by simp)) ?_
        simp [outcome, hp, hl]
  | @dispatched runs hp =>
    cases runs with
    | nil =>
      have ho : w.outcome (.dispatched : WorkerEvent K) = some none := by simp [outcome, hp]
      rw [ho]
      exact h.endCycle none
    | cons c rest =>
      rw [hsound.spawn hp]
      exact hnone (h.keep rfl rfl (by simp [hp]) (by simp)) (by simp [outcome, hp])

/-- **Health tells how the cycles have gone**: healthy exactly after a cycle that succeeded, else
degraded with the last error and the number of failures since the last success. -/
theorem health_reports {w₀ : Worker} {es : List (WorkerEvent K)}
    (hstart : start sch.config = some w₀)
    (h : Histories.Run (next sch) (Answers sch) w₀ es w) : Reports (outcomes sch w₀ es) w := by
  refine Histories.Run.history (P := fun es w => Reports (outcomes sch w₀ es) w) h ?_
    fun es w ev w' hr ih hG hn => ?_
  · unfold start at hstart
    split_ifs at hstart
    obtain rfl := Option.some.inj hstart
    exact ⟨rfl, rfl⟩
  · have houtcomes : outcomes sch w₀ (es ++ [ev]) = outcomes sch w₀ es ++ (w.outcome ev).toList :=
      Histories.Run.outputs_snoc hr hn
    rw [houtcomes]
    exact ih.step (sound_reached ⟨w₀, hstart, hr⟩) (step_of_next hn)

variable (K) in
/-- The materializer fails; then the pool gives no connection. -/
def badStart : List (WorkerEvent K) := [
  .pollTick, .request, .reply (.error (.database .timestampTooLarge)), .noneJoined,
  .recoverTick, .noConnection "timed out", .noneJoined]

theorem health_reports_degraded : ∃ w : Worker,
    w.health = ⟨.degraded, 2, some (.pool "timed out")⟩ ∧
    Reports (outcomes mailScheduler ⟨2, [], .selecting, 0, {}⟩ (badStart .everySecond)) w := by
  obtain ⟨w, hw, hhealth⟩ : ∃ w, run (next mailScheduler) (promised mailScheduler)
      (⟨2, [], .selecting, 0, {}⟩ : Worker) (badStart .everySecond) = some w ∧
      w.health = ⟨.degraded, 2, some (.pool "timed out")⟩ := ⟨_, rfl, rfl⟩
  exact ⟨w, hhealth, health_reports rfl (run_sound (fun _ _ => answers_of_promised) hw)⟩

end Worker

end PgTaskScheduler
