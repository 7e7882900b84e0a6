import PgTaskScheduler.Worker.Capacity

/-!
# Shutdown

Cancellation ends the claims of a worker; what it has claimed before is dispatched already. The loop
then waits for its tasks, aborts those that outlast the timeout, and stops once it has joined them
all, which it can do from wherever it is.
-/

namespace PgTaskScheduler

open Histories

variable {K : Croner} {F : Type}

/-- The loop makes a call, or is answered one. -/
def WorkerEvent.Calls : WorkerEvent K → Prop
  | .request | .reply _ => True
  | _ => False

namespace Worker

/-- The loop has been left. -/
def Down (w : Worker) : Prop := w.phase = .draining ∨ w.phase = .aborting ∨ w.phase = .stopped

variable {sch : Scheduler F} {w w' : Worker} {ev : WorkerEvent K} {es : List (WorkerEvent K)}

theorem Down.pending (h : w.Down) : w.pending = [] := by
  unfold Worker.pending
  rcases h with h | h | h <;> rw [h]

theorem Step.down (h : w.Down) (hs : w.Step sch ev w') : w'.Down ∧ ¬ ev.Calls := by
  have hp : ∀ {p}, w.phase = p → p = .draining ∨ p = .aborting ∨ p = .stopped := by
    rintro p rfl
    exact h
  cases hs with
  | joined => exact ⟨h, id⟩
  | drained hp => exact ⟨Or.inr (Or.inl rfl), id⟩
  | stopped hp => exact ⟨Or.inr (Or.inr rfl), id⟩
  | timeout hp => exact ⟨Or.inr (Or.inl rfl), id⟩
  | task => exact ⟨h, id⟩
  | missed hp' | refused hp' => rcases hp' with hp' | hp' <;> exact absurd (hp hp') (by simp)
  | answered hp' => rcases hp' with ⟨hp', -⟩ | ⟨hp', -⟩ <;> exact absurd (hp hp') (by simp)
  | woken hp' => exact absurd (hp hp') (by simp)
  | _ => rename_i hp'; exact absurd (hp hp') (by simp)

theorem received_of_not_calls (h : ¬ ev.Calls) : ev.received = [] := by
  cases ev with
  | reply x => exact absurd trivial h
  | _ => rfl

/-- After cancellation the loop makes no call, and no run is claimed. -/
theorem quiet_reached (h : Reached sch es w) : ∀ pre post, es = pre ++ .cancelled :: post →
    w.Down ∧ es.flatMap WorkerEvent.received = pre.flatMap WorkerEvent.received ∧
      ∀ ev ∈ post, ¬ ev.Calls := by
  refine h.history (P := fun es w => ∀ pre post, es = pre ++ .cancelled :: post →
    w.Down ∧ es.flatMap WorkerEvent.received = pre.flatMap WorkerEvent.received ∧
      ∀ ev ∈ post, ¬ ev.Calls) (fun w₀ _ pre post he => absurd he (by simp))
    fun es w ev w' _ ih _ hs pre post he => ?_
  rcases List.eq_nil_or_concat post with rfl | ⟨post', ev', rfl⟩
  · obtain ⟨rfl, hev⟩ := List.append_inj' he rfl
    obtain rfl := List.singleton_inj.mp hev
    refine ⟨?_, by simp [WorkerEvent.received], by simp⟩
    cases hs with
    | cancelled => exact Or.inl rfl
  · rw [List.concat_eq_append, ← List.cons_append, ← List.append_assoc] at he
    obtain ⟨rfl, hev⟩ := List.append_inj' he rfl
    obtain rfl := List.singleton_inj.mp hev
    obtain ⟨hdown, hreceived, hquiet⟩ := ih pre post' rfl
    obtain ⟨hdown', hev⟩ := hs.down hdown
    refine ⟨hdown', ?_, fun e he => ?_⟩
    · rw [List.flatMap_append, hreceived, List.flatMap_singleton, received_of_not_calls hev,
        List.append_nil]
    · rw [List.concat_eq_append] at he
      rcases List.mem_append.mp he with he | he
      · exact hquiet e he
      · obtain rfl := List.mem_singleton.mp he
        exact hev

@[simp] theorem endCycle_phase (w : Worker) (error : Option CycleError) :
    (w.endCycle error).phase = .selecting := by
  cases error <;> rfl

theorem proceed_phase (w : Worker) (error : Option CycleError) :
    (w.proceed error).phase ≠ .aborting := by
  rcases error with _ | e
  · unfold proceed
    dsimp only
    split <;> simp
  · exact ne_of_eq_of_ne (w.endCycle_phase (some e)) (by simp)

theorem spawn_phase (w : Worker) (registry : Registry F) (runs : List ClaimedRun) :
    (w.spawn registry runs).phase ≠ .aborting := by
  unfold spawn
  split
  · simp
  · split_ifs
    · simp
    · split <;> simp

/-- Tasks are aborted after the timeout only; before it they have all ended. -/
theorem aborted_reached (h : Reached sch es w) :
    (∀ n, .task n .aborted ∈ es → .timeout ∈ es) ∧
      (w.phase = .aborting → .timeout ∈ es ∨ ∀ t ∈ w.tasks, t.dispatch.ended = true) := by
  refine h.history (P := fun es w => (∀ n, .task n .aborted ∈ es → .timeout ∈ es) ∧
    (w.phase = .aborting → .timeout ∈ es ∨ ∀ t ∈ w.tasks, t.dispatch.ended = true))
    (fun w₀ h₀ => ?_) fun es w ev w' hr ih _ hs => ?_
  · unfold start at h₀
    split_ifs at h₀
    obtain rfl := Option.some.inj h₀
    exact ⟨by simp, by simp⟩
  obtain ⟨hevents, hphase⟩ := ih
  have hkeep : ∀ {ev : WorkerEvent K}, (∀ n, ev = .task n .aborted → .timeout ∈ es) →
      ∀ n, .task n .aborted ∈ es ++ [ev] → .timeout ∈ es ++ [ev] := by
    intro ev hev n hn
    rcases List.mem_append.mp hn with hn | hn
    · exact List.mem_append_left _ (hevents n hn)
    · exact List.mem_append_left _ (hev n (List.mem_singleton.mp hn).symm)
  have hstay : ∀ {ev : WorkerEvent K}, (.timeout ∈ es ∨ ∀ t ∈ w.tasks, t.dispatch.ended = true) →
      .timeout ∈ es ++ [ev] ∨ ∀ t ∈ w.tasks, t.dispatch.ended = true := fun h =>
    h.imp_left (List.mem_append_left _)
  cases hs with
  | @joined n t hp ht hended =>
    refine ⟨hkeep (by simp), fun hp' => (hstay (hphase hp')).imp_right fun hall => ?_⟩
    exact forall_set hall hended
  | drained hp hall =>
    exact ⟨hkeep (by simp), fun _ => Or.inr fun t ht => (sound_reached hr).joined t ht (hall t ht)⟩
  | timeout hp => exact ⟨hkeep (by simp), fun _ => Or.inl (by simp)⟩
  | @task n t ev d hev ht hd =>
    have hlive := (Dispatch.step_of_next hd).ended.1
    have htimeout : w.phase = .aborting → .timeout ∈ es := fun hp =>
      (hphase hp).resolve_right fun hall => by simp [hall t (List.mem_of_getElem? ht)] at hlive
    refine ⟨hkeep fun m he => ?_, fun hp => Or.inl (List.mem_append_left _ (htimeout hp))⟩
    obtain ⟨-, rfl⟩ := WorkerEvent.task.inj he
    exact htimeout (hev rfl)
  | woken => exact ⟨hkeep (by simp), by simp⟩
  | @proceeded error hp => exact ⟨hkeep (by simp), fun hp' => absurd hp' (w.proceed_phase error)⟩
  | @dispatched runs hp =>
    exact ⟨hkeep (by simp), fun hp' => absurd hp' (w.spawn_phase sch.registry runs)⟩
  | _ => exact ⟨hkeep (by simp), fun hp' => absurd hp' (by simp)⟩

/-! ## Stopping -/

/-- What is left to do until the worker has stopped. -/
def remaining (w : Worker) : ℕ :=
  (if w.phase = .draining then 1 else 0) + (if w.phase = .stopped then 0 else 1) +
    (w.inFlight + w.tasks.countP fun t => !t.joined)

theorem remaining_le (w : Worker) : w.remaining ≤ 2 * w.tasks.length + 2 := by
  have hlive : w.inFlight ≤ w.tasks.length := List.countP_le_length
  have hjoined : (w.tasks.countP fun t => !t.joined) ≤ w.tasks.length := List.countP_le_length
  unfold remaining
  split_ifs <;> omega

theorem remaining_aborting (hp : w.phase = .aborting) :
    w.remaining = 1 + (w.inFlight + w.tasks.countP fun t => !t.joined) := by
  simp [remaining, hp]

theorem next_aborted {d : Dispatch} (h : d.ended = false) :
    d.next (.aborted : DispatchEvent K) = some (d.finish (.aborted d.result)) := by
  unfold Dispatch.next
  unfold Dispatch.ended at h
  rcases hp : d.phase <;> simp [hp] at h ⊢

/-- A task that has not ended can be aborted. -/
theorem abort_task {n : ℕ} {t : Task} (hp : w.phase = .aborting) (ht : w.tasks[n]? = some t)
    (hlive : t.dispatch.ended = false) :
    ∃ w', w.next sch (.task n (.aborted : DispatchEvent K)) = some w' ∧
      w'.phase = .aborting ∧ w'.remaining < w.remaining := by
  have hd := next_aborted (K := K) hlive
  refine ⟨w.setTask n t (t.dispatch.finish (.aborted t.dispatch.result)), ?_, hp, ?_⟩
  · show (if w.phase = .aborting then w.stepTask n (.aborted : DispatchEvent K) else none) = _
    rw [if_pos hp, stepTask, ht]
    show (do let d ← t.dispatch.next (.aborted : DispatchEvent K); pure _) = _
    rw [hd]
    rfl
  · have hcapacity :=
      @capacity_setTask w n t (t.dispatch.finish (.aborted t.dispatch.result)) ht hlive
    have hpermits : (w.setTask n t (t.dispatch.finish (.aborted t.dispatch.result))).permits =
        w.permits + 1 := rfl
    have hcount := @countP_set_getElem? _ (fun t : Task => !t.joined) _ _ _
      { t with dispatch := t.dispatch.finish (.aborted t.dispatch.result) } ht
    have hjoin : ((w.setTask n t (t.dispatch.finish (.aborted t.dispatch.result))).tasks.countP
        fun t => !t.joined) = w.tasks.countP fun t => !t.joined := Nat.add_right_cancel hcount
    have hphase : (w.setTask n t (t.dispatch.finish (.aborted t.dispatch.result))).phase =
        .aborting := hp
    rw [remaining_aborting hp, remaining_aborting hphase]
    omega

/-- A task that has ended can be joined. -/
theorem join_task {n : ℕ} {t : Task} (hp : w.phase = .aborting) (ht : w.tasks[n]? = some t)
    (hended : t.dispatch.ended = true) (hjoined : t.joined = false) :
    ∃ w', w.next sch (.joined n : WorkerEvent K) = some w' ∧ w'.phase = .aborting ∧
      w'.remaining < w.remaining := by
  refine ⟨w.joinTask n t, ?_, hp, ?_⟩
  · unfold next
    simp only [hp]
    unfold join
    rw [ht]
    simp [hended, hjoined, joinTask]
  · have hcount := @countP_set_getElem? _ (fun t : Task => !t.joined) _ _ _
      { t with joined := true } ht
    rw [hjoined] at hcount
    have hjoin : ((w.joinTask n t).tasks.countP fun t => !t.joined) + 1 =
        w.tasks.countP fun t => !t.joined := hcount
    have hphase : (w.joinTask n t).phase = .aborting := hp
    rw [remaining_aborting hp, remaining_aborting hphase, inFlight_joinTask ht]
    omega

/-- **A worker that is down can stop**: no state on the way is stuck. -/
theorem exists_stop (hs : Sound sch w) (hdown : w.Down) :
    ∃ (es : List (WorkerEvent K)) (w' : Worker), Histories.Run (next sch) (Answers sch) w es w' ∧
      w'.phase = .stopped ∧ es.length ≤ 2 * w.tasks.length + 2 := by
  have hstep : ∀ w, (Sound sch w ∧ w.Down) → w.phase ≠ .stopped →
      ∃ (ev : WorkerEvent K) (w' : Worker), Answers sch w ev ∧ w.next sch ev = some w' ∧
        (Sound sch w' ∧ w'.Down) ∧ w'.remaining < w.remaining := by
    rintro w ⟨hs, hdown⟩ hne
    suffices h : ∃ (ev : WorkerEvent K) (w' : Worker), Answers sch w ev ∧ w.next sch ev = some w' ∧
        w'.remaining < w.remaining by
      obtain ⟨ev, w', hG, hn, hlt⟩ := h
      have hst := step_of_next hn
      exact ⟨ev, w', hG, hn, ⟨hs.step hG hst, (hst.down hdown).1⟩, hlt⟩
    rcases hdown with hp | hp | hp
    · refine ⟨.timeout, { w with phase := .aborting }, trivial, if_pos hp, ?_⟩
      simp [remaining, hp, inFlight]
    · by_cases hlive : ∀ t ∈ w.tasks, t.dispatch.ended = true
      · by_cases hall : ∀ t ∈ w.tasks, t.joined = true
        · refine ⟨.noneJoined, { w with phase := .stopped, health := ⟨.stopped, w.failures, none⟩ },
            trivial, ?_, ?_⟩
          · unfold next
            simp only [hp]
            exact if_pos hall
          · simp [remaining, hp, inFlight]
        · push Not at hall
          obtain ⟨t, ht, hjoined⟩ := hall
          obtain ⟨n, hn⟩ := List.getElem?_of_mem ht
          obtain ⟨w', hnext, -, hlt⟩ :=
            @join_task K _ sch _ _ _ hp hn (hlive t ht) (by simpa using hjoined)
          exact ⟨.joined n, w', trivial, hnext, hlt⟩
      · push Not at hlive
        obtain ⟨t, ht, hlive⟩ := hlive
        obtain ⟨n, hn⟩ := List.getElem?_of_mem ht
        obtain ⟨w', hnext, -, hlt⟩ := @abort_task K _ sch _ _ _ hp hn (by simpa using hlive)
        exact ⟨.task n .aborted, w', trivial, hnext, hlt⟩
    · exact absurd hp hne
  obtain ⟨es, w', hr, -, hstop, hle⟩ := exists_run_of_measure remaining hstep ⟨hs, hdown⟩
  exact ⟨es, w', hr, hstop, hle.trans w.remaining_le⟩

/-- **Shutdown drains a worker.** After cancellation it makes no call; what it has claimed before is
what it has dispatched. No task is aborted before the timeout. When the worker has stopped, all its
tasks have ended and all permits are back; and from wherever it is, it can stop. -/
theorem shutdown_drains {pre post : List (WorkerEvent K)}
    (h : Reached sch (pre ++ .cancelled :: post) w) :
    (∀ ev ∈ post, ¬ ev.Calls) ∧
      w.dispatches.map Dispatch.claimed = pre.flatMap WorkerEvent.received ∧
      (∀ n, .task n .aborted ∈ pre ++ .cancelled :: post → .timeout ∈ pre ++ .cancelled :: post) ∧
      (w.phase = .stopped → (∀ t ∈ w.tasks, t.dispatch.ended = true) ∧
        w.permits = sch.config.maxConcurrency.value) ∧
      ∃ (es : List (WorkerEvent K)) (w' : Worker), Histories.Run (next sch) (Answers sch) w es w' ∧
        w'.phase = .stopped ∧ es.length ≤ 2 * w.tasks.length + 2 := by
  have hs := sound_reached h
  obtain ⟨hdown, hreceived, hquiet⟩ := quiet_reached h pre post rfl
  refine ⟨hquiet, ?_, (aborted_reached h).1, fun hstop => ?_, exists_stop hs hdown⟩
  · rw [← hreceived, received_reached h, hdown.pending, List.append_nil]
  · have hended : ∀ t ∈ w.tasks, t.dispatch.ended = true := fun t ht =>
      hs.joined t ht (hs.stopped hstop t ht)
    have hnone : w.inFlight = 0 := List.countP_eq_zero.mpr fun t ht => by simp [hended t ht]
    have hcapacity := hs.capacity
    exact ⟨hended, by omega⟩

variable (K) in
/-- The second task outlasts the timeout. -/
def hurriedStop : List (WorkerEvent K) :=
  [.joined 0, .timeout, .task 1 .aborted, .joined 1, .noneJoined]

theorem shutdown_drains_hurried : ∃ w : Worker, w.phase = .stopped ∧
    (∀ ev ∈ hurriedStop .everySecond, ¬ ev.Calls) ∧
    w.dispatches.map Dispatch.claimed = (busyDay .everySecond).flatMap WorkerEvent.received ∧
    (∀ n, .task n .aborted ∈ busyDay .everySecond ++ .cancelled :: hurriedStop .everySecond →
      .timeout ∈ busyDay .everySecond ++ .cancelled :: hurriedStop .everySecond) ∧
    (w.phase = .stopped → (∀ t ∈ w.tasks, t.dispatch.ended = true) ∧
      w.permits = mailScheduler.config.maxConcurrency.value) ∧
    ∃ (es : List (WorkerEvent .everySecond)) (w' : Worker),
      Histories.Run (next mailScheduler) (Answers mailScheduler) w es w' ∧
        w'.phase = .stopped ∧ es.length ≤ 2 * w.tasks.length + 2 := by
  obtain ⟨w₀, hw₀⟩ : ∃ w₀, start mailScheduler.config = some w₀ := ⟨_, rfl⟩
  obtain rfl : (⟨2, [], .selecting, 0, {}⟩ : Worker) = w₀ := Option.some.inj hw₀
  obtain ⟨w, hw, hphase⟩ : ∃ w, run (next mailScheduler) (promised mailScheduler)
      (⟨2, [], .selecting, 0, {}⟩ : Worker)
      (busyDay .everySecond ++ .cancelled :: hurriedStop .everySecond) = some w ∧
      w.phase = .stopped := ⟨_, rfl, rfl⟩
  have h : Reached mailScheduler
      (busyDay .everySecond ++ .cancelled :: hurriedStop .everySecond) w :=
    ⟨_, hw₀, run_sound (fun _ _ => answers_of_promised) hw⟩
  exact ⟨w, hphase, shutdown_drains h⟩

end Worker

end PgTaskScheduler
