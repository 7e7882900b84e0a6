import PgTaskScheduler.Worker.Loop

/-!
# Permits and tasks of a worker

A permit is with the semaphore or with a task that has not ended. `Worker.Sound` says so, and that
the loop never holds more claimed runs than permits, nor one without a handler: the two consistency
checks of `claim_and_dispatch` do not fail, and every run that a claim has answered is dispatched.
All that it takes from the store is `Worker.Answers`.
-/

namespace PgTaskScheduler

open Histories

variable {K : Croner} {F : Type}

namespace Worker

/-- The tasks that have not ended. -/
def inFlight (w : Worker) : ℕ := w.tasks.countP fun t => !t.dispatch.ended

/-- The claimed runs that are not dispatched yet. -/
def pending (w : Worker) : List ClaimedRun :=
  match w.phase with
  | .dispatching runs => runs
  | _ => []

/-- What the store promises: its consistency checks do not fail, and a claim answers no more runs
than it was asked for, of the names it was asked for. -/
def Answers (sch : Scheduler F) (w : Worker) : WorkerEvent K → Prop
  | .reply (.error e) => ∀ detail, e ≠ .invariant detail
  | .reply (.ok (.claimed runs)) => ∀ limit, w.phase = .claiming limit true →
    runs.length ≤ limit.value ∧ ∀ c ∈ runs, c.jobName ∈ sch.registry.names
  | _ => True

/-- The permits and the claimed runs of a worker, between two steps. -/
structure Sound (sch : Scheduler F) (w : Worker) : Prop where
  capacity : w.permits + w.inFlight = sch.config.maxConcurrency.value
  limit : ∀ limit called, w.phase = .claiming limit called → limit.value ≤ w.permits
  fits : w.pending.length ≤ w.permits
  handled : ∀ c ∈ w.pending, c.jobName ∈ sch.registry.names
  error : ∀ detail, w.phase ≠ .joining (some (.store (.invariant detail)))
  health : ∀ detail, w.health.lastError ≠ some (.store (.invariant detail))
  joined : ∀ t ∈ w.tasks, t.joined = true → t.dispatch.ended = true
  stopped : w.phase = .stopped → ∀ t ∈ w.tasks, t.joined = true

variable {sch : Scheduler F} {w w' : Worker} {ev : WorkerEvent K}

/-! ## What a step does to the tasks -/

theorem countP_set_getElem? {α : Type} {p : α → Bool} {l : List α} {n : ℕ} {a b : α}
    (h : l[n]? = some a) : (l.set n b).countP p + (if p a then 1 else 0) =
      l.countP p + (if p b then 1 else 0) := by
  obtain ⟨hn, rfl⟩ := List.getElem?_eq_some_iff.mp h
  have hle : (if p l[n] then 1 else 0) ≤ l.countP p := List.boole_getElem_le_countP hn
  rw [List.countP_set hn]
  omega

@[simp] theorem inFlight_joinTask {n : ℕ} {t : Task} (h : w.tasks[n]? = some t) :
    (w.joinTask n t).inFlight = w.inFlight := by
  have hcount := @countP_set_getElem? _ (fun t : Task => !t.dispatch.ended) _ _ _
    { t with joined := true } h
  show (w.tasks.set n { t with joined := true }).countP _ = w.tasks.countP _
  dsimp only at hcount
  omega

/-- A task that ends gives its permit back. -/
theorem capacity_setTask {n : ℕ} {t : Task} {d : Dispatch} (h : w.tasks[n]? = some t)
    (ht : t.dispatch.ended = false) :
    (w.setTask n t d).permits + (w.setTask n t d).inFlight = w.permits + w.inFlight := by
  have hcount := @countP_set_getElem? _ (fun t : Task => !t.dispatch.ended) _ _ _
    { t with dispatch := d } h
  show (if d.ended then w.permits + 1 else w.permits) +
    (w.tasks.set n { t with dispatch := d }).countP _ = w.permits + w.tasks.countP _
  rw [ht] at hcount
  rcases hd : d.ended <;> simp [hd] at hcount ⊢ <;> omega

theorem forall_set {α : Type} {P : α → Prop} {l : List α} {n : ℕ} {b : α} (h : ∀ a ∈ l, P a)
    (hb : P b) : ∀ a ∈ l.set n b, P a := by
  intro a ha
  rcases List.mem_or_eq_of_mem_set ha with ha | rfl
  · exact h a ha
  · exact hb

/-- **The two checks of `claim_and_dispatch` do not fail.** -/
theorem Sound.spawn {c : ClaimedRun} {rest : List ClaimedRun} (h : Sound sch w)
    (hp : w.phase = .dispatching (c :: rest)) : w.spawn sch.registry (c :: rest) = { w with
      permits := w.permits - 1
      tasks := w.tasks ++ [⟨.start c, false⟩]
      phase := .dispatching rest } := by
  have hpending : w.pending = c :: rest := by simp [pending, hp]
  have hfits := h.fits
  have hname := h.handled c (by simp [hpending])
  rw [hpending, List.length_cons] at hfits
  obtain ⟨handler, hget⟩ := Option.isSome_iff_exists.mp (Registry.get_isSome_iff.mpr hname)
  unfold Worker.spawn
  dsimp only
  rw [if_neg (by omega), hget]

/-! ## Every step keeps the permits -/

/-- The loop goes on to a phase in which it holds no claimed run. -/
theorem Sound.move (h : Sound sch w) {p : WorkerPhase} (hrest : ∀ runs, p ≠ .dispatching runs)
    (hlimit : ∀ limit called, p = .claiming limit called → limit.value ≤ w.permits)
    (herror : ∀ detail, p ≠ .joining (some (.store (.invariant detail)))) (hstop : p ≠ .stopped) :
    Sound sch { w with phase := p } := by
  have hpending : pending { w with phase := p } = [] := by
    unfold pending
    split
    · next hp => exact absurd hp (hrest _)
    · rfl
  exact ⟨h.capacity, hlimit, by simp [hpending], by simp [hpending], herror, h.health, h.joined,
    fun hp => absurd hp hstop⟩

theorem Sound.endCycle (h : Sound sch w) {error : Option CycleError}
    (herror : ∀ detail, error ≠ some (.store (.invariant detail))) :
    Sound sch (w.endCycle error) := by
  have hmove : Sound sch { w with phase := .selecting } :=
    h.move (by simp) (by simp) (by simp) (by simp)
  cases error with
  | none => exact { hmove with health := fun detail => by simp [Worker.endCycle] }
  | some e => exact { hmove with health := herror }

theorem NonZeroUsize.value_of_new {n : ℕ} {limit : NonZeroUsize}
    (h : NonZeroUsize.new n = some limit) : limit.value = n := by
  unfold NonZeroUsize.new at h
  split_ifs at h
  obtain rfl := Option.some.inj h
  rfl

theorem Sound.proceed (h : Sound sch w) {error : Option CycleError}
    (herror : ∀ detail, error ≠ some (.store (.invariant detail))) :
    Sound sch (w.proceed error) := by
  cases error with
  | some e => exact h.endCycle herror
  | none =>
    unfold Worker.proceed
    dsimp only
    split
    · next limit hlimit =>
      refine h.move (by simp) (fun limit' called hp => ?_) (by simp) (by simp)
      obtain ⟨rfl, -⟩ := WorkerPhase.claiming.inj hp
      exact le_of_eq (NonZeroUsize.value_of_new hlimit)
    · exact h.endCycle (by simp)

theorem Sound.join (h : Sound sch w) {n : ℕ} {t : Task} (ht : w.tasks[n]? = some t)
    (hended : t.dispatch.ended = true) (hp : w.phase ≠ .stopped) : Sound sch (w.joinTask n t) := by
  have hjoined : ∀ t' ∈ (w.joinTask n t).tasks, t'.joined = true → t'.dispatch.ended = true :=
    forall_set h.joined fun _ => hended
  have hcapacity : w.permits + (w.joinTask n t).inFlight = sch.config.maxConcurrency.value := by
    rw [inFlight_joinTask ht]
    exact h.capacity
  exact ⟨hcapacity, h.limit, h.fits, h.handled, h.error, h.health, hjoined, fun hs => absurd hs hp⟩

theorem Sound.task (h : Sound sch w) {n : ℕ} {t : Task} {d : Dispatch} (ht : w.tasks[n]? = some t)
    (hlive : t.dispatch.ended = false) : Sound sch (w.setTask n t d) := by
  have hle : w.permits ≤ (w.setTask n t d).permits := by
    show w.permits ≤ if d.ended then w.permits + 1 else w.permits
    split_ifs <;> omega
  have hnot : t.joined ≠ true := fun hj => by
    have := h.joined t (List.mem_of_getElem? ht) hj
    simp [hlive] at this
  exact ⟨(capacity_setTask ht hlive).trans h.capacity,
    fun limit called hp => (h.limit limit called hp).trans hle, h.fits.trans hle, h.handled,
    h.error, h.health, forall_set h.joined fun hj => absurd hj hnot,
    fun hs => absurd (h.stopped hs t (List.mem_of_getElem? ht)) hnot⟩

/-- **Every step keeps the permits.** -/
theorem Sound.step (h : Sound sch w) (hG : Answers sch w ev) (hs : w.Step sch ev w') :
    Sound sch w' := by
  cases hs with
  | cancelled | pollTick | recoverTick | drained | materialize | recover | timeout | missed
    | answered => exact h.move (by simp) (by simp) (by simp) (by simp)
  | @woken n t hp ht hended =>
    have hjoin := h.join ht hended (by simp [hp])
    exact hjoin.move (by simp) (by simp) (by simp) (by simp)
  | @joined n t hp ht hended =>
    refine h.join ht hended ?_
    rcases hp with ⟨e, hp⟩ | hp | hp <;> simp [hp]
  | proceeded hp => exact h.proceed fun detail he => h.error detail (hp.trans (congrArg _ he))
  | stopped hp hall =>
    have hmove := h.move (p := .aborting) (by simp) (by simp) (by simp) (by simp)
    exact { hmove with
      limit := by simp
      fits := by simp [pending]
      handled := by simp [pending]
      error := by simp
      health := by simp
      stopped := fun _ => hall }
  | unclaimed hp => exact h.endCycle (by simp)
  | claim hp =>
    refine h.move (by simp) (fun limit' called he => ?_) (by simp) (by simp)
    obtain ⟨rfl, -⟩ := WorkerPhase.claiming.inj he
    exact h.limit _ _ hp
  | refused hp =>
    refine h.move (by simp) (by simp) (fun detail he => ?_) (by simp)
    exact hG detail (by simpa using he)
  | @claimed limit runs hp =>
    obtain ⟨hlength, hnames⟩ := hG limit hp
    have hmove := h.move (p := .selecting) (by simp) (by simp) (by simp) (by simp)
    exact { hmove with
      limit := by simp
      fits := hlength.trans (h.limit limit true hp)
      handled := hnames
      error := by simp
      stopped := by simp }
  | failed hp => exact h.endCycle fun detail he => hG detail (by simpa using he)
  | @dispatched runs hp =>
    cases runs with
    | nil =>
      show Sound sch (w.endCycle none)
      exact h.endCycle (by simp)
    | cons c rest =>
      have hpending : w.pending = c :: rest := by simp [pending, hp]
      have hfits := h.fits
      have hcapacity := h.capacity
      rw [hpending, List.length_cons] at hfits
      rw [h.spawn hp]
      refine ⟨?_, by simp, ?_, fun c' hc' => h.handled c' ?_, by simp, h.health, ?_, by simp⟩
      · show w.permits - 1 + (w.tasks ++ [(⟨.start c, false⟩ : Task)]).countP
          (fun t => !t.dispatch.ended) = _
        rw [List.countP_append]
        show w.permits - 1 + (w.inFlight + 1) = _
        omega
      · show rest.length ≤ w.permits - 1
        omega
      · rw [hpending]
        exact List.mem_cons_of_mem _ hc'
      · intro t ht
        rcases List.mem_append.mp ht with ht | ht
        · exact h.joined t ht
        · obtain rfl := List.mem_singleton.mp ht
          exact fun hj => absurd hj (by simp)
  | task hev ht hd => exact h.task ht (Dispatch.step_of_next hd).ended.1

/-! ## Runs -/

/-- A worker comes to `w` by the events `es`, the store keeping its promises. -/
def Reached (sch : Scheduler F) (es : List (WorkerEvent K)) (w : Worker) : Prop :=
  ∃ w₀, start sch.config = some w₀ ∧ Histories.Run (next sch) (Answers sch) w₀ es w

variable {es : List (WorkerEvent K)}

theorem sound_start {w₀ : Worker} (h : start sch.config = some w₀) : Sound sch w₀ := by
  unfold start at h
  split_ifs at h
  obtain rfl := Option.some.inj h
  exact ⟨rfl, by simp, by simp [pending], by simp [pending], by simp, by simp, by simp, by simp⟩

theorem sound_reached (h : Reached sch es w) : Sound sch w := by
  obtain ⟨w₀, hstart, hr⟩ := h
  exact Histories.Run.keeps hr (sound_start hstart) fun w ev w' h hG hn =>
    h.step hG (step_of_next hn)

/-- A statement about the events of a worker and the state they lead to. -/
theorem Reached.history {P : List (WorkerEvent K) → Worker → Prop} (h : Reached sch es w)
    (hstart : ∀ w₀, start sch.config = some w₀ → P [] w₀)
    (hstep : ∀ es w ev w', Reached sch es w → P es w → Answers sch w ev → w.Step sch ev w' →
      P (es ++ [ev]) w') : P es w := by
  obtain ⟨w₀, hw₀, hr⟩ := h
  exact Histories.Run.history (P := P) hr (hstart w₀ hw₀) fun es w ev w' hr hP hG hn =>
    hstep es w ev w' ⟨w₀, hw₀, hr⟩ hP hG (step_of_next hn)

/-! ## Every claimed run is dispatched -/

def dispatches (w : Worker) : List Dispatch := w.tasks.map Task.dispatch

end Worker

/-- The runs that an event answers to the loop. -/
def WorkerEvent.received : WorkerEvent K → List ClaimedRun
  | .reply (.ok (.claimed runs)) => runs
  | _ => []

/-- The event of task `n`. -/
def WorkerEvent.ofTask (n : ℕ) : WorkerEvent K → Option (DispatchEvent K)
  | .task m ev => if m = n then some ev else none
  | _ => none

/-- The events of task `n`. -/
def taskEvents (n : ℕ) (es : List (WorkerEvent K)) : List (DispatchEvent K) :=
  es.filterMap (WorkerEvent.ofTask n)

namespace Worker

/-- What a step does to the dispatches: nothing; one more is started; one goes on. -/
theorem Step.dispatches (h : Sound sch w) (hs : w.Step sch ev w') :
    (w'.dispatches = w.dispatches ∧ w'.pending = w.pending ++ ev.received ∧
      ∀ n, ev.ofTask n = none) ∨
    (∃ c, ev = .dispatched ∧ w.pending = c :: w'.pending ∧
      w'.dispatches = w.dispatches ++ [.start c]) ∨
    ∃ n d ev' d', ev = .task n ev' ∧ w.dispatches[n]? = some d ∧ d.next ev' = some d' ∧
      w'.dispatches = w.dispatches.set n d' ∧ w'.pending = w.pending := by
  have hjoin : ∀ {n t}, w.tasks[n]? = some t → (w.joinTask n t).dispatches = w.dispatches := by
    intro n t ht
    obtain ⟨hn, rfl⟩ := List.getElem?_eq_some_iff.mp ht
    show (w.tasks.set n _).map Task.dispatch = w.tasks.map Task.dispatch
    rw [List.map_set]
    exact (congrArg _ (List.getElem_map Task.dispatch).symm).trans
      (List.set_getElem_self (by simpa using hn))
  have hend : ∀ {error}, w.pending = [] → (w.endCycle error).dispatches = w.dispatches ∧
      (w.endCycle error).pending = w.pending ++ [] := by
    rintro (_ | e) hnone <;> exact ⟨rfl, by rw [hnone]; rfl⟩
  cases hs with
  | cancelled hp | pollTick hp | recoverTick hp | drained hp | stopped hp | materialize hp
    | recover hp | claim hp | timeout hp =>
    exact Or.inl ⟨rfl, by simp [pending, hp, WorkerEvent.received], fun n => rfl⟩
  | missed hp | refused hp =>
    have hnone : w.pending = [] := by rcases hp with hp | hp <;> simp [pending, hp]
    exact Or.inl ⟨rfl, by rw [hnone]; rfl, fun n => rfl⟩
  | answered hp =>
    rcases hp with ⟨hp, n, rfl⟩ | ⟨hp, s, rfl⟩ <;>
      exact Or.inl ⟨rfl, by simp [pending, hp, WorkerEvent.received], fun n => rfl⟩
  | woken hp ht hended =>
    exact Or.inl ⟨hjoin ht, by simp [pending, hp, WorkerEvent.received], fun n => rfl⟩
  | joined hp ht hended =>
    exact Or.inl ⟨hjoin ht, by simp [WorkerEvent.received, joinTask, pending], fun n => rfl⟩
  | @proceeded error hp =>
    have hnone : w.pending = [] := by simp [pending, hp]
    have hproceed : (w.proceed error).dispatches = w.dispatches ∧
        (w.proceed error).pending = w.pending ++ [] := by
      rcases error with _ | e
      · unfold proceed
        dsimp only
        split
        · exact ⟨rfl, by rw [hnone]; rfl⟩
        · exact hend hnone
      · exact hend hnone
    exact Or.inl ⟨hproceed.1, hproceed.2, fun n => rfl⟩
  | unclaimed hp | failed hp =>
    obtain ⟨hd, hp'⟩ := hend (by simp [pending, hp])
    exact Or.inl ⟨hd, hp', fun n => rfl⟩
  | claimed hp => exact Or.inl ⟨rfl, by simp [pending, hp, WorkerEvent.received], fun n => rfl⟩
  | @dispatched runs hp =>
    cases runs with
    | nil =>
      obtain ⟨hd, hp'⟩ := @hend none (by simp [pending, hp])
      exact Or.inl ⟨hd, hp', fun n => rfl⟩
    | cons c rest =>
      rw [h.spawn hp]
      exact Or.inr (Or.inl ⟨c, rfl, by simp [pending, hp], by simp [Worker.dispatches]⟩)
  | @task n t ev d hev ht hd =>
    refine Or.inr (Or.inr ⟨n, t.dispatch, ev, d, rfl, by simp [Worker.dispatches, ht], hd, ?_, rfl⟩)
    show (w.tasks.set n { t with dispatch := d }).map Task.dispatch = _
    rw [List.map_set]
    rfl

theorem received_reached (h : Reached sch es w) :
    es.flatMap WorkerEvent.received = w.dispatches.map Dispatch.claimed ++ w.pending := by
  refine h.history (P := fun es w => es.flatMap WorkerEvent.received =
    w.dispatches.map Dispatch.claimed ++ w.pending) (fun w₀ h₀ => ?_)
    fun es w ev w' hr ih _ hs => ?_
  · unfold start at h₀
    split_ifs at h₀
    obtain rfl := Option.some.inj h₀
    rfl
  · rw [List.flatMap_append, ih, List.flatMap_singleton]
    rcases hs.dispatches (sound_reached hr) with ⟨hd, hp, -⟩ | ⟨c, rfl, hp, hd⟩ |
      ⟨n, d, ev', d', rfl, hget, hn, hd, hp⟩
    · rw [hd, hp, List.append_assoc]
    · rw [hd, hp]
      simp [WorkerEvent.received, Dispatch.start]
    · obtain ⟨hn', rfl⟩ := List.getElem?_eq_some_iff.mp hget
      have hclaimed := (Dispatch.step_of_next hn).claimed
      have hself : (w.dispatches.map Dispatch.claimed).set n d'.claimed =
          w.dispatches.map Dispatch.claimed := by
        rw [hclaimed, ← List.getElem_map Dispatch.claimed (h := by simpa using hn')]
        exact List.set_getElem_self _
      rw [hd, hp, List.map_set, hself]
      simp [WorkerEvent.received]

/-- Each task of a worker is a dispatch of its own. -/
theorem dispatches_reached (h : Reached sch es w) :
    (∀ n d, w.dispatches[n]? = some d → Dispatch.Run d.claimed (taskEvents n es) d) ∧
      ∀ n, w.dispatches.length ≤ n → taskEvents n es = [] := by
  refine h.history (P := fun es w =>
    (∀ n d, w.dispatches[n]? = some d → Dispatch.Run d.claimed (taskEvents n es) d) ∧
      ∀ n, w.dispatches.length ≤ n → taskEvents n es = [])
    (fun w₀ h₀ => ?_) fun es w ev w' hr ih _ hs => ?_
  · unfold start at h₀
    split_ifs at h₀
    obtain rfl := Option.some.inj h₀
    exact ⟨by simp [dispatches], fun n _ => rfl⟩
  obtain ⟨hrun, hlate⟩ := ih
  have hquiet : ∀ {n}, ev.ofTask n = none →
      taskEvents n (es ++ [ev]) = taskEvents n es := by
    intro n hn
    simp [taskEvents, List.filterMap_append, hn]
  rcases hs.dispatches (sound_reached hr) with ⟨hd, -, hother⟩ | ⟨c, rfl, -, hd⟩ |
    ⟨m, d₀, ev', d', rfl, hget, hn, hd, -⟩
  · rw [hd]
    exact ⟨fun n d hnd => hquiet (hother n) ▸ hrun n d hnd,
      fun n hle => (hquiet (hother n)).trans (hlate n hle)⟩
  · rw [hd]
    refine ⟨fun n d hnd => hquiet rfl ▸ ?_, fun n hle => (hquiet rfl).trans (hlate n ?_)⟩
    · rw [List.getElem?_append] at hnd
      split_ifs at hnd with hlt
      · exact hrun n d hnd
      · obtain rfl : d = .start c := List.mem_singleton.mp (List.mem_of_getElem? hnd)
        rw [hlate n (by omega)]
        exact .nil
    · rw [List.length_append] at hle
      omega
  · obtain ⟨hlt, -⟩ := List.getElem?_eq_some_iff.mp hget
    rw [hd]
    refine ⟨fun n d hnd => ?_, fun n hle => ?_⟩
    · by_cases hnm : m = n
      · subst hnm
        obtain rfl : d' = d := by simpa [List.getElem?_set, hlt] using hnd
        have hfilter : taskEvents m (es ++ [.task m ev']) = taskEvents m es ++ [ev'] := by
          simp [taskEvents, List.filterMap_append, WorkerEvent.ofTask]
        rw [hfilter, (Dispatch.step_of_next hn).claimed]
        exact Histories.Run.snoc (hrun m d₀ hget) trivial hn
      · rw [List.getElem?_set_ne hnm] at hnd
        have hnone : WorkerEvent.ofTask n (.task m ev') = none := if_neg hnm
        exact hquiet hnone ▸ hrun n d hnd
    · rw [List.length_set] at hle
      have hnone : WorkerEvent.ofTask n (.task m ev') = none := if_neg (by omega)
      exact (hquiet hnone).trans (hlate n hle)

/-- **Permits are accounted for.** No more runs are ever in flight than the configuration allows,
and the errors about capacity and missing handlers do not occur. -/
theorem worker_capacity (h : Reached sch es w) :
    w.permits + w.inFlight = sch.config.maxConcurrency.value ∧
      w.pending.length ≤ w.permits ∧
      (∀ c ∈ w.pending, (sch.registry.get c.jobName).isSome) ∧
      ∀ detail, w.health.lastError ≠ some (.store (.invariant detail)) := by
  have hs := sound_reached h
  exact ⟨hs.capacity, hs.fits, fun c hc => Registry.get_isSome_iff.mpr (hs.handled c hc), hs.health⟩

/-- **Every run that the store hands to a worker is dispatched once**, in the order of the claims,
and its task records what its own handler has returned. -/
theorem claimed_runs_dispatched (h : Reached sch es w) :
    es.flatMap WorkerEvent.received = w.dispatches.map Dispatch.claimed ++ w.pending ∧
      ∀ n d, w.dispatches[n]? = some d → Dispatch.Faithful d.claimed (taskEvents n es) d :=
  ⟨received_reached h, fun n d hd => Dispatch.faithful_run ((dispatches_reached h).1 n d hd)⟩

/-! ## A day of a worker -/

/-- A worker with two permits and a handler for `mail`. -/
def mailScheduler : Scheduler Unit where
  registry := ⟨[(⟨"mail", rfl⟩, fun _ _ => .running ())], List.nodup_singleton _⟩
  config := { (SchedulerBuilder.new (F := Unit) ⟨"mailer", rfl⟩).config with
    maxConcurrency := ⟨2, by decide⟩ }

/-- The store keeps its promises at an event, if this is `true`. -/
def promised (sch : Scheduler F) (w : Worker) : WorkerEvent K → Bool
  | .reply (.error (.invariant _)) => false
  | .reply (.ok (.claimed runs)) =>
    match w.phase with
    | .claiming limit _ =>
      decide (runs.length ≤ limit.value) &&
        runs.all fun c => decide (c.jobName ∈ sch.registry.names)
    | _ => true
  | _ => true

theorem answers_of_promised (h : promised sch w ev = true) : Answers sch w ev := by
  rcases ev with _ | _ | _ | _ | _ | _ | _ | (e | a) | _ | _ | _
  case reply.error =>
    rintro detail rfl
    exact absurd h (by simp [promised])
  case reply.ok =>
    cases a with
    | claimed runs =>
      intro limit hp
      simpa [promised, hp] using h
    | _ => trivial
  all_goals trivial

variable (K) in
/-- Two runs are claimed; the handler of the first one returns. -/
def busyDay : List (WorkerEvent K) := [
  .pollTick, .request, .reply (.ok (.materialized 0)), .noneJoined, .request,
  .reply (.ok (.claimed [Dispatch.claimedMail, { Dispatch.claimedMail with runId := ⟨7⟩ }])),
  .dispatched, .dispatched, .dispatched,
  .task 0 (.returned (.ok ())), .task 0 .request,
  .task 0 (.reply (.ok (.finalized .applied)) ⟨1000000, by decide⟩)]

theorem busyDay_reached : ∃ w, Reached mailScheduler (busyDay .everySecond) w ∧ w.permits = 1 ∧
    w.tasks.length = 2 := by
  obtain ⟨w₀, hw₀⟩ : ∃ w₀, start mailScheduler.config = some w₀ := ⟨_, rfl⟩
  obtain rfl : (⟨2, [], .selecting, 0, {}⟩ : Worker) = w₀ := Option.some.inj hw₀
  obtain ⟨w, hw, hpermits, htasks⟩ : ∃ w, run (next mailScheduler) (promised mailScheduler)
      (⟨2, [], .selecting, 0, {}⟩ : Worker) (busyDay .everySecond) = some w ∧ w.permits = 1 ∧
      w.tasks.length = 2 := ⟨_, rfl, rfl, rfl⟩
  exact ⟨w, ⟨_, hw₀, run_sound (fun _ _ => answers_of_promised) hw⟩, hpermits, htasks⟩

theorem worker_capacity_busy : ∃ w : Worker, w.permits = 1 ∧
    w.permits + w.inFlight = mailScheduler.config.maxConcurrency.value ∧
    w.pending.length ≤ w.permits ∧
    (∀ c ∈ w.pending, (mailScheduler.registry.get c.jobName).isSome) ∧
    ∀ detail, w.health.lastError ≠ some (.store (.invariant detail)) := by
  obtain ⟨w, h, hpermits, -⟩ := busyDay_reached
  exact ⟨w, hpermits, worker_capacity h⟩

theorem claimed_runs_dispatched_busy : ∃ w : Worker, w.tasks.length = 2 ∧
    (busyDay .everySecond).flatMap WorkerEvent.received =
      w.dispatches.map Dispatch.claimed ++ w.pending ∧
    ∀ n d, w.dispatches[n]? = some d →
      Dispatch.Faithful d.claimed (taskEvents n (busyDay .everySecond)) d := by
  obtain ⟨w, h, -, htasks⟩ := busyDay_reached
  exact ⟨w, htasks, claimed_runs_dispatched h⟩

end Worker

end PgTaskScheduler
