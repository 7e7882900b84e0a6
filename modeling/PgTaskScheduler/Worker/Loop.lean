import PgTaskScheduler.Worker.Dispatch

/-!
# `runtime::worker::run_until_shutdown`

The loop of one worker and the dispatch tasks that it has spawned. A cycle starts with a tick of one
of two intervals or with the end of a task; it joins the tasks that have ended, claims as many runs
as the semaphore has permits and dispatches them. Cancellation leaves the loop: the tasks are
drained until the timeout, then aborted, and joined.

The tasks run beside the loop, so a permit may come back at any moment; only the loop takes permits.
Ended tasks stay in the model, marked as joined once the loop has joined them. Nothing but
`abort_all` aborts a task.
-/

namespace PgTaskScheduler

open Histories

/-! ## Health -/

/-- What a cycle fails with: no connection, or an error of the store. -/
inductive CycleError
  | pool (detail : String)
  | store (e : SchedulerError)
deriving DecidableEq

inductive HealthStatus
  | starting
  | healthy
  | degraded
  | stopped
deriving DecidableEq, Repr

/-- `last_error` is the error that the source keeps the text of. -/
structure WorkerHealth where
  status : HealthStatus := .starting
  consecutiveFailures : ℕ := 0
  lastError : Option CycleError := none
deriving DecidableEq

/-! ## The state -/

/-- What the loop awaits. -/
inductive WorkerPhase
  /-- `select!` -/
  | selecting
  /-- a connection for `materialize_due_jobs`, or its answer -/
  | materializing (called : Bool)
  /-- a connection for `recover_expired`, or its answer -/
  | recovering (called : Bool)
  /-- `try_join_next`, with the error of the cycle so far -/
  | joining (error : Option CycleError)
  /-- a connection for `claim_batch`, or its answer -/
  | claiming (limit : NonZeroUsize) (called : Bool)
  /-- the `for` loop over the claimed runs -/
  | dispatching (rest : List ClaimedRun)
  | draining
  | aborting
  | stopped
deriving DecidableEq

structure Task where
  dispatch : Dispatch
  joined : Bool
deriving DecidableEq

structure Worker where
  /-- `available_permits` -/
  permits : ℕ
  tasks : List Task
  phase : WorkerPhase
  failures : ℕ
  health : WorkerHealth
deriving DecidableEq

variable (K : Croner) in
inductive WorkerEvent
  | cancelled
  | pollTick
  | recoverTick
  /-- task `n` is joined -/
  | joined (n : ℕ)
  /-- no task is left to join; one may end right after `try_join_next` has said so -/
  | noneJoined
  | noConnection (detail : String)
  | request
  | reply (answer : Except SchedulerError (Answer K))
  /-- one turn of the `for` loop -/
  | dispatched
  /-- the shutdown timeout passes -/
  | timeout
  | task (n : ℕ) (ev : DispatchEvent K)

variable {K : Croner} {F : Type}

/-- `Semaphore::MAX_PERMITS` -/
def maxPermits : ℕ := u64Max / 8

/-- The limit of `recover_leases`. -/
def recoverLimit : NonZeroUsize := ⟨1000, by decide⟩

/-- `NonZeroUsize::new` -/
def NonZeroUsize.new (n : ℕ) : Option NonZeroUsize :=
  if h : 1 ≤ n ∧ n ≤ u64Max then some ⟨n, h⟩ else none

namespace Worker

/-- The worker when its loop starts; `Semaphore::new` panics on too many permits. -/
def start (config : Config) : Option Worker :=
  if config.maxConcurrency.value ≤ maxPermits then
    some ⟨config.maxConcurrency.value, [], .selecting, 0, {}⟩
  else none

/-- `update_health`, at the end of a cycle. -/
def endCycle (w : Worker) : Option CycleError → Worker
  | some e =>
    let failures := min (w.failures + 1) u64Max
    { w with phase := .selecting, failures, health := ⟨.degraded, failures, some e⟩ }
  | none => { w with phase := .selecting, failures := 0, health := ⟨.healthy, 0, none⟩ }

/-- What follows `try_join_next`: runs are claimed if the cycle has not failed and there are
permits. -/
def proceed (w : Worker) : Option CycleError → Worker
  | some e => w.endCycle (some e)
  | none =>
    match NonZeroUsize.new w.permits with
    | some limit => { w with phase := .claiming limit false }
    | none => w.endCycle none

/-- Join task `n`, which has ended. -/
def join (w : Worker) (n : ℕ) : Option Worker :=
  match w.tasks[n]? with
  | some t =>
    if t.dispatch.ended && !t.joined then
      some { w with tasks := w.tasks.set n { t with joined := true } }
    else none
  | none => none

/-- One turn of the `for` loop of `claim_and_dispatch`. -/
def spawn (registry : Registry F) (w : Worker) : List ClaimedRun → Worker
  | [] => w.endCycle none
  | c :: rest =>
    if w.permits = 0 then
      w.endCycle (some (.store (.invariant "claimed more tasks than worker capacity")))
    else match registry.get c.jobName with
      | none => w.endCycle (some (.store (.invariant "claimed task has no registered handler")))
      | some _ => { w with
          permits := w.permits - 1
          tasks := w.tasks ++ [⟨.start c, false⟩]
          phase := .dispatching rest }

/-- Task `n` takes an event; when it ends it gives its permit back. -/
def stepTask (w : Worker) (n : ℕ) (ev : DispatchEvent K) : Option Worker := do
  let t ← w.tasks[n]?
  let d ← t.dispatch.next ev
  pure { w with
    permits := if d.ended then w.permits + 1 else w.permits
    tasks := w.tasks.set n { t with dispatch := d } }

/-- The store answers the call that the loop awaits. -/
def answer (w : Worker) : Except SchedulerError (Answer K) → Option Worker
  | .ok a =>
    match w.phase, a with
    | .materializing true, .materialized _ => some { w with phase := .joining none }
    | .recovering true, .recovered _ => some { w with phase := .joining none }
    | .claiming _ true, .claimed runs => some { w with phase := .dispatching runs }
    | _, _ => none
  | .error e =>
    match w.phase with
    | .materializing true | .recovering true =>
      some { w with phase := .joining (some (.store e)) }
    | .claiming _ true => some (w.endCycle (some (.store e)))
    | _ => none

def next (sch : Scheduler F) (w : Worker) : WorkerEvent K → Option Worker
  | .cancelled => if w.phase = .selecting then some { w with phase := .draining } else none
  | .pollTick =>
    if w.phase = .selecting then some { w with phase := .materializing false } else none
  | .recoverTick =>
    if w.phase = .selecting then some { w with phase := .recovering false } else none
  | .joined n =>
    match w.phase with
    | .selecting => (w.join n).map fun w => { w with phase := .joining none }
    | .joining _ | .draining | .aborting => w.join n
    | _ => none
  | .noneJoined =>
    match w.phase with
    | .joining error => some (w.proceed error)
    | .draining => if ∀ t ∈ w.tasks, t.joined then some { w with phase := .aborting } else none
    | .aborting =>
      if ∀ t ∈ w.tasks, t.joined then
        some { w with phase := .stopped, health := ⟨.stopped, w.failures, none⟩ }
      else none
    | _ => none
  | .noConnection detail =>
    match w.phase with
    | .materializing false | .recovering false =>
      some { w with phase := .joining (some (.pool detail)) }
    | .claiming _ false => some (w.endCycle (some (.pool detail)))
    | _ => none
  | .request =>
    match w.phase with
    | .materializing false => some { w with phase := .materializing true }
    | .recovering false => some { w with phase := .recovering true }
    | .claiming limit false => some { w with phase := .claiming limit true }
    | _ => none
  | .reply x => w.answer x
  | .dispatched =>
    match w.phase with
    | .dispatching runs => some (w.spawn sch.registry runs)
    | _ => none
  | .timeout => if w.phase = .draining then some { w with phase := .aborting } else none
  | .task n .aborted =>
    if w.phase = .aborting then w.stepTask n (.aborted : DispatchEvent K) else none
  | .task n ev => w.stepTask n ev

/-- The call whose answer the loop awaits. -/
def outstanding (sch : Scheduler F) (w : Worker) : Option (Call K) :=
  match w.phase with
  | .materializing true => some .materializeDueJobs
  | .recovering true => some (.recoverExpired recoverLimit)
  | .claiming limit true => some (.claimBatch sch.config.workerId sch.registry.names limit)
  | _ => none

/-! ## Steps -/

/-- Task `n` of the worker is joined. -/
def joinTask (w : Worker) (n : ℕ) (t : Task) : Worker :=
  { w with tasks := w.tasks.set n { t with joined := true } }

/-- Task `n` of the worker goes on to `d`. -/
def setTask (w : Worker) (n : ℕ) (t : Task) (d : Dispatch) : Worker :=
  { w with
    permits := if d.ended then w.permits + 1 else w.permits
    tasks := w.tasks.set n { t with dispatch := d } }

/-- A phase in which the loop joins tasks. -/
def Joins (p : WorkerPhase) : Prop := (∃ e, p = .joining e) ∨ p = .draining ∨ p = .aborting

/-- The steps of a worker: the ends of a cycle, those that only change the phase, and those that
change the tasks. -/
inductive Step (sch : Scheduler F) (w : Worker) : WorkerEvent K → Worker → Prop
  | cancelled (hp : w.phase = .selecting) : Step sch w .cancelled { w with phase := .draining }
  | pollTick (hp : w.phase = .selecting) :
    Step sch w .pollTick { w with phase := .materializing false }
  | recoverTick (hp : w.phase = .selecting) :
    Step sch w .recoverTick { w with phase := .recovering false }
  | woken {n t} (hp : w.phase = .selecting) (ht : w.tasks[n]? = some t)
    (hended : t.dispatch.ended = true) :
    Step sch w (.joined n) { w.joinTask n t with phase := .joining none }
  | joined {n t} (hp : Joins w.phase) (ht : w.tasks[n]? = some t)
    (hended : t.dispatch.ended = true) : Step sch w (.joined n) (w.joinTask n t)
  | proceeded {error} (hp : w.phase = .joining error) : Step sch w .noneJoined (w.proceed error)
  | drained (hp : w.phase = .draining) (hall : ∀ t ∈ w.tasks, t.joined = true) :
    Step sch w .noneJoined { w with phase := .aborting }
  | stopped (hp : w.phase = .aborting) (hall : ∀ t ∈ w.tasks, t.joined = true) :
    Step sch w .noneJoined { w with phase := .stopped, health := ⟨.stopped, w.failures, none⟩ }
  | missed {detail} (hp : w.phase = .materializing false ∨ w.phase = .recovering false) :
    Step sch w (.noConnection detail) { w with phase := .joining (some (.pool detail)) }
  | unclaimed {limit detail} (hp : w.phase = .claiming limit false) :
    Step sch w (.noConnection detail) (w.endCycle (some (.pool detail)))
  | materialize (hp : w.phase = .materializing false) :
    Step sch w .request { w with phase := .materializing true }
  | recover (hp : w.phase = .recovering false) :
    Step sch w .request { w with phase := .recovering true }
  | claim {limit} (hp : w.phase = .claiming limit false) :
    Step sch w .request { w with phase := .claiming limit true }
  | answered {a} (hp : w.phase = .materializing true ∧ (∃ n, a = .materialized n) ∨
      w.phase = .recovering true ∧ ∃ s, a = .recovered s) :
    Step sch w (.reply (.ok a)) { w with phase := .joining none }
  | refused {e} (hp : w.phase = .materializing true ∨ w.phase = .recovering true) :
    Step sch w (.reply (.error e)) { w with phase := .joining (some (.store e)) }
  | claimed {limit runs} (hp : w.phase = .claiming limit true) :
    Step sch w (.reply (.ok (.claimed runs))) { w with phase := .dispatching runs }
  | failed {limit e} (hp : w.phase = .claiming limit true) :
    Step sch w (.reply (.error e)) (w.endCycle (some (.store e)))
  | dispatched {runs} (hp : w.phase = .dispatching runs) :
    Step sch w .dispatched (w.spawn sch.registry runs)
  | timeout (hp : w.phase = .draining) : Step sch w .timeout { w with phase := .aborting }
  | task {n t ev d} (hev : ev = .aborted → w.phase = .aborting) (ht : w.tasks[n]? = some t)
    (hd : t.dispatch.next ev = some d) :
    Step sch w (.task n ev) (w.setTask n t d)

variable {sch : Scheduler F} {w w' : Worker} {ev : WorkerEvent K}

theorem join_eq_some {n : ℕ} (h : w.join n = some w') :
    ∃ t, w.tasks[n]? = some t ∧ t.dispatch.ended = true ∧ w' = w.joinTask n t := by
  unfold join at h
  split at h
  · next t ht =>
    split_ifs at h with hended
    simp only [Bool.and_eq_true] at hended
    exact ⟨t, ht, hended.1, (Option.some.inj h).symm⟩
  · exact absurd h (by simp)

theorem step_of_answer {x : Except SchedulerError (Answer K)} (h : w.answer x = some w') :
    w.Step sch (.reply x) w' := by
  unfold answer at h
  rcases x with e | a
  · rcases hp : w.phase with _ | b | b | _ | ⟨l, b⟩ | _ | _ | _ | _
    all_goals try cases b
    all_goals simp only [hp, reduceCtorEq, Option.some.injEq] at h
    · exact h ▸ .refused (Or.inl hp)
    · exact h ▸ .refused (Or.inr hp)
    · exact h ▸ .failed hp
  · rcases hp : w.phase with _ | b | b | _ | ⟨l, b⟩ | _ | _ | _ | _
    all_goals try cases b
    all_goals cases a
    all_goals simp only [hp, reduceCtorEq, Option.some.injEq] at h
    · exact h ▸ .answered (Or.inl ⟨hp, _, rfl⟩)
    · exact h ▸ .answered (Or.inr ⟨hp, _, rfl⟩)
    · exact h ▸ .claimed hp

theorem step_of_next (h : w.next sch ev = some w') : w.Step sch ev w' := by
  cases ev with
  | cancelled =>
    simp only [next, Option.ite_none_right_eq_some, Option.some.injEq] at h
    exact h.2 ▸ .cancelled h.1
  | pollTick =>
    simp only [next, Option.ite_none_right_eq_some, Option.some.injEq] at h
    exact h.2 ▸ .pollTick h.1
  | recoverTick =>
    simp only [next, Option.ite_none_right_eq_some, Option.some.injEq] at h
    exact h.2 ▸ .recoverTick h.1
  | timeout =>
    simp only [next, Option.ite_none_right_eq_some, Option.some.injEq] at h
    exact h.2 ▸ .timeout h.1
  | joined n =>
    unfold next at h
    rcases hp : w.phase with _ | b | b | error | ⟨l, b⟩ | _ | _ | _ | _ <;>
      simp only [hp, reduceCtorEq] at h
    · obtain ⟨w₁, hj, rfl⟩ := Option.map_eq_some_iff.mp h
      obtain ⟨t, ht, hended, rfl⟩ := join_eq_some hj
      exact .woken hp ht hended
    all_goals obtain ⟨t, ht, hended, rfl⟩ := join_eq_some h
    · exact .joined (Or.inl ⟨error, hp⟩) ht hended
    · exact .joined (Or.inr (Or.inl hp)) ht hended
    · exact .joined (Or.inr (Or.inr hp)) ht hended
  | noneJoined =>
    unfold next at h
    rcases hp : w.phase with _ | b | b | error | ⟨l, b⟩ | _ | _ | _ | _ <;>
      simp only [hp, reduceCtorEq, Option.ite_none_right_eq_some, Option.some.injEq] at h
    · exact h ▸ .proceeded hp
    · exact h.2 ▸ .drained hp h.1
    · exact h.2 ▸ .stopped hp h.1
  | noConnection detail =>
    unfold next at h
    rcases hp : w.phase with _ | b | b | error | ⟨l, b⟩ | _ | _ | _ | _
    all_goals try cases b
    all_goals simp only [hp, reduceCtorEq, Option.some.injEq] at h
    · exact h ▸ .missed (Or.inl hp)
    · exact h ▸ .missed (Or.inr hp)
    · exact h ▸ .unclaimed hp
  | request =>
    unfold next at h
    rcases hp : w.phase with _ | b | b | error | ⟨l, b⟩ | _ | _ | _ | _
    all_goals try cases b
    all_goals simp only [hp, reduceCtorEq, Option.some.injEq] at h
    · exact h ▸ .materialize hp
    · exact h ▸ .recover hp
    · exact h ▸ .claim hp
  | reply x => exact step_of_answer h
  | dispatched =>
    unfold next at h
    rcases hp : w.phase with _ | b | b | error | ⟨l, b⟩ | runs | _ | _ | _ <;>
      simp only [hp, reduceCtorEq, Option.some.injEq] at h
    exact h ▸ .dispatched hp
  | task n ev =>
    have hev : (ev = .aborted → w.phase = .aborting) ∧ w.stepTask n ev = some w' := by
      cases ev with
      | aborted =>
        simp only [next, Option.ite_none_right_eq_some] at h
        exact ⟨fun _ => h.1, h.2⟩
      | _ => exact ⟨fun he => absurd he (by simp), h⟩
    obtain ⟨t, ht, h⟩ := Option.bind_eq_some_iff.mp hev.2
    obtain ⟨d, hd, h⟩ := Option.bind_eq_some_iff.mp h
    obtain rfl := Option.some.inj h
    exact .task hev.1 ht hd

end Worker

end PgTaskScheduler
