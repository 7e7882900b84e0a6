import PgTaskScheduler.Machine
import PgTaskScheduler.Worker.Registry

/-!
# `runtime::worker::dispatch`

The task of one claimed run. It polls the handler until that returns or panics; at every heartbeat
it renews the lease, and gives the run up when the renewal is fenced or when, after the
heartbeat, the host clock has passed the last deadline that it knows. A result is recorded by one
call of `finalize_run` or `fail_run`. The task can be aborted wherever it awaits.

The events of a dispatch are what it awaits: the handler, a connection, the answer of the store.
`dispatch_records_once` says which calls it makes, `lease_loss_exact` when it gives up.
-/

namespace PgTaskScheduler

open Histories

/-! ## States and events -/

/-- The counters that a finalization increments. -/
inductive Metric
  | runsCompleted
  | runsFailed
  | runsRequeued
deriving DecidableEq, Repr

/-- How a dispatch has ended. -/
inductive DispatchExit
  | leaseLost
  | panicked
  /-- the pool gave no connection to record the result -/
  | unrecorded (result : HandlerResult)
  | recorded (result : HandlerResult) (counted : Option Metric)
  | aborted (result : Option HandlerResult)
deriving DecidableEq

/-- What a dispatch awaits. -/
inductive DispatchPhase
  /-- `select!`: the handler or the next heartbeat -/
  | polling (leaseExpiresAt : DateTime)
  /-- `renew_lease` -/
  | renewing (leaseExpiresAt : DateTime)
  /-- a connection for `finalize_handler` -/
  | finalizing (result : HandlerResult)
  /-- `finalize_run` or `fail_run` -/
  | recording (result : HandlerResult)
  | ended (exit : DispatchExit)
deriving DecidableEq

structure Dispatch where
  claimed : ClaimedRun
  phase : DispatchPhase
  /-- the cancellation token of the context -/
  cancelled : Bool
deriving DecidableEq

variable (K : Croner)

inductive DispatchEvent
  | returned (result : HandlerResult)
  | panicked
  /-- the pool gives no connection; `now` is the host clock after a heartbeat -/
  | noConnection (now : DateTime)
  /-- the pool gives a connection, and the store is called -/
  | request
  /-- the store answers; `now` is the host clock after a heartbeat -/
  | reply (answer : Except SchedulerError (Answer K)) (now : DateTime)
  | aborted

variable {K}

/-- What an event says that the handler has returned. -/
def DispatchEvent.result : DispatchEvent K → Option HandlerResult
  | .returned r => some r
  | _ => none

variable (K) in
/-- The call that records a result. -/
def ClaimedRun.finalCall (c : ClaimedRun) : HandlerResult → Call K
  | .ok () => .finalizeRun c.runId c.leaseToken .completed
  | .error e => .failRun c.runId c.leaseToken e.text e.retryable

/-- The call records the result of an attempt. -/
def Call.finalizes : Call K → Bool
  | .finalizeRun .. | .failRun .. => true
  | _ => false

@[simp] theorem ClaimedRun.finalizes_finalCall (c : ClaimedRun) (r : HandlerResult) :
    (c.finalCall K r).finalizes = true := by
  rcases r with e | ⟨⟩ <;> rfl

/-- What `finalize_handler` counts. -/
def counted : HandlerResult → Except SchedulerError (Answer K) → Option Metric
  | .ok (), .ok (.finalized .applied) => some .runsCompleted
  | .error _, .ok (.failed (.retried _)) => some .runsRequeued
  | .error _, .ok (.failed .failed) => some .runsFailed
  | _, _ => none

namespace Dispatch

def start (c : ClaimedRun) : Dispatch := ⟨c, .polling c.leaseExpiresAt, false⟩

/-- The task ends; `CancelOnDrop` cancels the token. -/
def finish (d : Dispatch) (exit : DispatchExit) : Dispatch := ⟨d.claimed, .ended exit, true⟩

/-- `Utc::now() >= lease_expires_at` -/
def check (d : Dispatch) (leaseExpiresAt now : DateTime) : Dispatch :=
  if leaseExpiresAt.val ≤ now.val then d.finish .leaseLost
  else { d with phase := .polling leaseExpiresAt }

def ended (d : Dispatch) : Bool :=
  match d.phase with
  | .ended _ => true
  | _ => false

/-- What the handler has returned. -/
def result (d : Dispatch) : Option HandlerResult :=
  match d.phase with
  | .finalizing r | .recording r | .ended (.unrecorded r) | .ended (.recorded r _) => some r
  | .ended (.aborted r) => r
  | _ => none

/-- The call that the task awaits the answer of. -/
def outstanding (d : Dispatch) : Option (Call K) :=
  match d.phase with
  | .renewing _ => some (.renewLease d.claimed.runId d.claimed.leaseToken)
  | .recording r => some (d.claimed.finalCall K r)
  | _ => none

def next (d : Dispatch) : DispatchEvent K → Option Dispatch
  | .returned r =>
    match d.phase with
    | .polling _ => some { d with phase := .finalizing r }
    | _ => none
  | .panicked =>
    match d.phase with
    | .polling _ => some (d.finish .panicked)
    | _ => none
  | .noConnection now =>
    match d.phase with
    | .polling e => some (d.check e now)
    | .finalizing r => some (d.finish (.unrecorded r))
    | _ => none
  | .request =>
    match d.phase with
    | .polling e => some { d with phase := .renewing e }
    | .finalizing r => some { d with phase := .recording r }
    | _ => none
  | .reply x now =>
    match d.phase, x with
    | .renewing _, .ok (.renewed (.renewed e)) => some (d.check e now)
    | .renewing _, .ok (.renewed .fenced) => some (d.finish .leaseLost)
    | .renewing _, .ok _ => none
    | .renewing e, .error _ => some (d.check e now)
    | .recording r, x => some (d.finish (.recorded r (counted r x)))
    | _, _ => none
  | .aborted =>
    match d.phase with
    | .ended _ => none
    | _ => some (d.finish (.aborted d.result))

/-! ## Steps -/

/-- The steps of a dispatch, one constructor each. -/
inductive Step (d : Dispatch) : DispatchEvent K → Dispatch → Prop
  | returned {e r} (hp : d.phase = .polling e) :
    Step d (.returned r) { d with phase := .finalizing r }
  | panicked {e} (hp : d.phase = .polling e) : Step d .panicked (d.finish .panicked)
  | missed {e now} (hp : d.phase = .polling e) : Step d (.noConnection now) (d.check e now)
  | unrecorded {r now} (hp : d.phase = .finalizing r) :
    Step d (.noConnection now) (d.finish (.unrecorded r))
  | renew {e} (hp : d.phase = .polling e) : Step d .request { d with phase := .renewing e }
  | record {r} (hp : d.phase = .finalizing r) : Step d .request { d with phase := .recording r }
  | renewed {e e' now} (hp : d.phase = .renewing e) :
    Step d (.reply (.ok (.renewed (.renewed e'))) now) (d.check e' now)
  | fenced {e now} (hp : d.phase = .renewing e) :
    Step d (.reply (.ok (.renewed .fenced)) now) (d.finish .leaseLost)
  | failed {e x now} (hp : d.phase = .renewing e) :
    Step d (.reply (.error x) now) (d.check e now)
  | recorded {r x now} (hp : d.phase = .recording r) :
    Step d (.reply x now) (d.finish (.recorded r (counted r x)))
  | aborted (hp : d.ended = false) : Step d .aborted (d.finish (.aborted d.result))

variable {d d' : Dispatch} {ev : DispatchEvent K}

theorem step_of_next (h : d.next ev = some d') : d.Step ev d' := by
  unfold next at h
  cases ev with
  | returned r =>
    rcases hp : d.phase <;> simp only [hp, reduceCtorEq, Option.some.injEq] at h
    exact h ▸ .returned hp
  | panicked =>
    rcases hp : d.phase <;> simp only [hp, reduceCtorEq, Option.some.injEq] at h
    exact h ▸ .panicked hp
  | noConnection now =>
    rcases hp : d.phase <;> simp only [hp, reduceCtorEq, Option.some.injEq] at h
    · exact h ▸ .missed hp
    · exact h ▸ .unrecorded hp
  | request =>
    rcases hp : d.phase <;> simp only [hp, reduceCtorEq, Option.some.injEq] at h
    · exact h ▸ .renew hp
    · exact h ▸ .record hp
  | reply x now =>
    rcases hp : d.phase with e | e | r | r | exit
    case recording =>
      simp only [hp, Option.some.injEq] at h
      exact h ▸ .recorded hp
    case renewing =>
      simp only [hp] at h
      split at h
      · next he => exact Option.some.inj h ▸ .renewed hp
      · exact Option.some.inj h ▸ .fenced hp
      · exact absurd h (by simp)
      · next he =>
        obtain rfl := DispatchPhase.renewing.inj he
        exact Option.some.inj h ▸ .failed hp
      · next he => exact absurd he (by simp)
      · exact absurd h (by simp)
    all_goals simp [hp] at h
  | aborted =>
    have hended : d.ended = false →
        d.Step (.aborted : DispatchEvent K) (d.finish (.aborted d.result)) := .aborted
    unfold ended at hended
    rcases hp : d.phase <;>
      simp only [hp, reduceCtorEq, Option.some.injEq, forall_const] at h hended
    all_goals exact h ▸ hended

@[simp] theorem finish_claimed (x : DispatchExit) : (d.finish x).claimed = d.claimed := rfl

@[simp] theorem finish_phase (x : DispatchExit) : (d.finish x).phase = .ended x := rfl

@[simp] theorem check_claimed (d : Dispatch) (e now : DateTime) :
    (d.check e now).claimed = d.claimed := by
  unfold check
  split_ifs <;> rfl

/-- After a heartbeat the lease is lost, or the handler is polled again. -/
theorem check_cases (d : Dispatch) (e now : DateTime) :
    (e.val ≤ now.val ∧ d.check e now = d.finish .leaseLost) ∨
      (now.val < e.val ∧ d.check e now = { d with phase := .polling e }) := by
  unfold check
  split_ifs with h
  · exact Or.inl ⟨h, rfl⟩
  · exact Or.inr ⟨lt_of_not_ge h, rfl⟩

theorem Step.claimed (h : d.Step ev d') : d'.claimed = d.claimed := by
  cases h <;> simp

/-- A result stays, and only the handler gives one. -/
theorem Step.result (h : d.Step ev d') : d'.result = ev.result.or d.result := by
  have hcheck : ∀ {e now}, d.result = none → (d.check e now).result = none := by
    intro e now hnone
    rcases check_cases d e now with ⟨-, he⟩ | ⟨-, he⟩ <;> simp [he, Dispatch.result, finish]
  have hphase : ∀ {p}, d.phase = p → d.result = Dispatch.result ⟨d.claimed, p, d.cancelled⟩ := by
    rintro p rfl
    rfl
  cases h with
  | missed hp | renewed hp | failed hp =>
    have hnone := hphase hp
    rw [hcheck hnone, hnone]
    rfl
  | aborted hp => rfl
  | _ => rename_i hp; rw [hphase hp]; rfl

/-- The handler returns only while it is polled. -/
theorem Step.polled (h : d.Step ev d') (hev : ev.result.isSome) : d.result = none := by
  cases h with
  | returned hp => simp [Dispatch.result, hp]
  | _ => simp [DispatchEvent.result] at hev

theorem Step.ended (h : d.Step ev d') : d.ended = false ∧ (d.cancelled = false →
    d'.cancelled = d'.ended) := by
  have hphase : ∀ {p}, d.phase = p → d.ended = Dispatch.ended ⟨d.claimed, p, d.cancelled⟩ := by
    rintro p rfl
    rfl
  have hcheck : ∀ {e now}, d.cancelled = false →
      (d.check e now).cancelled = (d.check e now).ended := by
    intro e now hc
    rcases check_cases d e now with ⟨-, he⟩ | ⟨-, he⟩ <;> simp [he, Dispatch.ended, finish, hc]
  cases h with
  | missed hp | renewed hp | failed hp => exact ⟨hphase hp, hcheck⟩
  | aborted hp => exact ⟨hp, fun _ => rfl⟩
  | returned hp | renew hp | record hp => exact ⟨hphase hp, fun hc => hc⟩
  | panicked hp | unrecorded hp | fenced hp | recorded hp => exact ⟨hphase hp, fun _ => rfl⟩

/-! ## The calls of a dispatch -/

variable {c : ClaimedRun} {es : List (DispatchEvent K)}

/-- The events of a dispatch since its claim. -/
abbrev Run (c : ClaimedRun) (es : List (DispatchEvent K)) (d : Dispatch) : Prop :=
  Histories.Run next Free (start c) es d

/-- The call that a step makes. -/
def called (_ : Dispatch) (ev : DispatchEvent K) (d' : Dispatch) : List (Call K) :=
  match ev with
  | .request => d'.outstanding.toList
  | _ => []

/-- The calls that the events make. -/
def calls (c : ClaimedRun) (es : List (DispatchEvent K)) : List (Call K) :=
  outputs next called (start c) es

variable (K) in
/-- What the recording calls that a dispatch has made may be. -/
def Wrote (d : Dispatch) (finals : List (Call K)) : Prop :=
  match d.phase with
  | .recording r | .ended (.recorded r _) => finals = [d.claimed.finalCall K r]
  | .ended (.aborted (some r)) => finals = [] ∨ finals = [d.claimed.finalCall K r]
  | _ => finals = []

/-- What the events of a dispatch say about its state and its calls. -/
structure Faithful (c : ClaimedRun) (es : List (DispatchEvent K)) (d : Dispatch) : Prop where
  claimed : d.claimed = c
  /-- the token is cancelled on every exit, and not before -/
  cancelled : d.cancelled = d.ended
  returned : ∀ r, d.result = some r ↔ .returned r ∈ es
  /-- the handler returns at most once -/
  once : (es.filterMap DispatchEvent.result).length ≤ 1
  wrote : d.Wrote K ((calls c es).filter Call.finalizes)
  /-- every call is made under the id and the token of the claim -/
  made : ∀ call ∈ calls c es, call = .renewLease c.runId c.leaseToken ∨
    ∃ r, .returned r ∈ es ∧ call = c.finalCall K r

theorem Step.wrote {finals : List (Call K)} (h : d.Step ev d') (hw : d.Wrote K finals) :
    d'.Wrote K (finals ++ (called d ev d').filter Call.finalizes) := by
  have hphase : ∀ {p}, d.phase = p → Dispatch.Wrote K ⟨d.claimed, p, d.cancelled⟩ finals := by
    rintro p rfl
    exact hw
  have hcheck : ∀ {e now}, finals = [] → (d.check e now).Wrote K (finals ++ []) := by
    rintro e now rfl
    rcases check_cases d e now with ⟨-, he⟩ | ⟨-, he⟩ <;> rw [he] <;> exact rfl
  cases h with
  | returned hp | panicked hp | fenced hp =>
    obtain rfl : finals = [] := hphase hp
    exact rfl
  | missed hp | renewed hp | failed hp => exact hcheck (hphase hp)
  | renew hp =>
    obtain rfl : finals = [] := hphase hp
    exact rfl
  | @record r hp =>
    obtain rfl : finals = [] := hphase hp
    show [] ++ List.filter Call.finalizes [d.claimed.finalCall K r] = [d.claimed.finalCall K r]
    simp
  | unrecorded hp =>
    obtain rfl : finals = [] := hphase hp
    exact rfl
  | @recorded r x now hp =>
    have hfinals : finals = [d.claimed.finalCall K r] := hphase hp
    show finals ++ [] = [d.claimed.finalCall K r]
    rw [List.append_nil, hfinals]
  | aborted hp =>
    show (d.finish (.aborted d.result)).Wrote K (finals ++ [])
    rw [List.append_nil]
    unfold Wrote at hw
    unfold Dispatch.result
    rcases hp' : d.phase with e | e | r | r | x
    case ended => simp [Dispatch.ended, hp'] at hp
    all_goals rw [hp'] at hw
    · exact hw
    · exact hw
    · exact Or.inl hw
    · exact Or.inr hw

theorem Step.made (h : d.Step ev d') : ∀ call ∈ called d ev d',
    call = .renewLease d.claimed.runId d.claimed.leaseToken ∨
      ∃ r, d.result = some r ∧ call = d.claimed.finalCall K r := by
  intro call hcall
  cases h with
  | renew hp =>
    obtain rfl : call = .renewLease d.claimed.runId d.claimed.leaseToken :=
      List.mem_singleton.mp hcall
    exact Or.inl rfl
  | @record r hp =>
    obtain rfl : call = d.claimed.finalCall K r := List.mem_singleton.mp hcall
    exact Or.inr ⟨r, by simp [Dispatch.result, hp], rfl⟩
  | _ => exact absurd hcall List.not_mem_nil

/-- The results in the events are the result of the dispatch, if any. -/
theorem results_run (h : Run c es d) : es.filterMap DispatchEvent.result = d.result.toList := by
  refine Histories.Run.history (P := fun es d => es.filterMap DispatchEvent.result =
    d.result.toList) h rfl fun es d ev d' _ ih _ hn => ?_
  have hs := step_of_next hn
  rw [List.filterMap_append, ih, hs.result]
  rcases hev : ev.result with _ | r
  · simp [hev]
  · simp [hev, hs.polled (by simp [hev])]

theorem faithful_run (h : Run c es d) : Faithful c es d := by
  refine Histories.Run.history (P := Faithful c) h ⟨rfl, rfl, by simp [start, Dispatch.result],
    Nat.zero_le 1, rfl, by simp [calls, outputs]⟩ fun es d ev d' hr ih hG hn => ?_
  have hs := step_of_next hn
  have hcalls : calls c (es ++ [ev]) = calls c es ++ called d ev d' :=
    Histories.Run.outputs_snoc hr hn
  have honce : ((es ++ [ev]).filterMap DispatchEvent.result).length ≤ 1 := by
    rw [results_run (hr.snoc hG hn)]
    rcases d'.result with _ | r <;> simp
  have hreturned : ∀ r, d'.result = some r ↔ .returned r ∈ es ++ [ev] := by
    intro r
    rw [hs.result, List.mem_append, ← ih.returned, List.mem_singleton]
    rcases ev with r' | _ | _ | _ | _ | _
    case returned => simp [DispatchEvent.result, hs.polled rfl, eq_comm]
    all_goals simp [DispatchEvent.result]
  refine ⟨hs.claimed.trans ih.claimed, ?_, hreturned, honce, ?_, fun call hcall => ?_⟩
  · exact hs.ended.2 (by rw [ih.cancelled, hs.ended.1])
  · rw [hcalls, List.filter_append]
    exact hs.wrote ih.wrote
  · rw [hcalls, List.mem_append] at hcall
    rcases hcall with hcall | hcall
    · rcases ih.made call hcall with hrenew | ⟨r, hr, hfinal⟩
      · exact Or.inl hrenew
      · exact Or.inr ⟨r, List.mem_append_left _ hr, hfinal⟩
    · rw [← ih.claimed]
      rcases hs.made call hcall with hrenew | ⟨r, hr, hfinal⟩
      · exact Or.inl hrenew
      · exact Or.inr ⟨r, List.mem_append_left _ ((ih.returned r).mp hr), hfinal⟩

/-- **A dispatch records what the handler has returned, at most once and under its own claim.** -/
theorem dispatch_records_once (h : Run c es d) : Faithful c es d := faithful_run h

/-- The claim of a task, with a lease of five minutes. -/
def claimedMail : ClaimedRun :=
  ⟨⟨1⟩, none, "mail", ⟨"\x7b\x7d"⟩, ⟨0, by decide⟩, 1, ⟨2⟩, ⟨300000000, by decide⟩, .default⟩

/-- The lease is renewed once, and the handler fails. -/
def renewedAndFailed : List (DispatchEvent .everySecond) := [
  .request,
  .reply (.ok (.renewed (.renewed ⟨400000000, by decide⟩))) ⟨100000000, by decide⟩,
  .returned (.error (.retry "timeout")),
  .request,
  .reply (.ok (.failed (.retried ⟨150000000, by decide⟩))) ⟨140000000, by decide⟩]

theorem dispatch_records_once_failed : ∃ d, Run claimedMail renewedAndFailed d ∧
    d.phase = .ended (.recorded (.error (.retry "timeout")) (some .runsRequeued)) ∧
    Faithful claimedMail renewedAndFailed d := by
  obtain ⟨d, hd, hphase⟩ : ∃ d,
      run next (fun _ _ => true) (start claimedMail) renewedAndFailed = some d ∧
      d.phase = .ended (.recorded (.error (.retry "timeout")) (some .runsRequeued)) := ⟨_, rfl, rfl⟩
  have h : Run claimedMail renewedAndFailed d := run_sound (fun _ _ _ => trivial) hd
  exact ⟨d, h, hphase, dispatch_records_once h⟩

/-! ## Loss of the lease -/

/-- The deadline that is known after an event, `t` being known before. -/
def deadline (t : DateTime) : DispatchEvent K → DateTime
  | .reply (.ok (.renewed (.renewed e))) _ => e
  | _ => t

/-- The last deadline that the store has answered. -/
def lastDeadline (c : ClaimedRun) (es : List (DispatchEvent K)) : DateTime :=
  es.foldl deadline c.leaseExpiresAt

@[simp] theorem lastDeadline_snoc :
    lastDeadline c (es ++ [ev]) = deadline (lastDeadline c es) ev := by
  simp [lastDeadline]

/-- After this event the task gives the run up, `t` being the deadline that it knows: the renewal is
fenced, or the host clock has reached the deadline, the one that a successful renewal has answered
included. -/
def Loses (t : DateTime) : DispatchEvent K → Prop
  | .reply (.ok (.renewed .fenced)) _ => True
  | .reply (.ok (.renewed (.renewed e))) now => e.val ≤ now.val
  | .reply (.error _) now | .noConnection now => t.val ≤ now.val
  | _ => False

/-- A dispatch knows the last deadline that the store has answered. -/
theorem phase_lastDeadline (h : Run c es d) :
    ∀ e, d.phase = .polling e ∨ d.phase = .renewing e → e = lastDeadline c es := by
  refine Histories.Run.history (P := fun es d => ∀ e, d.phase = .polling e ∨ d.phase = .renewing e →
    e = lastDeadline c es) h ?_ fun es d ev d' _ ih _ hn => ?_
  · rintro e (h | h)
    · exact (DispatchPhase.polling.inj h).symm
    · exact absurd h (by simp [start])
  have hcheck : ∀ {t now e},
      (d.check t now).phase = .polling e ∨ (d.check t now).phase = .renewing e → e = t := by
    intro t now e he
    rcases check_cases d t now with ⟨-, hc⟩ | ⟨-, hc⟩ <;> rw [hc] at he
    · simp at he
    · rcases he with he | he
      · exact (DispatchPhase.polling.inj he).symm
      · exact absurd he (by simp)
  intro e he
  rw [lastDeadline_snoc]
  cases step_of_next hn with
  | missed hp | failed hp =>
    rw [hcheck he]
    exact ih _ (by simp [hp])
  | renewed hp => exact hcheck he
  | renew hp =>
    obtain rfl : _ = e := by simpa using he
    exact ih _ (Or.inl hp)
  | _ => simp at he

/-- **When a handler is stopped for lease loss**: exactly at a heartbeat, before the handler has
returned, whose renewal is fenced or after which the host clock has reached the last known
deadline. -/
theorem lease_loss_exact (h : Run c es d) : d.phase = .ended .leaseLost ↔
    ∃ pre ev, es = pre ++ [ev] ∧ (∀ r, .returned r ∉ pre) ∧ Loses (lastDeadline c pre) ev := by
  constructor
  · intro hlost
    rcases Histories.Run.last h with ⟨-, rfl⟩ | ⟨pre, ev, d₀, rfl, h₀, -, hn⟩
    · exact absurd hlost (by simp [start])
    · have hs := step_of_next hn
      have hreturned : ∀ r, .returned r ∉ pre := by
        intro r hr
        have hresult := hs.result
        rw [((faithful_run h₀).returned r).mpr hr] at hresult
        have hnone : d.result = none := by simp [Dispatch.result, hlost]
        rw [hnone] at hresult
        rcases hev : ev.result <;> simp [hev] at hresult
      refine ⟨pre, ev, rfl, hreturned, ?_⟩
      have hcheck : ∀ {t now}, (d₀.check t now).phase = .ended .leaseLost → t.val ≤ now.val := by
        intro t now he
        rcases check_cases d₀ t now with ⟨hle, -⟩ | ⟨-, hc⟩
        · exact hle
        · exact absurd he (by simp [hc])
      cases hs with
      | missed hp =>
        rw [← phase_lastDeadline h₀ _ (Or.inl hp)]
        exact hcheck hlost
      | failed hp =>
        rw [← phase_lastDeadline h₀ _ (Or.inr hp)]
        exact hcheck hlost
      | renewed hp => exact hcheck hlost
      | fenced hp => trivial
      | _ => simp at hlost
  · rintro ⟨pre, ev, rfl, hreturned, hloses⟩
    obtain ⟨d₀, h₀, -, hn⟩ := Histories.Run.of_snoc h
    have hnone : d₀.result = none := Option.eq_none_iff_forall_ne_some.mpr fun r hr =>
      hreturned r (((faithful_run h₀).returned r).mp hr)
    have hcheck : ∀ {t now : DateTime}, t.val ≤ now.val →
        (d₀.check t now).phase = .ended .leaseLost := by
      intro t now hle
      unfold check
      rw [if_pos hle, finish_phase]
    cases step_of_next hn with
    | missed hp =>
      refine hcheck ?_
      rw [phase_lastDeadline h₀ _ (Or.inl hp)]
      exact hloses
    | failed hp =>
      refine hcheck ?_
      rw [phase_lastDeadline h₀ _ (Or.inr hp)]
      exact hloses
    | renewed hp => exact hcheck hloses
    | fenced hp => rfl
    | unrecorded hp | recorded hp => simp [Dispatch.result, hp] at hnone
    | _ => exact hloses.elim

/-- The lease is renewed, and the host clock is ahead of the new deadline. -/
def skewed : List (DispatchEvent .everySecond) := [
  .request,
  .reply (.ok (.renewed (.renewed ⟨400000000, by decide⟩))) ⟨500000000, by decide⟩]

theorem lease_loss_exact_skewed : ∃ d, Run claimedMail skewed d ∧ d.phase = .ended .leaseLost ∧
    ∃ pre ev, skewed = pre ++ [ev] ∧ (∀ r, .returned r ∉ pre) ∧
      Loses (lastDeadline claimedMail pre) ev := by
  obtain ⟨d, hd, hphase⟩ : ∃ d, run next (fun _ _ => true) (start claimedMail) skewed = some d ∧
      d.phase = .ended .leaseLost := ⟨_, rfl, rfl⟩
  have h : Run claimedMail skewed d := run_sound (fun _ _ _ => trivial) hd
  exact ⟨d, h, hphase, (lease_loss_exact h).mp hphase⟩

end Dispatch

end PgTaskScheduler
