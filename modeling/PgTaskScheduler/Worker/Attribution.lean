import PgTaskScheduler.Worker.Fleet

/-!
# Where an outcome comes from

An attempt is closed as completed or failed by a commit of the call that records it. In a fleet
whose other programs do not record results themselves, that call was made by a task under the id and
the token of its claim, for what its handler has returned. So every outcome in the store is what a
handler has returned in that very attempt.
-/

namespace PgTaskScheduler

open Tables ReadCommitted

variable {K : Croner} {F ι ω : Type}

/-! ## The call behind an outcome -/

/-- The call that closes an attempt as completed or failed. -/
structure Call.Settles (c : Call K) (a : Attempt) : Prop where
  completed : a.outcome = some .completed → c = .finalizeRun a.runId a.leaseToken .completed
  failed : a.outcome = some .failed → ∃ error, a.error = some error ∧
    (c = .finalizeRun a.runId a.leaseToken (.failed error) ∨
      ∃ retryable, c = .failRun a.runId a.leaseToken error retryable)

section Change

variable {Ok : Env → Prop} {c : Call K} {v v' : RunView}

/-- An attempt that was not there before is settled by its own call, if it is settled. -/
theorem Change.settles (h : Change Ok c v v') {a : Attempt}
    (hid : ∀ r, v.run = some r → r.id = a.runId) (ha : a ∈ v'.attempts) (hnew : a ∉ v.attempts) :
    c.Settles a := by
  have hlast : ∀ {prev : List Attempt} {b b' : Attempt}, a ∈ prev ++ [b'] → a ∉ prev ++ [b] →
      a = b' := by
    intro prev b b' hmem hnot
    rcases List.mem_append.mp hmem with hmem | hmem
    · exact absurd (List.mem_append_left _ hmem) hnot
    · exact List.mem_singleton.mp hmem
  have htoken : ∀ {token : LeaseToken} {b : Attempt}, b.openWith token →
      b.outcome = none ∧ b.leaseToken = token := fun hb => by
    simp only [Attempt.openWith, Bool.and_eq_true, decide_eq_true_eq, Attempt.isOpen,
      Option.isNone_iff_eq_none] at hb
    exact ⟨hb.2, hb.1⟩
  have hunsettled : a.outcome ≠ some .completed → a.outcome ≠ some .failed → c.Settles a :=
    fun h₁ h₂ => ⟨fun h => absurd h h₁, fun h => absurd h h₂⟩
  cases h with
  | same => exact absurd ha hnew
  | enqueued | materialized | pruned => exact absurd ha List.not_mem_nil
  | claimed =>
    rcases List.mem_append.mp ha with ha | ha
    · exact absurd ha hnew
    · obtain rfl := List.mem_singleton.mp ha
      exact hunsettled (by simp [Run.claimAttempt]) (by simp [Run.claimAttempt])
  | @finalized id token outcome _ _ r _ b _ _ hr hb =>
    obtain rfl := hlast ha hnew
    obtain ⟨-, rfl⟩ := htoken hb
    obtain ⟨rfl, -, -⟩ := Run.state_of_live hr
    have hr' : r.id = b.runId := hid r rfl
    rw [hr']
    cases outcome with
    | completed => exact ⟨fun _ => rfl, fun h => absurd h (by simp [Attempt.close, Outcome.stored])⟩
    | failed error =>
      exact ⟨fun h => absurd h (by simp [Attempt.close, Outcome.stored]),
        fun _ => ⟨error, rfl, Or.inl rfl⟩⟩
  | @failed id token error retryable _ _ r _ b _ _ hr hb =>
    obtain rfl := hlast ha hnew
    obtain ⟨-, rfl⟩ := htoken hb
    obtain ⟨rfl, -, -⟩ := Run.state_of_live hr
    have hr' : r.id = b.runId := hid r rfl
    rw [hr']
    exact ⟨fun h => absurd h (by simp [Attempt.close]),
      fun _ => ⟨error, rfl, Or.inr ⟨retryable, rfl⟩⟩⟩
  | renewed _ _ hb =>
    obtain rfl := hlast ha hnew
    obtain ⟨hopen, -⟩ := htoken hb
    exact hunsettled (by simp [hopen]) (by simp [hopen])
  | recovered =>
    obtain rfl := hlast ha hnew
    exact hunsettled (by simp [Attempt.close]) (by simp [Attempt.close])
  | cancelledPending => exact absurd ha hnew
  | cancelledRunning =>
    obtain rfl := hlast ha hnew
    exact hunsettled (by simp [Attempt.close]) (by simp [Attempt.close])

/-- A run that is completed has a completed attempt. -/
def Completed (v : RunView) : Prop :=
  ∀ r, v.run = some r → r.state = .completed → ∃ a ∈ v.attempts, a.outcome = some .completed

theorem Change.completed (h : Change Ok c v v') (hv : Completed v) : Completed v' := by
  intro r' hr' hs
  cases h with
  | same => exact hv r' hr' hs
  | @finalized _ _ outcome _ _ r prev a =>
    obtain rfl := Option.some.inj hr'
    cases outcome with
    | completed => exact ⟨_, List.mem_append_right _ (List.mem_singleton_self _), rfl⟩
    | failed error => exact absurd hs (by simp [Run.finalize, Outcome.stored])
  | @failed _ _ error retryable env _ r =>
    obtain rfl := Option.some.inj hr'
    rw [Run.fail_state] at hs
    split_ifs at hs
  | renewed _ hr =>
    obtain rfl := Option.some.inj hr'
    exact absurd ((Run.state_of_live hr).2.1.symm.trans hs) (by simp)
  | @recovered _ env r =>
    obtain rfl := Option.some.inj hr'
    rw [Run.recover_state] at hs
    split_ifs at hs
  | pruned => exact absurd hr' (by simp)
  | _ =>
    obtain rfl := Option.some.inj hr'
    exact absurd hs (by simp [enqueuedRun, materializedRun, Run.claim, Run.cancel])

end Change

/-! ## The tasks behind the calls -/

/-- A result of a dispatch stays. -/
theorem Worker.Step.returned {sch : Scheduler F} {w w' : Worker} {ev : WorkerEvent K}
    (h : w.Sound sch) (hs : w.Step sch ev w') {d : Dispatch} {r : HandlerResult}
    (hd : d ∈ w.dispatches) (hr : d.result = some r) :
    ∃ d' ∈ w'.dispatches, d'.claimed = d.claimed ∧ d'.result = some r := by
  rcases hs.dispatches h with
    ⟨hsame, -, -⟩ | ⟨c, -, -, hnew⟩ | ⟨n, d₀, ev', d', -, hn, hd', hset, -⟩
  · exact ⟨d, hsame ▸ hd, rfl, hr⟩
  · exact ⟨d, by rw [hnew]; exact List.mem_append_left _ hd, rfl, hr⟩
  · obtain ⟨m, hm⟩ := List.getElem?_of_mem hd
    have hlt := (List.getElem?_eq_some_iff.mp hm).1
    rw [hset]
    by_cases hmn : n = m
    · subst hmn
      obtain rfl := Option.some.inj (hn.symm.trans hm)
      have hst := Dispatch.step_of_next hd'
      refine ⟨d', List.mem_of_getElem? (List.getElem?_set_self hlt), hst.claimed, ?_⟩
      rw [hst.result, hr]
      -- a second result would have to be returned to a handler that is polled
      cases hst with
      | returned hp => simp [Dispatch.result, hp] at hr
      | _ => rfl
    · exact ⟨d, List.mem_of_getElem? ((List.getElem?_set_ne hmn).trans hm), rfl, hr⟩

namespace Fleet

variable [DecidableEq ι] [DecidableEq ω]

omit [DecidableEq ι] [DecidableEq ω] in
/-- A task of the fleet runs this attempt, and its handler has returned `r`. -/
def Returned (f : Fleet K ι ω) (c : ClaimedRun) (r : HandlerResult) : Prop :=
  ∃ v, ∃ d ∈ (f.worker v).dispatches, d.claimed = c ∧ d.result = some r

/-- A session that records a result does so for a task that has it, or has answered. -/
def Serves (f : Fleet K ι ω) (i : ι) : Prop :=
  (f.sessions.session i).call.finalizes = true → (∃ x, (f.sessions.session i).prog = .ret x) ∨
    ∃ c r, f.Returned c r ∧ (f.sessions.session i).call = c.finalCall K r

/-- What the store holds of completed and failed attempts, handlers have returned. -/
structure Attributed (f : Fleet K ι ω) : Prop where
  serves : ∀ i, f.Serves i
  completed : ∀ a ∈ f.sessions.committed.attempts, a.outcome = some .completed →
    ∃ c, f.Returned c (.ok ()) ∧ c.runId = a.runId ∧ c.leaseToken = a.leaseToken
  failed : ∀ a ∈ f.sessions.committed.attempts, a.outcome = some .failed →
    ∃ c e, f.Returned c (.error e) ∧ c.runId = a.runId ∧ c.leaseToken = a.leaseToken ∧
      a.error = some e.text
  runs : ∀ id, Completed (f.sessions.committed.view id)

variable {sch : ω → Scheduler F} {f f' : Fleet K ι ω} {l : Label K ι ω} {ls : List (Label K ι ω)}

theorem Step.returned (h : Sound sch f) (hs : f.Step sch l f') {c : ClaimedRun} {r : HandlerResult}
    (hr : f.Returned c r) : f'.Returned c r := by
  obtain ⟨v, d, hd, hc, hres⟩ := hr
  rcases hs.event h with ⟨-, hw⟩ | ⟨u, ev, w, -, -, hn, hw⟩
  · exact ⟨v, d, hw ▸ hd, hc, hres⟩
  · by_cases hv : v = u
    · subst hv
      obtain ⟨d', hd', hc', hres'⟩ := (Worker.step_of_next hn).returned (h.workers v) hd hres
      exact ⟨v, d', by rw [hw, Function.update_self]; exact hd', hc'.trans hc, hres'⟩
    · exact ⟨v, d, by rw [hw, Function.update_of_ne hv]; exact hd, hc, hres⟩

/-- What a step does to the committed store: nothing, or what the call of a session does that has
not answered yet. -/
theorem Step.committed (h : Sound sch f) (hs : f.Step sch l f') :
    f'.sessions.committed = f.sessions.committed ∨
      ∃ i, (∀ x, (f.sessions.session i).prog ≠ .ret x) ∧
        Effect (fun _ => True) (f.sessions.session i).call (f.sessions.session i).reads
          f.sessions.committed f'.sessions.committed := by
  have hstep : ∀ {i a y}, Sessions.Step f.sessions i a y → y.committed = f.sessions.committed ∨
      ∃ i, (∀ x, (f.sessions.session i).prog ≠ .ret x) ∧
        Effect (fun _ => True) (f.sessions.session i).call (f.sessions.session i).reads
          f.sessions.committed y.committed := by
    intro i a y hs
    cases hs with
    | commit hp => exact Or.inr ⟨i, fun x hx => by simp [hp] at hx, (h.sessions.commit hp).1⟩
    | _ => exact Or.inl rfl
  cases hs with
  | database _ hs => exact hstep hs
  | call _ hs => exact hstep hs
  | request _ _ _ hs => exact hstep hs
  | _ => exact Or.inl rfl

omit [DecidableEq ω] in
/-- A session that begins to serve a call of a client that records a result. -/
theorem returned_of_awaits {c : Client ω} {w : Worker} {call : Call K}
    (hcall : w.awaits (sch c.worker) c.task = some call) (hfinal : call.finalizes = true) :
    ∃ d ∈ w.dispatches, ∃ r, d.result = some r ∧ call = d.claimed.finalCall K r := by
  rcases hc : c.task with _ | n <;> rw [hc] at hcall
  · have hcall : w.outstanding (sch c.worker) = some call := hcall
    unfold Worker.outstanding at hcall
    split at hcall
    · obtain rfl := Option.some.inj hcall
      exact absurd hfinal (by simp [Call.finalizes])
    · obtain rfl := Option.some.inj hcall
      exact absurd hfinal (by simp [Call.finalizes])
    · obtain rfl := Option.some.inj hcall
      exact absurd hfinal (by simp [Call.finalizes])
    · exact absurd hcall (by simp)
  · obtain ⟨d, hd, hd'⟩ := Option.bind_eq_some_iff.mp hcall
    unfold Dispatch.outstanding at hd'
    split at hd'
    · obtain rfl := Option.some.inj hd'
      exact absurd hfinal (by simp [Call.finalizes])
    · next r hp =>
      obtain rfl := Option.some.inj hd'
      exact ⟨d, List.mem_of_getElem? hd, r, by simp [Dispatch.result, hp], rfl⟩
    · exact absurd hd' (by simp)

theorem Step.serves (h : Sound sch f) (ha : Attributed f) (hG : Honest l) (hs : f.Step sch l f')
    (i : ι) : f'.Serves i := by
  have hkeep : (f'.sessions.session i).call = (f.sessions.session i).call →
      ((∃ x, (f.sessions.session i).prog = .ret x) → ∃ x, (f'.sessions.session i).prog = .ret x) →
      f'.Serves i := by
    intro hcall hret hfinal
    rw [hcall] at hfinal ⊢
    refine (ha.serves i hfinal).imp hret fun hexists => ?_
    obtain ⟨c, r, hr, he⟩ := hexists
    exact ⟨c, r, hs.returned h hr, he⟩
  have hsame : f'.sessions.session i = f.sessions.session i → f'.Serves i := fun he =>
    hkeep (congrArg _ he) fun hret => by rwa [he]
  cases hs with
  | worker | reply | broken | released => exact hsame rfl
  | database hnot hs =>
    exact hkeep (call_step hnot hs i) fun hret => hret.imp fun _ => ret_step hnot hs
  | @call j call y _ hs =>
    by_cases hij : i = j
    · subst hij
      intro hfinal
      have hstart : y.session i = .start call (program K call) := (call_start hs).1
      have hfinal : (y.session i).call.finalizes = true := hfinal
      rw [hstart] at hfinal
      exact absurd (hG.symm.trans hfinal) (by simp)
    · exact hsame ((call_start hs).2 i hij)
  | @request c j w call y _ _ hcall hs =>
    by_cases hij : i = j
    · subst hij
      intro hfinal
      have hstart : y.session i = .start call (program K call) := (call_start hs).1
      have hfinal : (y.session i).call.finalizes = true := hfinal
      rw [hstart] at hfinal
      obtain ⟨d, hd, r, hr, he⟩ := returned_of_awaits hcall hfinal
      refine Or.inr ⟨d.claimed, r, ⟨c.worker, d, ?_, rfl, hr⟩, ?_⟩
      · show d ∈ (Function.update f.worker c.worker w c.worker).dispatches
        rwa [Function.update_self]
      · show (y.session i).call = _
        rw [hstart]
        exact he
    · exact hsame ((call_start hs).2 i hij)
  | @abandoned j e _ =>
    refine hkeep (call_abort f.sessions j e i) fun hret => ?_
    obtain ⟨x, hx⟩ := hret
    show ∃ x, ((f.sessions.abort j e).session i).prog = .ret x
    unfold Sessions.abort
    by_cases hij : i = j
    · subst hij
      rw [System.set_session_self]
      exact ⟨_, rfl⟩
    · rw [System.set_session_of_ne _ hij]
      exact ⟨x, hx⟩

theorem Step.attributed (h : Sound sch f) (ha : Attributed f) (hG : Honest l)
    (hs : f.Step sch l f') : Attributed f' := by
  have hmono : ∀ {c r}, f.Returned c r → f'.Returned c r := fun hr => hs.returned h hr
  have hold : ∀ {a : Attempt}, a ∈ f.sessions.committed.attempts →
      (a.outcome = some .completed →
        ∃ c, f'.Returned c (.ok ()) ∧ c.runId = a.runId ∧ c.leaseToken = a.leaseToken) ∧
      (a.outcome = some .failed → ∃ c e, f'.Returned c (.error e) ∧ c.runId = a.runId ∧
        c.leaseToken = a.leaseToken ∧ a.error = some e.text) := by
    intro a hmem
    refine ⟨fun ho => ?_, fun ho => ?_⟩
    · obtain ⟨c, hr, hc⟩ := ha.completed a hmem ho
      exact ⟨c, hmono hr, hc⟩
    · obtain ⟨c, e, hr, hc⟩ := ha.failed a hmem ho
      exact ⟨c, e, hmono hr, hc⟩
  rcases hs.committed h with heq | ⟨i, hbusy, heffect⟩
  · refine ⟨hs.serves h ha hG, ?_, ?_, ?_⟩ <;> rw [heq]
    · exact fun a hmem => (hold hmem).1
    · exact fun a hmem => (hold hmem).2
    · exact ha.runs
  have hsettles : ∀ a ∈ f'.sessions.committed.attempts, a ∉ f.sessions.committed.attempts →
      (f.sessions.session i).call.Settles a := by
    intro a hmem hnew
    refine (heffect.transition.runs a.runId).settles (fun r hr => key_of_lookup hr)
      (Store.mem_view_attempts.mpr ⟨hmem, rfl⟩) fun hold => hnew (Store.mem_view_attempts.mp hold).1
  have hserved : (f.sessions.session i).call.finalizes = true → ∃ c r, f'.Returned c r ∧
      (f.sessions.session i).call = c.finalCall K r := fun hfinal => by
    obtain ⟨x, hx⟩ | ⟨c, r, hr, he⟩ := ha.serves i hfinal
    · exact absurd hx (hbusy x)
    · exact ⟨c, r, hmono hr, he⟩
  refine ⟨hs.serves h ha hG, fun a hmem ho => ?_, fun a hmem ho => ?_, fun id =>
    (heffect.transition.runs id).completed (ha.runs id)⟩
  · by_cases hmem' : a ∈ f.sessions.committed.attempts
    · exact (hold hmem').1 ho
    · have hcall := (hsettles a hmem hmem').completed ho
      obtain ⟨c, r, hr, he⟩ := hserved (by rw [hcall]; rfl)
      rcases r with e | ⟨⟩
      · exact absurd (hcall.symm.trans he) (by simp [ClaimedRun.finalCall])
      · obtain ⟨hid, htoken, -⟩ := Call.finalizeRun.inj (hcall.symm.trans he)
        exact ⟨c, hr, hid.symm, htoken.symm⟩
  · by_cases hmem' : a ∈ f.sessions.committed.attempts
    · exact (hold hmem').2 ho
    · obtain ⟨error, herror, hcall | ⟨retryable, hcall⟩⟩ := (hsettles a hmem hmem').failed ho
      · obtain ⟨c, r, hr, he⟩ := hserved (by rw [hcall]; rfl)
        rcases r with e | ⟨⟩
        · exact absurd (hcall.symm.trans he) (by simp [ClaimedRun.finalCall])
        · exact absurd (hcall.symm.trans he) (by simp [ClaimedRun.finalCall])
      · obtain ⟨c, r, hr, he⟩ := hserved (by rw [hcall]; rfl)
        rcases r with e | ⟨⟩
        · obtain ⟨hid, htoken, htext, -⟩ := Call.failRun.inj (hcall.symm.trans he)
          exact ⟨c, e, hr, hid.symm, htoken.symm, by rw [herror, htext]⟩
        · exact absurd (hcall.symm.trans he) (by simp [ClaimedRun.finalCall])

/-! ## Every run of a fleet -/

omit [DecidableEq ι] [DecidableEq ω] in
theorem Initial.attributed (h : Initial sch f) : Attributed f := by
  have hcommitted : f.sessions.committed = .empty := congrArg System.committed h.sessions
  refine ⟨fun i _ => Or.inl ?_, ?_, ?_, fun id r hr => ?_⟩
  · rw [h.sessions]
    exact ⟨_, rfl⟩
  · rw [hcommitted]
    exact fun a ha => absurd ha List.not_mem_nil
  · rw [hcommitted]
    exact fun a ha => absurd ha List.not_mem_nil
  · rw [hcommitted] at hr
    exact absurd hr (by simp [Store.view, Store.empty, lookup])

theorem attributed_reached (h : Reached sch Honest ls f) : Attributed f :=
  h.history (P := fun _ f => Sound sch f ∧ Attributed f) (fun _ h₀ => ⟨h₀.sound, h₀.attributed⟩)
    (fun _ _ _ _ _ ih hG hs => ⟨hs.sound ih.1, hs.attributed ih.1 ih.2 hG⟩) |>.2

/-- **What the store says of an attempt, its handler has returned.** As long as only tasks record
results, a run is completed by a completed attempt only; behind a completed attempt stands a task
with the id and the token of this attempt whose handler has returned without an error, and behind a
failed one a task whose handler has returned the error that the attempt shows. -/
theorem outcomes_from_handlers (h : Reached sch Honest ls f) :
    (∀ r ∈ f.sessions.committed.runs, r.state = .completed →
      ∃ a ∈ f.sessions.committed.attempts, a.runId = r.id ∧ a.outcome = some .completed) ∧
    (∀ a ∈ f.sessions.committed.attempts, a.outcome = some .completed →
      ∃ c, f.Returned c (.ok ()) ∧ c.runId = a.runId ∧ c.leaseToken = a.leaseToken) ∧
    ∀ a ∈ f.sessions.committed.attempts, a.outcome = some .failed →
      ∃ c e, f.Returned c (.error e) ∧ c.runId = a.runId ∧ c.leaseToken = a.leaseToken ∧
        a.error = some e.text := by
  have ha := attributed_reached h
  refine ⟨fun r hr hs => ?_, ha.completed, ha.failed⟩
  have hids := (sound_reached h).sessions.store.runIds
  obtain ⟨a, hmem, hout⟩ := ha.runs r.id r (lookup_of_mem hids hr) hs
  obtain ⟨hmem, hid⟩ := Store.mem_view_attempts.mp hmem
  exact ⟨a, hmem, hid, hout⟩

theorem outcomes_from_handlers_mail : ∃ f : Fleet .everySecond Bool Bool,
    f.sessions.committed.runs.map Run.state = [.completed] ∧
    (∀ r ∈ f.sessions.committed.runs, r.state = .completed →
      ∃ a ∈ f.sessions.committed.attempts, a.runId = r.id ∧ a.outcome = some .completed) ∧
    (∀ a ∈ f.sessions.committed.attempts, a.outcome = some .completed →
      ∃ c, f.Returned c (.ok ()) ∧ c.runId = a.runId ∧ c.leaseToken = a.leaseToken) ∧
    ∀ a ∈ f.sessions.committed.attempts, a.outcome = some .failed →
      ∃ c e, f.Returned c (.error e) ∧ c.runId = a.runId ∧ c.leaseToken = a.leaseToken ∧
        a.error = some e.text := by
  obtain ⟨ls, f, h, hruns, -⟩ := mailDay_reached
  exact ⟨f, hruns, outcomes_from_handlers (h.mono fun _ hl => hl.1)⟩

end Fleet

end PgTaskScheduler
