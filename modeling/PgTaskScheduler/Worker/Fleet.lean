import PgTaskScheduler.Claiming
import PgTaskScheduler.Worker.Capacity

/-!
# Workers on one database

Any number of workers share the sessions of one database with programs that call the library
themselves. A client, which is the loop of a worker or one of its tasks, borrows a session for one
call and gives it back with the answer. A connection may break while the client waits; the session
then goes on or is rolled back by the database, and the client is told of an error either way.

`Fleet.reached_worker` takes every worker out of its fleet: what was assumed of the store there is
proved of it here.
-/

namespace PgTaskScheduler

open Tables ReadCommitted Histories

/-! ## Clients -/

/-- Who calls the store: the loop of a worker, or its task `n`. -/
structure Client (ω : Type) where
  worker : ω
  task : Option ℕ
deriving DecidableEq

variable {K : Croner} {F ι ω : Type}

/-- The client makes its call. -/
def Client.request (c : Client ω) : WorkerEvent K :=
  match c.task with
  | none => .request
  | some n => .task n .request

/-- The client is answered. -/
def Client.reply (c : Client ω) (x : Except SchedulerError (Answer K)) (now : DateTime) :
    WorkerEvent K :=
  match c.task with
  | none => .reply x
  | some n => .task n (.reply x now)

/-- The event makes no call and answers none. -/
def WorkerEvent.Internal : WorkerEvent K → Prop
  | .request | .reply _ | .task _ .request | .task _ (.reply ..) => False
  | _ => True

instance (ev : WorkerEvent K) : Decidable ev.Internal :=
  match ev with
  | .request | .reply _ | .task _ .request | .task _ (.reply ..) => isFalse id
  | .cancelled | .pollTick | .recoverTick | .joined _ | .noneJoined | .noConnection _ | .dispatched
  | .timeout | .task _ (.returned _) | .task _ .panicked | .task _ (.noConnection _)
  | .task _ .aborted => isTrue trivial

/-- The call whose answer a client of the worker awaits. -/
def Worker.awaits (sch : Scheduler F) (w : Worker) : Option ℕ → Option (Call K)
  | none => w.outstanding sch
  | some n => (w.dispatches[n]?).bind Dispatch.outstanding

/-! ## Fleets -/

/-- The call deletes runs. -/
def Call.prunes : Call K → Bool
  | .pruneTerminal .. => true
  | _ => false

/-- The database rolls back what session `i` has open. -/
def Sessions.abort [DecidableEq ι] (y : Sessions K ι) (i : ι) (e : DbError) : Sessions K ι :=
  y.set i (.start (y.session i).call (.ret (.error (.database e))))

variable (K ι ω) in
structure Fleet : Type 1 where
  sessions : Sessions K ι
  worker : ω → Worker
  /-- the client that waits for the answer of a session -/
  lent : ι → Option (Client ω)

namespace Fleet

variable (K ι ω) in
/-- What happens in a fleet. -/
inductive Label
  /-- a session goes on with its call -/
  | database (i : ι) (a : Act (Call K) Env)
  /-- a program calls the library -/
  | call (i : ι) (c : Call K)
  /-- a worker goes on without the database -/
  | worker (v : ω) (ev : WorkerEvent K)
  | request (c : Client ω) (i : ι)
  | reply (c : Client ω) (i : ι) (x : Except SchedulerError (Answer K)) (now : DateTime)
  /-- the connection breaks, and the client is told `e` -/
  | broken (c : Client ω) (i : ι) (e : DbError) (now : DateTime)
  /-- the client of the session does not wait any more -/
  | released (i : ι)
  /-- the database rolls back a session without a client -/
  | abandoned (i : ι) (e : DbError)

/-- A program that calls the library itself records no results. -/
def Honest : Label K ι ω → Prop
  | .call _ c => c.finalizes = false
  | _ => True

/-- A program that calls the library itself deletes no runs. -/
def Keeping : Label K ι ω → Prop
  | .call _ c => c.prunes = false
  | _ => True

variable [DecidableEq ι] [DecidableEq ω]

/-- Worker `v` becomes `w`. -/
def setWorker (f : Fleet K ι ω) (v : ω) (w : Worker) : Fleet K ι ω :=
  { f with worker := Function.update f.worker v w }

/-- Session `i` is lent to `c`, or given back. -/
def lend (f : Fleet K ι ω) (i : ι) (c : Option (Client ω)) : Fleet K ι ω :=
  { f with lent := Function.update f.lent i c }

/-- The steps of a fleet. -/
inductive Step (sch : ω → Scheduler F) (f : Fleet K ι ω) : Label K ι ω → Fleet K ι ω → Prop
  | database {i a y} (ha : ∀ c, a ≠ .call c) (hs : Sessions.Step f.sessions i a y) :
    Step sch f (.database i a) { f with sessions := y }
  | call {i c y} (hfree : f.lent i = none) (hs : Sessions.Step f.sessions i (.call c) y) :
    Step sch f (.call i c) { f with sessions := y }
  | worker {v ev w} (hev : ev.Internal) (hn : (f.worker v).next (sch v) ev = some w) :
    Step sch f (.worker v ev) (f.setWorker v w)
  | request {c i w call y} (hfree : f.lent i = none)
    (hn : (f.worker c.worker).next (sch c.worker) (c.request : WorkerEvent K) = some w)
    (hcall : w.awaits (sch c.worker) c.task = some call)
    (hs : Sessions.Step f.sessions i (.call call) y) :
    Step sch f (.request c i) ({ f.setWorker c.worker w with sessions := y }.lend i (some c))
  | reply {c i x now w} (hlent : f.lent i = some c) (hp : (f.sessions.session i).prog = .ret x)
    (hn : (f.worker c.worker).next (sch c.worker) (c.reply x now) = some w) :
    Step sch f (.reply c i x now) ((f.setWorker c.worker w).lend i none)
  | broken {c i e now w} (hlent : f.lent i = some c)
    (hn : (f.worker c.worker).next (sch c.worker)
      (c.reply (.error (.database e)) now : WorkerEvent K) = some w) :
    Step sch f (.broken c i e now) ((f.setWorker c.worker w).lend i none)
  | released {c i} (hlent : f.lent i = some c)
    (hnone : (f.worker c.worker).awaits (K := K) (sch c.worker) c.task = none) :
    Step sch f (.released i) (f.lend i none)
  | abandoned {i} (e : DbError) (hfree : f.lent i = none) :
    Step sch f (.abandoned i e) { f with sessions := f.sessions.abort i e }

/-- A finite run; `G` says which labels occur. -/
inductive Run (sch : ω → Scheduler F) (G : Label K ι ω → Prop) (f : Fleet K ι ω) :
    List (Label K ι ω) → Fleet K ι ω → Prop
  | nil : Run sch G f [] f
  | snoc {ls f' l f''} (h : Run sch G f ls f') (hG : G l) (hs : f'.Step sch l f'') :
    Run sch G f (ls ++ [l]) f''

/-- Idle sessions on the empty schema, and workers at the start of their loops. -/
structure Initial (sch : ω → Scheduler F) (f : Fleet K ι ω) : Prop where
  sessions : f.sessions = Sessions.initial K ι
  worker : ∀ v, Worker.start (sch v).config = some (f.worker v)
  lent : ∀ i, f.lent i = none

/-- A fleet comes to `f` by `ls`. -/
def Reached (sch : ω → Scheduler F) (G : Label K ι ω → Prop) (ls : List (Label K ι ω))
    (f : Fleet K ι ω) : Prop := ∃ f₀, Initial sch f₀ ∧ Run sch G f₀ ls f

end Fleet

/-! ## What the sessions promise -/

section Sessions

variable [DecidableEq ι] {y y' : Sessions K ι} {i : ι} {a : Act (Call K) Env}

theorem sound_abort (h : Sessions.Sound y) (i : ι) (e : DbError) : Sessions.Sound (y.abort i e) :=
  h.set (fun r hr => absurd hr (by simp [Session.start])) (consistent_database e)
    fun sn hsn => by simp [Session.start] at hsn

/-- A claim answers at most as many runs as it was asked for, of the names that it was asked for. -/
def Promised (c : Call K) (x : Except SchedulerError (Answer K)) : Prop :=
  ∀ worker names limit runs, c = .claimBatch worker names limit → x = .ok (.claimed runs) →
    runs.length ≤ limit.value ∧ ∀ r ∈ runs, r.jobName ∈ names

theorem program_promised (c : Call K) : (program K c).Yields (Promised c) := by
  cases c with
  | claimBatch worker names limit =>
    rw [program_claimBatch]
    split_ifs with hlimit
    · rintro _ _ _ runs - hx
      exact absurd hx (by simp)
    intro env snap cur
    refine ⟨fun e _ _ _ _ runs _ hx => absurd hx (by simp), fun w rows hr => ?_⟩
    obtain ⟨-, rfl, -⟩ := claimBatchQuery_ok hr
    rintro _ _ _ runs hc hx
    obtain ⟨rfl, rfl, rfl⟩ := Call.claimBatch.inj hc
    obtain ⟨decoded, hdecoded, hx⟩ := bind_eq_ok hx
    obtain rfl : decoded = runs := by simpa using hx
    have hreads := decodeClaimed_reads hdecoded
    refine ⟨?_, fun c hc => ?_⟩
    · rw [← hreads.length_eq, List.length_insertionSort, List.length_map]
      exact List.length_take_le _ _
    · obtain ⟨r', hr', hread⟩ := exists_of_mem_forall₂ hreads c hc
      obtain ⟨r, hr, rfl⟩ := mem_claimedRows.mp hr'
      rw [hread.jobName]
      exact (Run.of_claimable (claimCandidates_mem hr).2.1).2.2
  | _ => exact Prog.yields_of_forall (fun _ _ _ _ _ hc => absurd hc (by simp)) _

/-- Only a call changes what a session serves. -/
theorem call_step (ha : ∀ c, a ≠ .call c) (hs : Sessions.Step y i a y') (j : ι) :
    (y'.session j).call = (y.session j).call := by
  have hset : ∀ {σ : Server K}, σ.call = (y.session i).call →
      ((y.set i σ).session j).call = (y.session j).call := by
    intro σ hσ
    by_cases hj : j = i
    · subst hj
      rw [System.set_session_self, hσ]
    · rw [System.set_session_of_ne y hj]
  cases hs with
  | call c hp => exact absurd rfl (ha c)
  | snapshot hp hsn => exact hset rfl
  | exec env hp => exact hset rfl
  | fail env hp => exact hset rfl
  | rollback hp => exact hset rfl
  | commit hp =>
    by_cases hj : j = i
    · subst hj
      simp only [Function.update_self]
      rfl
    · simp only [Function.update_of_ne hj]

/-- An answer stays until the next call. -/
theorem ret_step (ha : ∀ c, a ≠ .call c) (hs : Sessions.Step y i a y') {j : ι}
    {x : Except SchedulerError (Answer K)} (hx : (y.session j).prog = .ret x) :
    (y'.session j).prog = .ret x := by
  by_cases hj : j = i
  · subst hj
    cases hs with
    | call c hp => exact absurd rfl (ha c)
    | rollback hp =>
      rw [System.set_session_self]
      exact hp.symm.trans hx
    | snapshot hp => exact absurd (hp.symm.trans hx) (by simp)
    | exec env hp => exact absurd (hp.symm.trans hx) (by simp)
    | fail env hp => exact absurd (hp.symm.trans hx) (by simp)
    | commit hp => exact absurd (hp.symm.trans hx) (by simp)
  · cases hs with
    | commit hp => exact (congrArg _ (Function.update_of_ne hj ..)).trans hx
    | _ => exact (congrArg _ (System.set_session_of_ne y hj _)).trans hx

theorem call_abort (y : Sessions K ι) (i : ι) (e : DbError) (j : ι) :
    ((y.abort i e).session j).call = (y.session j).call := by
  unfold Sessions.abort
  by_cases hj : j = i
  · subst hj
    rw [System.set_session_self]
    rfl
  · rw [System.set_session_of_ne y hj]

/-- A session that starts a call serves it. -/
theorem call_start {c : Call K} (hs : Sessions.Step y i (.call c) y') :
    y'.session i = .start c (program K c) ∧ ∀ j, j ≠ i → y'.session j = y.session j := by
  cases hs with
  | call c hp => exact ⟨System.set_session_self .., fun j hj => System.set_session_of_ne y hj _⟩

end Sessions

/-! ## Waiting -/

/-- Client `k` of the worker is a task that has ended. -/
def Worker.Quit (w : Worker) : Option ℕ → Prop
  | none => False
  | some n => ∃ d, w.dispatches[n]? = some d ∧ d.ended = true

/-- The event is a call of client `k`, or its answer. -/
def WorkerEvent.Concerns (k : Option ℕ) : WorkerEvent K → Prop
  | .request | .reply _ => k = none
  | .task n .request | .task n (.reply ..) => k = some n
  | _ => False

section Waiting

variable {sch : Scheduler F} {w w' : Worker} {ev : WorkerEvent K} {k : Option ℕ} {call : Call K}

theorem WorkerEvent.Internal.not_concerns (h : ev.Internal) : ¬ ev.Concerns k := by
  unfold WorkerEvent.Internal at h
  unfold WorkerEvent.Concerns
  split at h
  · exact h.elim
  · exact h.elim
  · exact h.elim
  · exact h.elim
  · exact id

theorem concerns_request {c : Client ω} : (c.request : WorkerEvent K).Concerns k → k = c.task := by
  unfold Client.request
  rcases hc : c.task with _ | n <;> exact id

theorem concerns_reply {c : Client ω} {x : Except SchedulerError (Answer K)} {now : DateTime} :
    (c.reply x now).Concerns k → k = c.task := by
  unfold Client.reply
  rcases hc : c.task with _ | n <;> exact id

/-- An event of another client leaves a client waiting, unless its task is aborted. -/
theorem Worker.Step.awaits (h : w.Sound sch) (hs : w.Step sch ev w') (hk : ¬ ev.Concerns k)
    (ha : w.awaits sch k = some call) : w'.awaits sch k = some call ∨ w'.Quit k := by
  cases k with
  | none =>
    have hnone : ∀ {p}, w.phase = p → Worker.outstanding sch { w with phase := p } = some call := by
      rintro p rfl
      exact ha
    cases hs with
    | task => exact Or.inl ha
    | answered | refused | claimed | failed => exact absurd rfl hk
    | woken hp | drained hp | stopped hp => exact absurd (hnone hp) (by simp [Worker.outstanding])
    | missed hp => rcases hp with hp | hp <;> exact absurd (hnone hp) (by simp [Worker.outstanding])
    | joined hp =>
      rcases hp with ⟨e, hp⟩ | hp | hp <;> exact absurd (hnone hp) (by simp [Worker.outstanding])
    | _ => rename_i hp; exact absurd (hnone hp) (by simp [Worker.outstanding])
  | some n =>
    obtain ⟨d, hd, hd'⟩ := Option.bind_eq_some_iff.mp ha
    rcases hs.dispatches h with
      ⟨hsame, -, -⟩ | ⟨c, -, -, hnew⟩ | ⟨m, d₀, ev', d', rfl, hm, hn, hset, -⟩
    · exact Or.inl (by rw [Worker.awaits, hsame]; exact ha)
    · have hlt := (List.getElem?_eq_some_iff.mp hd).1
      exact Or.inl (by rw [Worker.awaits, hnew, List.getElem?_append_left hlt]; exact ha)
    · by_cases hmn : m = n
      · subst hmn
        obtain rfl := Option.some.inj (hd.symm.trans hm)
        have hlt := (List.getElem?_eq_some_iff.mp hd).1
        right
        refine ⟨d', by rw [hset, List.getElem?_set_self hlt], ?_⟩
        unfold Dispatch.outstanding at hd'
        cases Dispatch.step_of_next hn with
        | aborted => rfl
        | missed hp | returned hp | panicked hp | unrecorded hp => simp [hp] at hd'
        | _ => exact absurd rfl hk
      · exact Or.inl (by rw [Worker.awaits, hset, List.getElem?_set_ne hmn]; exact ha)

theorem Worker.Step.quit (h : w.Sound sch) (hs : w.Step sch ev w') (hq : w.Quit k) : w'.Quit k := by
  cases k with
  | none => exact hq
  | some n =>
    obtain ⟨d, hd, hended⟩ := hq
    rcases hs.dispatches h with
      ⟨hsame, -, -⟩ | ⟨c, -, -, hnew⟩ | ⟨m, d₀, ev', d', rfl, hm, hn, hset, -⟩
    · exact ⟨d, by rw [hsame]; exact hd, hended⟩
    · have hlt := (List.getElem?_eq_some_iff.mp hd).1
      exact ⟨d, by rw [hnew, List.getElem?_append_left hlt]; exact hd, hended⟩
    · by_cases hmn : m = n
      · subst hmn
        obtain rfl := Option.some.inj (hd.symm.trans hm)
        have hlive := (Dispatch.step_of_next hn).ended.1
        exact absurd (hended.symm.trans hlive) (by simp)
      · exact ⟨d, by rw [hset, List.getElem?_set_ne hmn]; exact hd, hended⟩

/-- A client that makes a call does not wait for another one. -/
theorem not_awaits_of_request {c : Client ω}
    (hn : w.next sch (c.request : WorkerEvent K) = some w') :
    w.awaits (K := K) sch c.task = none ∧ ¬ w.Quit c.task := by
  unfold Client.request at hn
  rcases hc : c.task with _ | n <;> rw [hc] at hn
  · refine ⟨?_, id⟩
    cases Worker.step_of_next hn with
    | materialize hp | recover hp | claim hp => simp [Worker.awaits, Worker.outstanding, hp]
  · cases Worker.step_of_next hn with
    | @task _ t _ d hev ht hd =>
      have hdispatch : w.dispatches[n]? = some t.dispatch := by simp [Worker.dispatches, ht]
      refine ⟨?_, fun hquit => ?_⟩
      · rw [Worker.awaits, hdispatch]
        cases Dispatch.step_of_next hd with
        | renew hp | record hp => simp [Dispatch.outstanding, hp]
      · obtain ⟨d', hd', hended⟩ := hquit
        obtain rfl := Option.some.inj (hdispatch.symm.trans hd')
        have hlive := (Dispatch.step_of_next hd).ended.1
        exact absurd (hended.symm.trans hlive) (by simp)

end Waiting

/-! ## The invariant of a fleet -/

namespace Fleet

variable [DecidableEq ι] [DecidableEq ω]

/-- The store and the workers keep their invariants, and a session is lent to one client, which
waits for the call that the session serves or has been aborted. -/
structure Sound (sch : ω → Scheduler F) (f : Fleet K ι ω) : Prop where
  sessions : Sessions.Sound f.sessions
  promised : ∀ i, (f.sessions.session i).prog.Yields (Promised (f.sessions.session i).call)
  workers : ∀ v, (f.worker v).Sound (sch v)
  waits : ∀ i c, f.lent i = some c →
    (f.worker c.worker).awaits (sch c.worker) c.task = some (f.sessions.session i).call ∨
      (f.worker c.worker).Quit c.task
  once : ∀ i j c, f.lent i = some c → f.lent j = some c → i = j

/-- The event of a worker in a step. -/
def Label.event : Label K ι ω → Option (ω × WorkerEvent K)
  | .worker v ev => some (v, ev)
  | .request c _ => some (c.worker, c.request)
  | .reply c _ x now => some (c.worker, c.reply x now)
  | .broken c _ e now => some (c.worker, c.reply (.error (.database e)) now)
  | _ => none

variable {sch : ω → Scheduler F} {G : Label K ι ω → Prop} {f f' : Fleet K ι ω} {l : Label K ι ω}
  {ls : List (Label K ι ω)}

omit [DecidableEq ι] [DecidableEq ω] in
/-- What a worker is answered is what the session has promised. -/
theorem Sound.answers (h : Sound sch f) {c : Client ω} {i : ι} (hlent : f.lent i = some c)
    {x : Except SchedulerError (Answer K)} (hp : (f.sessions.session i).prog = .ret x)
    (now : DateTime) : (f.worker c.worker).Answers (sch c.worker) (c.reply x now) := by
  unfold Client.reply
  rcases hc : c.task with _ | n
  · have hgood := h.sessions.good i
    have hpromised := h.promised i
    rw [hp] at hgood hpromised
    rcases x with e | a
    · exact fun detail he => hgood detail (by rw [he])
    · cases a with
      | claimed runs =>
        intro limit hphase
        have hwaits := h.waits i c hlent
        rw [hc] at hwaits
        have hcall := hwaits.resolve_right id
        have houtstanding : (f.worker c.worker).outstanding (sch c.worker) =
            some (Call.claimBatch (K := K) (sch c.worker).config.workerId
              (sch c.worker).registry.names limit) := by
          simp [Worker.outstanding, hphase]
        have hserves := Option.some.inj (hcall.symm.trans houtstanding)
        exact hpromised _ _ _ runs hserves rfl
      | _ => trivial
  · trivial

/-- A step is one of one worker, within what the store promises, or leaves the workers alone. -/
theorem Step.event (h : Sound sch f) (hs : f.Step sch l f') :
    l.event = none ∧ f'.worker = f.worker ∨ ∃ v ev w, l.event = some (v, ev) ∧
      (f.worker v).Answers (sch v) ev ∧ (f.worker v).next (sch v) ev = some w ∧
      f'.worker = Function.update f.worker v w := by
  cases hs with
  | database | call | released | abandoned => exact Or.inl ⟨rfl, rfl⟩
  | @worker v ev w hev hn =>
    refine Or.inr ⟨v, ev, w, rfl, ?_, hn, rfl⟩
    cases ev with
    | reply x => exact hev.elim
    | _ => trivial
  | @request c i w call y hfree hn =>
    refine Or.inr ⟨c.worker, c.request, w, rfl, ?_, hn, rfl⟩
    unfold Client.request
    rcases c.task with _ | n <;> trivial
  | @reply c i x now w hlent hp hn =>
    exact Or.inr ⟨c.worker, c.reply x now, w, rfl, h.answers hlent hp now, hn, rfl⟩
  | @broken c i e now w hlent hn =>
    refine Or.inr ⟨c.worker, _, w, rfl, ?_, hn, rfl⟩
    unfold Client.reply
    rcases c.task with _ | n
    · exact fun detail he => absurd he (by simp)
    · trivial

omit [DecidableEq ι] in
/-- A step of a worker leaves its other clients waiting. -/
theorem Sound.waits_update (h : Sound sch f) {v : ω} {ev : WorkerEvent K} {w : Worker}
    (hn : (f.worker v).next (sch v) ev = some w) {c : Client ω}
    (hc : c.worker = v → ¬ ev.Concerns c.task) {call : Call K}
    (hwaits : (f.worker c.worker).awaits (sch c.worker) c.task = some call ∨
      (f.worker c.worker).Quit c.task) :
    (Function.update f.worker v w c.worker).awaits (sch c.worker) c.task = some call ∨
      (Function.update f.worker v w c.worker).Quit c.task := by
  by_cases hv : c.worker = v
  · subst hv
    rw [Function.update_self]
    have hs := Worker.step_of_next hn
    rcases hwaits with ha | hq
    · exact hs.awaits (h.workers c.worker) (hc rfl) ha
    · exact Or.inr (hs.quit (h.workers c.worker) hq)
  · rwa [Function.update_of_ne hv]

omit [DecidableEq ω] in
theorem lent_lend {i j : ι} {c c' : Option (Client ω)} (h : (f.lend i c).lent j = c') :
    j = i ∧ c' = c ∨ j ≠ i ∧ f.lent j = c' := by
  by_cases hj : j = i
  · subst hj
    exact Or.inl ⟨rfl, by rw [← h]; exact Function.update_self ..⟩
  · exact Or.inr ⟨hj, by rw [← h]; exact (Function.update_of_ne hj ..).symm⟩

/-- **Every step of a fleet keeps its invariant.** -/
theorem Step.sound (h : Sound sch f) (hs : f.Step sch l f') : Sound sch f' := by
  have hworkers : ∀ v, (f'.worker v).Sound (sch v) := by
    intro v
    rcases hs.event h with ⟨-, hw⟩ | ⟨u, ev, w, -, hG, hn, hw⟩ <;> rw [hw]
    · exact h.workers v
    · by_cases hv : v = u
      · subst hv
        rw [Function.update_self]
        exact (h.workers v).step hG (Worker.step_of_next hn)
      · rw [Function.update_of_ne hv]
        exact h.workers v
  have hyields : ∀ {i a y}, Sessions.Step f.sessions i a y →
      ∀ i, (y.session i).prog.Yields (Promised (y.session i).call) := fun hs =>
    hs.yields program_promised h.promised
  -- a client that is answered or does not wait gives its session back
  have hback : ∀ {g : Fleet K ι ω} {i : ι}, g.sessions = f.sessions → g.lent = f.lent →
      (∀ v, (g.worker v).Sound (sch v)) →
      (∀ j c, j ≠ i → f.lent j = some c →
        (g.worker c.worker).awaits (sch c.worker) c.task = some (f.sessions.session j).call ∨
          (g.worker c.worker).Quit c.task) → Sound sch (g.lend i none) := by
    intro g i hsessions hlent hw hwaits
    have hone : ∀ {j c}, (g.lend i none).lent j = some c → j ≠ i ∧ f.lent j = some c := by
      intro j c hj
      rcases lent_lend hj with ⟨-, hj⟩ | ⟨hne, hj⟩
      · exact absurd hj (by simp)
      · exact ⟨hne, hlent ▸ hj⟩
    refine ⟨?_, ?_, hw, fun j c hj => ?_, fun j k c hj hk => ?_⟩
    · show Sessions.Sound g.sessions
      rw [hsessions]
      exact h.sessions
    · show ∀ i, (g.sessions.session i).prog.Yields (Promised (g.sessions.session i).call)
      rw [hsessions]
      exact h.promised
    · obtain ⟨hne, hj⟩ := hone hj
      show (g.worker c.worker).awaits (sch c.worker) c.task = some (g.sessions.session j).call ∨ _
      rw [hsessions]
      exact hwaits j c hne hj
    · exact h.once j k c (hone hj).2 (hone hk).2
  cases hs with
  | database ha hs =>
    refine ⟨sound_step h.sessions hs, hyields hs, h.workers, fun j c hj => ?_, h.once⟩
    show (f.worker c.worker).awaits (sch c.worker) c.task = _ ∨ _
    rw [call_step ha hs]
    exact h.waits j c hj
  | @call i call y hfree hs =>
    refine ⟨sound_step h.sessions hs, hyields hs, h.workers, fun j c hj => ?_, h.once⟩
    have hne : j ≠ i := by
      rintro rfl
      exact absurd (hfree.symm.trans hj) (by simp)
    show (f.worker c.worker).awaits (sch c.worker) c.task = _ ∨ _
    rw [(call_start hs).2 j hne]
    exact h.waits j c hj
  | worker hev hn =>
    exact ⟨h.sessions, h.promised, hworkers, fun j c hj =>
      h.waits_update hn (fun _ => hev.not_concerns) (h.waits j c hj), h.once⟩
  | @request c i w call y hfree hn hcall hs =>
    obtain ⟨hidle, hquit⟩ := not_awaits_of_request hn
    -- the client holds no other session
    have hother : ∀ j c', f.lent j = some c' → c' ≠ c := by
      rintro j c' hj rfl
      rcases h.waits j c' hj with ha | hq
      · exact absurd (hidle.symm.trans ha) (by simp)
      · exact hquit hq
    refine ⟨sound_step h.sessions hs, hyields hs, hworkers, fun j c' hj => ?_,
      fun j k c' hj hk => ?_⟩
    · show (Function.update f.worker c.worker w c'.worker).awaits (sch c'.worker) c'.task =
        some (y.session j).call ∨ (Function.update f.worker c.worker w c'.worker).Quit c'.task
      rcases lent_lend hj with ⟨rfl, hc⟩ | ⟨hne, hj⟩
      · obtain rfl := Option.some.inj hc
        rw [Function.update_self, (call_start hs).1]
        exact Or.inl hcall
      · rw [(call_start hs).2 j hne]
        refine h.waits_update hn (fun hv hk => hother j c' hj ?_) (h.waits j c' hj)
        rcases c' with ⟨v', k'⟩
        obtain rfl : v' = c.worker := hv
        obtain rfl : k' = c.task := concerns_request hk
        rfl
    · rcases lent_lend hj with ⟨hji, hc⟩ | ⟨-, hj⟩ <;> rcases lent_lend hk with ⟨hki, hc'⟩ | ⟨-, hk⟩
      · exact hji.trans hki.symm
      · exact absurd (Option.some.inj hc) (hother k c' hk)
      · exact absurd (Option.some.inj hc') (hother j c' hj)
      · exact h.once j k c' hj hk
  | @reply c i x now w hlent hp hn =>
    refine hback rfl rfl hworkers fun j c' hne hj => ?_
    refine h.waits_update hn (fun hv hk => hne (h.once j i c' hj ?_)) (h.waits j c' hj)
    rcases c' with ⟨v', k'⟩
    obtain rfl : v' = c.worker := hv
    obtain rfl : k' = c.task := concerns_reply hk
    exact hlent
  | @broken c i e now w hlent hn =>
    refine hback rfl rfl hworkers fun j c' hne hj => ?_
    refine h.waits_update hn (fun hv hk => hne (h.once j i c' hj ?_)) (h.waits j c' hj)
    rcases c' with ⟨v', k'⟩
    obtain rfl : v' = c.worker := hv
    obtain rfl : k' = c.task := concerns_reply hk
    exact hlent
  | released hlent hnone => exact hback rfl rfl h.workers fun j c _ hj => h.waits j c hj
  | @abandoned i e hfree =>
    refine ⟨sound_abort h.sessions i e, fun j => ?_, h.workers, fun j c hj => ?_, h.once⟩
    · show ((f.sessions.abort i e).session j).prog.Yields _
      unfold Sessions.abort
      by_cases hj : j = i
      · subst hj
        rw [System.set_session_self]
        exact fun _ _ _ _ _ hx => absurd hx (by simp)
      · rw [System.set_session_of_ne _ hj]
        exact h.promised j
    · show (f.worker c.worker).awaits (sch c.worker) c.task = _ ∨ _
      rw [call_abort]
      exact h.waits j c hj

omit [DecidableEq ι] [DecidableEq ω] in
theorem Initial.sound (h : Initial sch f) : Sound sch f where
  sessions := by
    rw [h.sessions]
    exact sound_initial
  promised i := by
    rw [h.sessions]
    exact fun _ _ _ _ hc => absurd hc (by simp [Sessions.initial, Session.start])
  workers v := Worker.sound_start (h.worker v)
  waits i c hi := absurd ((h.lent i).symm.trans hi) (by simp)
  once i j c hi := absurd ((h.lent i).symm.trans hi) (by simp)

/-- A statement about the labels so far and the fleet they lead to. -/
theorem Reached.history {P : List (Label K ι ω) → Fleet K ι ω → Prop} (h : Reached sch G ls f)
    (hinit : ∀ f₀, Initial sch f₀ → P [] f₀)
    (hstep : ∀ ls f l f', Reached sch G ls f → P ls f → G l → f.Step sch l f' → P (ls ++ [l]) f') :
    P ls f := by
  obtain ⟨f₀, h₀, hr⟩ := h
  induction hr with
  | nil => exact hinit f₀ h₀
  | snoc hr hG hs ih => exact hstep _ _ _ _ ⟨f₀, h₀, hr⟩ ih hG hs

theorem Reached.mono {G' : Label K ι ω → Prop} (h : Reached sch G ls f) (hG : ∀ l, G l → G' l) :
    Reached sch G' ls f :=
  h.history (P := Reached sch G') (fun f₀ h₀ => ⟨f₀, h₀, .nil⟩) fun _ _ l _ _ ih hl hs => by
    obtain ⟨f₀, h₀, hr⟩ := ih
    exact ⟨f₀, h₀, hr.snoc (hG l hl) hs⟩

theorem sound_reached (h : Reached sch G ls f) : Sound sch f :=
  h.history (P := fun _ f => Sound sch f) (fun _ h₀ => h₀.sound)
    fun _ _ _ _ _ ih _ hs => hs.sound ih

/-! ## Every worker on its own -/

/-- The events of worker `v`. -/
def workerEvents (v : ω) (ls : List (Label K ι ω)) : List (WorkerEvent K) :=
  ls.filterMap fun l => l.event.bind fun e => if e.1 = v then some e.2 else none

theorem reached_worker (h : Reached sch G ls f) :
    ∀ v, (f.worker v).Reached (sch v) (workerEvents v ls) := by
  refine h.history (P := fun ls f => ∀ v, (f.worker v).Reached (sch v) (workerEvents v ls))
    (fun f₀ h₀ v => ⟨f₀.worker v, h₀.worker v, .nil⟩) fun ls f l f' hr ih _ hs v => ?_
  have hquiet : (l.event.bind fun e => if e.1 = v then some e.2 else none) = none →
      workerEvents v (ls ++ [l]) = workerEvents v ls := fun hnone => by
    simp [workerEvents, List.filterMap_append, hnone]
  rcases hs.event (sound_reached hr) with ⟨hnone, hw⟩ | ⟨u, ev, w, hev, hG, hn, hw⟩
  · rw [hquiet (by simp [hnone]), hw]
    exact ih v
  · by_cases hv : u = v
    · subst hv
      have hone : workerEvents u (ls ++ [l]) = workerEvents u ls ++ [ev] := by
        simp [workerEvents, List.filterMap_append, hev]
      rw [hone, hw, Function.update_self]
      obtain ⟨w₀, h₀, hrun⟩ := ih u
      exact ⟨w₀, h₀, Histories.Run.snoc hrun hG hn⟩
    · rw [hquiet (by simp [hev, hv]), hw, Function.update_of_ne (Ne.symm hv)]
      exact ih v

/-! ## Playing a fleet -/

section Playing

variable (K ι ω) in
/-- A move of a script. The answer that a client gets is the one that its session has. -/
inductive Move
  | database (i : ι) (a : Act (Call K) Env)
  | call (i : ι) (c : Call K)
  | worker (v : ω) (ev : WorkerEvent K)
  | request (c : Client ω) (i : ι)
  | reply (i : ι) (now : DateTime)

variable [Fintype ι]

/-- The fleet after a move, if it can be made. Programs beside the workers record no results and
delete no runs. -/
def move (sch : ω → Scheduler F) (f : Fleet K ι ω) : Move K ι ω → Option (Fleet K ι ω)
  | .database _ (.call _) => none
  | .database i a => (f.sessions.next db (program K) i a).map fun y => { f with sessions := y }
  | .call i c =>
    match f.lent i, c.finalizes, c.prunes with
    | none, false, false =>
      (f.sessions.next db (program K) i (.call c)).map fun y => { f with sessions := y }
    | _, _, _ => none
  | .worker v ev =>
    if ev.Internal then ((f.worker v).next (sch v) ev).map (f.setWorker v) else none
  | .request c i =>
    match f.lent i with
    | none =>
      ((f.worker c.worker).next (sch c.worker) (c.request : WorkerEvent K)).bind fun w =>
        (w.awaits (sch c.worker) c.task).bind fun call =>
          (f.sessions.next db (program K) i (.call call)).map fun y =>
            { f.setWorker c.worker w with sessions := y }.lend i (some c)
    | some _ => none
  | .reply i now =>
    match f.lent i, (f.sessions.session i).prog with
    | some c, .ret x =>
      ((f.worker c.worker).next (sch c.worker) (c.reply x now)).map fun w =>
        (f.setWorker c.worker w).lend i none
    | _, _ => none

def play (sch : ω → Scheduler F) (f : Fleet K ι ω) : List (Move K ι ω) → Option (Fleet K ι ω)
  | [] => some f
  | m :: ms => (f.move sch m).bind fun f' => f'.play sch ms

theorem move_step {m : Move K ι ω} (h : f.move sch m = some f') :
    ∃ l, (Honest l ∧ Keeping l) ∧ f.Step sch l f' := by
  have hsession : ∀ {i a y}, f.sessions.next db (program K) i a = some y →
      Sessions.Step f.sessions i a y := fun hy => System.next_sound (fun _ => trivial) hy
  cases m with
  | database i a =>
    cases a with
    | call c => exact absurd h (by simp [move])
    | _ =>
      obtain ⟨y, hy, rfl⟩ := Option.map_eq_some_iff.mp h
      exact ⟨.database i _, ⟨trivial, trivial⟩, .database (by simp) (hsession hy)⟩
  | call i c =>
    rw [move] at h
    split at h
    · next hfree hfinal hprunes =>
      obtain ⟨y, hy, rfl⟩ := Option.map_eq_some_iff.mp h
      exact ⟨.call i c, ⟨hfinal, hprunes⟩, .call hfree (hsession hy)⟩
    · exact absurd h (by simp)
  | worker v ev =>
    rw [move] at h
    split_ifs at h with hev
    obtain ⟨w, hw, rfl⟩ := Option.map_eq_some_iff.mp h
    exact ⟨.worker v ev, ⟨trivial, trivial⟩, .worker hev hw⟩
  | request c i =>
    rw [move] at h
    split at h
    · next hfree =>
      obtain ⟨w, hw, h⟩ := Option.bind_eq_some_iff.mp h
      obtain ⟨call, hcall, h⟩ := Option.bind_eq_some_iff.mp h
      obtain ⟨y, hy, rfl⟩ := Option.map_eq_some_iff.mp h
      exact ⟨.request c i, ⟨trivial, trivial⟩, .request hfree hw hcall (hsession hy)⟩
    · exact absurd h (by simp)
  | reply i now =>
    rw [move] at h
    split at h
    · next c x hlent hp =>
      obtain ⟨w, hw, rfl⟩ := Option.map_eq_some_iff.mp h
      exact ⟨.reply c i x now, ⟨trivial, trivial⟩, .reply hlent hp hw⟩
    · exact absurd h (by simp)

theorem play_run {ms : List (Move K ι ω)} : ∀ {f : Fleet K ι ω}, f.play sch ms = some f' →
    ∀ {f₀ ls}, Run sch (fun l => Honest l ∧ Keeping l) f₀ ls f →
      ∃ ls', Run sch (fun l => Honest l ∧ Keeping l) f₀ ls' f' := by
  induction ms with
  | nil =>
    intro f h f₀ ls hr
    obtain rfl := Option.some.inj h
    exact ⟨ls, hr⟩
  | cons m ms ih =>
    intro f h f₀ ls hr
    obtain ⟨f₁, hm, h⟩ := Option.bind_eq_some_iff.mp h
    obtain ⟨l, hl, hs⟩ := move_step hm
    exact ih h (.snoc hr hl hs)

end Playing

/-- **The store keeps the promises that its workers rely on.** In a fleet of any number of workers
on one database, whatever else calls the library and whichever connections break, every worker
accounts for its permits, dispatches every run it is handed, and fails no check of its own. -/
theorem workers_of_fleet (h : Reached sch G ls f) (v : ω) :
    (f.worker v).Reached (sch v) (workerEvents v ls) ∧
      (f.worker v).permits + (f.worker v).inFlight = (sch v).config.maxConcurrency.value ∧
      (workerEvents v ls).flatMap WorkerEvent.received =
        (f.worker v).dispatches.map Dispatch.claimed ++ (f.worker v).pending ∧
      ∀ detail, (f.worker v).health.lastError ≠ some (.store (.invariant detail)) := by
  have hr := reached_worker h v
  have hs := Worker.sound_reached hr
  exact ⟨hr, hs.capacity, Worker.received_reached hr, hs.health⟩

/-! ## A day of a fleet -/

/-- Two workers that handle `mail`, at the start of their loops. -/
def mailFleet : Fleet .everySecond Bool Bool where
  sessions := Sessions.initial .everySecond Bool
  worker _ := ⟨2, [], .selecting, 0, {}⟩
  lent _ := none

theorem mailFleet_initial : Initial (fun _ => Worker.mailScheduler) mailFleet :=
  ⟨rfl, fun _ => rfl, fun _ => rfl⟩

/-- A client makes a call, whose statements session `true` executes in one transaction, and is
answered. -/
def exchange (c : Client Bool) (ts : List Timestamp) : List (Move .everySecond Bool Bool) :=
  .request c true ::
    ts.flatMap (fun t => [.database true .snapshot, .database true (.exec (.tick t))])
    ++ [.database true .commit, .reply true ⟨1234567, by decide⟩]

/-- A run is enqueued; worker `true` claims it and records what its handler returns. -/
def mailDay (options : EnqueueOptions) (result : HandlerResult) :
    List (Move .everySecond Bool Bool) :=
  [.call false (mail options), .database false .snapshot, .database false (.exec (.tick 1)),
    .database false .commit, .database false .snapshot, .database false (.exec (.tick 2)),
    .database false .commit, .worker true .pollTick] ++
  exchange ⟨true, none⟩ [3] ++ .worker true .noneJoined :: exchange ⟨true, none⟩ [4] ++
  [.worker true .dispatched, .worker true .dispatched, .worker true (.task 0 (.returned result))] ++
  exchange ⟨true, some 0⟩ [5, 6]

/-- The run is completed. -/
theorem mailDay_reached :
    ∃ (ls : List (Label .everySecond Bool Bool)) (f : Fleet .everySecond Bool Bool),
      Reached (fun _ => Worker.mailScheduler) (fun l => Honest l ∧ Keeping l) ls f ∧
      f.sessions.committed.runs.map Run.state = [.completed] ∧
      (f.worker true).tasks.length = 1 := by
  have h : (mailFleet.play (fun _ => Worker.mailScheduler)
      (mailDay .standard (.ok ()))).map (fun f =>
        (f.sessions.committed.runs.map Run.state, (f.worker true).tasks.length)) =
      some ([.completed], 1) := by decide +kernel
  obtain ⟨f, hf, he⟩ := Option.map_eq_some_iff.mp h
  obtain ⟨hruns, htasks⟩ := Prod.mk.inj he
  obtain ⟨ls, hr⟩ := play_run hf .nil
  exact ⟨ls, f, ⟨mailFleet, mailFleet_initial, hr⟩, hruns, htasks⟩

theorem workers_of_fleet_mail :
    ∃ (ls : List (Label .everySecond Bool Bool)) (f : Fleet .everySecond Bool Bool),
      f.sessions.committed.runs.map Run.state = [.completed] ∧ ∀ v,
        (f.worker v).Reached Worker.mailScheduler (workerEvents v ls) ∧
        (f.worker v).permits + (f.worker v).inFlight =
          Worker.mailScheduler.config.maxConcurrency.value ∧
        (workerEvents v ls).flatMap WorkerEvent.received =
          (f.worker v).dispatches.map Dispatch.claimed ++ (f.worker v).pending ∧
        ∀ detail, (f.worker v).health.lastError ≠ some (.store (.invariant detail)) := by
  obtain ⟨ls, f, h, hruns, -⟩ := mailDay_reached
  exact ⟨ls, f, hruns, workers_of_fleet h⟩

end Fleet

end PgTaskScheduler
