import PgTaskScheduler.Worker.Granting

/-!
# One task for each attempt

A claim begins the next attempt of its run, and attempt counts do not fall as long as no run is
deleted. An answer is handed out once. So no two tasks of a fleet work on the same attempt, on
whichever workers they are.
-/

namespace PgTaskScheduler

open Tables ReadCommitted

variable {K : Croner} {F ι ω : Type}

/-! ## Attempts that have begun -/

/-- The attempt that a task works on. -/
def ClaimedRun.key (c : ClaimedRun) : RunId × ℕ := (c.runId, c.attempt)

/-- The attempt has begun in the store. -/
def ClaimedRun.Past (c : ClaimedRun) (s : Store) : Prop :=
  ∃ r, lookup Run.id c.runId s.runs = some r ∧ (c.attempt : ℤ) ≤ r.attemptCount

theorem ClaimedRun.Past.of_key {c c' : ClaimedRun} {s : Store} (h : c.Past s)
    (hk : c'.key = c.key) : c'.Past s := by
  obtain ⟨r, hr, hle⟩ := h
  obtain ⟨hid, hattempt⟩ := Prod.mk.inj hk
  exact ⟨r, hid ▸ hr, hattempt ▸ hle⟩

theorem ClaimedRun.Begun.past {c : ClaimedRun} {worker : WorkerId} {s : Store}
    (h : c.Begun worker s) (hs : Keyed Run.id s.runs) : c.Past s := by
  obtain ⟨r, hr, hreads, -⟩ := h.run
  refine ⟨r, ?_, hreads.attempt.le⟩
  rw [hreads.runId]
  exact lookup_of_mem hs hr

theorem Change.run_stays {Ok : Env → Prop} {c : Call K} {v v' : RunView} (h : Change Ok c v v')
    (hkeeps : c.prunes = false) {r : Run} (hr : v.run = some r) : ∃ r', v'.run = some r' := by
  cases h with
  | same => exact ⟨r, hr⟩
  | pruned => exact absurd hkeeps (by simp [Call.prunes])
  | _ => exact ⟨_, rfl⟩

section Sessions

variable [DecidableEq ι] {y y' : Sessions K ι} {i j : ι} {a : Act (Call K) Env} {c : ClaimedRun}

theorem ClaimedRun.Past.step (hpast : c.Past y.committed) (h : Sessions.Sound y)
    (hs : Sessions.Step y i a y') (hkeeps : (y.session i).call.prunes = false) :
    c.Past y'.committed := by
  obtain ⟨r, hr, hle⟩ := hpast
  have hchange := change_step h hs c.runId
  obtain ⟨r', hr'⟩ := hchange.run_stays hkeeps hr
  refine ⟨r', hr', ?_⟩
  rcases hchange.count hr hr' with ⟨heq, -⟩ | ⟨-, heq⟩ <;> omega

end Sessions

namespace Fleet

variable {sch : ω → Scheduler F} {G : Label K ι ω → Prop} {f f' : Fleet K ι ω} {l : Label K ι ω}
  {ls : List (Label K ι ω)}

/-- The claimed runs that session `i` has answered and its client has not seen. -/
def unseen (f : Fleet K ι ω) (i : ι) : List ClaimedRun :=
  match f.lent i, (f.sessions.session i).call, (f.sessions.session i).prog with
  | some _, .claimBatch .., .ret (.ok (.claimed runs)) => runs
  | _, _, _ => []

/-- What an event hands to a worker. -/
def Label.handed (l : Label K ι ω) : List (ω × ClaimedRun) :=
  match l.event with
  | some (v, ev) => ev.received.map (Prod.mk v)
  | none => []

/-- The runs that were handed to workers. -/
def handed (ls : List (Label K ι ω)) : List (ω × ClaimedRun) := ls.flatMap Label.handed

/-- The attempts of what was answered and of what was handed out. -/
structure Apart (ls : List (Label K ι ω)) (f : Fleet K ι ω) : Prop where
  keeps : ∀ i, (f.sessions.session i).call.prunes = false
  handedPast : ∀ p ∈ handed ls, p.2.Past f.sessions.committed
  handedOnce : ((handed ls).map fun p => p.2.key).Nodup
  unseenPast : ∀ i, ∀ c ∈ f.unseen i, c.Past f.sessions.committed
  unseenOnce : ∀ i, ((f.unseen i).map ClaimedRun.key).Nodup
  unseenHanded : ∀ i, ∀ c ∈ f.unseen i, ∀ p ∈ handed ls, c.key ≠ p.2.key
  unseenApart : ∀ i j, i ≠ j → ∀ c ∈ f.unseen i, ∀ c' ∈ f.unseen j, c.key ≠ c'.key

theorem mem_unseen {i : ι} {c : ClaimedRun} (h : c ∈ f.unseen i) :
    ∃ worker names limit runs, (f.unseen i) = runs ∧ (∃ c', f.lent i = some c') ∧
      (f.sessions.session i).call = .claimBatch worker names limit ∧
      (f.sessions.session i).prog = .ret (.ok (.claimed runs)) := by
  unfold unseen at h ⊢
  split at h
  · next hlent hcall hp => exact ⟨_, _, _, _, rfl, ⟨_, hlent⟩, hcall, hp⟩
  · exact absurd h List.not_mem_nil

theorem unseen_eq {i : ι} {c : Client ω} {worker : WorkerId} {names : List String}
    {limit : NonZeroUsize} {runs : List ClaimedRun} (hlent : f.lent i = some c)
    (hc : (f.sessions.session i).call = .claimBatch worker names limit)
    (hp : (f.sessions.session i).prog = .ret (.ok (.claimed runs))) : f.unseen i = runs := by
  simp [unseen, hlent, hc, hp]

/-- Sessions that answer nothing new, and nothing is handed out. -/
theorem Apart.fewer (h : Apart ls f) (hkeeps : ∀ i, (f'.sessions.session i).call.prunes = false)
    (hpast : ∀ c : ClaimedRun, c.Past f.sessions.committed → c.Past f'.sessions.committed)
    (hfewer : ∀ i, f'.unseen i = f.unseen i ∨ f'.unseen i = []) (hl : l.handed = []) :
    Apart (ls ++ [l]) f' := by
  have hhanded : handed (ls ++ [l]) = handed ls := by simp [handed, hl]
  have hmem : ∀ {i c}, c ∈ f'.unseen i → c ∈ f.unseen i := by
    intro i c hc
    rcases hfewer i with he | he
    · rwa [he] at hc
    · rw [he] at hc
      exact absurd hc List.not_mem_nil
  refine ⟨hkeeps, ?_, ?_, fun i c hc => hpast c (h.unseenPast i c (hmem hc)), fun i => ?_,
    fun i c hc => ?_, fun i j hij c hc c' hc' => h.unseenApart i j hij c (hmem hc) c' (hmem hc')⟩
  · rw [hhanded]
    exact fun p hp => hpast p.2 (h.handedPast p hp)
  · rw [hhanded]
    exact h.handedOnce
  · rcases hfewer i with he | he <;> rw [he]
    · exact h.unseenOnce i
    · exact List.nodup_nil
  · rw [hhanded]
    exact h.unseenHanded i c (hmem hc)

/-- Session `i` answers runs whose attempts have just begun. -/
theorem Apart.answers (h : Apart ls f) {i : ι}
    (hkeeps : ∀ i, (f'.sessions.session i).call.prunes = false)
    (hpast : ∀ c : ClaimedRun, c.Past f.sessions.committed → c.Past f'.sessions.committed)
    (hother : ∀ j, j ≠ i → f'.unseen j = f.unseen j) (hl : l.handed = [])
    (honce : ((f'.unseen i).map ClaimedRun.runId).Nodup)
    (hnew : ∀ c ∈ f'.unseen i, ¬ c.Past f.sessions.committed ∧ c.Past f'.sessions.committed) :
    Apart (ls ++ [l]) f' := by
  have hhanded : handed (ls ++ [l]) = handed ls := by simp [handed, hl]
  have hfresh : ∀ c ∈ f'.unseen i, ∀ c' : ClaimedRun, c'.Past f.sessions.committed →
      c.key ≠ c'.key := fun c hc c' hp he => (hnew c hc).1 (hp.of_key he)
  refine ⟨hkeeps, ?_, ?_, fun j c hc => ?_, fun j => ?_, fun j c hc => ?_,
    fun j k hjk c hc c' hc' => ?_⟩
  · rw [hhanded]
    exact fun p hp => hpast p.2 (h.handedPast p hp)
  · rw [hhanded]
    exact h.handedOnce
  · by_cases hj : j = i
    · subst hj
      exact (hnew c hc).2
    · rw [hother j hj] at hc
      exact hpast c (h.unseenPast j c hc)
  · by_cases hj : j = i
    · subst hj
      refine List.Nodup.of_map Prod.fst ?_
      rw [List.map_map]
      exact honce
    · rw [hother j hj]
      exact h.unseenOnce j
  · rw [hhanded]
    by_cases hj : j = i
    · subst hj
      exact fun p hp => hfresh c hc p.2 (h.handedPast p hp)
    · rw [hother j hj] at hc
      exact h.unseenHanded j c hc
  · by_cases hj : j = i
    · subst hj
      rw [hother k (Ne.symm hjk)] at hc'
      exact hfresh c hc c' (h.unseenPast k c' hc')
    · rw [hother j hj] at hc
      by_cases hk : k = i
      · subst hk
        exact (hfresh c' hc' c (h.unseenPast j c hc)).symm
      · rw [hother k hk] at hc'
        exact h.unseenApart j k hjk c hc c' hc'

/-- The answer of session `i` is handed to worker `v`. -/
theorem Apart.hand (h : Apart ls f) {i : ι} {v : ω} (hsessions : f'.sessions = f.sessions)
    (hother : ∀ j, j ≠ i → f'.unseen j = f.unseen j) (hnone : f'.unseen i = [])
    (hl : l.handed = (f.unseen i).map (Prod.mk v)) : Apart (ls ++ [l]) f' := by
  have hhanded : handed (ls ++ [l]) = handed ls ++ (f.unseen i).map (Prod.mk v) := by
    simp [handed, hl]
  have hmem : ∀ {j c}, c ∈ f'.unseen j → j ≠ i ∧ c ∈ f.unseen j := by
    intro j c hc
    have hj : j ≠ i := by
      rintro rfl
      rw [hnone] at hc
      exact absurd hc List.not_mem_nil
    exact ⟨hj, hother j hj ▸ hc⟩
  refine ⟨?_, ?_, ?_, fun j c hc => ?_, fun j => ?_, fun j c hc => ?_, fun j k hjk c hc c' hc' =>
    h.unseenApart j k hjk c (hmem hc).2 c' (hmem hc').2⟩
  · rw [hsessions]
    exact h.keeps
  · rw [hhanded, hsessions]
    intro p hp
    rcases List.mem_append.mp hp with hp | hp
    · exact h.handedPast p hp
    · obtain ⟨c, hc, rfl⟩ := List.mem_map.mp hp
      exact h.unseenPast i c hc
  · rw [hhanded, List.map_append, List.map_map]
    refine List.nodup_append.mpr ⟨h.handedOnce, h.unseenOnce i, fun k hk k' hk' he => ?_⟩
    obtain ⟨p, hp, rfl⟩ := List.mem_map.mp hk
    obtain ⟨c, hc, rfl⟩ := List.mem_map.mp hk'
    exact h.unseenHanded i c hc p hp he.symm
  · rw [hsessions]
    exact h.unseenPast j c (hmem hc).2
  · by_cases hj : j = i
    · subst hj
      rw [hnone]
      exact List.nodup_nil
    · rw [hother j hj]
      exact h.unseenOnce j
  · rw [hhanded]
    intro p hp
    obtain ⟨hj, hc⟩ := hmem hc
    rcases List.mem_append.mp hp with hp | hp
    · exact h.unseenHanded j c hc p hp
    · obtain ⟨c', hc', rfl⟩ := List.mem_map.mp hp
      exact h.unseenApart j i hj c hc c' hc'

variable [DecidableEq ι] [DecidableEq ω]

/-- A worker asks for nothing to be deleted. -/
theorem keeps_of_awaits {w : Worker} {sch : Scheduler F} {k : Option ℕ} {call : Call K}
    (h : w.awaits sch k = some call) : call.prunes = false := by
  rcases k with _ | n
  · have h : w.outstanding sch = some call := h
    unfold Worker.outstanding at h
    split at h
    · obtain rfl := Option.some.inj h
      exact rfl
    · obtain rfl := Option.some.inj h
      exact rfl
    · obtain rfl := Option.some.inj h
      exact rfl
    · exact absurd h (by simp)
  · obtain ⟨d, -, h⟩ := Option.bind_eq_some_iff.mp h
    unfold Dispatch.outstanding at h
    split at h
    · obtain rfl := Option.some.inj h
      exact rfl
    · next r _ =>
      obtain rfl := Option.some.inj h
      rcases r with e | x <;> exact rfl
    · exact absurd h (by simp)

theorem Step.keeps (hk : ∀ i, (f.sessions.session i).call.prunes = false) (hG : Keeping l)
    (hs : f.Step sch l f') : ∀ i, (f'.sessions.session i).call.prunes = false := by
  intro j
  have hstart : ∀ {i call y}, Sessions.Step f.sessions i (.call call) y → call.prunes = false →
      (y.session j).call.prunes = false := by
    intro i call y hs hcall
    by_cases hj : j = i
    · subst hj
      rw [(call_start hs).1]
      exact hcall
    · rw [(call_start hs).2 j hj]
      exact hk j
  cases hs with
  | database ha hs =>
    show Call.prunes _ = false
    rw [call_step ha hs]
    exact hk j
  | call _ hs => exact hstart hs hG
  | request _ _ hcall hs => exact hstart hs (keeps_of_awaits hcall)
  | @abandoned i e =>
    show Call.prunes _ = false
    rw [call_abort]
    exact hk j
  | _ => exact hk j

omit [DecidableEq ω] in
theorem unseen_lend_none {g : Fleet K ι ω} {i : ι} : (g.lend i none).unseen i = [] := by
  simp [unseen, lend]

omit [DecidableEq ω] in
theorem unseen_lend_of_ne {g : Fleet K ι ω} {i j : ι} {c : Option (Client ω)} (hj : j ≠ i) :
    (g.lend i c).unseen j = g.unseen j := by
  simp [unseen, lend, Function.update_of_ne hj]

/-- **Every step keeps attempts apart.** -/
theorem Step.apart (h : Sound sch f)
    (hclaiming : ∀ i, Claiming f.sessions.committed (f.sessions.session i)) (ha : Apart ls f)
    (hG : Keeping l) (hs : f.Step sch l f') : Apart (ls ++ [l]) f' := by
  have hkeeps := hs.keeps ha.keeps hG
  have hpast : ∀ {i a y}, Sessions.Step f.sessions i a y → ∀ c : ClaimedRun,
      c.Past f.sessions.committed → c.Past y.committed := fun hs c hc =>
    hc.step h.sessions hs (ha.keeps _)
  cases id hs with
  | @database i a y hnot hy =>
    have hother : ∀ j, j ≠ i → unseen { f with sessions := y } j = f.unseen j := by
      intro j hj
      have hsession := (h.sessions.other_step hj hy).1
      simp [unseen, hsession]
    by_cases hsame : unseen { f with sessions := y } i = f.unseen i ∨
        unseen { f with sessions := y } i = []
    · refine ha.fewer hkeeps (hpast hy) (fun j => ?_) rfl
      by_cases hj : j = i
      · subst hj
        exact hsame
      · exact Or.inl (hother j hj)
    · -- only the commit of a claim answers runs
      obtain ⟨hne, hnil⟩ := not_or.mp hsame
      obtain ⟨c, hc⟩ := List.exists_mem_of_ne_nil _ hnil
      obtain ⟨worker, names, limit, runs, heq, ⟨c', hlent⟩, hcall, hp⟩ := mem_unseen hc
      rcases claimed_step hclaiming hy hcall hp with ⟨hcall', hp'⟩ | ⟨-, honce, hnew⟩
      · exact absurd (heq.trans (unseen_eq (f := f) hlent hcall' hp').symm) hne
      · refine ha.answers hkeeps (hpast hy) hother rfl (heq ▸ honce) fun c hc => ?_
        rw [heq] at hc
        obtain ⟨hbegun, hnext⟩ := hnew c hc
        refine ⟨fun hpast => ?_, hbegun.past (sound_step h.sessions hy).store.runIds⟩
        obtain ⟨r, hr, hle⟩ := hpast
        have hattempt := hnext r hr
        omega
  | @call i call y hfree hy =>
    refine ha.fewer hkeeps (hpast hy) (fun j => ?_) rfl
    by_cases hj : j = i
    · subst hj
      exact Or.inr (by simp [unseen, hfree])
    · exact Or.inl (by simp [unseen, (call_start hy).2 j hj])
  | @worker v ev w hev hn =>
    refine ha.fewer hkeeps (fun _ hc => hc) (fun _ => Or.inl rfl) ?_
    show ev.received.map (Prod.mk v) = []
    cases ev with
    | reply x => exact hev.elim
    | _ => rfl
  | @request c i w call y hfree hn hcall hy =>
    refine ha.fewer hkeeps (hpast hy) (fun j => ?_) ?_
    · by_cases hj : j = i
      · subst hj
        right
        have hprog : (y.session j).prog = program K (y.session j).call := by
          rw [(call_start hy).1]
          rfl
        rcases hu : Fleet.unseen (K := K) _ j with _ | ⟨c', rest⟩
        · rfl
        · obtain ⟨worker, names, limit, runs, -, -, hcall', hp⟩ :=
            mem_unseen (c := c') (by rw [hu]; exact List.mem_cons_self)
          have hp : (y.session j).prog = .ret (.ok (.claimed runs)) := hp
          have hcall' : (y.session j).call = .claimBatch worker names limit := hcall'
          rw [hprog, hcall', program_claimBatch] at hp
          split_ifs at hp
          exact absurd hp (by simp)
      · left
        rw [unseen_lend_of_ne hj]
        simp [unseen, setWorker, (call_start hy).2 j hj]
    · show c.request.received.map (Prod.mk c.worker) = []
      unfold Client.request
      rcases c.task with _ | n <;> rfl
  | @reply c i x now w hlent hp hn =>
    have hfewer : (c.reply x now).received = [] → Apart (ls ++ [.reply c i x now])
        ((f.setWorker c.worker w).lend i none) := by
      intro hnil
      refine ha.fewer hkeeps (fun _ hc => hc) (fun j => ?_) ?_
      · by_cases hj : j = i
        · subst hj
          exact Or.inr unseen_lend_none
        · exact Or.inl (unseen_lend_of_ne hj)
      · show (c.reply x now).received.map (Prod.mk c.worker) = []
        rw [hnil]
        rfl
    rcases htask : c.task with _ | n
    case some => exact hfewer (by simp [Client.reply, htask, WorkerEvent.received])
    rcases x with e | a
    · exact hfewer (by simp [Client.reply, htask, WorkerEvent.received])
    cases a with
    | claimed runs =>
      have hevent : (c.reply (.ok (.claimed runs)) now : WorkerEvent K) =
          .reply (.ok (.claimed runs)) := by simp [Client.reply, htask]
      obtain ⟨limit, hcall⟩ := h.claim_of_reply hlent htask (hevent ▸ hn)
      refine ha.hand (i := i) (v := c.worker) rfl (fun j hj => unseen_lend_of_ne hj)
        unseen_lend_none ?_
      show (c.reply (.ok (.claimed runs)) now : WorkerEvent K).received.map _ = _
      rw [hevent, unseen_eq hlent hcall hp]
      rfl
    | _ => exact hfewer (by simp [Client.reply, htask, WorkerEvent.received])
  | @broken c i e now w hlent hn =>
    refine ha.fewer hkeeps (fun _ hc => hc) (fun j => ?_) ?_
    · by_cases hj : j = i
      · subst hj
        exact Or.inr unseen_lend_none
      · exact Or.inl (unseen_lend_of_ne hj)
    · show (c.reply (.error (.database e)) now : WorkerEvent K).received.map (Prod.mk c.worker) = []
      unfold Client.reply
      rcases c.task with _ | n <;> rfl
  | @released c i hlent hnone =>
    refine ha.fewer hkeeps (fun _ hc => hc) (fun j => ?_) rfl
    by_cases hj : j = i
    · subst hj
      exact Or.inr unseen_lend_none
    · exact Or.inl (unseen_lend_of_ne hj)
  | @abandoned i e hfree =>
    refine ha.fewer hkeeps (fun _ hc => hc) (fun j => ?_) rfl
    by_cases hj : j = i
    · subst hj
      exact Or.inr (by simp [unseen, hfree])
    · left
      simp [unseen, Sessions.abort, System.set_session_of_ne _ hj]

/-! ## Every run of a fleet -/

omit [DecidableEq ι] [DecidableEq ω] in
theorem Initial.apart (h : Initial sch f) : Apart [] f := by
  have hnil : ∀ i, f.unseen i = [] := fun i => by simp [unseen, h.lent i]
  have hnone : ∀ {i c}, c ∉ f.unseen i := by
    intro i c
    rw [hnil i]
    exact List.not_mem_nil
  refine ⟨fun i => ?_, fun p hp => absurd hp List.not_mem_nil, List.nodup_nil,
    fun i c hc => absurd hc hnone, fun i => ?_, fun i c hc => absurd hc hnone,
    fun i j _ c hc => absurd hc hnone⟩
  · rw [h.sessions]
    exact rfl
  · rw [hnil i]
    exact List.nodup_nil

theorem apart_reached (h : Reached sch G ls f) (hG : ∀ l, G l → Keeping l) : Apart ls f :=
  h.history (P := Apart) (fun _ h₀ => h₀.apart) fun _ _ l _ hr ih hg hs =>
    hs.apart (sound_reached hr) (granting_reached hr).claiming ih (hG l hg)

omit [DecidableEq ι] in
theorem received_eq (v : ω) (ls : List (Label K ι ω)) :
    (workerEvents v ls).flatMap WorkerEvent.received =
      ((handed ls).filter fun p => p.1 = v).map Prod.snd := by
  induction ls with
  | nil => rfl
  | cons l ls ih =>
    have hcons : handed (l :: ls) = l.handed ++ handed ls := rfl
    rw [hcons, List.filter_append, List.map_append, ← ih]
    unfold workerEvents Label.handed
    rcases hev : l.event with _ | ⟨u, ev⟩
    · simp [hev]
    · by_cases hu : u = v
      · subst hu
        simp [hev, List.filter_map, Function.comp_def]
      · simp [hev, hu, List.filter_map, Function.comp_def]

/-- **No attempt is dispatched twice**, by one worker or by two, as long as no program deletes
runs. -/
theorem attempts_dispatched_once (h : Reached sch Keeping ls f) {v v' : ω} {n n' : ℕ}
    {d d' : Dispatch} (hd : (f.worker v).dispatches[n]? = some d)
    (hd' : (f.worker v').dispatches[n']? = some d') (hid : d.claimed.runId = d'.claimed.runId)
    (hattempt : d.claimed.attempt = d'.claimed.attempt) : v = v' ∧ n = n' := by
  have hkey : d.claimed.key = d'.claimed.key := Prod.ext hid hattempt
  have honce := (apart_reached h fun _ hl => hl).handedOnce
  have hreceived : ∀ {v : ω} {n : ℕ} {d : Dispatch}, (f.worker v).dispatches[n]? = some d →
      (((handed ls).filter fun p => p.1 = v).map Prod.snd)[n]? = some d.claimed := by
    intro v n d hd
    have hlt := (List.getElem?_eq_some_iff.mp hd).1
    rw [← received_eq, Worker.received_reached (reached_worker h v),
      List.getElem?_append_left (by rwa [List.length_map]), List.getElem?_map, hd]
    rfl
  have hmem : ∀ {v : ω} {n : ℕ} {d : Dispatch}, (f.worker v).dispatches[n]? = some d →
      (v, d.claimed) ∈ handed ls := by
    intro v n d hd
    obtain ⟨⟨u, c⟩, hp, rfl⟩ := List.mem_map.mp (List.mem_of_getElem? (hreceived hd))
    obtain ⟨hhanded, hu⟩ := List.mem_filter.mp hp
    obtain rfl : u = v := by simpa using hu
    exact hhanded
  obtain ⟨rfl, -⟩ := Prod.mk.inj (List.inj_on_of_nodup_map honce (hmem hd) (hmem hd') hkey)
  refine ⟨rfl, ?_⟩
  have hworker : ((((handed ls).filter fun p => p.1 = v).map Prod.snd).map
      ClaimedRun.key).Nodup := by
    rw [List.map_map]
    exact honce.sublist (List.filter_sublist.map _)
  refine (List.getElem?_inj ?_ hworker).mp ?_
  · rw [List.length_map]
    exact (List.getElem?_eq_some_iff.mp (hreceived hd)).1
  · have hkeys : ∀ {m : ℕ} {e : Dispatch}, (f.worker v).dispatches[m]? = some e →
        ((((handed ls).filter fun p => p.1 = v).map Prod.snd).map ClaimedRun.key)[m]? =
          some e.claimed.key := fun he =>
      List.getElem?_map.trans (congrArg (Option.map ClaimedRun.key) (hreceived he))
    rw [hkeys hd, hkeys hd', hkey]

/-- The first attempt fails on worker `true`, and worker `false` is given the second one. -/
def retriedDay : List (Move .everySecond Bool Bool) :=
  mailDay .keyed (.error (.retry "timeout")) ++
  .worker false .pollTick :: exchange ⟨false, none⟩ [7] ++
  .worker false .noneJoined :: exchange ⟨false, none⟩ [8] ++ [.worker false .dispatched]

/-- The two tasks have the run in common, and each of its attempts belongs to one of them. -/
theorem attempts_dispatched_once_retried :
    ∃ (ls : List (Label .everySecond Bool Bool)) (f : Fleet .everySecond Bool Bool)
      (d d' : Dispatch),
      Reached (fun _ => Worker.mailScheduler) Keeping ls f ∧
      (f.worker true).dispatches[0]? = some d ∧ (f.worker false).dispatches[0]? = some d' ∧
      d.claimed.runId = d'.claimed.runId ∧ d.claimed.attempt = 1 ∧ d'.claimed.attempt = 2 ∧
      ∀ v n e, (f.worker v).dispatches[n]? = some e → e.claimed.runId = d.claimed.runId →
        (e.claimed.attempt = 1 → v = true ∧ n = 0) ∧
        (e.claimed.attempt = 2 → v = false ∧ n = 0) := by
  have h : (mailFleet.play (fun _ => Worker.mailScheduler) retriedDay).map (fun f =>
      ((f.worker true).dispatches[0]?.map fun d => d.claimed.key,
        (f.worker false).dispatches[0]?.map fun d => d.claimed.key)) =
      some (some (⟨1⟩, 1), some (⟨1⟩, 2)) := by decide +kernel
  obtain ⟨f, hf, he⟩ := Option.map_eq_some_iff.mp h
  obtain ⟨htrue, hfalse⟩ := Prod.mk.inj he
  obtain ⟨d, hd, hkey⟩ := Option.map_eq_some_iff.mp htrue
  obtain ⟨d', hd', hkey'⟩ := Option.map_eq_some_iff.mp hfalse
  obtain ⟨hid, hattempt⟩ := Prod.mk.inj hkey
  obtain ⟨hid', hattempt'⟩ := Prod.mk.inj hkey'
  obtain ⟨ls, hr⟩ := play_run hf .nil
  have h : Reached (fun _ => Worker.mailScheduler) (fun l => Honest l ∧ Keeping l) ls f :=
    ⟨mailFleet, mailFleet_initial, hr⟩
  have h : Reached (fun _ => Worker.mailScheduler) Keeping ls f := h.mono fun _ hl => hl.2
  refine ⟨ls, f, d, d', h, hd, hd', hid.trans hid'.symm, hattempt, hattempt',
    fun v n e hn hrun => ⟨fun hfirst => ?_, fun hsecond => ?_⟩⟩
  · exact attempts_dispatched_once h hn hd hrun (hfirst.trans hattempt.symm)
  · exact attempts_dispatched_once h hn hd' (hrun.trans (hid.trans hid'.symm))
      (hsecond.trans hattempt'.symm)

end Fleet

end PgTaskScheduler
