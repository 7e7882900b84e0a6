import PgTaskScheduler.Fencing
import PgTaskScheduler.Readings

/-!
# Operations interleaved statement by statement

Any number of sessions serve operations at once, on the store that the migration leaves. Every
committed store satisfies the invariant, and every commit does what its operation may do.
-/

namespace PgTaskScheduler

open Tables ReadCommitted

variable {K : Croner} {ι : Type} [DecidableEq ι]

variable (K) in
/-- A session that serves operations. -/
abbrev Server := Session (Call K) Store Patch RowRef Env SchedulerError (Answer K)

variable (K ι) in
/-- Sessions that serve operations on one store. -/
abbrev Sessions := System ι (Call K) Store Patch RowRef Env SchedulerError (Answer K)

variable (K ι) in
/-- Idle sessions on the empty schema. -/
def Sessions.initial : Sessions K ι :=
  ⟨.empty, fun _ => .start .materializeOne (.ret (.ok (.tick .idle)))⟩

/-- A step of one session, with any readings. -/
abbrev Sessions.Step (y : Sessions K ι) (i : ι) (a : Act (Call K) Env) (y' : Sessions K ι) : Prop :=
  ReadCommitted.Step db (program K) (fun _ => True) y i a y'

/-- The sessions come from `y` to `y'` by steps that satisfy `G`. -/
abbrev Sessions.Run (G : Sessions K ι → ι → Act (Call K) Env → Prop) (y : Sessions K ι)
    (ls : List (ι × Act (Call K) Env)) (y' : Sessions K ι) : Prop :=
  ReadCommitted.Run db (program K) (fun _ => True) G y ls y'

/-- Every step is taken. -/
abbrev Sessions.Free (_ : Sessions K ι) (_ : ι) (_ : Act (Call K) Env) : Prop := True

/-- The sessions reach `y` by the steps `ls`. -/
abbrev Sessions.Reached (ls : List (ι × Act (Call K) Env)) (y : Sessions K ι) : Prop :=
  Sessions.Run Sessions.Free (Sessions.initial K ι) ls y

theorem free_run {G : Sessions K ι → ι → Act (Call K) Env → Prop} {y y' : Sessions K ι}
    {ls : List (ι × Act (Call K) Env)} (h : Sessions.Run G y ls y') :
    Sessions.Run Sessions.Free y ls y' := h.mono fun _ _ _ _ => trivial

/-- The invariant of the committed store and of the sessions. -/
abbrev Sessions.Sound (y : Sessions K ι) : Prop :=
  ReadCommitted.Sound db Inv (fun _ => True) (Effect fun _ => True) (fun _ => Consistent) y

variable {G : Sessions K ι → ι → Act (Call K) Env → Prop} {y y' : Sessions K ι}
  {ls : List (ι × Act (Call K) Env)} {i : ι} {a : Act (Call K) Env}

theorem sound_step (h : Sessions.Sound y) (hs : Sessions.Step y i a y') : Sessions.Sound y' :=
  h.step (fun c _ hB => program_good c hB) hs

theorem sound_run (h : Sessions.Sound y) (hr : Sessions.Run G y ls y') : Sessions.Sound y' :=
  h.run (fun c _ hB => program_good c hB) hr

omit [DecidableEq ι] in
theorem sound_initial : Sessions.Sound (Sessions.initial K ι) :=
  .initial Inv.empty fun _ => consistent_ok _

theorem sound_reached (h : Sessions.Reached ls y) : Sessions.Sound y := sound_run sound_initial h

/-- A statement about each session that its own steps and unlocked changes keep. -/
abbrev Sessions.Stable (P : Store → Server K → Prop) : Prop :=
  ReadCommitted.Stable db Inv (fun _ => True) (program K) P

theorem stable_reached {P : Store → Server K → Prop} (hP : Sessions.Stable P)
    (h : Sessions.Reached ls y) (i : ι) : P y.committed (y.session i) :=
  hP.run (fun c _ hB => program_good c hB) sound_initial (fun _ => hP.answered ..) h i

/-- A session that is about to commit the one statement of its operation. -/
theorem single_reached {c : Call K} {β : Type} {q : Query β}
    {f : β → Except SchedulerError (Answer K)}
    (hprog : program K c = (.stmt q fun b => .commit (.ret (f b))) ∨ ∃ x, program K c = .ret x)
    (h : Sessions.Reached ls y) (hc : (y.session i).call = c) {k : Program (Answer K)}
    (hp : (y.session i).prog = .commit k) :
    ∃ env sn C w b, Inv sn ∧ Inv C ∧ q.run env sn C = .ok (w, b) ∧ k = .ret (f b) ∧
      (y.session i).writes = [w] ∧ (y.session i).locks = q.acquires db env sn C w ∧
      db.Agree (y.session i).locks C y.committed := by
  rcases stable_reached (.single hprog) h i hc with
    ⟨hp', -⟩ | ⟨env, sn, C, w, b, -, hsn, hC, hr, hp', hw, hl, ha⟩ | ⟨x, hp'⟩
  · rcases hprog with hprog | ⟨x, hprog⟩ <;> rw [hprog] at hp' <;> cases hp.symm.trans hp'
  · cases hp.symm.trans hp'
    exact ⟨env, sn, C, w, b, hsn, hC, hr, rfl, hw, hl, ha⟩
  · cases hp.symm.trans hp'

/-- Only commits change the store, and a commit does what its operation may do. -/
theorem effect_step (h : Sessions.Sound y) (hs : Sessions.Step y i a y') :
    y'.committed = y.committed ∨
      Effect (fun _ => True) (y.session i).call (y.session i).reads y.committed y'.committed :=
  h.committed_step hs

/-- A commit does what its operation may do, with the readings that its call has made. -/
theorem commit_effect {y'' : Sessions K ι} (h : Sessions.Reached ls y')
    (hs : Sessions.Step y' i .commit y'') : Effect (· ∈ readings i ls) (y'.session i).call
      (y'.session i).reads y'.committed y''.committed :=
  ReadCommitted.Run.commit_readings (T := fun Ok c rs s s' => Effect Ok c rs s s')
    (fun c _ hB => program_good c hB) (fun _ c _ hB => program_good c hB) sound_initial
    (fun _ => ⟨_, rfl⟩) h hs

/-- One step of one session, seen from one run. -/
theorem change_step (h : Sessions.Sound y) (hs : Sessions.Step y i a y') (id : RunId) :
    Change (fun _ => True) (y.session i).call (y.committed.view id) (y'.committed.view id) := by
  rcases effect_step h hs with heq | heffect
  · rw [heq]
    exact .same _ _
  · exact heffect.transition.runs id

/-! ## Locks -/

/-- A session holds the rows of runs that it has updated locked. -/
def WritesLocked (σ : Server K) : Prop :=
  ∀ w ∈ σ.writes, ∀ r ∈ w.runs.update, .run r.id ∈ σ.locks

theorem writesLocked_step (hs : Sessions.Step y i a y') (h : ∀ j, WritesLocked (y.session j)) :
    ∀ j, WritesLocked (y'.session j) := by
  have hset : ∀ {σ : Server K}, WritesLocked σ → ∀ j, WritesLocked ((y.set i σ).session j) := by
    intro σ hσ j
    by_cases hj : j = i
    · subst hj
      rwa [System.set_session_self]
    · rw [System.set_session_of_ne y hj]
      exact h j
  have hstart : ∀ (c : Call K) (p : Program (Answer K)), WritesLocked (.start c p) :=
    fun c p w hw => nomatch hw
  cases hs with
  | call c hp => exact hset (hstart _ _)
  | snapshot hp hsn => exact hset (h i)
  | exec env hp hsn hOk hw hr hl =>
    refine hset fun w' hw' r hmem => ?_
    rcases List.mem_append.mp hw' with hw' | hw'
    · exact List.mem_append_left _ (h i w' hw' r hmem)
    · obtain rfl := List.mem_singleton.mp hw'
      exact List.mem_append_right _ (mem_acquires_of_locked (mem_locked_run hmem))
  | fail env hp hsn hOk hw hr => exact hset (hstart _ _)
  | commit hp =>
    intro j
    by_cases hj : j = i
    · subst hj
      simp only [Function.update_self]
      exact hstart _ _
    · simp only [Function.update_of_ne hj]
      exact h j
  | rollback hp => exact hset (hstart _ _)

theorem writesLocked_reached (h : Sessions.Reached ls y) (j : ι) : WritesLocked (y.session j) :=
  h.invariant (P := fun y => ∀ j, WritesLocked (y.session j)) (fun _ _ hw => nomatch hw)
    (fun _ _ _ _ h _ hs => writesLocked_step hs h) j

/-! ## What a session serves -/

/-- A session that has answered, or serves one of the operations `A`. -/
def Serves (A : Call K → Prop) (σ : Server K) : Prop := (∃ x, σ.prog = .ret x) ∨ A σ.call

theorem serves_step {A : Call K → Prop} (hs : Sessions.Step y i a y')
    (ha : ∀ c, a = .call c → A c) (h : Serves A (y.session i)) : Serves A (y'.session i) := by
  have hcall : (∀ x, (y.session i).prog ≠ .ret x) → A (y.session i).call := fun hne =>
    h.resolve_left fun ⟨x, hx⟩ => hne x hx
  cases hs with
  | call c hp =>
    rw [System.set_session_self]
    exact Or.inr (ha c rfl)
  | snapshot hp hsn =>
    rw [System.set_session_self]
    exact h
  | exec env hp =>
    rw [System.set_session_self]
    exact Or.inr (hcall fun x hx => nomatch hp.symm.trans hx)
  | fail env hp =>
    rw [System.set_session_self]
    exact Or.inl ⟨_, rfl⟩
  | commit hp =>
    simp only [Function.update_self]
    exact Or.inr (hcall fun x hx => nomatch hp.symm.trans hx)
  | rollback hp =>
    rw [System.set_session_self]
    exact Or.inl ⟨_, rfl⟩

/-- The commit of a session that serves one of the operations `A`. -/
theorem serves_effect {A : Call K → Prop} (h : Sessions.Sound y) (hs : Sessions.Step y i a y')
    (hserves : Serves A (y.session i)) : y'.committed = y.committed ∨ A (y.session i).call ∧
      Effect (fun _ => True) (y.session i).call (y.session i).reads y.committed y'.committed := by
  cases hs with
  | commit hp =>
    have hA : A (y.session i).call :=
      hserves.resolve_left fun ⟨x, hx⟩ => nomatch hp.symm.trans hx
    exact Or.inr ⟨hA, (h.commit hp).1⟩
  | _ => exact Or.inl rfl

/-! ## Attempts stay closed -/

/-- A step leaves a closed attempt as it is, or deletes its run. -/
theorem closed_step (h : Sessions.Sound y) (hs : Sessions.Step y i a y') {b : Attempt}
    (hb : b ∈ y.committed.attempts) (hclosed : b.isOpen = false) :
    b ∈ y'.committed.attempts ∨ lookup Run.id b.runId y'.committed.runs = none := by
  have hview : b ∈ (y.committed.view b.runId).attempts := Store.mem_view_attempts.mpr ⟨hb, rfl⟩
  rcases (change_step h hs b.runId).keeps_closed hview hclosed with hmem | hnone
  · exact Or.inl (Store.mem_view_attempts.mp hmem).1
  · exact Or.inr hnone

/-! ## Scripts -/

/-- A session starts a statement and executes it, with readings at the instant `t`. -/
def statement (i : ι) (t : Timestamp) : List (ι × Act (Call K) Env) :=
  [(i, .snapshot), (i, .exec (.tick t))]

/-- A session serves an operation that makes the given statements, each in a transaction. -/
def serve (i : ι) (c : Call K) (ts : List Timestamp) : List (ι × Act (Call K) Env) :=
  (i, .call c) :: ts.flatMap fun t => statement i t ++ [(i, .commit)]

variable (K ι) in
/-- Play a script on the empty schema. -/
def Sessions.play [Fintype ι] (ls : List (ι × Act (Call K) Env)) : Option (Sessions K ι) :=
  (Sessions.initial K ι).replay db (program K) ls

theorem play_reached [Fintype ι] (h : Sessions.play K ι ls = some y) : Sessions.Reached ls y :=
  System.replay_sound (fun _ => trivial) (fun _ _ _ => trivial) h

end PgTaskScheduler
