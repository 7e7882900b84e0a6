import PgTaskScheduler.ReadCommitted

/-!
# The readings of a call

A run records the readings of every statement. `readings` picks those of the call that a session
serves. When the programs of all calls are good whatever their readings satisfy, a commit does what
its call may do with exactly these readings (`Run.commit_readings`).
-/

namespace ReadCommitted

variable {S W R V E X α C ι : Type} [DecidableEq ι] {D : Storage S W R V}
  {program : C → Prog S W R E X α} {I : S → Prop} {Ok₀ : E → Prop}
  {G : System ι C S W R E X α → ι → Act C E → Prop} {T₀ : C → List S → S → S → Prop}
  {T : (E → Prop) → C → List S → S → S → Prop} {Q : C → Except X α → Prop}
  {y y' y'' : System ι C S W R E X α} {ls : List (ι × Act C E)} {i j : ι} {a : Act C E}

/-- A call starts without readings, a statement adds its own. -/
def Act.track (envs : List E) : Act C E → List E
  | .call _ => []
  | .exec env => envs ++ [env]
  | _ => envs

/-- What the statements of the call that session `i` serves have read. -/
def readings (i : ι) (ls : List (ι × Act C E)) : List E :=
  ls.foldl (fun envs l => if l.1 = i then l.2.track envs else envs) []

theorem readings_self : readings i (ls ++ [(i, a)]) = a.track (readings i ls) := by
  unfold readings
  rw [List.foldl_append]
  exact if_pos rfl

theorem readings_other (h : j ≠ i) : readings i (ls ++ [(j, a)]) = readings i ls := by
  unfold readings
  rw [List.foldl_append]
  exact if_neg h

/-- Session `i` is good for all that its readings satisfy. -/
def System.GoodFor (D : Storage S W R V) (I : S → Prop)
    (T : (E → Prop) → C → List S → S → S → Prop) (Q : C → Except X α → Prop)
    (y : System ι C S W R E X α) (i : ι) (envs : List E) : Prop :=
  ∀ Ok, (∀ env ∈ envs, Ok env) → (y.session i).prog.Good D I Ok (T Ok (y.session i).call)
    (Q (y.session i).call) (y.session i).reads (y.session i).writes (y.session i).locks y.committed

theorem System.GoodFor.step
    (hprog : ∀ Ok c B, I B → (program c).Good D I Ok (T Ok c) (Q c) [] [] [] B)
    (h : Sound D I Ok₀ T₀ Q y) (hg : y.GoodFor D I T Q i (readings i ls))
    (hs : Step D program Ok₀ y j a y') : y'.GoodFor D I T Q i (readings i (ls ++ [(j, a)])) := by
  by_cases hj : j = i
  · subst hj
    rw [readings_self]
    have hset : ∀ {σ : Session C S W R E X α} {envs : List E}, (∀ Ok, (∀ env ∈ envs, Ok env) →
        σ.prog.Good D I Ok (T Ok σ.call) (Q σ.call) σ.reads σ.writes σ.locks y.committed) →
        (y.set j σ).GoodFor D I T Q j envs := by
      intro σ envs hσ
      unfold System.GoodFor
      rw [System.set_session_self]
      exact hσ
    cases hs with
    | call c hp => exact hset fun Ok _ => hprog Ok c _ h.store
    | snapshot hp hsn => exact hset hg
    | exec env hp hsn hOk hw hr hl =>
      refine hset fun Ok hOk' => ?_
      obtain ⟨hI, ha⟩ := h.snap j _ hsn
      have hgood := hg Ok fun e he => hOk' e (List.mem_append_left _ he)
      rw [hp] at hgood
      exact (hgood _ _ hI ha h.store (.refl D _ _) env
        (hOk' env (List.mem_append_right _ (List.mem_singleton_self env)))).2 _ _ hr
    | fail env hp hsn hOk hw hr =>
      refine hset fun Ok _ => ?_
      obtain ⟨hI, ha⟩ := h.snap j _ hsn
      have hgood := hg (fun _ => True) fun _ _ => trivial
      rw [hp] at hgood
      exact (hgood _ _ hI ha h.store (.refl D _ _) env trivial).1 _ hr
    | commit hp =>
      intro Ok hOk'
      have hgood := hg Ok hOk'
      rw [hp] at hgood
      simp only [Function.update_self]
      exact hgood.2 _ (h.commit hp).2.store
    | rollback hp =>
      refine hset fun Ok hOk' => ?_
      have hgood := hg Ok hOk'
      rw [hp] at hgood
      exact hgood
  · rw [readings_other hj]
    obtain ⟨hsession, hcommitted⟩ := h.other_step (Ne.symm hj) hs
    intro Ok hOk'
    rw [hsession]
    rcases hcommitted with heq | ⟨-, hagree⟩
    · rw [heq]
      exact hg Ok hOk'
    · exact (hg Ok hOk').agree hagree

theorem Run.goodFor
    (hprog₀ : ∀ c B, I B → (program c).Good D I Ok₀ (T₀ c) (Q c) [] [] [] B)
    (hprog : ∀ Ok c B, I B → (program c).Good D I Ok (T Ok c) (Q c) [] [] [] B)
    (h : Sound D I Ok₀ T₀ Q y) (hidle : ∀ i, ∃ x, (y.session i).prog = .ret x)
    (hr : Run D program Ok₀ G y ls y') (i : ι) : y'.GoodFor D I T Q i (readings i ls) := by
  induction hr with
  | nil =>
    intro Ok _
    obtain ⟨x, hx⟩ := hidle i
    have hgood := h.good i
    rw [hx] at hgood ⊢
    exact hgood
  | snoc hr _ hs ih => exact ih.step hprog (h.run hprog₀ hr) hs

/-- Only a commit changes the committed store. -/
theorem Step.committed_eq (hs : Step D program Ok₀ y i a y') (ha : a ≠ .commit) :
    y'.committed = y.committed := by
  cases hs with
  | commit hp => exact absurd rfl ha
  | _ => rfl

/-- **A commit does what its call may do with the readings that it has made.** -/
theorem Run.commit_readings
    (hprog₀ : ∀ c B, I B → (program c).Good D I Ok₀ (T₀ c) (Q c) [] [] [] B)
    (hprog : ∀ Ok c B, I B → (program c).Good D I Ok (T Ok c) (Q c) [] [] [] B)
    (h : Sound D I Ok₀ T₀ Q y) (hidle : ∀ i, ∃ x, (y.session i).prog = .ret x)
    (hr : Run D program Ok₀ G y ls y') (hs : Step D program Ok₀ y' i .commit y'') :
    T (· ∈ readings i ls) (y'.session i).call (y'.session i).reads y'.committed y''.committed := by
  have hgood := hr.goodFor hprog₀ hprog h hidle i (· ∈ readings i ls) fun _ he => he
  have hstore := (h.run hprog₀ hr).store
  cases hs with
  | commit hp =>
    rw [hp] at hgood
    exact (hgood.1 _ hstore (.refl D _ _)).1

end ReadCommitted
