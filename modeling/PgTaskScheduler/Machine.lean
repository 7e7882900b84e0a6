import Mathlib.Data.Option.Basic
import PgTaskScheduler.Histories

/-!
# Machines with a partial step function

An event is taken in some states and refused in others, and a guard restricts the runs to the events
that the surroundings of the machine can cause. `Run.keeps` is the induction over a run,
`Run.history` the same for statements about the state and the events so far; `outputs` collects what
the steps put out, and `run` plays given events.
-/

namespace Histories

variable {W E ω : Type} {w w' w'' : W} {es es' : List E} {e : E}

/-- The machine that takes an event when the step function does and the guard holds. -/
def Machine.ofNext (next : W → E → Option W) (G : W → E → Prop) : Machine W E where
  allowed w e := G w e ∧ (next w e).isSome
  after w e := (next w e).getD w

abbrev Run (next : W → E → Option W) (G : W → E → Prop) (w : W) (es : List E) (w' : W) : Prop :=
  Reaches (.ofNext next G) w es w'

/-- Every event is allowed. -/
abbrev Free (_ : W) (_ : E) : Prop := True

variable {next : W → E → Option W} {G G' : W → E → Prop}

theorem Run.snoc (h : Run next G w es w') (hG : G w' e) (hn : next w' e = some w'') :
    Run next G w (es ++ [e]) w'' := by
  have hafter : (Machine.ofNext next G).after w' e = w'' := by simp [Machine.ofNext, hn]
  exact hafter ▸ Reaches.snoc h ⟨hG, by simp [hn]⟩

/-- A statement about the state and the events that have led to it. -/
theorem Run.history {P : List E → W → Prop} (h : Run next G w es w') (hw : P [] w)
    (hstep : ∀ es w' e w'', Run next G w es w' → P es w' → G w' e → next w' e = some w'' →
      P (es ++ [e]) w'') : P es w' := by
  induction h with
  | nil => exact hw
  | @snoc es w' e h he ih =>
    obtain ⟨w'', hn⟩ := Option.isSome_iff_exists.mp he.2
    have hafter : (Machine.ofNext next G).after w' e = w'' := by simp [Machine.ofNext, hn]
    rw [hafter]
    exact hstep es w' e w'' h ih he.1 hn

/-- What holds at the start and is kept by every step holds at the end. -/
theorem Run.keeps {P : W → Prop} (h : Run next G w es w') (hw : P w)
    (hstep : ∀ w e w', P w → G w e → next w e = some w' → P w') : P w' :=
  h.history (P := fun _ => P) hw fun _ w e w' _ => hstep w e w'

/-- The last step of a run, if it has one. -/
theorem Run.last (h : Run next G w es w') : es = [] ∧ w' = w ∨
    ∃ pre e t, es = pre ++ [e] ∧ Run next G w pre t ∧ G t e ∧ next t e = some w' :=
  h.history (P := fun es w' => es = [] ∧ w' = w ∨
      ∃ pre e t, es = pre ++ [e] ∧ Run next G w pre t ∧ G t e ∧ next t e = some w')
    (Or.inl ⟨rfl, rfl⟩) fun es t e _ hr _ hG hn => Or.inr ⟨es, e, t, rfl, hr, hG, hn⟩

theorem Run.of_snoc (h : Run next G w (es ++ [e]) w'') :
    ∃ t, Run next G w es t ∧ G t e ∧ next t e = some w'' := by
  rcases h.last with ⟨he, -⟩ | ⟨pre, e', t, he, hr, hG, hn⟩
  · exact absurd he (by simp)
  · obtain ⟨rfl, hlast⟩ := List.append_inj' he rfl
    obtain rfl := List.singleton_inj.mp hlast
    exact ⟨t, hr, hG, hn⟩

theorem Run.mono (h : Run next G w es w') (hG : ∀ w e, G w e → G' w e) : Run next G' w es w' :=
  h.history (P := Run next G' w) .nil fun _ _ _ _ _ ih hg hn => Run.snoc ih (hG _ _ hg) hn

/-! ## Outputs -/

variable {out : W → E → W → List ω}

variable (next out) in
/-- What the steps of a run put out. -/
def outputs (w : W) : List E → List ω
  | [] => []
  | e :: es =>
    match next w e with
    | some w' => out w e w' ++ outputs w' es
    | none => []

theorem outputs_cons (hn : next w e = some w') :
    outputs next out w (e :: es) = out w e w' ++ outputs next out w' es := by
  rw [outputs, hn]

theorem Run.outputs_append (h : Run next G w es w') (es' : List E) :
    outputs next out w (es ++ es') = outputs next out w es ++ outputs next out w' es' :=
  h.history (P := fun es w' => ∀ es', outputs next out w (es ++ es') =
      outputs next out w es ++ outputs next out w' es') (fun _ => rfl)
    (fun es w' e w'' _ ih _ hn es' => by
      rw [List.append_assoc, ih, ih, List.singleton_append, outputs_cons hn, outputs_cons hn]
      simp [outputs]) es'

theorem Run.outputs_snoc (h : Run next G w es w') (hn : next w' e = some w'') :
    outputs next out w (es ++ [e]) = outputs next out w es ++ out w' e w'' := by
  rw [h.outputs_append, outputs_cons hn]
  simp [outputs]

/-! ## Playing events -/

variable (next) in
/-- Play the events, as long as `p` holds of each. -/
def run (p : W → E → Bool) (w : W) : List E → Option W
  | [] => some w
  | e :: es => if p w e then (next w e).bind fun w' => run p w' es else none

theorem run_sound {p : W → E → Bool} (hp : ∀ w e, p w e = true → G w e) :
    ∀ {w : W} {es : List E}, run next p w es = some w' → Run next G w es w' := by
  intro w es h
  induction es generalizing w with
  | nil =>
    obtain rfl := Option.some.inj h
    exact .nil
  | cons e es ih =>
    rw [run] at h
    split_ifs at h with hpe
    obtain ⟨w₁, hw₁, h⟩ := Option.bind_eq_some_iff.mp h
    have hfirst : Run next G w [e] w₁ := Run.snoc .nil (hp _ _ hpe) hw₁
    exact hfirst.append (ih h)

/-! ## Progress -/

/-- A goal is reached within as many steps as the measure allows, if short of the goal some step
lowers it. -/
theorem exists_run_of_measure {I Goal : W → Prop} (μ : W → ℕ)
    (hstep : ∀ w, I w → ¬ Goal w → ∃ e w', G w e ∧ next w e = some w' ∧ I w' ∧ μ w' < μ w)
    {w : W} (hw : I w) :
    ∃ es w', Run next G w es w' ∧ I w' ∧ Goal w' ∧ es.length ≤ μ w := by
  induction hμ : μ w using Nat.strongRecOn generalizing w with
  | _ m ih =>
    by_cases hgoal : Goal w
    · exact ⟨[], w, .nil, hw, hgoal, Nat.zero_le _⟩
    · obtain ⟨e, w₁, hG, hn, hI, hlt⟩ := hstep w hw hgoal
      obtain ⟨es, w', hr, hI', hgoal', hle⟩ := ih (μ w₁) (hμ ▸ hlt) hI rfl
      have hfirst : Run next G w [e] w₁ := Run.snoc .nil hG hn
      refine ⟨e :: es, w', hfirst.append hr, hI', hgoal', ?_⟩
      rw [List.length_cons]
      omega

end Histories
