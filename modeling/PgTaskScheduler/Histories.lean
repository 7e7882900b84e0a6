import Mathlib.Data.List.Basic

/-!
# Histories of a machine

A machine moves from a state by an event, if the state allows it. `Reaches` relates a state to the
states that a finite sequence of events leads to. Besides the induction rule, two rules single out
the events that matter to an observation of the state: the first one that changes it and the last
one.
-/

namespace Histories

structure Machine (W E : Type) where
  allowed : W → E → Prop
  after : W → E → W

/-- The events of `es`, one after the other, lead from a state to another. -/
inductive Reaches {W E : Type} (M : Machine W E) (w : W) : List E → W → Prop
  | nil : Reaches M w [] w
  | snoc {es w' e} (h : Reaches M w es w') (he : M.allowed w' e) :
    Reaches M w (es ++ [e]) (M.after w' e)

variable {W E α : Type} {M : Machine W E} {w w' : W} {es es' : List E} {e : E}

theorem Reaches.single (he : M.allowed w e) : Reaches M w [e] (M.after w e) := .snoc .nil he

theorem Reaches.append {w'' : W} (h : Reaches M w es w') (h' : Reaches M w' es' w'') :
    Reaches M w (es ++ es') w'' := by
  induction h' with
  | nil => simpa using h
  | snoc _ he ih =>
    rw [← List.append_assoc]
    exact ih.snoc he

/-- What every event preserves holds in all states that are reached. -/
theorem Reaches.invariant {P : W → Prop} (h : Reaches M w es w') (hw : P w)
    (hstep : ∀ w e, P w → M.allowed w e → P (M.after w e)) : P w' := by
  induction h with
  | nil => exact hw
  | snoc _ he ih => exact hstep _ _ ih he

/-- What every event preserves or gives up holds, or was given up in a state on the way. -/
theorem Reaches.unless {P Q : W → Prop} (h : Reaches M w es w') (hw : P w)
    (hstep : ∀ w e, P w → M.allowed w e → P (M.after w e) ∨ Q (M.after w e)) :
    P w' ∨ ∃ es₁ es₂ w₁, es = es₁ ++ es₂ ∧ Reaches M w es₁ w₁ ∧ Reaches M w₁ es₂ w' ∧ Q w₁ := by
  induction h with
  | nil => exact Or.inl hw
  | @snoc es w' e h he ih =>
    rcases ih with hP | ⟨es₁, es₂, w₁, rfl, h₁, h₂, hQ⟩
    · refine (hstep _ _ hP he).imp_right fun hQ => ?_
      exact ⟨es ++ [e], [], M.after w' e, by simp, h.snoc he, .nil, hQ⟩
    · exact Or.inr ⟨es₁, es₂ ++ [e], w₁, by simp, h₁, h₂.snoc he, hQ⟩

/-- The first event that changes an observation. -/
theorem Reaches.first_change (f : W → α) (h : Reaches M w es w') :
    f w' = f w ∨ ∃ es₁ e es₂ w₁, es = es₁ ++ e :: es₂ ∧ Reaches M w es₁ w₁ ∧ M.allowed w₁ e ∧
      f w₁ = f w ∧ f (M.after w₁ e) ≠ f w ∧ Reaches M (M.after w₁ e) es₂ w' := by
  induction h with
  | nil => exact Or.inl rfl
  | @snoc es w' e h he ih =>
    rcases ih with heq | ⟨es₁, e₁, es₂, w₁, rfl, h₁, he₁, heq, hne, h₂⟩
    · by_cases hne : f (M.after w' e) = f w
      · exact Or.inl hne
      · exact Or.inr ⟨es, e, [], w', rfl, h, he, heq, hne, .nil⟩
    · exact Or.inr ⟨es₁, e₁, es₂ ++ [e], w₁, by simp, h₁, he₁, heq, hne, h₂.snoc he⟩

/-- The last event that changes an observation. -/
theorem Reaches.last_change (f : W → α) (h : Reaches M w es w') :
    f w' = f w ∨ ∃ es₁ e es₂ w₁, es = es₁ ++ e :: es₂ ∧ Reaches M w es₁ w₁ ∧ M.allowed w₁ e ∧
      f w₁ ≠ f w' ∧ f (M.after w₁ e) = f w' ∧ Reaches M (M.after w₁ e) es₂ w' := by
  induction h with
  | nil => exact Or.inl rfl
  | @snoc es w' e h he ih =>
    by_cases hne : f (M.after w' e) = f w'
    · rw [hne]
      rcases ih with heq | ⟨es₁, e₁, es₂, w₁, rfl, h₁, he₁, hne₁, heq, h₂⟩
      · exact Or.inl heq
      · exact Or.inr ⟨es₁, e₁, es₂ ++ [e], w₁, by simp, h₁, he₁, hne₁, heq, h₂.snoc he⟩
    · exact Or.inr ⟨es, e, [], w', rfl, h, he, fun h => hne h.symm, rfl, .nil⟩

end Histories
