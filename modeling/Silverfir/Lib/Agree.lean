import Mathlib.Tactic.Common

/-! Two computations that fail together, and whose results are related. -/

variable {ε α β γ δ : Type}

/-- Both return related results, or both fail in the same way. -/
inductive Agree (P : α → β → Prop) : Except ε α → Except ε β → Prop
  | ok {a : α} {b : β} (h : P a b) : Agree P (.ok a) (.ok b)
  | error (e : ε) : Agree P (.error e) (.error e)

namespace Agree

variable {P P' : α → β → Prop} {Q : γ → δ → Prop} {x : Except ε α} {y : Except ε β}

theorem refl (x : Except ε α) : Agree Eq x x := by
  cases x with
  | ok a => exact ok rfl
  | error e => exact error e

/-- One after the other. What comes first has returned its result. -/
theorem bind {f : α → Except ε γ} {g : β → Except ε δ} (h : Agree P x y)
    (hf : ∀ a b, P a b → y = .ok b → Agree Q (f a) (g b)) : Agree Q (x >>= f) (y >>= g) := by
  cases h with
  | ok h => exact hf _ _ h rfl
  | error e => exact error e

/-- A computation that both share. -/
theorem bind_same {f : α → Except ε γ} {g : α → Except ε δ} (h : ∀ a, x = .ok a → Agree Q (f a) (g a)) :
    Agree Q (x >>= f) (x >>= g) := by
  refine (refl x).bind fun a b hab hb => ?_
  subst hab
  exact h a hb

theorem ite {p : Prop} [Decidable p] {x' : Except ε α} {y' : Except ε β} (ht : p → Agree P x y)
    (he : ¬ p → Agree P x' y') : Agree P (if p then x else x') (if p then y else y') := by
  by_cases h : p
  · rw [if_pos h, if_pos h]
    exact ht h
  · rw [if_neg h, if_neg h]
    exact he h

theorem imp (h : Agree P x y) (hP : ∀ a b, P a b → P' a b) : Agree P' x y := by
  cases h with
  | ok h => exact ok (hP _ _ h)
  | error e => exact error e

theorem of_ok {a : α} (h : Agree P x y) (hx : x = .ok a) : ∃ b, y = .ok b ∧ P a b := by
  cases h with
  | ok h =>
    cases hx
    exact ⟨_, rfl, h⟩
  | error e => cases hx

theorem ok_of {b : β} (h : Agree P x y) (hy : y = .ok b) : ∃ a, x = .ok a ∧ P a b := by
  cases h with
  | ok h =>
    cases hy
    exact ⟨_, rfl, h⟩
  | error e => cases hy

end Agree
