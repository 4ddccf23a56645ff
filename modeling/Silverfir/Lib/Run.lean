import Mathlib.Logic.Relation

/-! Runs of a transition relation that stay inside a region, and the step that leaves it. -/
namespace Run

open Relation (ReflTransGen)

variable {α β : Type} {r : α → α → Prop}

/-- A step taken from a state of the region `p`. -/
def Within (r : α → α → Prop) (p : α → Prop) (x y : α) : Prop := p x ∧ r x y

theorem of_within {p : α → Prop} {x y : α} (h : ReflTransGen (Within r p) x y) : ReflTransGen r x y :=
  Relation.ReflTransGen.mono (fun _ _ h => h.2) _ _ h

/-- A run that leaves a region has a first step that does. -/
theorem exists_exit {p : α → Prop} {x z : α} (h : ReflTransGen r x z) (hx : p x) (hz : ¬ p z) :
    ∃ y y', ReflTransGen (Within r p) x y ∧ p y ∧ r y y' ∧ ¬ p y' ∧ ReflTransGen r y' z := by
  induction h using ReflTransGen.head_induction_on with
  | refl => exact absurd hx hz
  | @head a b hab hbz ih =>
    by_cases hb : p b
    · obtain ⟨y, y', hy, hpy, hstep, hpy', hrest⟩ := ih hb
      exact ⟨y, y', .head ⟨hx, hab⟩ hy, hpy, hstep, hpy', hrest⟩
    · exact ⟨a, b, .refl, hx, hab, hb, hbz⟩

/-- An invariant of the steps is an invariant of the runs. -/
theorem invariant {p : α → Prop} (hstep : ∀ x y, r x y → p x → p y) {x y : α}
    (h : ReflTransGen r x y) (hx : p x) : p y := by
  induction h with
  | refl => exact hx
  | tail _ hs ih => exact hstep _ _ hs ih

/-- A reflexive and transitive relation that holds of every step holds of every run. -/
theorem lift_preorder {s : α → α → Prop} (hrefl : ∀ x, s x x)
    (htrans : ∀ x y z, s x y → s y z → s x z) (hstep : ∀ x y, r x y → s x y) {x y : α}
    (h : ReflTransGen r x y) : s x y := by
  induction h with
  | refl => exact hrefl x
  | tail _ hs ih => exact htrans _ _ _ ih (hstep _ _ hs)

/-- The runs of a deterministic relation from one state are comparable. -/
theorem total {x y z : α} (hy : ReflTransGen r x y) (hz : ReflTransGen r x z)
    (hdet : ∀ a b c, r a b → r a c → b = c) : ReflTransGen r y z ∨ ReflTransGen r z y :=
  Relation.ReflTransGen.total_of_right_unique (fun a b c hb hc => hdet a b c hb hc) hy hz

end Run
