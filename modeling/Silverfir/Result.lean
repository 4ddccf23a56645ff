import Mathlib.Logic.Relation

/-! Results of fallible code: the error strings of `result.h`, and behaviour that C
leaves undefined. -/
namespace Silverfir

inductive ErrType where
  | general | malformed | invalid | unlinkable | exhaustion | trap | exit
  deriving DecidableEq, Repr

/-- `err` carries the `e_*` class and the message. `undefined` stands for an access outside
an object or a failed assertion: the source has no defined result there. -/
inductive Fault where
  | err (type : ErrType) (msg : String)
  | undefined (what : String)
  deriving DecidableEq, Repr

abbrev R (α : Type) := Except Fault α

def err {α : Type} (type : ErrType) (msg : String) : R α := .error (.err type msg)

def undef {α : Type} (what : String) : R α := .error (.undefined what)

instance {α : Type} [DecidableEq α] : DecidableEq (R α)
  | .ok a, .ok b => decidable_of_iff (a = b) (by simp)
  | .error a, .error b => decidable_of_iff (a = b) (by simp)
  | .ok _, .error _ => isFalse (by simp)
  | .error _, .ok _ => isFalse (by simp)

theorem bind_eq_ok {α β : Type} {x : R α} {f : α → R β} {b : β} :
    x >>= f = .ok b ↔ ∃ a, x = .ok a ∧ f a = .ok b := by
  cases x <;> simp [bind, Except.bind]

@[simp] theorem ok_bind {α β : Type} (a : α) (f : α → R β) : (Except.ok a : R α) >>= f = f a := rfl

@[simp] theorem error_bind {α β : Type} (e : Fault) (f : α → R β) :
    (Except.error e : R α) >>= f = .error e := rfl

@[simp] theorem pure_eq_ok {α : Type} (a : α) : (pure a : R α) = .ok a := rfl

@[simp] theorem err_ne_ok {α : Type} (t : ErrType) (m : String) (a : α) :
    (err t m : R α) ≠ .ok a := by simp [err]

@[simp] theorem undef_ne_ok {α : Type} (w : String) (a : α) : (undef w : R α) ≠ .ok a := by
  simp [undef]

/-- The guard `if (cond) return err(...)` in front of the rest of a function. -/
theorem guard_eq_ok {α : Type} {p : Prop} [Decidable p] {t : ErrType} {m : String} {x : R α} {a : α} :
    (if p then err t m else x) = .ok a ↔ ¬ p ∧ x = .ok a := by
  by_cases h : p <;> simp [h]

end Silverfir
