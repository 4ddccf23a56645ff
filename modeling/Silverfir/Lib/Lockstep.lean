import Silverfir.Lib.Loop
import Mathlib.Data.Nat.Notation
import Mathlib.Tactic.Common

/-! Two machines that take their steps together. A step can fail. -/
namespace Lockstep

variable {ε α β : Type}

/-- `n` steps of a machine. -/
def steps (f : α → Except ε α) : ℕ → α → Except ε α
  | 0, a => .ok a
  | n + 1, a => f a >>= steps f n

theorem steps_add (f : α → Except ε α) (m n : ℕ) (a : α) : steps f (m + n) a = steps f m a >>= steps f n := by
  induction m generalizing a with
  | zero => rw [Nat.zero_add]; rfl
  | succ m ih =>
    rw [Nat.succ_add, steps, steps]
    cases f a with
    | error e => rfl
    | ok a' => exact ih a'

/-- Both fail, with failures that `E` relates, or both end, in states that `S` relates. -/
inductive Both (E : ε → ε → Prop) (S : α → β → Prop) : Except ε α → Except ε β → Prop
  | ok {a b} (h : S a b) : Both E S (.ok a) (.ok b)
  | error {e e'} (h : E e e') : Both E S (.error e) (.error e')

variable {E : ε → ε → Prop} {S : α → β → Prop}

theorem Both.bind {γ δ : Type} {T : γ → δ → Prop} {x : Except ε α} {y : Except ε β} {f : α → Except ε γ}
    {g : β → Except ε δ} (h : Both E S x y) (hf : ∀ a b, x = .ok a → y = .ok b → S a b → Both E T (f a) (g b)) :
    Both E T (x >>= f) (y >>= g) := by
  cases h with
  | ok hs => exact hf _ _ rfl rfl hs
  | error he => exact .error he

/-- A computation of its own on either side. -/
theorem Both.refl (hE : ∀ e, E e e) (x : Except ε α) : Both E Eq x x := by
  cases x with
  | ok a => exact .ok rfl
  | error e => exact .error (hE e)

theorem Both.imp {T : α → β → Prop} {x : Except ε α} {y : Except ε β} (h : Both E S x y)
    (hT : ∀ a b, x = .ok a → y = .ok b → S a b → T a b) : Both E T x y := by
  cases h with
  | ok hs => exact .ok (hT _ _ rfl rfl hs)
  | error he => exact .error he

/-- A relation that every step keeps, where the condition `C` holds, is kept by the runs that meet the
condition before every step. -/
theorem steps_both {f : α → Except ε α} {g : β → Except ε β} {C : α → β → Prop}
    (hstep : ∀ a b, S a b → C a b → Both E S (f a) (g b)) (n : ℕ) {a : α} {b : β} (hs : S a b)
    (hc : ∀ m < n, ∀ a' b', steps f m a = .ok a' → steps g m b = .ok b' → C a' b') :
    Both E S (steps f n a) (steps g n b) := by
  induction n generalizing a b with
  | zero => exact .ok hs
  | succ n ih =>
    refine (hstep a b hs (hc 0 (Nat.succ_pos n) a b rfl rfl)).bind fun a1 b1 ha hb hs1 => ih hs1 ?_
    intro m hm a' b' ha' hb'
    refine hc (m + 1) (Nat.succ_lt_succ hm) a' b' ?_ ?_
    · rw [steps, ha]
      exact ha'
    · rw [steps, hb]
      exact hb'

/-! ### One of them may stop -/

/-- Both do the same, except that the left one may stop at any time with a failure of the kind `F`. -/
inductive Until (F : ε → Prop) (E : ε → ε → Prop) (S : α → β → Prop) : Except ε α → Except ε β → Prop
  | ok {a b} (h : S a b) : Until F E S (.ok a) (.ok b)
  | error {e e'} (h : E e e') : Until F E S (.error e) (.error e')
  | stop {e y} (h : F e) : Until F E S (.error e) y

variable {F : ε → Prop}

theorem Until.bind {γ δ : Type} {T : γ → δ → Prop} {x : Except ε α} {y : Except ε β} {f : α → Except ε γ}
    {g : β → Except ε δ} (h : Until F E S x y) (hf : ∀ a b, x = .ok a → y = .ok b → S a b → Until F E T (f a) (g b)) :
    Until F E T (x >>= f) (y >>= g) := by
  cases h with
  | ok hs => exact hf _ _ rfl rfl hs
  | error he => exact .error he
  | stop hstop => exact .stop hstop

/-- A step of the left one alone. -/
theorem Until.left {γ δ : Type} {T : γ → δ → Prop} {x : Except ε α} {f : α → Except ε γ} {y : Except ε δ} {b : β}
    (h : Until F E S x (.ok b)) (hf : ∀ a, x = .ok a → S a b → Until F E T (f a) y) : Until F E T (x >>= f) y := by
  cases h with
  | ok hs => exact hf _ rfl hs
  | stop hstop => exact .stop hstop

theorem Until.imp {T : α → β → Prop} {x : Except ε α} {y : Except ε β} (h : Until F E S x y)
    (hT : ∀ a b, S a b → T a b) : Until F E T x y := by
  cases h with
  | ok hs => exact .ok (hT _ _ hs)
  | error he => exact .error he
  | stop hstop => exact .stop hstop

theorem Until.ite {p : Prop} [Decidable p] {x x' : Except ε α} {y y' : Except ε β} (h : p → Until F E S x y)
    (h' : ¬ p → Until F E S x' y') : Until F E S (if p then x else x') (if p then y else y') := by
  by_cases hp : p
  · rw [if_pos hp, if_pos hp]
    exact h hp
  · rw [if_neg hp, if_neg hp]
    exact h' hp

/-- Rounds in step; `P` holds with the number of the rounds that are left. -/
theorem Until.times {P : ℕ → α → β → Prop} {f : α → Except ε α} {g : β → Except ε β}
    (hstep : ∀ n a b, P (n + 1) a b → Until F E (P n) (f a) (g b)) {n : ℕ} {a : α} {b : β} (h : P n a b) :
    Until F E (P 0) (Loop.times f n a) (Loop.times g n b) := by
  induction n generalizing a b with
  | zero => exact .ok h
  | succ n ih =>
    have hround := hstep n a b h
    rw [Loop.times, Loop.times]
    generalize f a = x, g b = y at hround
    cases hround with
    | ok hs => exact ih hs
    | error he => exact .error he
    | stop hstop => exact .stop hstop

end Lockstep
