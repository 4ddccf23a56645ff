import Silverfir.Lib.FloatBits

/-! The floating point functions of `smath.h` on bit patterns. The functions on `f32` and on `f64`
are one text with other constants. -/
namespace Silverfir.Smath
open FloatBits

/-- What the 32 bit and the 64 bit functions differ in. -/
structure Constants (f w : ℕ) where
  /-- `s_qnan32`, an integer -/
  qnan : ℕ
  negZero : BitVec w
  magMask : BitVec w
  signMask : BitVec w
  expMask : BitVec w
  room : f + 2 < w
  qnan_lt : qnan < 2 ^ (bias f w + 1)
  negZero_signMag : signMag negZero = -1
  magMask_bits : ∀ i < w, magMask.getLsbD i = decide (i < w - 1)
  signMask_bits : ∀ i < w, signMask.getLsbD i = decide (i = w - 1)
  expMask_bits : ∀ i < w, expMask.getLsbD i = decide (f ≤ i ∧ i < w - 1)

def single : Constants 23 32 where
  qnan := 0x7fc00000
  negZero := 0x80000000
  magMask := 0x7fffffff
  signMask := 0x80000000
  expMask := 0x7f800000
  room := by decide
  qnan_lt := by decide +kernel
  negZero_signMag := by decide
  magMask_bits := by decide
  signMask_bits := by decide
  expMask_bits := by decide

def double : Constants 52 64 where
  qnan := 0x7ff8000000000000
  negZero := 0x8000000000000000
  magMask := 0x7fffffffffffffff
  signMask := 0x8000000000000000
  expMask := 0x7ff0000000000000
  room := by decide
  qnan_lt := by decide +kernel
  negZero_signMag := by decide
  magMask_bits := by decide
  signMask_bits := by decide
  expMask_bits := by decide

section Functions
variable {f w : ℕ} (c : Constants f w)

def isnan (x : BitVec w) : Prop := x &&& c.expMask = c.expMask ∧ x &&& c.magMask ≠ c.expMask

def fabs (x : BitVec w) : BitVec w := x &&& c.magMask

def copysign (x sign : BitVec w) : BitVec w := (sign &&& c.signMask) ||| (x &&& c.magMask)

/-- The conditional expression of `s_fmin` and `s_fmax`. Its other arms have a floating type, so
`s_qnan` is converted to it as a number. -/
def fselect (zero : BitVec w) (first : Prop) [Decidable first] (x y : BitVec w) : BitVec w :=
  if ¬ NumEq f x x then ofNat f w c.qnan
  else if ¬ NumEq f y y then ofNat f w c.qnan
  else if NumEq f x 0 ∧ NumEq f y 0 then (if x = y then x else zero)
  else if first then x else y

def fmin (x y : BitVec w) : BitVec w := fselect c c.negZero (NumLt f x y) x y

def fmax (x y : BitVec w) : BitVec w := fselect c 0 (NumLt f y x) x y

end Functions

def sIsnan32 : BitVec 32 → Prop := isnan single
def sIsnan64 : BitVec 64 → Prop := isnan double
def sFabs32 : BitVec 32 → BitVec 32 := fabs single
def sFabs64 : BitVec 64 → BitVec 64 := fabs double
def sFmin32 : BitVec 32 → BitVec 32 → BitVec 32 := fmin single
def sFmin64 : BitVec 64 → BitVec 64 → BitVec 64 := fmin double
def sFmax32 : BitVec 32 → BitVec 32 → BitVec 32 := fmax single
def sFmax64 : BitVec 64 → BitVec 64 → BitVec 64 := fmax double
def sCopysign32 : BitVec 32 → BitVec 32 → BitVec 32 := copysign single
def sCopysign64 : BitVec 64 → BitVec 64 → BitVec 64 := copysign double

/-! ### What they are for -/

/-- The result is a NaN when an operand is, and else the operand that is better in sign-magnitude
order. -/
structure Selects (f : ℕ) (better : ℤ → ℤ → ℤ) {w : ℕ} (x y r : BitVec w) : Prop where
  nan : IsNaN f x ∨ IsNaN f y → IsNaN f r
  operand : ¬ IsNaN f x → ¬ IsNaN f y → r = x ∨ r = y
  best : ¬ IsNaN f x → ¬ IsNaN f y → signMag r = better (signMag x) (signMag y)

/-- The sign is `s` and all other bits are those of `x`. -/
structure SignIs {w : ℕ} (s : Bool) (x r : BitVec w) : Prop where
  sign : r.msb = s
  rest : ∀ i < w - 1, r.getLsbD i = x.getLsbD i

section Lemmas
variable {f w : ℕ} {c : Constants f w} {x y : BitVec w}

theorem toNat_magMask : (x &&& c.magMask).toNat = magBits x := by
  have hroom := c.room
  apply Nat.eq_of_testBit_eq
  intro i
  rw [BitVec.testBit_toNat, BitVec.getLsbD_and, magBits, Nat.testBit_mod_two_pow, BitVec.testBit_toNat]
  by_cases hi : i < w
  · rw [c.magMask_bits i hi, Bool.and_comm]
  · rw [BitVec.getLsbD_of_ge x i (by omega)]
    simp

theorem toNat_expMask : c.expMask.toNat = (2 ^ (w - 1 - f) - 1) * 2 ^ f := by
  have hroom := c.room
  apply Nat.eq_of_testBit_eq
  intro i
  rw [BitVec.testBit_toNat, Nat.testBit_mul_two_pow, Nat.testBit_two_pow_sub_one]
  by_cases hi : i < w
  · rw [c.expMask_bits i hi, ← Bool.decide_and, decide_eq_decide]
    omega
  · have hge : ¬ i - f < w - 1 - f := by omega
    rw [BitVec.getLsbD_of_ge c.expMask i (by omega), decide_eq_false hge, Bool.and_false]

/-- A word whose exponent field is full has all its bits set. -/
theorem and_expMask (h : (2 ^ (w - 1 - f) - 1) * 2 ^ f ≤ magBits x) : x &&& c.expMask = c.expMask := by
  have hroom := c.room
  have hpow : 2 ^ (w - 1) = 2 ^ (w - 1 - f) * 2 ^ f := by
    rw [← Nat.pow_add]
    congr 1
    omega
  have hlt : magBits x < 2 ^ (w - 1) := Nat.mod_lt _ (Nat.two_pow_pos _)
  have hpos := Nat.two_pow_pos (w - 1 - f)
  have hquot : magBits x / 2 ^ f = 2 ^ (w - 1 - f) - 1 := by
    apply Nat.div_eq_of_lt_le h
    rw [Nat.sub_add_cancel hpos, ← hpow]
    exact hlt
  apply BitVec.eq_of_getLsbD_eq
  intro i hi
  rw [BitVec.getLsbD_and, c.expMask_bits i hi]
  by_cases hin : f ≤ i ∧ i < w - 1
  · have hbit : (magBits x / 2 ^ f).testBit (i - f) = true := by
      rw [hquot, Nat.testBit_two_pow_sub_one]
      simp only [decide_eq_true_eq]
      omega
    rw [Nat.testBit_div_two_pow, Nat.sub_add_cancel hin.1, magBits, Nat.testBit_mod_two_pow,
      BitVec.testBit_toNat, Bool.and_eq_true] at hbit
    rw [hbit.2, Bool.true_and]
  · rw [decide_eq_false hin, Bool.and_false]

/-- `s_isnan` agrees with `x != x`. -/
theorem isnan_iff : isnan c x ↔ IsNaN f x := by
  have hroom := c.room
  have hmag : x &&& c.magMask = c.expMask ↔ magBits x = (2 ^ (w - 1 - f) - 1) * 2 ^ f := by
    rw [← BitVec.toNat_inj, toNat_magMask, toNat_expMask]
  unfold isnan
  rw [isNaN_iff f (by omega), Ne, hmag]
  constructor
  · rintro ⟨hexp, hne⟩
    have hbits : ∀ i < w, c.expMask.getLsbD i = true → (x &&& c.magMask).getLsbD i = true := by
      intro i hi hset
      have hx : (x &&& c.expMask).getLsbD i = true := by rw [hexp, hset]
      rw [BitVec.getLsbD_and, Bool.and_eq_true] at hx
      rw [c.expMask_bits i hi, decide_eq_true_eq] at hset
      rw [BitVec.getLsbD_and, hx.1, c.magMask_bits i hi, decide_eq_true hset.2, Bool.and_self]
    have hand : c.expMask = (x &&& c.magMask) &&& c.expMask := by
      apply BitVec.eq_of_getLsbD_eq
      intro i hi
      rw [BitVec.getLsbD_and]
      cases hset : c.expMask.getLsbD i with
      | false => rw [Bool.and_false]
      | true => rw [hbits i hi hset, Bool.and_self]
    have hle : c.expMask.toNat ≤ (x &&& c.magMask).toNat := by
      rw [hand, BitVec.toNat_and (x &&& c.magMask)]
      exact Nat.and_le_left
    rw [toNat_magMask, toNat_expMask] at hle
    omega
  · intro h
    refine ⟨and_expMask (by omega), ?_⟩
    omega

theorem eq_self_iff : NumEq f x x ↔ ¬ IsNaN f x := by
  unfold NumEq
  constructor
  · intro h
    exact h.1
  · intro h
    exact ⟨h, h, rfl⟩

theorem magBits_zero : magBits (0 : BitVec w) = 0 := by simp [magBits]

theorem signMag_zero : signMag (0 : BitVec w) = 0 := by simp [signMag, magBits]

theorem eq_zero_iff (hw : f + 1 < w) : NumEq f x 0 ↔ magBits x = 0 := by
  have hzero : ¬ IsNaN f (0 : BitVec w) := by
    rw [isNaN_iff f hw, magBits_zero]
    omega
  have hscaled : scaled f (0 : BitVec w) = 0 := (scaled_eq_zero_iff f).mpr magBits_zero
  unfold NumEq
  rw [hscaled, scaled_eq_zero_iff, isNaN_iff f hw]
  constructor
  · intro h
    exact h.2.2
  · intro h
    refine ⟨?_, hzero, h⟩
    omega

theorem signMag_of_zero (h : magBits x = 0) : signMag x = 0 ∨ signMag x = -1 := by
  unfold signMag
  rw [h]
  split_ifs <;> simp

/-- Outside the zeros the values are ordered as the patterns are. -/
theorem lt_iff (hx : ¬ IsNaN f x) (hy : ¬ IsNaN f y) (hz : ¬ (magBits x = 0 ∧ magBits y = 0)) :
    NumLt f x y ↔ signMag x < signMag y := by
  unfold NumLt
  rw [scaled_lt_iff]
  tauto

theorem fselect_of_nan {zero : BitVec w} {first : Prop} [Decidable first] (h : IsNaN f x ∨ IsNaN f y) :
    fselect c zero first x y = ofNat f w c.qnan := by
  unfold fselect
  simp only [eq_self_iff, not_not]
  rcases h with hx | hy
  · rw [if_pos hx]
  · rw [if_pos hy, ite_self]

theorem qnan_not_nan (c : Constants f w) : ¬ IsNaN f (ofNat f w c.qnan) := not_isNaN_ofNat f c.room c.qnan_lt

/-- Of two zeros with different bits one is `-0` and the other is `+0`. -/
theorem zeros_differ (hw : 0 < w) (hx : magBits x = 0) (hy : magBits y = 0) (hne : x ≠ y) :
    signMag x = 0 ∧ signMag y = -1 ∨ signMag x = -1 ∧ signMag y = 0 := by
  have hsign : signMag x ≠ signMag y := fun h => hne (signMag_injective hw h)
  have := signMag_of_zero hx
  have := signMag_of_zero hy
  omega

theorem fselect_selects {zero : BitVec w} {first : Prop} [Decidable first] {better : ℤ → ℤ → ℤ}
    (hx : ¬ IsNaN f x) (hy : ¬ IsNaN f y) (hone : ∀ a b, better a b = a ∨ better a b = b)
    (hzero : magBits x = 0 → magBits y = 0 → x ≠ y → signMag zero = better (signMag x) (signMag y))
    (hfirst : ¬ (magBits x = 0 ∧ magBits y = 0) →
      better (signMag x) (signMag y) = if first then signMag x else signMag y) :
    (fselect c zero first x y = x ∨ fselect c zero first x y = y) ∧
      signMag (fselect c zero first x y) = better (signMag x) (signMag y) := by
  have hroom := c.room
  unfold fselect
  simp only [eq_self_iff, eq_zero_iff (show f + 1 < w by omega), not_not]
  rw [if_neg hx, if_neg hy]
  by_cases hz : magBits x = 0 ∧ magBits y = 0
  · rw [if_pos hz]
    split_ifs with heq
    · have hsame := hone (signMag x) (signMag x)
      refine ⟨Or.inl rfl, ?_⟩
      rw [← heq]
      omega
    · have hval := hzero hz.1 hz.2 heq
      refine ⟨?_, hval⟩
      rcases hone (signMag x) (signMag y) with h | h
      · exact Or.inl (signMag_injective (by omega) (hval.trans h))
      · exact Or.inr (signMag_injective (by omega) (hval.trans h))
  · have hval := hfirst hz
    rw [if_neg hz]
    split_ifs with h
    · rw [if_pos h] at hval
      exact ⟨Or.inl rfl, hval.symm⟩
    · rw [if_neg h] at hval
      exact ⟨Or.inr rfl, hval.symm⟩

theorem fmin_selects (hx : ¬ IsNaN f x) (hy : ¬ IsNaN f y) :
    (fmin c x y = x ∨ fmin c x y = y) ∧ signMag (fmin c x y) = min (signMag x) (signMag y) := by
  have hroom := c.room
  have hneg := c.negZero_signMag
  apply fselect_selects hx hy
  · intro a b
    omega
  · intro hzx hzy hne
    have := zeros_differ (by omega) hzx hzy hne
    omega
  · intro hz
    have hlt := lt_iff hx hy hz
    split_ifs with h
    · have := hlt.mp h
      omega
    · have := mt hlt.mpr h
      omega

theorem fmax_selects (hx : ¬ IsNaN f x) (hy : ¬ IsNaN f y) :
    (fmax c x y = x ∨ fmax c x y = y) ∧ signMag (fmax c x y) = max (signMag x) (signMag y) := by
  have hroom := c.room
  have hpos : signMag (0 : BitVec w) = 0 := signMag_zero
  apply fselect_selects hx hy
  · intro a b
    omega
  · intro hzx hzy hne
    have := zeros_differ (by omega) hzx hzy hne
    omega
  · intro hz
    have hlt := lt_iff hy hx fun h => hz h.symm
    split_ifs with h
    · have := hlt.mp h
      omega
    · have := mt hlt.mpr h
      omega

theorem fabs_sign : SignIs false x (fabs c x) := by
  have hroom := c.room
  constructor
  · unfold fabs
    rw [BitVec.msb_eq_getLsbD_last, BitVec.getLsbD_and, c.magMask_bits (w - 1) (by omega)]
    simp
  · intro i hi
    unfold fabs
    rw [BitVec.getLsbD_and, c.magMask_bits i (by omega)]
    simp [hi]

theorem copysign_sign : SignIs y.msb x (copysign c x y) := by
  have hroom := c.room
  constructor
  · unfold copysign
    rw [BitVec.msb_eq_getLsbD_last, BitVec.msb_eq_getLsbD_last, BitVec.getLsbD_or, BitVec.getLsbD_and,
      BitVec.getLsbD_and, c.magMask_bits (w - 1) (by omega), c.signMask_bits (w - 1) (by omega)]
    simp
  · intro i hi
    have hne : i ≠ w - 1 := by omega
    unfold copysign
    rw [BitVec.getLsbD_or, BitVec.getLsbD_and, BitVec.getLsbD_and, c.magMask_bits i (by omega),
      c.signMask_bits i (by omega)]
    simp [hi, hne]

end Lemmas

/-! ### Main result -/

inductive Fn where
  | fmin | fmax | fabs | copysign
  deriving DecidableEq, Repr

namespace Fn

def run32 : Fn → BitVec 32 → BitVec 32 → BitVec 32
  | .fmin => sFmin32
  | .fmax => sFmax32
  | .fabs => fun x _ => sFabs32 x
  | .copysign => sCopysign32

def run64 : Fn → BitVec 64 → BitVec 64 → BitVec 64
  | .fmin => sFmin64
  | .fmax => sFmax64
  | .fabs => fun x _ => sFabs64 x
  | .copysign => sCopysign64

def Meets (f : ℕ) {w : ℕ} (x y r : BitVec w) : Fn → Prop
  | .fmin => Selects f min x y r
  | .fmax => Selects f max x y r
  | .fabs => SignIs false x r
  | .copysign => SignIs y.msb x r

/-- A NaN among the operands of a minimum or a maximum. -/
def NanOperand (f : ℕ) {w : ℕ} (x y : BitVec w) : Fn → Prop
  | .fmin | .fmax => IsNaN f x ∨ IsNaN f y
  | .fabs | .copysign => False

end Fn

section Main
variable {f w : ℕ} (c : Constants f w) (x y : BitVec w)

theorem selects_iff {better : ℤ → ℤ → ℤ} {r : BitVec w}
    (hnan : IsNaN f x ∨ IsNaN f y → r = ofNat f w c.qnan)
    (hsel : ¬ IsNaN f x → ¬ IsNaN f y → (r = x ∨ r = y) ∧ signMag r = better (signMag x) (signMag y)) :
    Selects f better x y r ↔ ¬ (IsNaN f x ∨ IsNaN f y) := by
  constructor
  · intro h hor
    have hr := h.nan hor
    rw [hnan hor] at hr
    exact qnan_not_nan c hr
  · intro h
    constructor
    · intro hor
      exact absurd hor h
    · intro hx hy
      exact (hsel hx hy).1
    · intro hx hy
      exact (hsel hx hy).2

theorem fmin_selects_iff : Selects f min x y (fmin c x y) ↔ ¬ (IsNaN f x ∨ IsNaN f y) :=
  selects_iff c x y fselect_of_nan fmin_selects

theorem fmax_selects_iff : Selects f max x y (fmax c x y) ↔ ¬ (IsNaN f x ∨ IsNaN f y) :=
  selects_iff c x y fselect_of_nan fmax_selects

end Main

/-- The functions do what they are for exactly when no operand of a minimum or maximum is a NaN. -/
theorem float_functions (fn : Fn) :
    (∀ x y : BitVec 32, fn.Meets 23 x y (fn.run32 x y) ↔ ¬ fn.NanOperand 23 x y) ∧
    ∀ x y : BitVec 64, fn.Meets 52 x y (fn.run64 x y) ↔ ¬ fn.NanOperand 52 x y := by
  constructor
  · intro x y
    cases fn with
    | fmin => exact fmin_selects_iff single x y
    | fmax => exact fmax_selects_iff single x y
    | fabs => exact iff_of_true fabs_sign not_false
    | copysign => exact iff_of_true copysign_sign not_false
  · intro x y
    cases fn with
    | fmin => exact fmin_selects_iff double x y
    | fmax => exact fmax_selects_iff double x y
    | fabs => exact iff_of_true fabs_sign not_false
    | copysign => exact iff_of_true copysign_sign not_false

/-- The minimum of a NaN and `1.0` is the number `2143289344.0`. -/
theorem fmin_nan_number : ¬ ∀ (fn : Fn) (x y : BitVec 32), fn.Meets 23 x y (fn.run32 x y) := by
  intro h
  have hr := (h .fmin 0x7fc00000 0x3f800000).nan (by decide)
  have hval : Fn.run32 .fmin 0x7fc00000 0x3f800000 = 0x4eff8000 := by decide +kernel
  rw [hval] at hr
  exact absurd hr (by decide)

end Silverfir.Smath
