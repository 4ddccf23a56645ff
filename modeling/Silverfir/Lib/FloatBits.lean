import Mathlib.Data.Nat.Notation
import Mathlib.Data.Int.Notation
import Mathlib.Data.Nat.Log
import Mathlib.Tactic.Common
import Mathlib.Tactic.Ring
import Mathlib.Tactic.Linarith

/-! Binary floating point numbers as bit patterns: one sign bit, an exponent field and a fraction of
`f` bits in a word of `w` bits. Values are compared as integers, in units of the least subnormal
number; infinity counts as the number that follows the greatest finite one. -/
namespace FloatBits

variable {w : ℕ} (f : ℕ)

/-- The bits below the sign. -/
def magBits (x : BitVec w) : ℕ := x.toNat % 2 ^ (w - 1)

def exponent (x : BitVec w) : ℕ := magBits x / 2 ^ f

def fraction (x : BitVec w) : ℕ := magBits x % 2 ^ f

def IsNaN (x : BitVec w) : Prop := exponent f x = 2 ^ (w - 1 - f) - 1 ∧ fraction f x ≠ 0

instance (x : BitVec w) : Decidable (IsNaN f x) := inferInstanceAs (Decidable (_ ∧ _))

def magnitude (x : BitVec w) : ℕ :=
  if exponent f x = 0 then fraction f x else (2 ^ f + fraction f x) * 2 ^ (exponent f x - 1)

def scaled (x : BitVec w) : ℤ := if x.msb then -(magnitude f x : ℤ) else magnitude f x

/-- `x == y` -/
def NumEq (x y : BitVec w) : Prop := ¬ IsNaN f x ∧ ¬ IsNaN f y ∧ scaled f x = scaled f y

/-- `x < y` -/
def NumLt (x y : BitVec w) : Prop := ¬ IsNaN f x ∧ ¬ IsNaN f y ∧ scaled f x < scaled f y

instance (x y : BitVec w) : Decidable (NumEq f x y) := inferInstanceAs (Decidable (_ ∧ _))

instance (x y : BitVec w) : Decidable (NumLt f x y) := inferInstanceAs (Decidable (_ ∧ _))

/-- Sign-magnitude order, `-0` below `+0`. -/
def signMag (x : BitVec w) : ℤ := if x.msb then -(magBits x : ℤ) - 1 else magBits x

/-! ### The order of the values is the order of the patterns -/

theorem fields (x : BitVec w) : exponent f x * 2 ^ f + fraction f x = magBits x := by
  unfold exponent fraction
  rw [Nat.mul_comm]
  exact Nat.div_add_mod (magBits x) (2 ^ f)

theorem fraction_lt (x : BitVec w) : fraction f x < 2 ^ f := Nat.mod_lt _ (Nat.two_pow_pos f)

/-- All numbers with the exponent of `x` lie below the next power of two. -/
theorem magnitude_lt_pow (x : BitVec w) : magnitude f x < 2 ^ f * 2 ^ exponent f x := by
  have hfrac := fraction_lt f x
  unfold magnitude
  split_ifs with hzero
  · rw [hzero, Nat.pow_zero, Nat.mul_one]
    exact hfrac
  · have hpow : 2 ^ exponent f x = 2 * 2 ^ (exponent f x - 1) := by
      rw [← Nat.pow_succ']
      congr 1
      omega
    have hlt : (2 ^ f + fraction f x) * 2 ^ (exponent f x - 1) < (2 ^ f + 2 ^ f) * 2 ^ (exponent f x - 1) := by
      apply Nat.mul_lt_mul_of_pos_right _ (Nat.two_pow_pos _)
      omega
    calc (2 ^ f + fraction f x) * 2 ^ (exponent f x - 1)
        < (2 ^ f + 2 ^ f) * 2 ^ (exponent f x - 1) := hlt
      _ = 2 ^ f * 2 ^ exponent f x := by rw [hpow]; ring

theorem pow_le_magnitude {x : BitVec w} (h : exponent f x ≠ 0) :
    2 ^ f * 2 ^ (exponent f x - 1) ≤ magnitude f x := by
  unfold magnitude
  rw [if_neg h]
  apply Nat.mul_le_mul_right
  omega

theorem magnitude_lt {x y : BitVec w} (h : magBits x < magBits y) : magnitude f x < magnitude f y := by
  have hx := fields f x
  have hy := fields f y
  have hfrac := fraction_lt f y
  have hle : exponent f x ≤ exponent f y := Nat.div_le_div_right h.le
  rcases hle.lt_or_eq with hlt | heq
  · have hnext : 2 ^ exponent f x ≤ 2 ^ (exponent f y - 1) := Nat.pow_le_pow_right (by omega) (by omega)
    calc magnitude f x < 2 ^ f * 2 ^ exponent f x := magnitude_lt_pow f x
      _ ≤ 2 ^ f * 2 ^ (exponent f y - 1) := Nat.mul_le_mul_left _ hnext
      _ ≤ magnitude f y := pow_le_magnitude f (by omega)
  · have hf : fraction f x < fraction f y := by
      rw [heq] at hx
      omega
    unfold magnitude
    rw [heq]
    split_ifs with hzero
    · exact hf
    · apply Nat.mul_lt_mul_of_pos_right _ (Nat.two_pow_pos _)
      omega

theorem magnitude_lt_iff {x y : BitVec w} : magnitude f x < magnitude f y ↔ magBits x < magBits y := by
  constructor
  · intro h
    by_contra hge
    have heq : magBits x = magBits y ∨ magBits y < magBits x := by omega
    rcases heq with heq | hlt
    · have hsame : magnitude f x = magnitude f y := by
        unfold magnitude exponent fraction
        rw [heq]
      omega
    · have := magnitude_lt f hlt
      omega
  · exact magnitude_lt f

theorem magnitude_eq_zero_iff {x : BitVec w} : magnitude f x = 0 ↔ magBits x = 0 := by
  have hx := fields f x
  have hpos := Nat.two_pow_pos f
  unfold magnitude
  split_ifs with hzero
  · rw [hzero] at hx
    omega
  · have hmul : 0 < (2 ^ f + fraction f x) * 2 ^ (exponent f x - 1) :=
      Nat.mul_pos (by omega) (Nat.two_pow_pos _)
    have hexp : 0 < exponent f x * 2 ^ f := Nat.mul_pos (by omega) hpos
    omega

theorem scaled_eq_zero_iff {x : BitVec w} : scaled f x = 0 ↔ magBits x = 0 := by
  rw [← magnitude_eq_zero_iff f]
  unfold scaled
  split_ifs <;> omega

/-- The order of the values refines to the sign-magnitude order, which only tells the zeros apart. -/
theorem scaled_lt_iff {x y : BitVec w} :
    scaled f x < scaled f y ↔ signMag x < signMag y ∧ ¬ (magBits x = 0 ∧ magBits y = 0) := by
  have hxy := magnitude_lt_iff f (x := x) (y := y)
  have hyx := magnitude_lt_iff f (x := y) (y := x)
  have hx := magnitude_eq_zero_iff f (x := x)
  have hy := magnitude_eq_zero_iff f (x := y)
  unfold scaled signMag
  split_ifs <;> omega

theorem toNat_eq (hw : 0 < w) (x : BitVec w) : x.toNat = (if x.msb then 2 ^ (w - 1) else 0) + magBits x := by
  have hlt := x.isLt
  have hpow : 2 ^ w = 2 * 2 ^ (w - 1) := by
    rw [← Nat.pow_succ']
    congr 1
    omega
  have hmod := Nat.div_add_mod x.toNat (2 ^ (w - 1))
  have hdiv : x.toNat / 2 ^ (w - 1) < 2 := Nat.div_lt_of_lt_mul (by omega)
  have hmsb : x.msb = decide (2 ^ (w - 1) ≤ x.toNat) := BitVec.msb_eq_decide x
  unfold magBits
  rw [hmsb]
  by_cases hle : 2 ^ (w - 1) ≤ x.toNat
  · have hone : x.toNat / 2 ^ (w - 1) = 1 := by
      have := (Nat.one_le_div_iff (Nat.two_pow_pos (w - 1))).mpr hle
      omega
    rw [hone] at hmod
    simp only [hle, decide_true, if_true]
    omega
  · rw [Nat.mod_eq_of_lt (by omega)]
    simp [hle]

theorem signMag_injective (hw : 0 < w) {x y : BitVec w} (h : signMag x = signMag y) : x = y := by
  have hx := toNat_eq hw x
  have hy := toNat_eq hw y
  have hmsb : x.msb = y.msb := by
    unfold signMag at h
    split_ifs at h <;> simp_all <;> omega
  have hmag : magBits x = magBits y := by
    unfold signMag at h
    rw [hmsb] at h
    split_ifs at h <;> omega
  apply BitVec.eq_of_toNat_eq
  rw [hx, hy, hmsb, hmag]

/-! ### Conversion of an unsigned integer -/

/-- `n / 2 ^ s` rounded to the nearest integer, ties to even. -/
def roundShift (n s : ℕ) : ℕ :=
  if 2 ^ s < 2 * (n % 2 ^ s) ∨ (2 * (n % 2 ^ s) = 2 ^ s ∧ n / 2 ^ s % 2 = 1) then n / 2 ^ s + 1 else n / 2 ^ s

def bias (w : ℕ) : ℕ := 2 ^ (w - 2 - f) - 1

/-- The number nearest to `n`. A significand rounded up to the next power of two carries into the
exponent by itself. -/
def ofNat (w n : ℕ) : BitVec w :=
  if n = 0 then 0
  else
    let k := Nat.log2 n
    let significand := if k ≤ f then n * 2 ^ (f - k) else roundShift n (k - f)
    BitVec.ofNat w ((bias f w + k) * 2 ^ f + (significand - 2 ^ f))

theorem roundShift_le (n s : ℕ) : roundShift n s ≤ n / 2 ^ s + 1 := by
  unfold roundShift
  split_ifs <;> omega

theorem isNaN_iff {x : BitVec w} (hw : f + 1 < w) : IsNaN f x ↔ (2 ^ (w - 1 - f) - 1) * 2 ^ f < magBits x := by
  have hx := fields f x
  have hfrac := fraction_lt f x
  have hlt : exponent f x < 2 ^ (w - 1 - f) := by
    apply Nat.div_lt_of_lt_mul
    rw [← Nat.pow_add, show f + (w - 1 - f) = w - 1 by omega]
    exact Nat.mod_lt _ (Nat.two_pow_pos _)
  unfold IsNaN
  constructor
  · rintro ⟨hexp, hne⟩
    rw [← hexp]
    omega
  · intro h
    have hexp : exponent f x = 2 ^ (w - 1 - f) - 1 := by
      by_contra hne
      have hle : exponent f x + 1 ≤ 2 ^ (w - 1 - f) - 1 := by omega
      have hmul : (exponent f x + 1) * 2 ^ f ≤ (2 ^ (w - 1 - f) - 1) * 2 ^ f := Nat.mul_le_mul_right _ hle
      rw [Nat.add_mul] at hmul
      omega
    refine ⟨hexp, ?_⟩
    rw [← hexp] at h
    omega

/-- A number that is converted within the exponent range is a number. -/
theorem not_isNaN_ofNat {n : ℕ} (hw : f + 2 < w) (hn : n < 2 ^ (bias f w + 1)) : ¬ IsNaN f (ofNat f w n) := by
  rw [isNaN_iff f (by omega)]
  by_cases hz : n = 0
  · subst hz
    simp [ofNat, magBits]
  · have hlog : Nat.log2 n < bias f w + 1 := (Nat.log2_lt hz).mpr hn
    have hself : n < 2 ^ (Nat.log2 n + 1) := Nat.lt_log2_self
    have hbias : 2 ^ (w - 1 - f) - 1 = bias f w + bias f w + 1 := by
      have hpow : 2 ^ (w - 1 - f) = 2 * 2 ^ (w - 2 - f) := by
        rw [← Nat.pow_succ']
        congr 1
        omega
      have hpos := Nat.two_pow_pos (w - 2 - f)
      unfold bias
      omega
    have hsig : (if Nat.log2 n ≤ f then n * 2 ^ (f - Nat.log2 n) else roundShift n (Nat.log2 n - f)) ≤ 2 * 2 ^ f := by
      split_ifs with hk
      · calc n * 2 ^ (f - Nat.log2 n) ≤ 2 ^ (Nat.log2 n + 1) * 2 ^ (f - Nat.log2 n) :=
            Nat.mul_le_mul_right _ hself.le
          _ = 2 * 2 ^ f := by
            rw [← Nat.pow_add, ← Nat.pow_succ']
            congr 1
            omega
      · have hquot : n / 2 ^ (Nat.log2 n - f) < 2 * 2 ^ f := by
          apply Nat.div_lt_of_lt_mul
          rw [← Nat.pow_succ', ← Nat.pow_add, show Nat.log2 n - f + (f + 1) = Nat.log2 n + 1 by omega]
          exact hself
        have hround := roundShift_le n (Nat.log2 n - f)
        omega
    have hword : magBits (ofNat f w n) ≤ (bias f w + Nat.log2 n) * 2 ^ f + 2 ^ f := by
      unfold magBits ofNat
      rw [if_neg hz]
      refine (Nat.mod_le _ _).trans ?_
      rw [BitVec.toNat_ofNat]
      refine (Nat.mod_le _ _).trans ?_
      omega
    have htop : (bias f w + Nat.log2 n) * 2 ^ f + 2 ^ f ≤ (bias f w + bias f w + 1) * 2 ^ f := by
      rw [← Nat.succ_mul]
      exact Nat.mul_le_mul_right _ (by omega)
    rw [hbias]
    omega

end FloatBits
