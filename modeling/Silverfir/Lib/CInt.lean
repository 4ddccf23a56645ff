import Mathlib.Data.Nat.Notation
import Mathlib.Data.Int.Notation
import Mathlib.Tactic.Common
import Mathlib.Tactic.Ring

/-! The integer operators of C on operands of one type that is at least as wide as `int`. A result
of `none` is undefined behaviour. Right shifts of negative numbers are arithmetic and conversions
are modular, as compilers document. -/
namespace CInt

structure Ty where
  width : ℕ
  signed : Bool
  deriving DecidableEq, Repr

namespace Ty
variable (t : Ty)

def value (x : BitVec t.width) : ℤ := if t.signed then x.toInt else x.toNat

/-- The conversion of a number to the type. -/
def bits (v : ℤ) : BitVec t.width := BitVec.ofInt t.width v

def Fits (v : ℤ) : Prop :=
  if t.signed then -2 ^ (t.width - 1) ≤ v ∧ v < 2 ^ (t.width - 1) else 0 ≤ v ∧ v < 2 ^ t.width

instance (v : ℤ) : Decidable (t.Fits v) := by unfold Fits; infer_instance

def exact (v : ℤ) : Option ℤ := if t.Fits v then some v else none

/-- Signed arithmetic must not overflow, unsigned arithmetic wraps. -/
def arith (v : ℤ) : Option ℤ := if t.signed then t.exact v else some (v % 2 ^ t.width)

def add (a b : ℤ) : Option ℤ := t.arith (a + b)

def sub (a b : ℤ) : Option ℤ := t.arith (a - b)

def mul (a b : ℤ) : Option ℤ := t.arith (a * b)

def div (a b : ℤ) : Option ℤ := if b = 0 then none else t.exact (a.tdiv b)

/-- Undefined with the quotient. -/
def rem (a b : ℤ) : Option ℤ := if b = 0 then none else if t.Fits (a.tdiv b) then some (a.tmod b) else none

def bitwise (f : ∀ {w : ℕ}, BitVec w → BitVec w → BitVec w) (a b : ℤ) : Option ℤ :=
  some (t.value (f (t.bits a) (t.bits b)))

def and : ℤ → ℤ → Option ℤ := t.bitwise (· &&& ·)

def or : ℤ → ℤ → Option ℤ := t.bitwise (· ||| ·)

def xor : ℤ → ℤ → Option ℤ := t.bitwise (· ^^^ ·)

/-- A negative number must not be shifted to the left, nor a bit into or beyond the sign. -/
def shl (a b : ℤ) : Option ℤ :=
  if 0 ≤ b ∧ b < t.width then
    if t.signed then
      if 0 ≤ a then t.exact (a * 2 ^ b.toNat) else none
    else
      some (a * 2 ^ b.toNat % 2 ^ t.width)
  else
    none

def shr (a b : ℤ) : Option ℤ := if 0 ≤ b ∧ b < t.width then some (a / 2 ^ b.toNat) else none

end Ty

def truth (p : Bool) : Option ℤ := some (if p then 1 else 0)

/-! ### The operators on bit patterns -/

variable {t : Ty} {x y : BitVec t.width} {a b : ℤ}

theorem bits_value : t.bits (t.value x) = x := by
  unfold Ty.bits Ty.value
  split
  · exact BitVec.ofInt_toInt
  · rw [BitVec.ofInt_natCast, BitVec.ofNat_toNat, BitVec.setWidth_eq]

theorem value_injective : t.value x = t.value y ↔ x = y := by
  constructor
  · intro h
    rw [← bits_value (x := x), h, bits_value]
  · exact congrArg _

theorem bits_emod (v : ℤ) : t.bits (v % 2 ^ t.width) = t.bits v := by
  unfold Ty.bits
  apply BitVec.eq_of_toInt_eq
  rw [BitVec.toInt_ofInt, BitVec.toInt_ofInt]
  have hpow : ((2 ^ t.width : ℕ) : ℤ) = 2 ^ t.width := by push_cast; rfl
  rw [← hpow, Int.emod_bmod]

/-- Arithmetic is defined when it does not have to wrap a signed number, and is then modular. -/
theorem arith_map (v : ℤ) :
    (t.arith v).map t.bits = if t.signed = true → t.Fits v then some (t.bits v) else none := by
  unfold Ty.arith Ty.exact
  by_cases hs : t.signed = true
  · rw [if_pos hs]
    by_cases hv : t.Fits v
    · rw [if_pos hv, if_pos fun _ => hv]
      rfl
    · rw [if_neg hv, if_neg fun h => hv (h hs)]
      rfl
  · rw [if_neg hs, if_pos fun h => absurd h hs, Option.map_some, bits_emod]

theorem bits_add : t.bits (t.value x + t.value y) = x + y := by
  have h := BitVec.ofInt_add (n := t.width) (t.value x) (t.value y)
  change t.bits _ = t.bits _ + t.bits _ at h
  rwa [bits_value, bits_value] at h

theorem bits_mul : t.bits (t.value x * t.value y) = x * y := by
  have h := BitVec.ofInt_mul (n := t.width) (t.value x) (t.value y)
  change t.bits _ = t.bits _ * t.bits _ at h
  rwa [bits_value, bits_value] at h

theorem bits_sub : t.bits (t.value x - t.value y) = x - y := by
  have h := BitVec.ofInt_add (n := t.width) (t.value x - t.value y) (t.value y)
  rw [Int.sub_add_cancel] at h
  change t.bits _ = t.bits _ + t.bits _ at h
  rw [bits_value, bits_value] at h
  nth_rewrite 2 [h]
  rw [BitVec.add_sub_cancel]

theorem bits_bitwise (f : ∀ {w : ℕ}, BitVec w → BitVec w → BitVec w) :
    (t.bitwise f (t.value x) (t.value y)).map t.bits = some (f x y) := by
  unfold Ty.bitwise
  rw [Option.map_some, bits_value, bits_value, bits_value]

theorem pow_width (ht : 0 < t.width) : 2 ^ t.width = 2 * 2 ^ (t.width - 1) := by
  rw [← Nat.pow_succ', Nat.succ_eq_add_one, Nat.sub_add_cancel ht]

/-- A pattern taken as a count. -/
theorem count_iff (ht : 0 < t.width) (hsmall : t.width < 2 ^ (t.width - 1)) :
    (0 ≤ t.value y ∧ t.value y < t.width) ↔ y.toNat < t.width := by
  have hy := y.isLt
  have hpow := pow_width ht
  unfold Ty.value
  split
  · rw [BitVec.toInt_eq_toNat_cond]
    split <;> omega
  · omega

theorem value_count (ht : 0 < t.width) (hsmall : t.width < 2 ^ (t.width - 1)) (h : y.toNat < t.width) :
    (t.value y).toNat = y.toNat := by
  have hpow := pow_width ht
  unfold Ty.value
  split
  · rw [BitVec.toInt_eq_toNat_cond, if_pos (by omega)]
    rfl
  · rfl

theorem bits_shl (k : ℕ) : t.bits (t.value x * 2 ^ k) = x <<< k := by
  have h := BitVec.ofInt_mul (n := t.width) (t.value x) (2 ^ k)
  change t.bits _ = t.bits _ * t.bits _ at h
  rw [h, bits_value, BitVec.shiftLeft_eq_mul_twoPow]
  congr 1
  apply BitVec.eq_of_toNat_eq
  rw [BitVec.toNat_twoPow]
  have hpow : ((2 ^ k : ℕ) : ℤ) = 2 ^ k := by push_cast; rfl
  rw [Ty.bits, ← hpow, BitVec.ofInt_natCast, BitVec.toNat_ofNat]

theorem bits_shr (k : ℕ) :
    t.bits (t.value x / 2 ^ k) = if t.signed then x.sshiftRight k else x >>> k := by
  have hpow : ((2 ^ k : ℕ) : ℤ) = 2 ^ k := by push_cast; rfl
  unfold Ty.value
  split
  · rw [BitVec.sshiftRight, Int.shiftRight_eq_div_pow, hpow]
    rfl
  · apply BitVec.eq_of_toNat_eq
    rw [Ty.bits, ← hpow, ← Int.natCast_ediv, BitVec.ofInt_natCast, BitVec.toNat_ofNat, BitVec.toNat_ushiftRight,
      Nat.shiftRight_eq_div_pow, Nat.mod_eq_of_lt]
    exact lt_of_le_of_lt (Nat.div_le_self _ _) x.isLt

theorem add_map :
    (t.add (t.value x) (t.value y)).map t.bits =
      if t.signed = true → t.Fits (t.value x + t.value y) then some (x + y) else none := by
  rw [Ty.add, arith_map, bits_add]

theorem sub_map :
    (t.sub (t.value x) (t.value y)).map t.bits =
      if t.signed = true → t.Fits (t.value x - t.value y) then some (x - y) else none := by
  rw [Ty.sub, arith_map, bits_sub]

theorem mul_map :
    (t.mul (t.value x) (t.value y)).map t.bits =
      if t.signed = true → t.Fits (t.value x * t.value y) then some (x * y) else none := by
  rw [Ty.mul, arith_map, bits_mul]

theorem shl_map (ht : 0 < t.width) (hsmall : t.width < 2 ^ (t.width - 1)) :
    (t.shl (t.value x) (t.value y)).map t.bits =
      if y.toNat < t.width ∧ (t.signed = true → 0 ≤ t.value x ∧ t.Fits (t.value x * 2 ^ y.toNat)) then
        some (x <<< y.toNat)
      else none := by
  unfold Ty.shl
  rw [if_congr (count_iff ht hsmall) rfl rfl]
  by_cases hy : y.toNat < t.width
  · rw [if_pos hy, value_count ht hsmall hy]
    by_cases hs : t.signed = true
    · rw [if_pos hs]
      by_cases hx : 0 ≤ t.value x
      · rw [if_pos hx, Ty.exact]
        by_cases hfits : t.Fits (t.value x * 2 ^ y.toNat)
        · rw [if_pos hfits, if_pos ⟨hy, fun _ => ⟨hx, hfits⟩⟩, Option.map_some, bits_shl]
        · rw [if_neg hfits, if_neg fun h => hfits (h.2 hs).2]
          rfl
      · rw [if_neg hx, if_neg fun h => hx (h.2 hs).1]
        rfl
    · rw [if_neg hs, if_pos ⟨hy, fun h => absurd h hs⟩, Option.map_some, bits_emod, bits_shl]
  · rw [if_neg hy, if_neg fun h => hy h.1]
    rfl

theorem shr_map (ht : 0 < t.width) (hsmall : t.width < 2 ^ (t.width - 1)) :
    (t.shr (t.value x) (t.value y)).map t.bits =
      if y.toNat < t.width then some (if t.signed then x.sshiftRight y.toNat else x >>> y.toNat) else none := by
  unfold Ty.shr
  rw [if_congr (count_iff ht hsmall) rfl rfl]
  by_cases hy : y.toNat < t.width
  · rw [if_pos hy, if_pos hy, Option.map_some, value_count ht hsmall hy, bits_shr]
  · rw [if_neg hy, if_neg hy]
    rfl

/-! ### Division -/

theorem value_eq_zero : t.value y = 0 ↔ y = 0 := by
  have hzero : t.value (0 : BitVec t.width) = 0 := by
    unfold Ty.value
    split
    · exact BitVec.toInt_zero
    · rfl
  constructor
  · intro h
    exact value_injective.mp (h.trans hzero.symm)
  · intro h
    rw [h, hzero]

/-- The one quotient that does not fit. -/
theorem fits_tdiv (h : ¬ (t.signed = true ∧ x = BitVec.intMin t.width ∧ y = -1)) :
    t.Fits ((t.value x).tdiv (t.value y)) := by
  by_cases hs : t.signed = true
  · have hor : x ≠ BitVec.intMin t.width ∨ y ≠ -1 := by
      by_contra hboth
      rw [not_or, not_not, not_not] at hboth
      exact h ⟨hs, hboth⟩
    have hq := BitVec.toInt_sdiv_of_ne_or_ne x y hor
    unfold Ty.Fits Ty.value
    rw [if_pos hs, if_pos hs, if_pos hs, ← hq]
    exact ⟨BitVec.le_toInt _, BitVec.toInt_lt⟩
  · unfold Ty.Fits Ty.value
    rw [if_neg hs, if_neg hs, if_neg hs, ← Int.ofNat_tdiv]
    have hle : x.toNat / y.toNat ≤ x.toNat := Nat.div_le_self _ _
    have hlt : x.toNat / y.toNat < 2 ^ t.width := lt_of_le_of_lt hle x.isLt
    constructor
    · exact Int.natCast_nonneg _
    · exact_mod_cast hlt

theorem div_map (hy : y ≠ 0) (h : ¬ (t.signed = true ∧ x = BitVec.intMin t.width ∧ y = -1)) :
    (t.div (t.value x) (t.value y)).map t.bits = some (if t.signed then x.sdiv y else x / y) := by
  unfold Ty.div Ty.exact
  rw [if_neg fun hz => hy (value_eq_zero.mp hz), if_pos (fits_tdiv h), Option.map_some]
  congr 1
  unfold Ty.bits Ty.value
  split
  · apply BitVec.eq_of_toInt_eq
    rw [BitVec.toInt_ofInt, BitVec.toInt_sdiv]
  · apply BitVec.eq_of_toNat_eq
    rw [← Int.ofNat_tdiv, BitVec.ofInt_natCast, BitVec.toNat_ofNat, BitVec.toNat_udiv, Nat.mod_eq_of_lt]
    exact lt_of_le_of_lt (Nat.div_le_self _ _) x.isLt

theorem rem_map (hy : y ≠ 0) (h : ¬ (t.signed = true ∧ x = BitVec.intMin t.width ∧ y = -1)) :
    (t.rem (t.value x) (t.value y)).map t.bits = some (if t.signed then x.srem y else x % y) := by
  unfold Ty.rem
  rw [if_neg fun hz => hy (value_eq_zero.mp hz), if_pos (fits_tdiv h), Option.map_some]
  congr 1
  unfold Ty.bits Ty.value
  split
  · rw [← BitVec.toInt_srem, BitVec.ofInt_toInt]
  · apply BitVec.eq_of_toNat_eq
    rw [← Int.ofNat_tmod, BitVec.ofInt_natCast, BitVec.toNat_ofNat, BitVec.toNat_umod, Nat.mod_eq_of_lt]
    exact lt_of_le_of_lt (Nat.mod_le _ _) x.isLt

/-! ### Conversions to a narrower type -/

theorem ofInt_value {k : ℕ} (hk : k ≤ t.width) : BitVec.ofInt k (t.value x) = x.setWidth k := by
  have hmod : (t.value x) % 2 ^ k = (x.toNat : ℤ) % 2 ^ k := by
    unfold Ty.value
    split
    · rw [BitVec.toInt_eq_toNat_cond]
      split
      · rfl
      · have hdvd : (2 ^ k : ℤ) ∣ ((2 ^ t.width : ℕ) : ℤ) := by
          push_cast
          exact pow_dvd_pow 2 hk
        obtain ⟨c, hc⟩ := hdvd
        rw [hc, Int.sub_mul_emod_self_left]
    · rfl
  have hpow : ((2 ^ k : ℕ) : ℤ) = 2 ^ k := by push_cast; rfl
  apply BitVec.eq_of_toNat_eq
  rw [BitVec.toNat_ofInt, BitVec.toNat_setWidth, hpow, hmod, ← hpow, ← Int.natCast_emod, Int.toNat_natCast]

end CInt
