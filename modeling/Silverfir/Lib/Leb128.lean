import Mathlib.Data.Nat.Notation
import Mathlib.Data.Int.Notation
import Mathlib.Tactic.Common
import Mathlib.Tactic.Positivity

/-! The variable-length integers of the WebAssembly grammar, `uN` and `sN`, and decoders for them.
A number has one encoding for every number of padding bytes that still fits `N` bits. -/
namespace Leb128

inductive Unsigned : ℕ → ℕ → List UInt8 → Prop
  | last {N : ℕ} (b : UInt8) (h : b.toNat < 128) (hN : b.toNat < 2 ^ N) : Unsigned N b.toNat [b]
  | more {N m : ℕ} {bs : List UInt8} (b : UInt8) (h : 128 ≤ b.toNat) (hN : 7 < N) (tail : Unsigned (N - 7) m bs) :
      Unsigned N (128 * m + (b.toNat - 128)) (b :: bs)

inductive Signed : ℕ → ℤ → List UInt8 → Prop
  | last {N : ℕ} (b : UInt8) (h : b.toNat < 64) (hN : b.toNat < 2 ^ (N - 1)) : Signed N b.toNat [b]
  | lastNeg {N : ℕ} (b : UInt8) (h : 64 ≤ b.toNat) (h' : b.toNat < 128) (hN : 128 ≤ b.toNat + 2 ^ (N - 1)) :
      Signed N (b.toNat - 128) [b]
  | more {N : ℕ} {m : ℤ} {bs : List UInt8} (b : UInt8) (h : 128 ≤ b.toNat) (hN : 7 < N)
      (tail : Signed (N - 7) m bs) : Signed N (128 * m + (b.toNat - 128)) (b :: bs)

/-- The number that starts `s` and the length of its encoding. -/
def decodeUnsigned (N : ℕ) : List UInt8 → Option (ℕ × ℕ)
  | [] => none
  | b :: s =>
    if b.toNat < 128 then if b.toNat < 2 ^ N then some (b.toNat, 1) else none
    else if 7 < N then (decodeUnsigned (N - 7) s).map fun (m, n) => (128 * m + (b.toNat - 128), n + 1)
    else none

def decodeSigned (N : ℕ) : List UInt8 → Option (ℤ × ℕ)
  | [] => none
  | b :: s =>
    if b.toNat < 64 then if b.toNat < 2 ^ (N - 1) then some ((b.toNat : ℤ), 1) else none
    else if b.toNat < 128 then if 128 ≤ b.toNat + 2 ^ (N - 1) then some ((b.toNat : ℤ) - 128, 1) else none
    else if 7 < N then (decodeSigned (N - 7) s).map fun (m, n) => (128 * m + ((b.toNat : ℤ) - 128), n + 1)
    else none

theorem decodeUnsigned_of {N v : ℕ} {bs : List UInt8} (h : Unsigned N v bs) (tail : List UInt8) :
    decodeUnsigned N (bs ++ tail) = some (v, bs.length) := by
  induction h with
  | last b hb hN =>
    rw [List.singleton_append, decodeUnsigned, if_pos hb, if_pos hN]
    rfl
  | more b hb hN _ ih =>
    rw [List.cons_append, decodeUnsigned, if_neg (by omega), if_pos hN, ih]
    rfl

theorem unsigned_of_decode {N v n : ℕ} {s : List UInt8} (h : decodeUnsigned N s = some (v, n)) :
    ∃ bs tail, s = bs ++ tail ∧ bs.length = n ∧ Unsigned N v bs := by
  induction s generalizing N v n with
  | nil => cases h
  | cons b s ih =>
    rw [decodeUnsigned] at h
    split_ifs at h with hb hN hN
    · cases h
      exact ⟨[b], s, rfl, rfl, .last b hb hN⟩
    · obtain ⟨⟨m, k⟩, hm, hv⟩ := Option.map_eq_some_iff.mp h
      obtain ⟨bs, tail, rfl, rfl, hbs⟩ := ih hm
      obtain ⟨rfl, rfl⟩ := Prod.mk.inj hv
      exact ⟨b :: bs, tail, rfl, rfl, .more b (by omega) hN hbs⟩

theorem decodeUnsigned_iff {N v n : ℕ} {s : List UInt8} :
    decodeUnsigned N s = some (v, n) ↔ ∃ bs tail, s = bs ++ tail ∧ bs.length = n ∧ Unsigned N v bs := by
  constructor
  · exact unsigned_of_decode
  · rintro ⟨bs, tail, rfl, rfl, h⟩
    exact decodeUnsigned_of h tail

theorem decodeSigned_of {N : ℕ} {v : ℤ} {bs : List UInt8} (h : Signed N v bs) (tail : List UInt8) :
    decodeSigned N (bs ++ tail) = some (v, bs.length) := by
  induction h with
  | last b hb hN =>
    rw [List.singleton_append, decodeSigned, if_pos hb, if_pos hN]
    rfl
  | lastNeg b hb hb' hN =>
    rw [List.singleton_append, decodeSigned, if_neg (by omega), if_pos hb', if_pos hN]
    rfl
  | more b hb hN _ ih =>
    rw [List.cons_append, decodeSigned, if_neg (by omega), if_neg (by omega), if_pos hN, ih]
    rfl

theorem signed_of_decode {N n : ℕ} {v : ℤ} {s : List UInt8} (h : decodeSigned N s = some (v, n)) :
    ∃ bs tail, s = bs ++ tail ∧ bs.length = n ∧ Signed N v bs := by
  induction s generalizing N v n with
  | nil => cases h
  | cons b s ih =>
    rw [decodeSigned] at h
    split_ifs at h with hb hN hb' hN hN
    · cases h
      exact ⟨[b], s, rfl, rfl, .last b hb hN⟩
    · cases h
      exact ⟨[b], s, rfl, rfl, .lastNeg b (by omega) hb' hN⟩
    · obtain ⟨⟨m, k⟩, hm, hv⟩ := Option.map_eq_some_iff.mp h
      obtain ⟨bs, tail, rfl, rfl, hbs⟩ := ih hm
      obtain ⟨rfl, rfl⟩ := Prod.mk.inj hv
      exact ⟨b :: bs, tail, rfl, rfl, .more b (by omega) hN hbs⟩

theorem decodeSigned_iff {N n : ℕ} {v : ℤ} {s : List UInt8} :
    decodeSigned N s = some (v, n) ↔ ∃ bs tail, s = bs ++ tail ∧ bs.length = n ∧ Signed N v bs := by
  constructor
  · exact signed_of_decode
  · rintro ⟨bs, tail, rfl, rfl, h⟩
    exact decodeSigned_of h tail

theorem Unsigned.lt {N v : ℕ} {bs : List UInt8} (h : Unsigned N v bs) : v < 2 ^ N := by
  induction h with
  | last b hb hN => exact hN
  | @more N m bs b hb hN _ ih =>
    have hb' := b.toNat_lt
    have hpow : 2 ^ N = 128 * 2 ^ (N - 7) := by
      rw [show (128 : ℕ) = 2 ^ 7 from rfl, ← Nat.pow_add]
      congr 1
      omega
    omega

theorem Signed.range {N : ℕ} {v : ℤ} {bs : List UInt8} (h : Signed N v bs) :
    -2 ^ (N - 1) ≤ v ∧ v < 2 ^ (N - 1) := by
  induction h with
  | @last N b hb hN =>
    have hpos : (0 : ℤ) ≤ 2 ^ (N - 1) := by positivity
    have hlt : (b.toNat : ℤ) < 2 ^ (N - 1) := by exact_mod_cast hN
    omega
  | @lastNeg N b hb hb' hN =>
    have hpos : (0 : ℤ) < 2 ^ (N - 1) := by positivity
    have hle : (128 : ℤ) ≤ b.toNat + 2 ^ (N - 1) := by exact_mod_cast hN
    omega
  | @more N m bs b hb hN _ ih =>
    have hb' := b.toNat_lt
    have hpow : (2 : ℤ) ^ (N - 1) = 128 * 2 ^ (N - 7 - 1) := by
      rw [show (128 : ℤ) = 2 ^ 7 from rfl, ← pow_add]
      congr 1
      omega
    omega

end Leb128
