import Silverfir.Leb
import Silverfir.Lib.Eff
import Silverfir.Lib.Leb128
import Mathlib.Data.Int.ModEq

/-! The checked readers of variable-length integers against the grammar. Here a reader is shown with
the stream it leaves behind, also when it fails. -/
namespace Silverfir
open Leb128

namespace Stream

def failLeb {α : Type} : Eff Fault Stream α := Eff.lift badLeb

/-- `STREAM_READ_LEB_UNSIGNED_DECL`, which moves `st->p` itself. -/
def vuLoop (width : ℕ) : (left offset result : ℕ) → Eff Fault Stream ℕ
  | 0, _, _ => failLeb
  | left + 1, offset, result => do
    let st ← Eff.get
    match st.byteAt? offset with
    | none => failLeb
    | some b =>
      let result := result ||| ((b % 128) <<< (7 * offset)) % 2 ^ width
      if b < 0x80 then
        if left = 0 ∧ b &&& lebLastByteMask width ≠ 0 then failLeb
        else do
          Eff.modify fun st => st.advance (offset + 1)
          pure result
      else vuLoop width left (offset + 1) result

/-- `STREAM_READ_LEB_SIGNED_DECL`. -/
def viLoop (width : ℕ) : (left offset result : ℕ) → Eff Fault Stream ℕ
  | 0, _, _ => failLeb
  | left + 1, offset, result => do
    let st ← Eff.get
    match st.byteAt? offset with
    | none => failLeb
    | some b =>
      let result := result ||| ((b % 128) <<< (7 * offset)) % 2 ^ width
      let shift := 7 * (offset + 1)
      if b < 0x80 then
        if left = 0 ∧ (if b < 0x40 then b &&& lebLastByteMaskSigned width
            else (127 - b) &&& lebLastByteMaskSigned width) ≠ 0 then failLeb
        else do
          Eff.modify fun st => st.advance (offset + 1)
          if shift < width ∧ 0x40 ≤ b then pure (result ||| ((2 ^ 64 - 1) <<< shift) % 2 ^ width)
          else pure result
      else viLoop width left (offset + 1) result

/-- What a reader does to the stream: it moves on success only. -/
def moves (r : R (ℕ × Stream)) (st : Stream) : R ℕ × Stream :=
  match r with
  | .ok (v, st') => (.ok v, st')
  | .error e => (.error e, st)

theorem moves_ite {c : Prop} [Decidable c] {f g : Eff Fault Stream ℕ} {x y : R (ℕ × Stream)} {st : Stream}
    (hf : f st = moves x st) (hg : g st = moves y st) :
    (if c then f else g) st = moves (if c then x else y) st := by
  split_ifs
  · exact hf
  · exact hg

theorem vuLoop_eq (width left offset result : ℕ) (st : Stream) :
    vuLoop width left offset result st = moves (readVuLoop width st left offset result) st := by
  induction left generalizing offset result with
  | zero => rfl
  | succ left ih =>
    rw [vuLoop, readVuLoop, Eff.bind_apply]
    dsimp only [Eff.get]
    cases st.byteAt? offset with
    | none => rfl
    | some b =>
      apply moves_ite
      · apply moves_ite
        · rfl
        · rfl
      · exact ih _ _

theorem viLoop_eq (width left offset result : ℕ) (st : Stream) :
    viLoop width left offset result st = moves (readViLoop width st left offset result) st := by
  induction left generalizing offset result with
  | zero => rfl
  | succ left ih =>
    rw [viLoop, readViLoop, Eff.bind_apply]
    dsimp only [Eff.get]
    cases st.byteAt? offset with
    | none => rfl
    | some b =>
      apply moves_ite
      · apply moves_ite
        · rfl
        · rw [Eff.bind_apply]
          dsimp only [Eff.modify]
          split_ifs <;> rfl
      · exact ih _ _

end Stream

/-- The four readers. -/
inductive LebReader where
  | vu32 | vu64 | vi32 | vi64
  deriving DecidableEq, Repr

namespace LebReader

def width : LebReader → ℕ
  | .vu32 | .vi32 => 32
  | .vu64 | .vi64 => 64

/-- `stream_read_vu32` and the others. -/
def read (l : LebReader) : Eff Fault Stream ℕ :=
  match l with
  | .vu32 => Stream.vuLoop 32 (Stream.lebMaxLen 32) 0 0
  | .vu64 => Stream.vuLoop 64 (Stream.lebMaxLen 64) 0 0
  | .vi32 => Stream.viLoop 32 (Stream.lebMaxLen 32) 0 0
  | .vi64 => Stream.viLoop 64 (Stream.lebMaxLen 64) 0 0

def checked (l : LebReader) (st : Stream) : R (ℕ × Stream) :=
  match l with
  | .vu32 => st.readVu32
  | .vu64 => st.readVu64
  | .vi32 => st.readVi32
  | .vi64 => st.readVi64

def unchecked (l : LebReader) (code : Str) (p : ℕ) : R (ℕ × ℕ) :=
  match l with
  | .vu32 => Unchecked.readVu32 code p
  | .vu64 => Unchecked.readVu64 code p
  | .vi32 => Unchecked.readVi32 code p
  | .vi64 => Unchecked.readVi64 code p

theorem read_eq (l : LebReader) (st : Stream) : l.read st = Stream.moves (l.checked st) st := by
  cases l with
  | vu32 => exact Stream.vuLoop_eq 32 _ 0 0 st
  | vu64 => exact Stream.vuLoop_eq 64 _ 0 0 st
  | vi32 => exact Stream.viLoop_eq 32 _ 0 0 st
  | vi64 => exact Stream.viLoop_eq 64 _ 0 0 st

/-- A bit pattern as a number of the reader's type. -/
def value (l : LebReader) (v : ℕ) : ℤ :=
  match l with
  | .vu32 | .vu64 => v
  | .vi32 => (BitVec.ofNat 32 v).toInt
  | .vi64 => (BitVec.ofNat 64 v).toInt

/-- `bs` encodes `v`, by the grammar. -/
def Encodes (l : LebReader) (v : ℤ) (bs : Str) : Prop :=
  match l with
  | .vu32 | .vu64 => ∃ n : ℕ, v = n ∧ Unsigned l.width n bs
  | .vi32 | .vi64 => Signed l.width v bs

end LebReader

/-! ### Unsigned numbers -/

/-- The mask of the last byte tests the bits that the number has no room for. -/
theorem lastByteMask_iff {width b : ℕ} (hw : width = 32 ∨ width = 64) (hb : b < 128) :
    b &&& Stream.lebLastByteMask width = 0 ↔ b < 2 ^ (width % 7) := by
  rcases hw with rfl | rfl
  · have key : ∀ n : Fin 128, (n.val &&& Stream.lebLastByteMask 32 = 0 ↔ n.val < 2 ^ (32 % 7)) := by decide
    exact key ⟨b, hb⟩
  · have key : ∀ n : Fin 128, (n.val &&& Stream.lebLastByteMask 64 = 0 ↔ n.val < 2 ^ (64 % 7)) := by decide
    exact key ⟨b, hb⟩

/-- A decoded rest, put behind the bits that were read before it. -/
def afterVu (st : Stream) (offset result : ℕ) : Option (ℕ × ℕ) → R (ℕ × Stream)
  | none => Stream.badLeb
  | some (m, n) => .ok (result + m * 2 ^ (7 * offset), st.advance (offset + n))

theorem byteAt?_none_iff {st : Stream} {n : ℕ} : st.byteAt? n = none ↔ st.s.drop (st.p + n) = [] := by
  unfold Stream.byteAt?
  rw [Option.map_eq_none_iff, List.getElem?_eq_none_iff, List.drop_eq_nil_iff]

theorem drop_of_byteAt? {st : Stream} {n b : ℕ} (h : st.byteAt? n = some b) :
    ∃ x, b = x.toNat ∧ st.s.drop (st.p + n) = x :: st.s.drop (st.p + (n + 1)) := by
  unfold Stream.byteAt? at h
  obtain ⟨x, hx, rfl⟩ := Option.map_eq_some_iff.mp h
  obtain ⟨hlt, hget⟩ := List.getElem?_eq_some_iff.mp hx
  refine ⟨x, rfl, ?_⟩
  rw [List.drop_eq_getElem_cons hlt, hget]
  rfl

/-- The bits that are still missing when `left` bytes may follow the next one. -/
theorem missing_bits {width left offset : ℕ} (hw : width = 32 ∨ width = 64)
    (hleft : Stream.lebMaxLen width = offset + (left + 1)) :
    width - 7 * offset = width % 7 + 7 * left ∧ 7 * offset ≤ width ∧ 0 < width % 7 := by
  unfold Stream.lebMaxLen at hleft
  rcases hw with rfl | rfl <;> omega

theorem add_shiftLeft_lt {result b k N width : ℕ} (hr : result < 2 ^ k) (hb : b < 2 ^ N) (hw : k + N = width) :
    result + b <<< k < 2 ^ width := by
  have hstep : (b + 1) * 2 ^ k ≤ 2 ^ N * 2 ^ k := Nat.mul_le_mul_right _ hb
  rw [← Nat.pow_add, Nat.add_comm N, hw, Nat.succ_mul] at hstep
  rw [Nat.shiftLeft_eq]
  omega

/-- Seven more bits, when the number has room for them. -/
theorem or_shiftLeft_eq {result b offset N width : ℕ} (hr : result < 2 ^ (7 * offset)) (hb : b < 2 ^ N)
    (hw : 7 * offset + N = width) :
    result ||| (b <<< (7 * offset)) % 2 ^ width = result + b * 2 ^ (7 * offset) := by
  rw [← add_shiftLeft_mod b hr (by omega), Nat.mod_eq_of_lt (add_shiftLeft_lt hr hb hw), Nat.shiftLeft_eq]

/-- The loop decodes what is left of the number; `left` bytes may follow the next one. -/
theorem readVuLoop_decodes {width left offset result : ℕ} (st : Stream) (hw : width = 32 ∨ width = 64)
    (hr : result < 2 ^ (7 * offset)) (hleft : Stream.lebMaxLen width = offset + (left + 1)) :
    Stream.readVuLoop width st (left + 1) offset result =
      afterVu st offset result (decodeUnsigned (width - 7 * offset) (st.s.drop (st.p + offset))) := by
  induction left generalizing offset result with
  | zero =>
    obtain ⟨hN, hle, -⟩ := missing_bits hw hleft
    rw [Nat.mul_zero, Nat.add_zero] at hN
    rw [Stream.readVuLoop, hN]
    cases hb : st.byteAt? offset with
    | none =>
      rw [byteAt?_none_iff.mp hb]
      rfl
    | some b =>
      obtain ⟨x, rfl, hdrop⟩ := drop_of_byteAt? hb
      rw [hdrop, decodeUnsigned]
      dsimp only
      by_cases hlt : x.toNat < 0x80
      · have hmask := lastByteMask_iff hw hlt
        rw [if_pos hlt, if_pos hlt]
        by_cases hroom : x.toNat < 2 ^ (width % 7)
        · rw [if_neg (by tauto), if_pos hroom, Nat.mod_eq_of_lt hlt, or_shiftLeft_eq hr hroom (by omega)]
          rfl
        · rw [if_pos ⟨rfl, fun h => hroom (hmask.mp h)⟩, if_neg hroom]
          rfl
      · rw [if_neg hlt, if_neg hlt, if_neg (by omega)]
        rfl
  | succ left ih =>
    obtain ⟨hN, hle, -⟩ := missing_bits hw hleft
    rw [Stream.readVuLoop]
    cases hb : st.byteAt? offset with
    | none =>
      rw [byteAt?_none_iff.mp hb]
      rfl
    | some b =>
      have hb' := Stream.byteAt?_lt_256 hb
      obtain ⟨x, rfl, hdrop⟩ := drop_of_byteAt? hb
      have hseven : x.toNat % 128 < 2 ^ 7 := Nat.mod_lt _ (by decide)
      have hvalue : x.toNat % 128 < 2 ^ (width - 7 * offset) :=
        hseven.trans_le (Nat.pow_le_pow_right (by decide) (by omega))
      rw [hdrop, decodeUnsigned]
      dsimp only
      rw [or_shiftLeft_eq hr hvalue (by omega)]
      by_cases hlt : x.toNat < 0x80
      · rw [Nat.mod_eq_of_lt hlt] at hvalue ⊢
        rw [if_pos hlt, if_pos hlt, if_pos hvalue, if_neg (by omega)]
        rfl
      · have hr' : result + x.toNat % 128 * 2 ^ (7 * offset) < 2 ^ (7 * (offset + 1)) := by
          have := add_shiftLeft_lt hr hseven (show 7 * offset + 7 = 7 * (offset + 1) by omega)
          rwa [Nat.shiftLeft_eq] at this
        rw [if_neg hlt, if_neg hlt, if_pos (by omega), ih hr' (by omega), Nat.sub_sub,
          show 7 * offset + 7 = 7 * (offset + 1) by omega]
        cases decodeUnsigned (width - 7 * (offset + 1)) (st.s.drop (st.p + (offset + 1))) with
        | none => rfl
        | some mn =>
          have hval : result + x.toNat % 128 * 2 ^ (7 * offset) + mn.1 * 2 ^ (7 * (offset + 1)) =
              result + (128 * mn.1 + (x.toNat - 128)) * 2 ^ (7 * offset) := by
            rw [show x.toNat - 128 = x.toNat % 128 by omega, show 7 * (offset + 1) = 7 * offset + 7 by omega,
              Nat.pow_add]
            ring
          dsimp only [Option.map_some, afterVu]
          rw [hval, Nat.add_right_comm offset 1, Nat.add_assoc offset]

/-! ### Signed numbers -/

theorem lastByteMaskSigned_iff {width b : ℕ} (hw : width = 32 ∨ width = 64) (hb : b < 128) :
    (if b < 0x40 then b &&& Stream.lebLastByteMaskSigned width
      else (127 - b) &&& Stream.lebLastByteMaskSigned width) = 0 ↔
    if b < 0x40 then b < 2 ^ (width % 7 - 1) else 128 ≤ b + 2 ^ (width % 7 - 1) := by
  rcases hw with rfl | rfl
  · have key : ∀ n : Fin 128,
        (if n.val < 0x40 then n.val &&& Stream.lebLastByteMaskSigned 32
          else (127 - n.val) &&& Stream.lebLastByteMaskSigned 32) = 0 ↔
        if n.val < 0x40 then n.val < 2 ^ (32 % 7 - 1) else 128 ≤ n.val + 2 ^ (32 % 7 - 1) := by decide
    exact key ⟨b, hb⟩
  · have key : ∀ n : Fin 128,
        (if n.val < 0x40 then n.val &&& Stream.lebLastByteMaskSigned 64
          else (127 - n.val) &&& Stream.lebLastByteMaskSigned 64) = 0 ↔
        if n.val < 0x40 then n.val < 2 ^ (64 % 7 - 1) else 128 ≤ n.val + 2 ^ (64 % 7 - 1) := by decide
    exact key ⟨b, hb⟩

/-- The bit pattern of a number of `width` bits. -/
def pattern (width : ℕ) (v : ℤ) : ℕ := (v % 2 ^ width).toNat

theorem pattern_of_eq {width a : ℕ} {v c : ℤ} (h : (a : ℤ) = v + c * 2 ^ width) : a % 2 ^ width = pattern width v := by
  have hcast : ((a % 2 ^ width : ℕ) : ℤ) = v % 2 ^ width := by
    push_cast
    rw [h, Int.add_mul_emod_self_right]
  unfold pattern
  rw [← hcast, Int.toNat_natCast]

def afterVi (width : ℕ) (st : Stream) (offset result : ℕ) : Option (ℤ × ℕ) → R (ℕ × Stream)
  | none => Stream.badLeb
  | some (m, n) => .ok (pattern width (result + m * 2 ^ (7 * offset)), st.advance (offset + n))

/-- A last byte below `0x40`. -/
theorem vi_positive {width offset result b : ℕ} (hr : result < 2 ^ (7 * offset)) (hle : 7 * offset ≤ width) :
    result ||| (b <<< (7 * offset)) % 2 ^ width = pattern width (result + b * 2 ^ (7 * offset)) := by
  rw [← add_shiftLeft_mod b hr hle]
  apply pattern_of_eq (c := 0)
  rw [Nat.shiftLeft_eq]
  push_cast
  ring

/-- A negative number whose last byte reaches the sign bit of the word. -/
theorem vi_negative_full {width offset result b : ℕ} (hr : result < 2 ^ (7 * offset)) (hle : 7 * offset ≤ width)
    (hfull : width ≤ 7 * (offset + 1)) :
    result ||| (b <<< (7 * offset)) % 2 ^ width =
      pattern width (result + ((b : ℤ) - 128) * 2 ^ (7 * offset)) := by
  have hpow : (128 : ℤ) * 2 ^ (7 * offset) = 2 ^ (7 * (offset + 1) - width) * 2 ^ width := by
    rw [show (128 : ℤ) = 2 ^ 7 from rfl, ← pow_add, ← pow_add]
    congr 1
    omega
  rw [← add_shiftLeft_mod b hr hle]
  apply pattern_of_eq (c := 2 ^ (7 * (offset + 1) - width))
  rw [← hpow, Nat.shiftLeft_eq]
  push_cast
  ring

/-- A negative number that is sign extended. -/
theorem vi_negative_extend {width offset result b : ℕ} (hr : result < 2 ^ (7 * offset)) (hb : b < 128)
    (hshift : 7 * (offset + 1) < width) (hw : width ≤ 64) :
    (result ||| (b <<< (7 * offset)) % 2 ^ width) ||| ((2 ^ 64 - 1) <<< (7 * (offset + 1))) % 2 ^ width =
      pattern width (result + ((b : ℤ) - 128) * 2 ^ (7 * offset)) := by
  have hlt : result + b * 2 ^ (7 * offset) < 2 ^ (7 * (offset + 1)) := by
    have := add_shiftLeft_lt (N := 7) hr hb (show 7 * offset + 7 = 7 * (offset + 1) by omega)
    rwa [Nat.shiftLeft_eq] at this
  have hroom : b < 2 ^ (width - 7 * offset) :=
    lt_of_lt_of_le hb (Nat.pow_le_pow_right (n := 2) (by decide) (show 7 ≤ width - 7 * offset by omega))
  have hpow : (2 : ℤ) ^ (7 * (offset + 1)) = 128 * 2 ^ (7 * offset) := by
    rw [show (128 : ℤ) = 2 ^ 7 from rfl, ← pow_add]
    congr 1
    omega
  have htop : ((2 ^ 64 - 1 : ℕ) : ℤ) = 2 ^ (64 - width) * 2 ^ width - 1 := by
    rw [← pow_add, show 64 - width + width = 64 by omega]
    norm_num
  rw [or_shiftLeft_eq hr hroom (by omega), ← add_shiftLeft_mod _ hlt hshift.le]
  apply pattern_of_eq (c := 2 ^ (64 - width) * 2 ^ (7 * (offset + 1)))
  rw [Nat.shiftLeft_eq, Nat.cast_add, Nat.cast_mul (2 ^ 64 - 1), htop]
  push_cast
  rw [hpow]
  ring

theorem readViLoop_decodes {width left offset result : ℕ} (st : Stream) (hw : width = 32 ∨ width = 64)
    (hr : result < 2 ^ (7 * offset)) (hleft : Stream.lebMaxLen width = offset + (left + 1)) :
    Stream.readViLoop width st (left + 1) offset result =
      afterVi width st offset result (decodeSigned (width - 7 * offset) (st.s.drop (st.p + offset))) := by
  induction left generalizing offset result with
  | zero =>
    obtain ⟨hN, hle, hpos⟩ := missing_bits hw hleft
    rw [Nat.mul_zero, Nat.add_zero] at hN
    rw [Stream.readViLoop, hN]
    cases hb : st.byteAt? offset with
    | none =>
      rw [byteAt?_none_iff.mp hb]
      rfl
    | some b =>
      obtain ⟨x, rfl, hdrop⟩ := drop_of_byteAt? hb
      rw [hdrop, decodeSigned]
      dsimp only
      by_cases hlt : x.toNat < 0x80
      · have hmask := lastByteMaskSigned_iff hw hlt
        have hshift : ¬ (7 * (offset + 1) < width ∧ 0x40 ≤ x.toNat) := by omega
        rw [if_pos hlt, if_neg hshift, Nat.mod_eq_of_lt hlt, if_pos hlt]
        by_cases hsix : x.toNat < 64
        · rw [if_pos hsix, if_pos hsix] at hmask
          rw [if_pos hsix, if_pos hsix]
          by_cases hroom : x.toNat < 2 ^ (width % 7 - 1)
          · rw [if_neg (by tauto), if_pos hroom, vi_positive hr hle]
            rfl
          · rw [if_pos ⟨rfl, fun h => hroom (hmask.mp h)⟩, if_neg hroom]
            rfl
        · rw [if_neg hsix, if_neg hsix] at hmask
          rw [if_neg hsix, if_neg hsix]
          by_cases hroom : 128 ≤ x.toNat + 2 ^ (width % 7 - 1)
          · rw [if_neg (by tauto), if_pos hroom, vi_negative_full hr hle (by omega)]
            rfl
          · rw [if_pos ⟨rfl, fun h => hroom (hmask.mp h)⟩, if_neg hroom]
            rfl
      · rw [if_neg hlt, if_neg (by omega), if_neg hlt, if_neg (by omega)]
        rfl
  | succ left ih =>
    obtain ⟨hN, hle, hpos⟩ := missing_bits hw hleft
    rw [Stream.readViLoop]
    cases hb : st.byteAt? offset with
    | none =>
      rw [byteAt?_none_iff.mp hb]
      rfl
    | some b =>
      have hb' := Stream.byteAt?_lt_256 hb
      obtain ⟨x, rfl, hdrop⟩ := drop_of_byteAt? hb
      have hseven : x.toNat % 128 < 2 ^ 7 := Nat.mod_lt _ (by decide)
      have hpow : 2 ^ 7 ≤ 2 ^ (width - 7 * offset - 1) := Nat.pow_le_pow_right (by decide) (by omega)
      have hvalue : x.toNat % 128 < 2 ^ (width - 7 * offset) :=
        hseven.trans_le (Nat.pow_le_pow_right (by decide) (by omega))
      rw [hdrop, decodeSigned]
      dsimp only
      by_cases hlt : x.toNat < 0x80
      · rw [if_pos hlt, if_neg (by omega), Nat.mod_eq_of_lt hlt, if_pos hlt]
        by_cases hsix : x.toNat < 64
        · rw [if_neg (by omega), if_pos hsix, if_pos (by omega), vi_positive hr hle]
          rfl
        · rw [if_pos ⟨by omega, by omega⟩, if_neg hsix, if_pos (by omega),
            vi_negative_extend hr hlt (by omega) (by omega)]
          rfl
      · have hr' : result + x.toNat % 128 * 2 ^ (7 * offset) < 2 ^ (7 * (offset + 1)) := by
          have := add_shiftLeft_lt hr hseven (show 7 * offset + 7 = 7 * (offset + 1) by omega)
          rwa [Nat.shiftLeft_eq] at this
        rw [if_neg hlt, if_neg (by omega), if_neg hlt, if_pos (by omega), or_shiftLeft_eq hr hvalue (by omega),
          ih hr' (by omega), Nat.sub_sub, show 7 * offset + 7 = 7 * (offset + 1) by omega]
        cases decodeSigned (width - 7 * (offset + 1)) (st.s.drop (st.p + (offset + 1))) with
        | none => rfl
        | some mn =>
          have hval : ((result + x.toNat % 128 * 2 ^ (7 * offset) : ℕ) : ℤ) + mn.1 * 2 ^ (7 * (offset + 1)) =
              result + (128 * mn.1 + ((x.toNat : ℤ) - 128)) * 2 ^ (7 * offset) := by
            have hlow : ((x.toNat % 128 : ℕ) : ℤ) = (x.toNat : ℤ) - 128 := by omega
            rw [Nat.cast_add, Nat.cast_mul, hlow, show 7 * (offset + 1) = 7 * offset + 7 by omega, pow_add]
            push_cast
            ring
          dsimp only [Option.map_some, afterVi]
          rw [hval, Nat.add_right_comm offset 1, Nat.add_assoc offset]

/-! ### Main results -/

namespace LebReader

/-- The number that starts `s`, by the grammar. -/
def decode (l : LebReader) (s : Str) : Option (ℤ × ℕ) :=
  match l with
  | .vu32 | .vu64 => (decodeUnsigned l.width s).map fun (v, n) => ((v : ℤ), n)
  | .vi32 | .vi64 => decodeSigned l.width s

theorem decode_iff {l : LebReader} {s : Str} {v : ℤ} {n : ℕ} :
    l.decode s = some (v, n) ↔ ∃ bs, bs <+: s ∧ bs.length = n ∧ l.Encodes v bs := by
  have hsigned : decodeSigned l.width s = some (v, n) ↔ ∃ bs, bs <+: s ∧ bs.length = n ∧ Signed l.width v bs := by
    rw [decodeSigned_iff]
    constructor
    · rintro ⟨bs, tail, rfl, hn, h⟩
      exact ⟨bs, List.prefix_append bs tail, hn, h⟩
    · rintro ⟨bs, ⟨tail, rfl⟩, hn, h⟩
      exact ⟨bs, tail, rfl, hn, h⟩
  have hunsigned : (decodeUnsigned l.width s).map (fun (v, n) => ((v : ℤ), n)) = some (v, n) ↔
      ∃ bs, bs <+: s ∧ bs.length = n ∧ ∃ m : ℕ, v = m ∧ Unsigned l.width m bs := by
    rw [Option.map_eq_some_iff]
    constructor
    · rintro ⟨⟨m, k⟩, hm, hv⟩
      obtain ⟨bs, tail, rfl, hk, h⟩ := decodeUnsigned_iff.mp hm
      cases hv
      exact ⟨bs, List.prefix_append bs tail, hk, m, rfl, h⟩
    · rintro ⟨bs, ⟨tail, rfl⟩, rfl, m, rfl, h⟩
      exact ⟨(m, bs.length), decodeUnsigned_of h tail, rfl⟩
  cases l with
  | vu32 => exact hunsigned
  | vu64 => exact hunsigned
  | vi32 => exact hsigned
  | vi64 => exact hsigned

theorem pattern_natCast {width v : ℕ} (h : v < 2 ^ width) : pattern width v = v := by
  have hp : v % 2 ^ width = pattern width v := pattern_of_eq (show (v : ℤ) = (v : ℤ) + 0 * 2 ^ width by ring)
  rw [← hp, Nat.mod_eq_of_lt h]

theorem toNat_ofInt (width : ℕ) (v : ℤ) : (BitVec.ofInt width v).toNat = pattern width v := by
  rw [BitVec.toNat_ofInt]
  unfold pattern
  push_cast
  rfl

theorem pattern_toInt {width v : ℕ} (h : v < 2 ^ width) : pattern width (BitVec.ofNat width v).toInt = v := by
  rw [← toNat_ofInt, BitVec.ofInt_toInt, BitVec.toNat_ofNat, Nat.mod_eq_of_lt h]

theorem toInt_pattern {width : ℕ} {v : ℤ} (hw : 0 < width) (hlo : -2 ^ (width - 1) ≤ v) (hhi : v < 2 ^ (width - 1)) :
    (BitVec.ofNat width (pattern width v)).toInt = v := by
  rw [← toNat_ofInt, BitVec.ofNat_toNat, BitVec.setWidth_eq]
  exact BitVec.toInt_ofInt_eq_self hw hlo hhi

theorem pattern_value {l : LebReader} {v : ℕ} (h : v < 2 ^ l.width) : pattern l.width (l.value v) = v := by
  cases l with
  | vu32 => exact pattern_natCast h
  | vu64 => exact pattern_natCast h
  | vi32 => exact pattern_toInt h
  | vi64 => exact pattern_toInt h

/-- The bit pattern of an encoded number stands for that number. -/
theorem value_pattern {l : LebReader} {v : ℤ} {bs : Str} (h : l.Encodes v bs) : l.value (pattern l.width v) = v := by
  have hunsigned : (∃ n : ℕ, v = n ∧ Unsigned l.width n bs) → ((pattern l.width v : ℕ) : ℤ) = v := by
    rintro ⟨n, rfl, hn⟩
    rw [pattern_natCast hn.lt]
  cases l with
  | vu32 => exact hunsigned h
  | vu64 => exact hunsigned h
  | vi32 => exact toInt_pattern (by decide) h.range.1 h.range.2
  | vi64 => exact toInt_pattern (by decide) h.range.1 h.range.2

theorem pattern_lt (width : ℕ) (v : ℤ) : pattern width v < 2 ^ width := by
  rw [← toNat_ofInt]
  exact (BitVec.ofInt width v).isLt

def malformed : Fault := .err .malformed "stream: invalid LEB123 encoding"

theorem read_decode (l : LebReader) (st : Stream) :
    l.read st = match l.decode (st.s.drop st.p) with
      | some (v, n) => (.ok (pattern l.width v), st.advance n)
      | none => (.error malformed, st) := by
  have hu : ∀ {width left : ℕ}, (width = 32 ∨ width = 64) → Stream.lebMaxLen width = left + 1 →
      Stream.moves (Stream.readVuLoop width st (left + 1) 0 0) st =
        match (decodeUnsigned width (st.s.drop st.p)).map fun (v, n) => ((v : ℤ), n) with
        | some (v, n) => (.ok (pattern width v), st.advance n)
        | none => (.error malformed, st) := by
    intro width left hw hleft
    rw [readVuLoop_decodes st hw (by simp) (by omega), Nat.mul_zero, Nat.sub_zero, Nat.add_zero]
    cases hd : decodeUnsigned width (st.s.drop st.p) with
    | none => rfl
    | some vn =>
      obtain ⟨v, n⟩ := vn
      obtain ⟨bs, tail, -, -, hbs⟩ := decodeUnsigned_iff.mp hd
      have hv : 0 + v * 2 ^ (7 * 0) = pattern width v := by
        rw [pattern_natCast hbs.lt]
        omega
      dsimp only [Option.map_some, afterVu, Stream.moves]
      rw [hv, Nat.zero_add]
  have hi : ∀ {width left : ℕ}, (width = 32 ∨ width = 64) → Stream.lebMaxLen width = left + 1 →
      Stream.moves (Stream.readViLoop width st (left + 1) 0 0) st =
        match decodeSigned width (st.s.drop st.p) with
        | some (v, n) => (.ok (pattern width v), st.advance n)
        | none => (.error malformed, st) := by
    intro width left hw hleft
    rw [readViLoop_decodes st hw (by simp) (by omega), Nat.mul_zero, Nat.sub_zero, Nat.add_zero]
    cases decodeSigned width (st.s.drop st.p) with
    | none => rfl
    | some vn =>
      have hv : ((0 : ℕ) : ℤ) + vn.1 * 2 ^ (7 * 0) = vn.1 := by
        rw [Nat.mul_zero, pow_zero]
        push_cast
        ring
      dsimp only [afterVi, Stream.moves]
      rw [hv, Nat.zero_add]
  rw [read_eq]
  cases l with
  | vu32 => exact hu (Or.inl rfl) rfl
  | vu64 => exact hu (Or.inr rfl) rfl
  | vi32 => exact hi (Or.inl rfl) rfl
  | vi64 => exact hi (Or.inr rfl) rfl

end LebReader

/-- A checked reader succeeds exactly when an encoding of the grammar is what comes next, and then
returns its value and moves past it; else it leaves the stream as it is. -/
theorem leb_reads (l : LebReader) (st : Stream) :
    (∀ v st', l.read st = (.ok v, st') ↔ v < 2 ^ l.width ∧
      ∃ bs, bs <+: st.s.drop st.p ∧ l.Encodes (l.value v) bs ∧ st' = st.advance bs.length) ∧
    ∀ e st', l.read st = (.error e, st') ↔ e = LebReader.malformed ∧ st' = st ∧
      ¬ ∃ v bs, bs <+: st.s.drop st.p ∧ l.Encodes v bs := by
  rw [LebReader.read_decode]
  constructor
  · intro v st'
    constructor
    · intro h
      split at h
      · next z n hd =>
        obtain ⟨bs, hpre, rfl, henc⟩ := LebReader.decode_iff.mp hd
        cases h
        refine ⟨LebReader.pattern_lt _ _, bs, hpre, ?_, rfl⟩
        rw [LebReader.value_pattern henc]
        exact henc
      · cases h
    · rintro ⟨hv, bs, hpre, henc, rfl⟩
      rw [LebReader.decode_iff.mpr ⟨bs, hpre, rfl, henc⟩]
      dsimp only
      rw [LebReader.pattern_value hv]
  · intro e st'
    constructor
    · intro h
      split at h
      · cases h
      · next hd =>
        cases h
        refine ⟨rfl, rfl, ?_⟩
        rintro ⟨v, bs, hpre, henc⟩
        have := LebReader.decode_iff.mpr ⟨bs, hpre, rfl, henc⟩
        rw [hd] at this
        cases this
    · rintro ⟨rfl, hst, hno⟩
      cases hd : l.decode (st.s.drop st.p) with
      | none => rw [hst]
      | some vn =>
        obtain ⟨v, n⟩ := vn
        obtain ⟨bs, hpre, -, henc⟩ := LebReader.decode_iff.mp hd
        exact absurd ⟨v, bs, hpre, henc⟩ hno

/-- The fast readers agree with the checked ones. -/
theorem leb_readers_agree (l : LebReader) (st st' : Stream) (v : ℕ) (h : l.read st = (.ok v, st')) :
    l.unchecked st.s st.p = .ok (v, st'.p) := by
  have hchecked : l.checked st = .ok (v, st') := by
    rw [LebReader.read_eq] at h
    unfold Stream.moves at h
    split at h
    · next hc =>
      cases h
      exact hc
    · cases h
  cases l with
  | vu32 => exact readVu32_unchecked hchecked
  | vu64 => exact readVuLoop_unchecked hchecked (by simp) (by simp)
  | vi32 => exact readVi32_unchecked hchecked
  | vi64 => exact readVi64_unchecked hchecked

theorem leb_readers_agree_minus_one : Unchecked.readVi32 [0xff, 0x7f] 0 = .ok (2 ^ 32 - 1, 2) :=
  leb_readers_agree .vi32 ⟨[0xff, 0x7f], 0⟩ ⟨[0xff, 0x7f], 2⟩ (2 ^ 32 - 1) (by decide +kernel)

end Silverfir
