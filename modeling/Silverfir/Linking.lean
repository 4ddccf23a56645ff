import Silverfir.Bracketing

/-! The links of the jump table: the slot that comes next after a jump. -/
namespace Silverfir.Validator

open ListStack

/-- `m` is the number of slots that lie at or before the offset `target`. -/
structure Splits (jt : List JumpTable) (target m : ℕ) : Prop where
  before : ∀ j < m, ∀ s, jt[j]? = some s → s.pc ≤ target
  after : ∀ j ≥ m, ∀ s, jt[j]? = some s → target < s.pc

theorem linkForward_eq {jt : List JumpTable} {target m j next : ℕ} (h : Splits jt target m)
    (hj : j ≤ m) (hm : m < jt.length) : linkForward target j (jt.drop j) next = u16 m := by
  obtain ⟨d, hd⟩ : ∃ d, m = j + d := ⟨m - j, by omega⟩
  induction d generalizing j with
  | zero =>
    obtain rfl : m = j := by omega
    have hs := h.after m le_rfl jt[m] (List.getElem?_eq_getElem hm)
    rw [List.drop_eq_getElem_cons hm]
    unfold linkForward
    rw [if_pos hs]
  | succ d ih =>
    have hlt : j < jt.length := by omega
    have hs := h.before j (by omega) jt[j] (List.getElem?_eq_getElem hlt)
    rw [List.drop_eq_getElem_cons hlt]
    unfold linkForward
    rw [if_neg (by omega)]
    exact ih (by omega) (by omega)

theorem linkBackward_eq {jt : List JumpTable} {target m k next : ℕ} (h : Splits jt target m)
    (hk : m ≤ k) (hlt : k < jt.length) :
    linkBackward target k (jt.take (k + 1)).reverse next = u16 m := by
  induction k generalizing next with
  | zero =>
    obtain rfl : m = 0 := by omega
    have hs := h.after 0 le_rfl jt[0] (List.getElem?_eq_getElem hlt)
    rw [List.take_succ_eq_append_getElem hlt, List.reverse_append, List.reverse_singleton,
      List.singleton_append]
    unfold linkBackward
    rw [if_pos hs]
    rfl
  | succ k ih =>
    have hs := h.after (k + 1) hk jt[k + 1] (List.getElem?_eq_getElem hlt)
    rw [List.take_succ_eq_append_getElem hlt, List.reverse_append, List.reverse_singleton,
      List.singleton_append]
    unfold linkBackward
    rw [if_pos hs]
    by_cases hm : m ≤ k
    · exact ih hm (by omega)
    · obtain rfl : m = k + 1 := by omega
      have hlt' : k < jt.length := by omega
      have hs' := h.before k (by omega) jt[k] (List.getElem?_eq_getElem hlt')
      rw [List.take_succ_eq_append_getElem hlt', List.reverse_append, List.reverse_singleton,
        List.singleton_append]
      unfold linkBackward
      rw [if_neg (by omega)]

theorem getElem?_linkJumpTable (jt : List JumpTable) (k : ℕ) :
    (linkJumpTable jt)[k]? = (jt[k]?).map (linkSlot jt k) := List.getElem?_mapIdx

@[simp] theorem length_linkJumpTable (jt : List JumpTable) : (linkJumpTable jt).length = jt.length :=
  List.length_mapIdx

/-- The link of a slot is the first slot after its target. -/
theorem linkSlot_nextIdx {jt : List JumpTable} {k m target : ℕ} {slot : JumpTable}
    (hslot : jt[k]? = some slot) (htarget : (slot.pc : ℤ) + slot.targetOffset = target)
    (hlt : target < 2 ^ 32) (h0 : slot.targetOffset ≠ 0) (h : Splits jt target m)
    (hm : m < jt.length) : (linkSlot jt k slot).nextIdx = u16 m := by
  have hk := (List.getElem?_eq_some_iff.mp hslot).1
  have ht : slotTarget slot = target := by
    unfold slotTarget
    rw [htarget]
    omega
  unfold linkSlot
  simp only [ht]
  by_cases hpos : slot.targetOffset > 0
  · rw [if_pos hpos]
    refine linkForward_eq h ?_ hm
    by_contra hgt
    have := h.after k (by omega) slot hslot
    omega
  · rw [if_neg hpos]
    refine linkBackward_eq h ?_ hk
    by_contra hgt
    have := h.before k (by omega) slot hslot
    omega

/-- The 32-bit difference of two offsets below `2 ^ 31` is exact. -/
theorem i32Sub_eq {a b : ℕ} (ha : a < 2 ^ 31) (hb : b < 2 ^ 31) : i32Sub a b = (a : ℤ) - b := by
  unfold i32Sub
  rw [Int.bmod_eq_of_le (by omega) (by omega)]

theorem u32_eq {n : ℕ} (h : n < 2 ^ 31) : u32 n = n := Nat.mod_eq_of_lt (by omega)

end Silverfir.Validator
