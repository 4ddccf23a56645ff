import Silverfir.Fetch
import Mathlib.Data.Nat.ModEq

/-! The unchecked readers agree with the checked ones wherever these succeed. -/
namespace Silverfir

/-- Bits that do not overlap can be added. -/
theorem add_shiftLeft_mod {a k w : ℕ} (c : ℕ) (ha : a < 2 ^ k) (hk : k ≤ w) :
    (a + c <<< k) % 2 ^ w = a ||| (c <<< k) % 2 ^ w := by
  have hw : 2 ^ w = 2 ^ k * 2 ^ (w - k) := by rw [← pow_add]; congr 1; omega
  have hx : (c <<< k) % 2 ^ w = 2 ^ k * (c % 2 ^ (w - k)) := by
    rw [Nat.shiftLeft_eq, Nat.mul_comm, hw, Nat.mul_mod_mul_left]
  have hd : c % 2 ^ (w - k) < 2 ^ (w - k) := Nat.mod_lt _ (Nat.two_pow_pos _)
  have hle : 2 ^ k * (c % 2 ^ (w - k)) + 2 ^ k ≤ 2 ^ w := by
    rw [hw, ← Nat.mul_succ]
    exact Nat.mul_le_mul_left _ hd
  have hor : a ||| 2 ^ k * (c % 2 ^ (w - k)) = 2 ^ k * (c % 2 ^ (w - k)) + a := by
    rw [Nat.two_pow_add_eq_or_of_lt ha, Nat.or_comm]
  rw [hx, hor, Nat.add_mod, hx]
  have ha' : a % 2 ^ w = a := Nat.mod_eq_of_lt (by omega)
  rw [ha', Nat.add_comm, Nat.mod_eq_of_lt (by omega)]

theorem or_shiftLeft_lt {a b k w : ℕ} (ha : a < 2 ^ k) : a ||| ((b % 128) <<< k) % 2 ^ w < 2 ^ (k + 7) := by
  have hpow : 2 ^ (k + 7) = 2 ^ k * 128 := by rw [pow_add]; rfl
  have hb : (b % 128) <<< k < 2 ^ (k + 7) := by
    rw [Nat.shiftLeft_eq, hpow, Nat.mul_comm]
    have := Nat.mod_lt b (show 0 < 128 by decide)
    exact Nat.mul_lt_mul_of_pos_left this (Nat.two_pow_pos k)
  refine Nat.or_lt_two_pow ?_ ?_
  · rw [hpow]
    have := Nat.two_pow_pos k
    omega
  · exact lt_of_le_of_lt (Nat.mod_le _ _) hb

/-- Taking the continuation bit out again leaves the seven value bits. -/
theorem continuation_mod {a b k w : ℕ} (hb : 128 ≤ b) (hb' : b < 256) :
    ((a + b <<< k) % 2 ^ w + 2 ^ w - (0x80 <<< k) % 2 ^ w) % 2 ^ w = (a + (b % 128) <<< k) % 2 ^ w := by
  have hsplit : b <<< k = (b % 128) <<< k + 0x80 <<< k := by
    rw [Nat.shiftLeft_eq, Nat.shiftLeft_eq, Nat.shiftLeft_eq, ← Nat.add_mul]
    congr 1
    omega
  rw [hsplit, ← Nat.add_assoc]
  generalize a + (b % 128) <<< k = x
  generalize 0x80 <<< k = y
  have hy : y % 2 ^ w < 2 ^ w := Nat.mod_lt _ (Nat.two_pow_pos w)
  have h1 : (x + y) % 2 ^ w + 2 ^ w - y % 2 ^ w ≡ x [MOD 2 ^ w] := by
    have h2 : (x + y) % 2 ^ w + 2 ^ w - y % 2 ^ w + y % 2 ^ w ≡ x + y % 2 ^ w [MOD 2 ^ w] := by
      rw [Nat.sub_add_cancel (by omega)]
      calc (x + y) % 2 ^ w + 2 ^ w ≡ x + y + 0 [MOD 2 ^ w] :=
            Nat.ModEq.add (Nat.mod_modEq _ _) (by simp [Nat.ModEq])
        _ = x + y := by omega
        _ ≡ x + y % 2 ^ w [MOD 2 ^ w] := Nat.ModEq.add_left _ (Nat.mod_modEq _ _).symm
    exact Nat.ModEq.add_right_cancel' _ h2
  exact h1

theorem byteAt_of_byteAt? {st : Stream} {n b : ℕ} (h : st.byteAt? n = some b) :
    Unchecked.byteAt st.s (st.p + n) = .ok b := by
  unfold Stream.byteAt? at h
  obtain ⟨x, hx, rfl⟩ := Option.map_eq_some_iff.mp h
  simp [Unchecked.byteAt, hx]

theorem readVuLoop_unchecked {width left offset result v : ℕ} {st st' : Stream}
    (h : Stream.readVuLoop width st left offset result = .ok (v, st'))
    (hr : result < 2 ^ (7 * offset)) (hw : 7 * (offset + left) ≤ width + 7) :
    Unchecked.readVuLoop width st.s st.p left offset result = .ok (v, st'.p) := by
  induction left generalizing offset result with
  | zero => simp [Stream.readVuLoop, Stream.badLeb] at h
  | succ left ih =>
    rw [Stream.readVuLoop] at h
    split at h
    · simp [Stream.badLeb] at h
    · next b hb =>
      have hb' := Stream.byteAt?_lt_256 hb
      dsimp only at h
      rw [Unchecked.readVuLoop, byteAt_of_byteAt? hb, ok_bind]
      dsimp only
      by_cases hlt : b < 0x80
      · rw [if_pos hlt] at h ⊢
        split at h
        · simp [Stream.badLeb] at h
        · have hmod : b % 128 = b := Nat.mod_eq_of_lt hlt
          rw [hmod] at h
          cases h
          rw [add_shiftLeft_mod b hr (by omega)]
          rfl
      · rw [if_neg hlt] at h ⊢
        have hne : ¬ left = 0 := by
          rintro rfl
          simp [Stream.readVuLoop, Stream.badLeb] at h
        rw [if_neg hne, continuation_mod (by omega) hb', add_shiftLeft_mod _ hr (by omega)]
        exact ih h (by rw [Nat.mul_succ]; exact or_shiftLeft_lt hr) (by omega)

theorem readVu32_unchecked {st st' : Stream} {v : ℕ} (h : st.readVu32 = .ok (v, st')) :
    Unchecked.readVu32 st.s st.p = .ok (v, st'.p) :=
  readVuLoop_unchecked h (by simp) (by simp)

/-- The sign extension is the same for both widths of the mask. -/
theorem signMask {shift width : ℕ} (hw : width ≤ 64) :
    ((2 ^ 64 - 1) <<< shift) % 2 ^ width = ((2 ^ width - 1) <<< shift) % 2 ^ width := by
  have hmod : (2 ^ 64 - 1) % 2 ^ width = (2 ^ width - 1) % 2 ^ width := by
    have hsplit : 2 ^ 64 = 2 ^ width * 2 ^ (64 - width) := by rw [← pow_add]; congr 1; omega
    have hpos := Nat.two_pow_pos width
    have hpos' := Nat.two_pow_pos (64 - width)
    have he : 2 ^ 64 - 1 = 2 ^ width * (2 ^ (64 - width) - 1) + (2 ^ width - 1) := by
      rw [hsplit, Nat.mul_sub, Nat.mul_one]
      have : 2 ^ width ≤ 2 ^ width * 2 ^ (64 - width) := Nat.le_mul_of_pos_right _ hpos'
      omega
    rw [he, Nat.mul_add_mod]
  rw [Nat.shiftLeft_eq, Nat.shiftLeft_eq, Nat.mul_mod, hmod, ← Nat.mul_mod]

theorem signBit {b : ℕ} (hb : b < 128) : b &&& 0x40 ≠ 0 ↔ 0x40 ≤ b := by
  have key : ∀ n : Fin 128, (n.val &&& 0x40 ≠ 0 ↔ 0x40 ≤ n.val) := by decide
  exact key ⟨b, hb⟩

theorem readViLoop_unchecked {width left offset result v : ℕ} {st st' : Stream}
    (h : Stream.readViLoop width st left offset result = .ok (v, st'))
    (hr : result < 2 ^ (7 * offset)) (hw : 7 * (offset + left) < width + 7) (hw64 : width ≤ 64)
    (hlast : width < 7 * (offset + left)) :
    Unchecked.readViLoop width st.s st.p left offset result = .ok (v, st'.p) := by
  induction left generalizing offset result with
  | zero => simp [Stream.readViLoop, Stream.badLeb] at h
  | succ left ih =>
    rw [Stream.readViLoop] at h
    split at h
    · simp [Stream.badLeb] at h
    · next b hb =>
      have hb' := Stream.byteAt?_lt_256 hb
      dsimp only at h
      rw [Unchecked.readViLoop, byteAt_of_byteAt? hb, ok_bind]
      dsimp only
      by_cases hlt : b < 0x80
      · have hmod : b % 128 = b := Nat.mod_eq_of_lt hlt
        rw [if_pos hlt, hmod, ← add_shiftLeft_mod b hr (by omega)] at h
        have hval := (guard_eq_ok.mp h).2
        by_cases hz : left = 0
        · subst hz
          rw [if_neg (by omega)] at hval
          rw [if_pos rfl, if_pos hlt]
          cases hval
          rfl
        · rw [if_neg hz, if_pos hlt]
          by_cases hs : 0x40 ≤ b
          · rw [if_pos ⟨by omega, hs⟩, signMask hw64] at hval
            rw [if_pos ((signBit hlt).mpr hs)]
            cases hval
            rfl
          · rw [if_neg (by omega)] at hval
            rw [if_neg (fun hc => hs ((signBit hlt).mp hc))]
            cases hval
            rfl
      · rw [if_neg hlt] at h
        have hne : ¬ left = 0 := by
          rintro rfl
          simp [Stream.readViLoop, Stream.badLeb] at h
        rw [if_neg hne, if_neg hlt, continuation_mod (by omega) hb', add_shiftLeft_mod _ hr (by omega)]
        exact ih h (by rw [Nat.mul_succ]; exact or_shiftLeft_lt hr) (by omega) (by omega)

theorem readVi32_unchecked {st st' : Stream} {v : ℕ} (h : st.readVi32 = .ok (v, st')) :
    Unchecked.readVi32 st.s st.p = .ok (v, st'.p) :=
  readViLoop_unchecked h (by simp) (by simp) (by omega) (by simp)

theorem readVi64_unchecked {st st' : Stream} {v : ℕ} (h : st.readVi64 = .ok (v, st')) :
    Unchecked.readVi64 st.s st.p = .ok (v, st'.p) :=
  readViLoop_unchecked h (by simp) (by simp) (by omega) (by simp)

theorem readFixed_unchecked {n : ℕ} {st st' : Stream} {v : ℕ} (h : Stream.readFixed n st = .ok (v, st'))
    (hn : 0 < n) : Unchecked.readFixed n st.s st.p = .ok (v, st'.p) := by
  obtain ⟨hle, rfl, rfl⟩ := Stream.readFixed_ok h
  unfold Stream.remaining at hle
  unfold Unchecked.readFixed
  rw [if_neg (by omega)]
  rfl

end Silverfir
