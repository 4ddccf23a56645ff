import Silverfir.Linking

/-! Where the jumps of an accepted function arrive. A slot is tracked from the callback that
makes it to the one that closes its frame, and from there to the finished table. -/
namespace Silverfir

/-- The labels of a `br_table` take one byte each. -/
def oneByteLabels (code : Str) (l : Located) : Bool :=
  l.instr != .brTable ||
    match Stream.readVu32 ⟨code, l.imm⟩ with
    | .ok (_, pc) => ((code.drop pc.p).take (l.next - pc.p)).all (· < 0x80)
    | .error _ => true

/-- The number of slots an instruction takes in the jump table. -/
def slotsOf (code : Str) (l : Located) : ℕ :=
  match l.instr with
  | .block op _ => if op = .if_ then 1 else 0
  | .else_ | .brOrIf _ _ => 1
  | .brTable =>
    match Stream.readVu32 ⟨code, l.imm⟩ with
    | .ok (n, _) => (n + 1) % 2 ^ 32
    | .error _ => 0
  | _ => 0

def slotCount (mod : Module) (code : Str) : ℕ := ((instrs mod code).map (slotsOf code)).sum

/-- What the jump table needs to be right: the function has not been validated before, its
brackets match, the labels of `br_table` take one byte, and offsets and slot numbers fit in
their machine types. -/
structure JumpSafe (mod : Module) (f : Func) : Prop where
  fresh : f.jt = []
  balanced : balanced mod f.code = true
  labels : (instrs mod f.code).all (oneByteLabels f.code) = true
  slots : slotCount mod f.code ≤ 65536
  short : f.code.length < 2 ^ 31

instance (mod : Module) (f : Func) : Decidable (JumpSafe mod f) :=
  decidable_of_iff
    (f.jt = [] ∧ Silverfir.balanced mod f.code = true ∧
      (instrs mod f.code).all (oneByteLabels f.code) = true ∧
      slotCount mod f.code ≤ 65536 ∧ f.code.length < 2 ^ 31)
    ⟨fun h => ⟨h.1, h.2.1, h.2.2.1, h.2.2.2.1, h.2.2.2.2⟩,
      fun h => ⟨h.fresh, h.balanced, h.labels, h.slots, h.short⟩⟩

namespace Validator

open ListStack
open Relation (ReflTransGen)

variable {mod : Module} {f : Func}

theorem mem_scan {x y : ℕ × Ctx} (h : ReflTransGen (Step mod f) x y) {i : Instr} {imm q n : ℕ}
    (hf : fetch mod f.code y.1 = .ok (i, imm, q)) (hn : f.code.length ≤ x.1 + n) :
    ⟨y.1, i, imm, q⟩ ∈ scan mod f.code n x.1 := by
  have hspan := fetch_span hf
  induction h using ReflTransGen.head_induction_on generalizing n with
  | refl =>
    obtain ⟨n, rfl⟩ : ∃ m, n = m + 1 := ⟨n - 1, by omega⟩
    simp only [scan, hf]
    exact List.mem_cons_self
  | @head a b hab hbz ih =>
    obtain ⟨i', imm', hf', -⟩ := step_iff.mp hab
    have hlt := hab.lt
    have hle := decodeSteps_le hbz
    obtain ⟨n, rfl⟩ : ∃ m, n = m + 1 := ⟨n - 1, by omega⟩
    simp only [scan, hf']
    exact List.mem_cons_of_mem _ (ih (by omega))

theorem Reach.mem_instrs {p : ℕ} {c : Ctx} (h : Reach mod f (p, c)) {i : Instr} {imm q : ℕ}
    (hf : fetch mod f.code p = .ok (i, imm, q)) : ⟨p, i, imm, q⟩ ∈ instrs mod f.code := by
  obtain ⟨c0, -, hs⟩ := h
  exact mem_scan hs hf (by simp only; omega)

/-! ### The offsets of the slots -/

theorem readVu32_one_byte {code : Str} {p : ℕ} {b : UInt8} (hb : code[p]? = some b) (hlt : b < 0x80) :
    Stream.readVu32 ⟨code, p⟩ = .ok (b.toNat, ⟨code, p + 1⟩) := by
  have hn : b.toNat < 128 := hlt
  have h0 : Stream.byteAt? ⟨code, p⟩ 0 = some b.toNat := by simp [Stream.byteAt?, hb]
  have hlen : Stream.lebMaxLen 32 = 4 + 1 := by decide
  unfold Stream.readVu32
  rw [hlen, Stream.readVuLoop, h0]
  have hmod : b.toNat % 128 = b.toNat := Nat.mod_eq_of_lt hn
  have hmod2 : b.toNat % 2 ^ 32 = b.toNat := Nat.mod_eq_of_lt (by omega)
  simp only [Nat.mul_zero, Nat.shiftLeft_zero, hmod, hmod2, Nat.zero_or]
  rw [if_pos hn, if_neg (by simp)]
  rfl

/-- Labels of one byte are read one byte at a time. -/
theorem brTableLabels_one_byte {frames n p : ℕ} {code : Str} {ls : List ℕ} {pc' : Stream}
    (h : brTableLabels frames n ⟨code, p⟩ = .ok (ls, pc'))
    (hb : ∀ j, p ≤ j → j < p + n → ∀ b, code[j]? = some b → b < 0x80) :
    pc'.p = p + n ∧ ∀ j l, ls[j]? = some l → (code[p + j]?).map UInt8.toNat = some l := by
  induction n generalizing p ls pc' with
  | zero =>
    cases h
    exact ⟨rfl, fun j l hl => by simp at hl⟩
  | succ n ih =>
    unfold brTableLabels at h
    obtain ⟨⟨l, pc1⟩, hl, hguard⟩ := bind_eq_ok.mp h
    obtain ⟨⟨ls', pc2⟩, h2, hcons⟩ := bind_eq_ok.mp (guard_eq_ok.mp hguard).2
    have hr := Stream.reads_readVu32 hl
    have hlt : p < code.length := by
      have h1 := hr.lt
      have h2 := hr.le
      simp only at h1 h2
      omega
    have hbyte : code[p]? = some code[p] := List.getElem?_eq_getElem hlt
    rw [readVu32_one_byte hbyte (hb p le_rfl (by omega) _ hbyte)] at hl
    cases hl
    cases hcons
    obtain ⟨hp, hlab⟩ := ih h2 fun j hj hj' => hb j (by omega) (by omega)
    refine ⟨by omega, fun j l hl => ?_⟩
    cases j with
    | zero =>
      rw [List.getElem?_cons_zero] at hl
      rw [Nat.add_zero, hbyte, Option.map_some, ← hl]
    | succ j =>
      rw [List.getElem?_cons_succ] at hl
      rw [← hlab j l hl]
      congr 2
      omega

/-- The labels of a `br_table` in a function that is safe. -/
theorem safe_label_lt (hs : JumpSafe mod f) {p imm q n p1 : ℕ} {c : Ctx} (hr : Reach mod f (p, c))
    (hf : fetch mod f.code p = .ok (.brTable, imm, q)) (hn : Stream.readVu32 ⟨f.code, imm⟩ = .ok (n, ⟨f.code, p1⟩))
    (hq : q = p1 + (n + 1) % 2 ^ 32) :
    ∀ j, p1 ≤ j → j < p1 + (n + 1) % 2 ^ 32 → ∀ b, f.code[j]? = some b → b < 0x80 := by
  have hlab := List.all_eq_true.mp hs.labels _ (hr.mem_instrs hf)
  simp only [oneByteLabels, bne_self_eq_false, Bool.false_or, hn, List.all_eq_true,
    decide_eq_true_eq] at hlab
  intro j hj hj' b hb
  refine hlab b (List.mem_iff_getElem?.mpr ⟨j - p1, ?_⟩)
  rw [List.getElem?_take, if_pos (by omega), List.getElem?_drop]
  have : p1 + (j - p1) = j := by omega
  rw [this]
  exact hb

/-- The offset a slot records is the one at which the interpreter is when it uses the slot. -/
theorem slotPc_le (hs : JumpSafe mod f) {p : ℕ} {c : Ctx} (hr : Reach mod f (p, c)) {i : Instr}
    {imm q pc : ℕ} (hf : fetch mod f.code p = .ok (i, imm, q)) (h : SlotPc ⟨f.code, imm⟩ i pc) :
    (i ≠ .brTable → pc = imm) ∧ (i = .brTable → pc = q) := by
  have hspan := fetch_span hf
  have hshort := hs.short
  refine ⟨fun hne => ?_, fun he => ?_⟩
  · rw [SlotPc, if_neg hne] at h
    rw [h]
    exact u32_eq (by simp only; omega)
  · subst he
    rw [SlotPc, if_pos rfl] at h
    obtain ⟨n, pc1, frames, labels, pc2, hn, hl, rfl⟩ := h
    obtain ⟨-, n', p1, hn', hq⟩ := fetch_brTable hf
    obtain ⟨rfl, rfl⟩ : n = n' ∧ pc1 = ⟨f.code, p1⟩ := by
      rw [hn] at hn'
      cases hn'
      exact ⟨rfl, rfl⟩
    have hp2 : pc2.p = p1 + (n + 1) % 2 ^ 32 := (brTableLabels_one_byte hl (safe_label_lt hs hr hf hn hq)).1
    rw [hp2, ← hq]
    exact u32_eq (by omega)

/-- Slots made so far lie at or before the current offset, and in order. -/
structure SlotsBelow (p : ℕ) (jt : List JumpTable) : Prop where
  le : ∀ pc ∈ jt.map (·.pc), pc ≤ p
  sorted : (jt.map (·.pc)).Pairwise (· ≤ ·)

theorem step_news (hs : JumpSafe mod f) {p q : ℕ} {c c' : Ctx} (hr : Reach mod f (p, c))
    (hstep : Step mod f (p, c) (q, c')) :
    ∃ news, c'.jt.map (·.pc) = c.jt.map (·.pc) ++ news ∧ (∀ pc ∈ news, p < pc ∧ pc ≤ q) ∧
      news.Pairwise (· ≤ ·) := by
  obtain ⟨i, imm, hf, hcb⟩ := step_iff.mp hstep
  have hspan := fetch_span hf
  obtain ⟨news, hnews, hP⟩ := (step_effect hr.inv.wf hf hcb).pcs
  have heq : ∀ pc ∈ news, pc = if i = .brTable then q else imm := by
    intro pc hpc
    obtain ⟨slot, hslot, rfl⟩ := hP pc hpc
    obtain ⟨h1, h2⟩ := slotPc_le hs hr hf hslot
    by_cases he : i = .brTable
    · rw [if_pos he]; exact h2 he
    · rw [if_neg he]; exact h1 he
  refine ⟨news, hnews, ?_, ?_⟩
  · intro pc hpc
    rw [heq pc hpc]
    split <;> omega
  · rw [List.eq_replicate_of_mem heq]
    exact List.pairwise_replicate.mpr (Or.inr le_rfl)

theorem Reach.slotsBelow (hs : JumpSafe mod f) {x : ℕ × Ctx} (h : Reach mod f x) :
    SlotsBelow x.1 x.2.jt := by
  refine Reach.induction (P := fun x => SlotsBelow x.1 x.2.jt) ?_ ?_ h
  · intro c hc
    obtain ⟨ps, rs, -, -, -, -, -, hjt⟩ := onDecodeBegin_ok hc
    rw [hs.fresh] at hjt
    exact ⟨by simp [hjt], by simp [hjt]⟩
  · rintro ⟨p, c⟩ ⟨q, c'⟩ hr hstep ih
    obtain ⟨news, hnews, hb, hsort⟩ := step_news hs hr hstep
    have hpq := hstep.lt.1
    simp only at hpq ih ⊢
    constructor
    · intro pc hpc
      rw [hnews] at hpc
      rcases List.mem_append.mp hpc with hpc | hpc
      · exact (ih.le pc hpc).trans hpq.le
      · exact (hb pc hpc).2
    · rw [hnews, List.pairwise_append]
      refine ⟨ih.sorted, hsort, ?_⟩
      intro a ha b hb'
      exact (ih.le a ha).trans (hb b hb').1.le

/-- Slots made later lie after the current offset. -/
theorem Reach.slots_after (hs : JumpSafe mod f) {x y : ℕ × Ctx} (hx : Reach mod f x)
    (h : ReflTransGen (Step mod f) x y) :
    ∃ news, y.2.jt.map (·.pc) = x.2.jt.map (·.pc) ++ news ∧ ∀ pc ∈ news, x.1 < pc := by
  induction h with
  | refl => exact ⟨[], by simp, by simp⟩
  | tail hpath hstep ih =>
    rename_i b d
    obtain ⟨news, hnews, hgt⟩ := ih
    obtain ⟨news', hnews', hb, -⟩ := step_news hs (hx.trans hpath) hstep
    have hle := decodeSteps_le hpath
    refine ⟨news ++ news', by rw [hnews', hnews, List.append_assoc], ?_⟩
    intro pc hpc
    rcases List.mem_append.mp hpc with hpc | hpc
    · exact hgt pc hpc
    · have := (hb pc hpc).1
      omega

/-- At a visited offset, the slots made so far are those that lie before it. -/
theorem Reach.splits (hs : JumpSafe mod f) {x y : ℕ × Ctx} (hx : Reach mod f x)
    (h : ReflTransGen (Step mod f) x y) : Splits y.2.jt x.1 x.2.jt.length := by
  obtain ⟨news, hnews, hgt⟩ := hx.slots_after hs h
  have hpcs : ∀ (j : ℕ) (s : JumpTable), y.2.jt[j]? = some s → (x.2.jt.map (·.pc) ++ news)[j]? = some s.pc := by
    intro j s hj
    rw [← hnews, List.getElem?_map, hj]
    rfl
  constructor
  · intro j hj s hsj
    have h1 := hpcs j s hsj
    rw [List.getElem?_append_left (by simpa using hj)] at h1
    exact (hx.slotsBelow hs).le _ (List.mem_of_getElem? h1)
  · intro j hj s hsj
    have h1 := hpcs j s hsj
    rw [List.getElem?_append_right (by simpa using hj)] at h1
    exact hgt _ (List.mem_of_getElem? h1)

end Validator

end Silverfir
