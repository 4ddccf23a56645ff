import Silverfir.ControlFlow
import Silverfir.Parsed

/-! The jump table in 16 bits. Validation counts the slots without a bound and links them, and the
interpreter counts them again, with indices that are cut to a `u16`; and validation appends to the
table that is there. -/
namespace Silverfir

open InPlaceDt Validator
open Relation (ReflTransGen)

/-! ### Links -/

/-- The forward search with an index of any size. -/
def findForward (target : ℕ) : ℕ → List JumpTable → Option ℕ
  | _, [] => none
  | j, s :: rest => if s.pc > target then some j else findForward target (j + 1) rest

/-- The backward search with an index of any size. -/
def findBackward (target : ℕ) : ℕ → List JumpTable → Option ℕ
  | _, [] => none
  | j, s :: rest => if s.pc > target then some ((findBackward target (j - 1) rest).getD j) else none

/-- The full index of the slot that slot `i` is linked to, if it is linked. -/
def linkIdx (jt : List JumpTable) (i : ℕ) (slot : JumpTable) : Option ℕ :=
  if slot.targetOffset > 0 then findForward (slotTarget slot) (i + 1) (jt.drop (i + 1))
  else findBackward (slotTarget slot) i (jt.take (i + 1)).reverse

section Links
variable {target j k : ℕ} {jt jt' : List JumpTable}

theorem linkForward_find (target j : ℕ) (jt : List JumpTable) (next : ℕ) :
    linkForward target j jt next = ((findForward target j jt).map u16).getD next := by
  induction jt generalizing j with
  | nil => rfl
  | cons s rest ih =>
    rw [linkForward, findForward]
    split
    · rfl
    · exact ih (j + 1)

theorem linkBackward_find (target j : ℕ) (jt : List JumpTable) (next : ℕ) :
    linkBackward target j jt next = ((findBackward target j jt).map u16).getD next := by
  induction jt generalizing j next with
  | nil => rfl
  | cons s rest ih =>
    rw [linkBackward, findBackward]
    split
    · rw [ih (j - 1) (u16 j)]
      cases findBackward target (j - 1) rest <;> rfl
    · rfl

/-- What is stored is the full index, cut to 16 bits. -/
theorem linkSlot_find (jt : List JumpTable) (i : ℕ) (slot : JumpTable) :
    (linkSlot jt i slot).nextIdx = ((linkIdx jt i slot).map u16).getD slot.nextIdx := by
  rw [linkSlot, linkIdx]
  simp only
  split
  · exact linkForward_find ..
  · exact linkBackward_find ..

theorem findForward_lt (h : findForward target j jt = some k) : k < j + jt.length := by
  induction jt generalizing j with
  | nil => cases h
  | cons s rest ih =>
    rw [findForward] at h
    rw [List.length_cons]
    split at h
    · cases h
      omega
    · have := ih h
      omega

theorem findBackward_le (h : findBackward target j jt = some k) : k ≤ j := by
  induction jt generalizing j k with
  | nil => cases h
  | cons s rest ih =>
    rw [findBackward] at h
    split at h
    · cases hrest : findBackward target (j - 1) rest with
      | none =>
        rw [hrest] at h
        cases h
        exact le_rfl
      | some k' =>
        rw [hrest] at h
        cases h
        exact (ih hrest).trans (Nat.sub_le j 1)
    · cases h

/-- A link leads into the table. -/
theorem linkIdx_lt {i : ℕ} {slot : JumpTable} (hi : i < jt.length) (h : linkIdx jt i slot = some k) :
    k < jt.length := by
  rw [linkIdx] at h
  split at h
  · have hlt := findForward_lt h
    rw [List.length_drop] at hlt
    omega
  · exact lt_of_le_of_lt (findBackward_le h) hi

/-- The searches look at the offsets only. -/
theorem findForward_pcs (h : jt'.map (·.pc) = jt.map (·.pc)) : findForward target j jt' = findForward target j jt := by
  induction jt generalizing jt' j with
  | nil => rw [List.map_eq_nil_iff.mp h]
  | cons s rest ih =>
    obtain ⟨s', rest', rfl, hs, hrest⟩ := List.map_eq_cons_iff.mp h
    rw [findForward, findForward, hs, ih hrest]

theorem findBackward_pcs (h : jt'.map (·.pc) = jt.map (·.pc)) :
    findBackward target j jt' = findBackward target j jt := by
  induction jt generalizing jt' j with
  | nil => rw [List.map_eq_nil_iff.mp h]
  | cons s rest ih =>
    obtain ⟨s', rest', rfl, hs, hrest⟩ := List.map_eq_cons_iff.mp h
    rw [findBackward, findBackward, hs, ih hrest]

theorem linkIdx_pcs {i : ℕ} {slot slot' : JumpTable} (h : jt'.map (·.pc) = jt.map (·.pc)) (hpc : slot'.pc = slot.pc)
    (htgt : slot'.targetOffset = slot.targetOffset) : linkIdx jt' i slot' = linkIdx jt i slot := by
  have htarget : slotTarget slot' = slotTarget slot := by rw [slotTarget, slotTarget, hpc, htgt]
  have hdrop : (jt'.drop (i + 1)).map (·.pc) = (jt.drop (i + 1)).map (·.pc) := by rw [List.map_drop, h, List.map_drop]
  have htake : (jt'.take (i + 1)).reverse.map (·.pc) = (jt.take (i + 1)).reverse.map (·.pc) := by
    rw [List.map_reverse, List.map_take, h, List.map_reverse, List.map_take]
  rw [linkIdx, linkIdx, htarget, htgt, findForward_pcs hdrop, findBackward_pcs htake]

theorem linkJumpTable_pcs (jt : List JumpTable) : (linkJumpTable jt).map (·.pc) = jt.map (·.pc) := by
  refine List.ext_getElem? fun i => ?_
  rw [List.getElem?_map, getElem?_linkJumpTable, List.getElem?_map]
  cases jt[i]? <;> rfl

/-- In a table with fewer than 65536 slots the links are exact. -/
theorem linkJumpTable_exact {i : ℕ} {slot : JumpTable} (hlen : jt.length ≤ jumpTableIdxInvalid)
    (hslot : (linkJumpTable jt)[i]? = some slot) (h : linkIdx (linkJumpTable jt) i slot = some j) :
    slot.nextIdx = j ∧ j ≠ jumpTableIdxInvalid := by
  rw [getElem?_linkJumpTable] at hslot
  obtain ⟨slot0, hslot0, rfl⟩ := Option.map_eq_some_iff.mp hslot
  have hidx : linkIdx (linkJumpTable jt) i (linkSlot jt i slot0) = linkIdx jt i slot0 :=
    linkIdx_pcs (linkJumpTable_pcs jt) rfl rfl
  rw [hidx] at h
  have hlt := linkIdx_lt (List.getElem?_eq_some_iff.mp hslot0).1 h
  have hfit : j < jumpTableIdxInvalid := lt_of_lt_of_le hlt hlen
  refine ⟨?_, Nat.ne_of_lt hfit⟩
  rw [linkSlot_find, h]
  exact Nat.mod_eq_of_lt (lt_trans hfit (by decide))

end Links

/-! ### The updates of the interpreter -/

/-- How many slots a handler passes over. -/
def slotsSkipped (code : Str) (r : Regs) (operand : ℕ) : ℕ :=
  match opcodeAt code r.pc with
  | .ok .if_ => if operand ≠ 0 then 1 else 0
  | .ok .brIf => if operand ≠ 0 then 0 else 1
  | .ok .brTable =>
    match Unchecked.readVu32 code (r.pc.toNat + 1) with
    | .ok (tableLen, _) => if operand > tableLen then tableLen else operand
    | .error _ => 0
  | _ => 0

/-- `next_jt_idx` after a handler, before a jump takes it from its slot. -/
def InPlaceDt.Flow.idx (nextJtIdx : ℕ) : Flow → ℕ
  | .next _ k => k
  | .jump _ k _ => k
  | .plain _ _ | .finish | .trap => nextJtIdx

section Updates
variable {mod : Module} {f : Func} {cE : Ctx}

/-- The slots that a decoded instruction passes over. -/
def skippedBy (code : Str) (i : Instr) (imm v : ℕ) : ℕ :=
  match i with
  | .block op _ => if op = .if_ ∧ v ≠ 0 then 1 else 0
  | .brOrIf op _ => if op = .brIf ∧ v = 0 then 1 else 0
  | .brTable => tableIndex code imm v
  | _ => 0

theorem slotsSkipped_fetch {code : Str} {p imm q idx v : ℕ} {i : Instr} (h : fetch mod code p = .ok (i, imm, q)) :
    slotsSkipped code ⟨p, idx⟩ v = skippedBy code i imm v := by
  obtain ⟨b, op, pc, hb, hop, hi, -⟩ := fetch_ok.mp h
  have hcase := decodeImm_case hi
  have hopcode : opcodeAt code (p : ℤ) = .ok op := by simp [opcodeAt, Unchecked.byteAt, hb, hop]
  have hplain : op ≠ .if_ → op ≠ .brIf → op ≠ .brTable → slotsSkipped code ⟨p, idx⟩ v = 0 := by
    intro h1 h2 h3
    rw [slotsSkipped, hopcode]
    split <;> first | rfl | (next heq => cases heq; contradiction)
  by_cases hskip : i.case = .block ∨ i.case = .brOrIf ∨ i.case = .brTable
  · cases i with
    | block o ty =>
      obtain rfl := decodeImm_block hi
      by_cases ho : o = .if_
      · subst ho
        rw [slotsSkipped, hopcode]
        simp [skippedBy]
      · have hne : ∀ op' : WasmOpcode, op'.case ≠ .block → o ≠ op' := by
          rintro op' hop' rfl
          exact hop' hcase.symm
        rw [hplain ho (hne _ (by decide)) (hne _ (by decide))]
        simp [skippedBy, ho]
    | brOrIf o l =>
      obtain ⟨-, -, hor, b', hb', hop'⟩ := fetch_br h
      rw [hb] at hb'
      cases hb'
      rw [hop] at hop'
      cases hop'
      rw [slotsSkipped, hopcode]
      obtain rfl | rfl := hor
      · rfl
      · by_cases hv : v = 0 <;> simp [skippedBy, hv]
    | brTable =>
      obtain rfl := WasmOpcode.eq_brTable hcase.symm
      obtain ⟨rfl, n, pc1, hn, -⟩ := fetch_brTable h
      have hread := readVu32_unchecked hn
      simp only at hread
      simp only [slotsSkipped, hopcode, Int.toNat_natCast, hread, skippedBy, tableIndex, hn]
    | _ => simp [Instr.case] at hskip
  · rw [not_or, not_or, hcase] at hskip
    obtain ⟨h1, h2, h3⟩ := hskip
    rw [hplain (by rintro rfl; exact h1 rfl) (by rintro rfl; exact h2 rfl) (by rintro rfl; exact h3 rfl)]
    cases i <;> first | rfl | (exfalso; simp only [← hcase, Instr.case] at h1 h2 h3; contradiction)

/-- In a function with fewer than 65536 slots no update of `next_jt_idx` loses anything. -/
theorem Synced.skip_exact (h : Sound mod f cE) (hlen : cE.jt.length ≤ jumpTableIdxInvalid) {p : ℕ} {c : Ctx} {r : Regs}
    {v : ℕ} {flow : Flow} (hs : Synced mod f (linkJumpTable cE.jt) p c r) (hd : dispatch f.code r v = .ok flow) :
    flow.idx r.nextJtIdx = r.nextJtIdx + slotsSkipped f.code r v ∧ slotsSkipped f.code r v < 2 ^ 16 := by
  obtain ⟨i, imm, q, c', hf, hcb, hreach⟩ := h.exists_step hs.reach hs.lt
  have hr : r = ⟨p, r.nextJtIdx⟩ := by rw [← hs.pc]
  have hjt := onInstr_slots (p := p) (q := q) hcb
  have hmono := h.jt_length_mono hreach
  have hfit : c'.jt.length < 2 ^ 16 := lt_of_le_of_lt (hmono.trans hlen) (by decide)
  rw [hjt] at hfit
  -- the index counts the slots so far, and those of the instruction fit
  have hidx := fun hpos => hs.slot h hf hcb hpos
  rw [hr] at hd ⊢
  rw [dispatch_of_fetch hf v] at hd
  rw [slotsSkipped_fetch hf]
  cases hd
  cases i with
  | block op ty =>
    by_cases hop : op = .if_
    · subst hop
      by_cases hv : v = 0
      · simp [flowOf, hv, InPlaceDt.Flow.idx, skippedBy]
      · have hone : slotsOf f.code ⟨p, .block .if_ ty, imm, q⟩ = 1 := rfl
        rw [hone] at hfit
        rw [hone] at hidx
        simp only [flowOf, InPlaceDt.Flow.idx, skippedBy, if_true, ne_eq, hv, not_false_eq_true, and_self]
        rw [hidx Nat.one_pos]
        exact ⟨Nat.mod_eq_of_lt hfit, by decide⟩
    · simp [flowOf, hop, InPlaceDt.Flow.idx, skippedBy]
  | brOrIf op l =>
    have hone : slotsOf f.code ⟨p, .brOrIf op l, imm, q⟩ = 1 := rfl
    rw [hone] at hfit
    rw [hone] at hidx
    by_cases hop : op = .brIf ∧ v = 0
    · simp only [flowOf, skippedBy, if_pos hop, InPlaceDt.Flow.idx]
      rw [hidx Nat.one_pos]
      exact ⟨Nat.mod_eq_of_lt hfit, by decide⟩
    · simp [flowOf, hop, InPlaceDt.Flow.idx, skippedBy]
  | brTable =>
    obtain ⟨-, n, pc1, hn, -⟩ := fetch_brTable hf
    have hle := tableIndex_le v hn
    have hlabels : slotsOf f.code ⟨p, .brTable, imm, q⟩ = (n + 1) % 2 ^ 32 := by
      simp only [slotsOf, hn]
    have hn32 := brTable_count hcb hn
    rw [hlabels, hn32] at hfit
    rw [hlabels, hn32] at hidx
    simp only [flowOf, skippedBy, InPlaceDt.Flow.idx]
    rw [hidx (Nat.succ_pos n), Nat.mod_eq_of_lt (by omega : tableIndex f.code imm v < 2 ^ 16)]
    exact ⟨Nat.mod_eq_of_lt (by omega), by omega⟩
  | end_ =>
    simp only [flowOf]
    split <;> exact ⟨rfl, Nat.two_pow_pos 16⟩
  | _ => exact ⟨rfl, Nat.two_pow_pos 16⟩

end Updates

/-- In an accepted function with at most 65535 slots every index of the jump table is exact: the links that
validation stores, and `next_jt_idx` in every run. -/
theorem slot_indices_exact {mod : Module} {f f' : Func} (h : validateFunc mod f = .ok f') (hs : JumpSafe mod f)
    (hslots : slotCount mod f.code ≤ jumpTableIdxInvalid) :
    (∀ i slot j, f'.jt[i]? = some slot → linkIdx f'.jt i slot = some j → slot.nextIdx = j ∧ j ≠ jumpTableIdxInvalid) ∧
    ∀ r v flow, ReflTransGen (RegsStep f') Regs.start r → dispatch f'.code r v = .ok flow →
      flow.idx r.nextJtIdx = r.nextJtIdx + slotsSkipped f'.code r v ∧ slotsSkipped f'.code r v < 2 ^ 16 := by
  obtain ⟨cE, hsound, hcode, hjt⟩ := sound_of_validateFunc h hs
  have hlen : cE.jt.length ≤ jumpTableIdxInvalid := by
    obtain ⟨e, imm, ce, ha⟩ := hsound.accepts
    rw [ha.jt_length, hs.fresh, List.length_nil, Nat.zero_add]
    exact hslots
  rw [hcode, hjt]
  refine ⟨fun i slot j hslot hidx => linkJumpTable_exact hlen hslot hidx, fun r v flow hr hd => ?_⟩
  obtain ⟨p, c, hsync⟩ := hsound.run_synced hcode hjt hr
  exact hsync.skip_exact hsound hlen hd

/-- `i32.const 0; br_if 0; end` -/
theorem slot_indices_exact_br_if :
    ∃ f', validateFunc {} { code := [0x41, 0x00, 0x0d, 0x00, 0x0b] } = .ok f' ∧
      dispatch f'.code ⟨2, 0⟩ 0 = .ok (.next 4 1) ∧ slotsSkipped f'.code ⟨2, 0⟩ 0 = 1 := by
  obtain ⟨f', hf', hstep, hd⟩ : ∃ f', validateFunc {} { code := [0x41, 0x00, 0x0d, 0x00, 0x0b] } = .ok f' ∧
      InPlaceDt.regsStep f' Regs.start 0 = .ok (some ⟨2, 0⟩) ∧ dispatch f'.code ⟨2, 0⟩ 0 = .ok (.next 4 1) :=
    ⟨_, rfl, rfl, rfl⟩
  obtain ⟨-, hexact⟩ := slot_indices_exact hf' (by decide +kernel) (by decide +kernel)
  obtain ⟨hsum, -⟩ := hexact ⟨2, 0⟩ 0 (.next 4 1) (.single ⟨0, .inl hstep⟩) hd
  have hone : 1 = 0 + slotsSkipped f'.code ⟨2, 0⟩ 0 := hsum
  exact ⟨f', hf', hd, by omega⟩

/-! ### A table that is too long -/

/-- `i32.const 65536`, then a `br_table` with `n` labels 0, which says that it has 65537. -/
def tableCode (n : ℕ) : Str := [0x41, 0x80, 0x80, 0x04, 0x0e, 0x80, 0x80, 0x04] ++ List.replicate n 0 ++ [0x0b]

section Overflow
variable {n : ℕ}

theorem length_tableCode : (tableCode n).length = n + 9 := by
  rw [tableCode, List.length_append, List.length_append, List.length_replicate]
  simp only [List.length_cons, List.length_nil]
  omega

theorem tableCode_label {j : ℕ} (hj : j < n) : (tableCode n)[8 + j]? = some 0 := by
  rw [tableCode, List.append_assoc, List.getElem?_append_right (Nat.le_add_right 8 j),
    List.getElem?_append_left (by simp only [List.length_replicate, List.length_cons, List.length_nil]; omega)]
  rw [List.getElem?_replicate, if_pos (by simp only [List.length_cons, List.length_nil]; omega)]

theorem tableCode_end : (tableCode n)[8 + n]? = some 0x0b := by
  have hlen : ([0x41, 0x80, 0x80, 0x04, 0x0e, 0x80, 0x80, 0x04] ++ List.replicate n 0 : Str).length = 8 + n := by
    rw [List.length_append, List.length_replicate]
    rfl
  rw [tableCode, List.getElem?_append_right hlen.le, hlen, Nat.sub_self]
  rfl

/-- The length that the `br_table` has; the number stays closed, for the size of the terms. -/
theorem tableCode_count (hn : n = 65537) : ∃ m, m = 65536 ∧ (m + 1) % 2 ^ 32 = n ∧
    Stream.readVu32 ⟨tableCode n, 5⟩ = .ok (m, ⟨tableCode n, 8⟩) := ⟨65536, rfl, by omega, rfl⟩

theorem brTableLabels_zeros {frames p : ℕ} {code : Str} (hframes : 0 < frames) {m : ℕ}
    (h : ∀ j < m, code[p + j]? = some 0) :
    brTableLabels frames m ⟨code, p⟩ = .ok (List.replicate m 0, ⟨code, p + m⟩) := by
  induction m generalizing p with
  | zero => rfl
  | succ m ih =>
    have hrest : ∀ j < m, code[p + 1 + j]? = some 0 := by
      intro j hj
      rw [Nat.add_assoc, Nat.add_comm 1 j]
      exact h (j + 1) (Nat.succ_lt_succ hj)
    have hlabel : code[p]? = some 0 := h 0 (Nat.succ_pos m)
    rw [brTableLabels, readVu32_one_byte hlabel (by decide)]
    have hzero : ¬ (0 : UInt8).toNat ≥ frames := Nat.not_le.mpr hframes
    simp only [ok_bind, if_neg hzero, ih hrest, Nat.add_assoc, Nat.add_comm 1 m]
    rfl

/-- Labels of a frame without results take a slot each, and leave the operands as they are. -/
theorem brTableSlots_zeros (pcEnd : ℕ) {c : Ctx} {fr : CtrlFrame} (hc : c.ctrlStack = [fr]) (hfr : fr.labelTypes = [])
    (m : ℕ) : ∃ c' slots, brTableSlots pcEnd 0 (List.replicate m 0) c = .ok c' ∧
      c'.ctrlStack = [fr.addPending slots] ∧ c'.valStack = c.valStack := by
  induction m generalizing c fr with
  | zero =>
    refine ⟨c, [], rfl, ?_, rfl⟩
    rw [hc, CtrlFrame.addPending, List.append_nil]
  | succ m ih =>
    have hpush : (pushSlot 0 { pc := pcEnd, stackOffset := stackOffsetOf c 0 fr.height, arity := u16 0 } c).ctrlStack =
        [fr.addPending [c.jt.length]] := by
      rw [pushSlot, hc]
      rfl
    obtain ⟨c', slots, hrun, hstack, hvals⟩ := ih hpush hfr
    refine ⟨c', c.jt.length :: slots, ?_, ?_, hvals⟩
    · rw [List.replicate_succ, brTableSlots, hc]
      simp only [List.getElem?_cons_zero, hfr, List.length_nil, ne_eq, not_true_eq_false, if_false]
      exact hrun
    · rw [hstack]
      simp only [CtrlFrame.addPending, List.append_assoc, List.singleton_append]

theorem fetch_tableCode_const : fetch {} (tableCode n) 0 = .ok (.i32Const 65536, 1, 4) := by rfl

theorem seek_forward {code : Str} {p k : ℕ} (h : p + k ≤ code.length) :
    Stream.seek ⟨code, p⟩ (k : ℕ) = .ok ⟨code, p + k⟩ := by
  rw [Stream.seek, if_neg (by simp only; omega)]
  rw [← Int.natCast_add, Int.toNat_natCast]

theorem fetch_tableCode_table (hn : n = 65537) : fetch {} (tableCode n) 4 = .ok (.brTable, 5, 8 + n) := by
  obtain ⟨m, -, hcount, hread⟩ := tableCode_count hn
  have hrest : decodeRest .brTable ⟨tableCode n, 5⟩ = .ok ⟨tableCode n, 8 + n⟩ := by
    rw [decodeRest, hread]
    simp only [ok_bind, hcount]
    refine seek_forward ?_
    rw [length_tableCode]
    omega
  exact fetch_ok.mpr ⟨0x0e, .brTable, ⟨tableCode n, 5⟩, rfl, rfl, rfl, hrest⟩

theorem fetch_tableCode_end : fetch {} (tableCode n) (8 + n) = .ok (.end_, n + 9, n + 9) := by
  rw [show n + 9 = 8 + n + 1 by omega]
  exact fetch_ok.mpr ⟨0x0b, .end_, ⟨tableCode n, 8 + n + 1⟩, tableCode_end, rfl, rfl, rfl⟩

theorem onBrTable_tableCode (hn : n = 65537) {c : Ctx} {fr : CtrlFrame} (hc : c.ctrlStack = [fr])
    (hlabel : fr.labelTypes = []) (hheight : fr.height = 0) (hu : fr.unreachable = false) (hv : c.valStack = [.i32]) :
    ∃ c' slots, onBrTable ⟨tableCode n, 5⟩ c = .ok c' ∧
      c'.ctrlStack = [{ fr.addPending slots with unreachable := true }] ∧ c'.valStack = [] := by
  obtain ⟨m, -, hcount, hread⟩ := tableCode_count hn
  have hpop : popValExpect .i32 c = .ok (.i32, { c with valStack := [] }) := by
    simp [popValExpect, popVal, hc, hheight, hu, hv]
  have hlabels : brTableLabels 1 n ⟨tableCode n, 8⟩ = .ok (List.replicate n 0, ⟨tableCode n, 8 + n⟩) :=
    brTableLabels_zeros Nat.one_pos fun j hj => tableCode_label hj
  have hlast : (List.replicate n 0).getLast? = some 0 := by
    rw [List.getLast?_replicate, if_neg (by omega)]
  obtain ⟨c2, slots, hslots, hstack, hvals⟩ :=
    brTableSlots_zeros (u32 (8 + n)) (c := { c with valStack := [], ctrlStack := [fr] }) rfl hlabel n
  have hpops : popVals [] c2 = .ok c2 := rfl
  have hunreachable : unreachable c2 = .ok { c2 with
      valStack := [], ctrlStack := [{ fr.addPending slots with unreachable := true }] } := by
    simp [unreachable, hstack, hvals, CtrlFrame.addPending, hheight]
  refine ⟨{ c2 with valStack := [], ctrlStack := [{ fr.addPending slots with unreachable := true }] }, slots, ?_,
    rfl, rfl⟩
  rw [onBrTable, hpop]
  simp only [ok_bind, hread, hcount, hc, List.length_singleton, hlabels, hlast, List.getElem?_cons_zero,
    hlabel, List.length_nil, hslots, hpops, hunreachable]

theorem accepts_tableCode (hn : n = 65537) : ∃ f', validateFunc {} { code := tableCode n } = .ok f' ∧
    f'.code = tableCode n := by
  let fr : CtrlFrame := { type := .func, ftype := {}, startTypes := [], endTypes := [], height := 0 }
  let c0 : Ctx := { ctrlStack := [fr] }
  have hbegin : onDecodeBegin { code := tableCode n } {} = .ok c0 := by rfl
  obtain ⟨c1, slots, htable, hstack, hvals⟩ :=
    @onBrTable_tableCode n hn (pushVal .i32 c0) fr rfl rfl rfl rfl rfl
  have hend : ∃ c2, onEnd ⟨tableCode n, n + 9⟩ c1 = .ok c2 := by
    rw [onEnd, popCtrl, hstack]
    exact ⟨_, rfl⟩
  obtain ⟨c2, hend⟩ := hend
  have hsteps : ReflTransGen (Step {} { code := tableCode n }) (0, c0) (8 + n, c1) :=
    .tail (.single (step_iff.mpr ⟨.i32Const 65536, 1, fetch_tableCode_const, rfl⟩))
      (step_iff.mpr ⟨.brTable, 5, fetch_tableCode_table hn, htable⟩)
  refine ⟨_, validateFunc_ok.mpr ⟨8 + n, n + 9, c1, c2, ⟨⟨c0, hbegin, hsteps⟩, ?_, hend⟩, rfl⟩, rfl⟩
  rw [length_tableCode]
  exact fetch_tableCode_end

/-- The last label of the `br_table` is selected by the operand 65536, whose 16 low bits are zero. -/
theorem slotsSkipped_lost : ∃ f f', validateFunc {} f = .ok f' ∧ ∃ r v flow, ReflTransGen (RegsStep f') Regs.start r ∧
    dispatch f'.code r v = .ok flow ∧ flow.idx r.nextJtIdx ≠ r.nextJtIdx + slotsSkipped f'.code r v := by
  obtain ⟨n, hn⟩ : ∃ n, n = 65537 := ⟨_, rfl⟩
  obtain ⟨f', hf', hcode⟩ := accepts_tableCode hn
  obtain ⟨m, hm, -, hread⟩ := tableCode_count hn
  have hconst : RegsStep f' Regs.start ⟨4, 0⟩ := by
    refine ⟨0, .inl ?_⟩
    rw [InPlaceDt.regsStep, hcode]
    have hdispatch : dispatch (tableCode n) ⟨(0 : ℕ), 0⟩ 0 = _ := dispatch_of_fetch fetch_tableCode_const 0
    exact congrArg (· >>= follow f'.jt 0) hdispatch
  have hindex : tableIndex (tableCode n) 5 m = m := by
    rw [tableIndex, hread]
    exact if_neg (lt_irrefl m)
  have hdispatch : dispatch (tableCode n) ⟨(4 : ℕ), 0⟩ m = _ := dispatch_of_fetch (fetch_tableCode_table hn) m
  refine ⟨_, f', hf', ⟨4, 0⟩, m, _, .single hconst, by rw [hcode]; exact hdispatch, ?_⟩
  rw [hcode]
  have hskip : slotsSkipped (tableCode n) ⟨4, 0⟩ m = m := (slotsSkipped_fetch (fetch_tableCode_table hn)).trans hindex
  simp only [flowOf, hindex, InPlaceDt.Flow.idx, hskip]
  omega

end Overflow

/-! ### Validating again -/

/-- A second validation appends the slots again: it leaves the function as it is exactly when there are none. -/
theorem validateFunc_again_iff {mod mod' : Module} {f f' : Func} (hjt : f.jt = []) (hmod : mod'.parsed = mod.parsed)
    (h : validateFunc mod f = .ok f') : validateFunc mod' f' = .ok f' ↔ slotCount mod f.code = 0 := by
  have hsame : validateFunc mod' f' = .ok f' ↔ validateFunc mod f' = .ok f' := by
    rw [← validateFunc_parsed, hmod, validateFunc_parsed]
  rw [hsame]
  obtain ⟨e, imm, ce, c, ha, hf'⟩ := validateFunc_ok.mp h
  have hcode : f'.code = f.code := by rw [hf']
  have hlen : f'.jt.length = slotCount mod f.code := by
    rw [hf', length_linkJumpTable, ha.jt_length, hjt, List.length_nil, Nat.zero_add]
  constructor
  · intro hagain
    obtain ⟨e2, imm2, ce2, c2, ha2, heq⟩ := validateFunc_ok.mp hagain
    have hjt2 : f'.jt.length = c2.jt.length := by
      rw [congrArg Func.jt heq, length_linkJumpTable]
    rw [ha2.jt_length, hcode] at hjt2
    omega
  · intro hzero
    have hnil : linkJumpTable c.jt = f.jt := by
      rw [hjt, ← List.length_eq_zero_iff, ← hzero, ← hlen, hf']
    have hfunc : f' = { f with stackSizeMax := c.stackSizeMax } := by rw [hf', hnil]
    rw [hfunc]
    refine validateFunc_ok.mpr ⟨e, imm, ce, c, ⟨ha.reach, ha.fetch, ha.onEnd⟩, ?_⟩
    rw [hnil]

/-- `end` -/
theorem validateFunc_again_end : ∃ f', validateFunc {} { code := [0x0b] } = .ok f' ∧ validateFunc {} f' = .ok f' := by
  obtain ⟨f', hf'⟩ : ∃ f', validateFunc {} { code := [0x0b] } = .ok f' := ⟨_, rfl⟩
  exact ⟨f', hf', (validateFunc_again_iff rfl rfl hf').mpr rfl⟩

/-- `br 0; end`: the table has one slot after the first validation, and two after the second. -/
theorem validateFunc_again_br : ∃ f' f'', validateFunc {} { code := [0x0c, 0x00, 0x0b] } = .ok f' ∧
    validateFunc {} f' = .ok f'' ∧ f''.jt ≠ f'.jt :=
  ⟨_, _, rfl, rfl, by decide +kernel⟩

end Silverfir
