import Silverfir.SlotCount

/-! The jumps of an accepted function, instruction by instruction: which slot of the finished
table an instruction uses and where it leads. -/
namespace Silverfir.Validator

open ListStack
open Relation (ReflTransGen)

variable {mod : Module} {f : Func} {cE : Ctx}

/-- An accepted function whose jump table can be trusted; `cE` is the last context. -/
structure Sound (mod : Module) (f : Func) (cE : Ctx) : Prop where
  accepts : ∃ e imm ce, Accepts mod f e imm ce cE
  safe : JumpSafe mod f

theorem Sound.bracketed (h : Sound mod f cE) : Bracketed mod f := by
  obtain ⟨e, imm, ce, ha⟩ := h.accepts
  exact ha.bracketed_iff.mpr h.safe.balanced

theorem Sound.jt_length_le (h : Sound mod f cE) : cE.jt.length ≤ 65536 := by
  obtain ⟨e, imm, ce, ha⟩ := h.accepts
  have hslots := h.safe.slots
  rw [ha.jt_length, h.safe.fresh]
  simpa using hslots

/-- In an accepted function validation goes on from every visited place to the end. -/
theorem Sound.steps (h : Sound mod f cE) {x : ℕ × Ctx} (hx : Reach mod f x) :
    ReflTransGen (Step mod f) x (f.code.length, cE) := by
  obtain ⟨e, imm, ce, ha⟩ := h.accepts
  exact ha.steps hx

theorem Sound.exists_step (h : Sound mod f cE) {p : ℕ} {c : Ctx} (hx : Reach mod f (p, c))
    (hlt : p < f.code.length) :
    ∃ i imm q c', fetch mod f.code p = .ok (i, imm, q) ∧ onInstr mod i ⟨f.code, imm⟩ c = .ok c' ∧
      Reach mod f (q, c') := by
  obtain ⟨e, imm, ce, ha⟩ := h.accepts
  obtain ⟨⟨q, c'⟩, hstep⟩ := ha.exists_step hx hlt
  obtain ⟨i, imm', hf, hcb⟩ := step_iff.mp hstep
  exact ⟨i, imm', q, c', hf, hcb, hx.tail hstep⟩

/-- The table has no fewer slots at the end than on the way. -/
theorem Sound.jt_length_mono (h : Sound mod f cE) {x : ℕ × Ctx} (hx : Reach mod f x) :
    x.2.jt.length ≤ cE.jt.length := by
  obtain ⟨news, hnews, -⟩ := hx.slots_after h.safe (h.steps hx)
  have := congrArg List.length hnews
  simp only [List.length_map, List.length_append] at this
  omega

/-- The count of the labels wraps around only when there is no label at all. -/
theorem brTable_count {imm pc1 : Stream} {c c' : Ctx} {n : ℕ} (h : onBrTable imm c = .ok c')
    (hn : imm.readVu32 = .ok (n, pc1)) : (n + 1) % 2 ^ 32 = n + 1 := by
  obtain ⟨t, k0, n', pc1', labels, pc2, fr, c2, c3, k, ts, -, -, hn', hl, -, ⟨m, hlast, -⟩, -⟩ := onBrTable_ok h
  rw [hn] at hn'
  cases hn'
  have hlab := (brTableLabels_ok hl).1
  have hlt := Stream.readVu32_lt hn
  by_cases hw : n + 1 < 2 ^ 32
  · exact Nat.mod_eq_of_lt hw
  · have hwrap : n + 1 = 2 ^ 32 := by omega
    rw [hwrap, Nat.mod_self, List.length_eq_zero_iff] at hlab
    rw [hlab] at hlast
    cases hlast

/-- A jump from offset `pc` through slot `k`: the slot is in the table, belongs to that offset,
and leads to the visited place `(target, ct)`. -/
structure Jump (mod : Module) (f : Func) (jt : List JumpTable) (k pc : ℕ) (tbl : JumpTable)
    (target : ℕ) (ct : Ctx) : Prop where
  slot : jt[k]? = some tbl
  pc : tbl.pc = pc
  arrives : Arrives mod f jt tbl target ct

/-- What the slot of a label tells the interpreter about the operands. -/
structure LabelSlot (size arity : ℕ) (fr : CtrlFrame) (tbl : JumpTable) : Prop where
  stackOffset : tbl.stackOffset = (((size : ℤ) - arity - fr.height) % 2 ^ 32).toNat
  arity : tbl.arity = u16 fr.labelTypes.length

/-- The jump of a false `if`. -/
theorem Sound.if_jump (h : Sound mod f cE) {p imm q : ℕ} {ty : FuncType} {c c' : Ctx}
    (hr : Reach mod f (q, c')) (hf : fetch mod f.code p = .ok (.block .if_ ty, imm, q))
    (hcb : onInstr mod (.block .if_ ty) ⟨f.code, imm⟩ c = .ok c') :
    ∃ tbl target ct, Jump mod f (linkJumpTable cE.jt) c.jt.length imm tbl target ct ∧
      IfTarget mod f c.ctrlStack.length (q, c') target ct := by
  obtain ⟨e, imm0, ce, ha⟩ := h.accepts
  have hspan := fetch_span hf
  have hshort := h.safe.short
  have hblock : onBlock .if_ ⟨f.code, imm⟩ ty c = .ok c' := hcb
  obtain ⟨ps, rs, k, ts, -, -, -, -, hc'⟩ := onBlock_ok hblock
  have hw : IfWaits c.jt.length c.ctrlStack.length c'.ctrlStack := by
    refine ⟨blockFrame .if_ imm ty ps rs (c.valStack.length - k) c.jt.length, ?_, rfl, rfl⟩
    rw [hc', pushVals_ctrlStack, fromBottom_cons_length]
  have hslot : c'.jt[c.jt.length]? = some (ifSlot imm) := by
    rw [hc']
    simp
  obtain ⟨tbl, target, ct, h1, h2, h3, h4⟩ :=
    ha.if_arrives h.safe h.bracketed h.jt_length_le hr hw hslot
  exact ⟨tbl, target, ct, ⟨h1, h2.trans (u32_eq (by omega)), h3⟩, h4⟩

/-- The jump of an `else`, to the end of its `if`. -/
theorem Sound.else_jump (h : Sound mod f cE) {p imm q : ℕ} {c c' : Ctx} (hr : Reach mod f (q, c'))
    (hf : fetch mod f.code p = .ok (.else_, imm, q))
    (hcb : onInstr mod .else_ ⟨f.code, imm⟩ c = .ok c') :
    ∃ tbl target ct fr rest, Jump mod f (linkJumpTable cE.jt) c.jt.length imm tbl target ct ∧
      c'.ctrlStack = fr :: rest ∧ fr.type = .else_ ∧
      BranchTarget mod f rest.length (q, c') fr target ct := by
  obtain ⟨e, imm0, ce, ha⟩ := h.accepts
  have hspan := fetch_span hf
  have hshort := h.safe.short
  obtain ⟨cf, rest, k, ts, ps, rs, slot, -, -, -, -, -, -, hpc, hc'⟩ := onElse_ok hcb
  have hcs : c'.ctrlStack = elseFrame cf ps rs (c.valStack.length - k) c.jt.length :: rest := by
    rw [hc']
    simp
  have hfr : fromBottom c'.ctrlStack rest.length =
      some (elseFrame cf ps rs (c.valStack.length - k) c.jt.length) := by
    rw [hcs, fromBottom_cons_length]
  have hw : Waits c.jt.length rest.length c'.ctrlStack :=
    ⟨_, hfr, by simp [elseFrame], fun ht => by cases ht⟩
  have hslot : c'.jt[c.jt.length]? = some slot := by
    rw [hc', pushVals_jt]
    simp
  obtain ⟨tbl, target, ct, h1, h2, -, -, h5, h6⟩ :=
    ha.branch_arrives h.safe h.bracketed h.jt_length_le hr hw hfr hslot (fun ht => by cases ht)
  have hpc' : tbl.pc = imm := (h2.trans hpc).trans (u32_eq (by simp only; omega))
  exact ⟨tbl, target, ct, _, rest, ⟨h1, hpc', h5⟩, hcs, rfl, h6⟩

/-- The jump through a slot made for a label. -/
theorem Sound.label_jump (h : Sound mod f cE) {p q k l : ℕ} {c c' : Ctx} {slot : JumpTable}
    {fr : CtrlFrame} (hp : Reach mod f (p, c)) (hr : Reach mod f (q, c')) (hfr : c.ctrlStack[l]? = some fr)
    (hm : SlotMade c c' k (c.ctrlStack.length - 1 - l) slot) (hlt : p < slot.pc) :
    ∃ tbl target ct fr', Jump mod f (linkJumpTable cE.jt) k slot.pc tbl target ct ∧
      tbl.stackOffset = slot.stackOffset ∧ tbl.arity = slot.arity ∧
      fromBottom c'.ctrlStack (c.ctrlStack.length - 1 - l) = some fr' ∧ fr'.type = fr.type ∧
      BranchTarget mod f (c.ctrlStack.length - 1 - l) (q, c') fr' target ct := by
  obtain ⟨e, imm0, ce, ha⟩ := h.accepts
  have hfb := fromBottom_of_getElem? hfr
  obtain ⟨fr', hfr', ht, hpc⟩ := hm.frame fr hfb
  have hloop : fr'.type = .loop → fr'.pc < slot.pc := by
    intro hl
    rw [ht] at hl
    obtain ⟨c0, fr0, s, -, -, -, -, -, -, hpath⟩ := hp.loop_opened h.safe hfb hl
    have hle := decodeSteps_le (Run.of_within hpath)
    simp only at hle
    omega
  obtain ⟨tbl, target, ct, h1, h2, h3, h4, h5, h6⟩ :=
    ha.branch_arrives h.safe h.bracketed h.jt_length_le hr hm.waits hfr' hm.slot hloop
  exact ⟨tbl, target, ct, fr', ⟨h1, h2, h5⟩, h3, h4, hfr', ht, h6⟩

/-- The jump of a `br` or of a taken `br_if`. -/
theorem Sound.br_jump (h : Sound mod f cE) {p imm q l : ℕ} {op : WasmOpcode} {c c' : Ctx}
    (hp : Reach mod f (p, c)) (hr : Reach mod f (q, c'))
    (hf : fetch mod f.code p = .ok (.brOrIf op l, imm, q))
    (hcb : onInstr mod (.brOrIf op l) ⟨f.code, imm⟩ c = .ok c') :
    ∃ fr k0 ts0 tbl target ct fr', c.ctrlStack[l]? = some fr ∧
      List.Forall₂ Matches ts0 (brOperands op) ∧ Popped c k0 ts0 ∧
      LabelPopped { c with valStack := c.valStack.drop k0 } fr ∧
      Jump mod f (linkJumpTable cE.jt) c.jt.length imm tbl target ct ∧
      LabelSlot (c.valStack.drop k0).length (u16 fr.labelTypes.length) fr tbl ∧
      fromBottom c'.ctrlStack (c.ctrlStack.length - 1 - l) = some fr' ∧ fr'.type = fr.type ∧
      BranchTarget mod f (c.ctrlStack.length - 1 - l) (q, c') fr' target ct := by
  have hspan := fetch_span hf
  have hshort := h.safe.short
  obtain ⟨fr, k0, ts0, hfr, hm0, hp0, hlab, hmade⟩ := onBrOrIf_slot hp.inv hcb
  have hpc : u32 imm = imm := u32_eq (by omega)
  have hlt : p < (branchSlot imm (c.valStack.drop k0).length (u16 fr.labelTypes.length) fr).pc := by
    simp only [branchSlot, hpc]
    omega
  obtain ⟨tbl, target, ct, fr', hj, hso, har, hfr', ht, hbt⟩ := h.label_jump hp hr hfr hmade hlt
  refine ⟨fr, k0, ts0, tbl, target, ct, fr', hfr, hm0, hp0, hlab, ?_, ⟨hso, har⟩, hfr', ht, hbt⟩
  simp only [branchSlot, hpc] at hj
  exact hj

/-- The jump of a `br_table` whose operand selects label number `j`. -/
theorem Sound.brTable_jump (h : Sound mod f cE) {p imm q n j : ℕ} {c c' : Ctx} {pc1 : Stream}
    (hp : Reach mod f (p, c)) (hr : Reach mod f (q, c'))
    (hf : fetch mod f.code p = .ok (.brTable, imm, q))
    (hcb : onInstr mod .brTable ⟨f.code, imm⟩ c = .ok c')
    (hn : Stream.readVu32 ⟨f.code, imm⟩ = .ok (n, pc1)) (hj : j ≤ n) :
    ∃ t k0 l fr size tbl target ct fr', Matches t .i32 ∧ Popped c k0 [t] ∧ c.ctrlStack[l]? = some fr ∧
      (f.code[pc1.p + j]?).map UInt8.toNat = some l ∧
      Jump mod f (linkJumpTable cE.jt) (c.jt.length + j) q tbl target ct ∧
      LabelSlot size fr.labelTypes.length fr tbl ∧
      ((∀ g ∈ c.ctrlStack.head?, g.unreachable = false) → size = (c.valStack.drop k0).length ∧
        LabelPopped { c with valStack := c.valStack.drop k0 } fr) ∧
      fromBottom c'.ctrlStack (c.ctrlStack.length - 1 - l) = some fr' ∧ fr'.type = fr.type ∧
      BranchTarget mod f (c.ctrlStack.length - 1 - l) (q, c') fr' target ct := by
  have hspan := fetch_span hf
  obtain ⟨t, k0, n', pc1', labels, pc2, hmt, hp0, hn', hl, hne, hslots⟩ := onBrTable_slots hp.inv hcb
  obtain ⟨rfl, rfl⟩ : n = n' ∧ pc1 = pc1' := by
    rw [hn] at hn'
    cases hn'
    exact ⟨rfl, rfl⟩
  have hlen : labels.length = n + 1 := (brTableLabels_ok hl).1.trans (brTable_count hcb hn)
  obtain ⟨l, hjl⟩ : ∃ l, labels[j]? = some l := ⟨labels[j], List.getElem?_eq_getElem (by omega)⟩
  obtain ⟨fr, size, hfr, hmade, hsize⟩ := hslots j l hjl
  have hpc : u32 pc2.p = q :=
    (@slotPc_le _ _ h.safe _ _ hp _ _ _ (u32 pc2.p) hf ⟨n, pc1, _, labels, pc2, hn, hl, rfl⟩).2 rfl
  have hlt : p < (branchSlot pc2.p size fr.labelTypes.length fr).pc := by
    simp only [branchSlot, hpc]
    omega
  have hbyte : (f.code[pc1.p + j]?).map UInt8.toNat = some l := by
    obtain ⟨-, n', p1, hn1, hq⟩ := fetch_brTable hf
    rw [hn] at hn1
    cases hn1
    exact (brTableLabels_one_byte hl (safe_label_lt h.safe hp hf hn hq)).2 j l hjl
  obtain ⟨tbl, target, ct, fr', hjump, hso, har, hfr', ht, hbt⟩ := h.label_jump hp hr hfr hmade hlt
  refine ⟨t, k0, l, fr, size, tbl, target, ct, fr', hmt, hp0, hfr, hbyte, ?_, ⟨hso, har⟩, hsize, hfr', ht, hbt⟩
  simp only [branchSlot, hpc] at hjump
  exact hjump

end Silverfir.Validator
