import Silverfir.Arrival

/-! Which slots an instruction makes, and how many slots a function has. -/
namespace Silverfir.Validator

open ListStack
open Relation (ReflTransGen)

variable {mod : Module} {f : Func}

theorem fromBottom_pushSlot (l : ℕ) (slot : JumpTable) {n : ℕ} {d : Ctx} {fr : CtrlFrame}
    (h : fromBottom d.ctrlStack n = some fr) :
    ∃ fr', fromBottom (pushSlot l slot d).ctrlStack n = some fr' ∧ fr'.type = fr.type ∧ fr'.pc = fr.pc := by
  obtain ⟨ks, hks⟩ := fromBottom_modify_addPending (l := l) (k := d.jt.length) h
  exact ⟨_, hks, rfl, rfl⟩

theorem slotMade_pushSlot {c d : Ctx} (hd : PendInv (shape d)) (hc : c.ctrlStack = d.ctrlStack) {l : ℕ}
    (hl : l < d.ctrlStack.length) (slot : JumpTable) :
    SlotMade c (pushSlot l slot d) d.jt.length (d.ctrlStack.length - 1 - l) slot where
  waits := waits_pushSlot hd hl slot
  slot := by rw [pushSlot_jt, List.getElem?_concat_length]
  frame := by
    intro fr hfr
    rw [hc] at hfr
    exact fromBottom_pushSlot _ _ hfr

theorem pushSlot_types (l : ℕ) (slot : JumpTable) (d : Ctx) :
    (pushSlot l slot d).ctrlStack.map (·.type) = d.ctrlStack.map (·.type) :=
  map_modify (f := fun fr : CtrlFrame => fr.addPending [d.jt.length]) (fun _ => rfl) _ _

theorem unreachable_types {c c' : Ctx} (h : unreachable c = .ok c') :
    c'.ctrlStack.map (·.type) = c.ctrlStack.map (·.type) := by
  obtain ⟨fr, rest, hc, -, rfl⟩ := unreachable_ok h
  rw [hc]
  rfl

/-- The operands of the label can be popped. -/
def LabelPopped (c : Ctx) (fr : CtrlFrame) : Prop :=
  ∃ k ts, List.Forall₂ Matches ts fr.labelTypes.reverse ∧ Popped c k ts

/-- The slot of a `br` or `br_if`. -/
theorem onBrOrIf_slot {op : WasmOpcode} {imm : Stream} {l : ℕ} {c c' : Ctx} (hinv : Inv c)
    (h : onBrOrIf op imm l c = .ok c') :
    ∃ fr k0 ts0, c.ctrlStack[l]? = some fr ∧ List.Forall₂ Matches ts0 (brOperands op) ∧ Popped c k0 ts0 ∧
      LabelPopped { c with valStack := c.valStack.drop k0 } fr ∧
      SlotMade c c' c.jt.length (c.ctrlStack.length - 1 - l)
        (branchSlot imm.p (c.valStack.drop k0).length (u16 fr.labelTypes.length) fr) := by
  obtain ⟨fr, k0, ts0, k, ts, c2, hfr, hm0, hp0, hm, hp, hc2, h⟩ := onBrOrIf_ok h
  have hlt := (List.getElem?_eq_some_iff.mp hfr).1
  refine ⟨fr, k0, ts0, hfr, hm0, hp0, ⟨k, ts, hm, hp⟩, ?_⟩
  obtain ⟨d, hd⟩ : ∃ d : Ctx, d = { c with valStack := (c.valStack.drop k0).drop k } := ⟨_, rfl⟩
  rw [← hd] at hc2
  have hshape : shape d = shape c := by rw [hd]; rfl
  have hpend : PendInv (shape d) := by rw [hshape]; exact hinv.pend
  have hwd : Wf d := by
    rw [hd]
    exact (hinv.wf.pop hp0).pop hp
  have hcs : d.ctrlStack = c.ctrlStack := congrArg Prod.fst hshape
  have hjt : d.jt = c.jt := congrArg Prod.snd hshape
  have hlt' : l < d.ctrlStack.length := by rw [hcs]; exact hlt
  have hmade := slotMade_pushSlot (c := c) hpend hcs.symm hlt'
    (branchSlot imm.p (c.valStack.drop k0).length (u16 fr.labelTypes.length) fr)
  rw [← hc2, hjt, hcs] at hmade
  have heff : Effect (fun _ => True) d c2 := by
    rw [hc2]
    exact .pushSlot hwd hlt' trivial
  by_cases hop : op = .br
  · rw [if_pos hop] at h
    exact hmade.of_effect (heff.pendInv hpend) (.unreachable (P := fun _ => True) heff.wf h) (unreachable_types h)
  · rw [if_neg hop] at h
    cases h
    refine hmade.of_effect (heff.pendInv hpend)
      (.operands (P := fun _ => True) heff.wf fr.labelTypes.reverse (.nil c2) (by simp) (pushVals_shape _ _)) ?_
    rw [pushVals_ctrlStack]

/-- Only the height and the types of the frame matter for a slot. -/
theorem branchSlot_congr {pc size arity : ℕ} {fr fr' : CtrlFrame} (hh : fr'.height = fr.height)
    (hl : fr'.labelTypes = fr.labelTypes) : branchSlot pc size arity fr' = branchSlot pc size arity fr := by
  unfold branchSlot
  rw [hh, hl]

theorem SlotRun.types {pcEnd arity : ℕ} {ls : List ℕ} {c c' : Ctx} (h : SlotRun pcEnd arity ls c c') :
    c'.ctrlStack.map (·.type) = c.ctrlStack.map (·.type) := by
  induction h with
  | nil => rfl
  | cons _ _ _ _ _ ih => rw [ih, pushVals_ctrlStack, pushSlot_types]

/-- The slots of a `br_table`, label by label. In reachable code all of them see the same
operands. -/
theorem SlotRun.slots {pcEnd arity : ℕ} {ls : List ℕ} {c c' : Ctx} (h : SlotRun pcEnd arity ls c c')
    (hinv : Inv c) {j l : ℕ} (hj : ls[j]? = some l) :
    ∃ fr size, c.ctrlStack[l]? = some fr ∧ fr.labelTypes.length = arity ∧
      SlotMade c c' (c.jt.length + j) (c.ctrlStack.length - 1 - l) (branchSlot pcEnd size arity fr) ∧
      ((∀ g ∈ c.ctrlStack.head?, g.unreachable = false) → size = c.valStack.length ∧ LabelPopped c fr) := by
  induction h generalizing j with
  | nil => simp at hj
  | @cons l0 ls c c' fr k ts hfr ha hm hp hrest ih =>
    have hlt := (List.getElem?_eq_some_iff.mp hfr).1
    obtain ⟨d, hd⟩ : ∃ d : Ctx, d = { c with valStack := c.valStack.drop k } := ⟨_, rfl⟩
    rw [← hd] at hrest ih
    have hcs : d.ctrlStack = c.ctrlStack := by rw [hd]
    have hjt : d.jt = c.jt := by rw [hd]
    have hpend : PendInv (shape d) := by
      have hsh : shape d = shape c := by rw [hd]; rfl
      rw [hsh]
      exact hinv.pend
    have hwd : Wf d := by
      rw [hd]
      exact hinv.wf.pop hp
    have hlt' : l0 < d.ctrlStack.length := by rw [hcs]; exact hlt
    obtain ⟨slot, hslot⟩ : ∃ s, s = branchSlot pcEnd c.valStack.length arity fr := ⟨_, rfl⟩
    rw [← hslot] at hrest ih
    obtain ⟨g, hg⟩ : ∃ g, g = pushVals ts.reverse (pushSlot l0 slot d) := ⟨_, rfl⟩
    rw [← hg] at hrest ih
    have e1 : Effect (fun _ => True) d (pushSlot l0 slot d) := .pushSlot hwd hlt' trivial
    have e2 : Effect (fun _ => True) (pushSlot l0 slot d) g := by
      rw [hg]
      exact .operands e1.wf ts (.nil _) (by simp) (pushVals_shape _ _)
    have hinvg : Inv g := ⟨e2.wf, e2.pendInv (e1.pendInv hpend)⟩
    have hgtypes : g.ctrlStack = (pushSlot l0 slot d).ctrlStack := by rw [hg, pushVals_ctrlStack]
    have hglen : g.ctrlStack.length = c.ctrlStack.length := by
      rw [hgtypes, pushSlot_ctrlStack, List.length_modify, hcs]
    have hgjt : g.jt.length = c.jt.length + 1 := by
      rw [hg, pushVals_jt, pushSlot_jt, List.length_append, hjt]
      rfl
    cases j with
    | zero =>
      obtain rfl : l0 = l := by simpa using hj
      have hmade := slotMade_pushSlot (c := c) hpend hcs.symm hlt' slot
      rw [hjt, hcs] at hmade
      have hmade' := hmade.of_effect (e1.pendInv hpend) e2 (by rw [hgtypes])
      obtain ⟨e3, -⟩ := hrest.effect (P := fun _ => True) hinvg.wf fun _ _ => trivial
      refine ⟨fr, c.valStack.length, hfr, ha, ?_, fun _ => ⟨rfl, k, ts, hm, hp⟩⟩
      rw [← hslot]
      exact hmade'.of_effect hinvg.pend e3 hrest.types
    | succ j =>
      obtain ⟨fr1, size, hfr1, ha1, hmade, hsize⟩ := ih hinvg (by simpa using hj)
      -- the frame of the label is the one before, with one more pending slot at most
      obtain ⟨fr2, hfr2, he⟩ : ∃ fr2, c.ctrlStack[l]? = some fr2 ∧ ∃ ks, fr1 = fr2.addPending ks := by
        rw [hgtypes, pushSlot_ctrlStack, List.getElem?_modify, hcs] at hfr1
        obtain ⟨fr2, hfr2, rfl⟩ := Option.map_eq_some_iff.mp hfr1
        by_cases hl : l0 = l
        · exact ⟨fr2, hfr2, [d.jt.length], if_pos hl⟩
        · exact ⟨fr2, hfr2, [], by rw [if_neg hl, CtrlFrame.addPending_nil]⟩
      obtain ⟨ks, rfl⟩ := he
      refine ⟨fr2, size, hfr2, ha1, ⟨?_, ?_, ?_⟩, ?_⟩
      · have := hmade.waits
        rw [hgjt, hglen] at this
        have hk : c.jt.length + (j + 1) = c.jt.length + 1 + j := by omega
        rw [hk]
        exact this
      · have := hmade.slot
        rw [hgjt] at this
        have hk : c.jt.length + (j + 1) = c.jt.length + 1 + j := by omega
        rw [hk, this]
        exact congrArg some (branchSlot_congr rfl rfl)
      · intro a ha'
        rw [← hcs] at ha'
        obtain ⟨a1, ha1', ht1, hpc1⟩ := fromBottom_pushSlot l0 slot ha'
        rw [← hgtypes] at ha1'
        have hmf := hmade.frame a1
        rw [hglen] at hmf
        rw [hcs] at ha1'
        obtain ⟨a2, ha2, ht2, hpc2⟩ := hmf ha1'
        exact ⟨a2, ha2, ht2.trans ht1, hpc2.trans hpc1⟩
      · intro hreach
        have hhead : g.ctrlStack.head?.map (fun fr => (fr.height, fr.unreachable)) =
            c.ctrlStack.head?.map (fun fr => (fr.height, fr.unreachable)) := by
          rw [hgtypes, pushSlot_ctrlStack, hcs]
          exact head?_modify_addPending c.ctrlStack l0 [d.jt.length]
        have hreach' : ∀ a ∈ g.ctrlStack.head?, a.unreachable = false := by
          intro a ha'
          rw [Option.mem_def.mp ha'] at hhead
          obtain ⟨b, hb, hbe⟩ := Option.map_eq_some_iff.mp hhead.symm
          simp only [Prod.mk.injEq] at hbe
          rw [← hbe.2]
          exact hreach b hb
        have hgval : g.valStack = c.valStack := by
          rw [hg, pushVals_valStack, pushSlot_valStack, hd]
          obtain ⟨hk, hts⟩ := hp.of_reachable hreach
          simp only [List.reverse_reverse]
          rw [hts, List.take_append_drop]
        obtain ⟨hsz, k1, ts1, hm1, hp1⟩ := hsize hreach'
        exact ⟨hsz.trans (congrArg List.length hgval), k1, ts1, hm1, hp1.congr hgval.symm hhead.symm⟩

/-- The slots of a `br_table` and the labels they belong to. -/
theorem onBrTable_slots {imm : Stream} {c c' : Ctx} (hinv : Inv c) (h : onBrTable imm c = .ok c') :
    ∃ t k0 n pc1 labels pc2, Matches t .i32 ∧ Popped c k0 [t] ∧ imm.readVu32 = .ok (n, pc1) ∧
      brTableLabels c.ctrlStack.length ((n + 1) % 2 ^ 32) pc1 = .ok (labels, pc2) ∧ labels ≠ [] ∧
      ∀ (j l : ℕ), labels[j]? = some l → ∃ fr size, c.ctrlStack[l]? = some fr ∧
        SlotMade c c' (c.jt.length + j) (c.ctrlStack.length - 1 - l)
          (branchSlot pc2.p size fr.labelTypes.length fr) ∧
        ((∀ g ∈ c.ctrlStack.head?, g.unreachable = false) → size = (c.valStack.drop k0).length ∧
          LabelPopped { c with valStack := c.valStack.drop k0 } fr) := by
  obtain ⟨t, k0, n, pc1, labels, pc2, mfr, c2, c3, k, ts, hmt, hp0, hn, hl, hrun, ⟨m, hlast, -⟩, hm, hp, hc3, h⟩ :=
    onBrTable_ok h
  have hne : labels ≠ [] := by
    rintro rfl
    simp at hlast
  refine ⟨t, k0, n, pc1, labels, pc2, hmt, hp0, hn, hl, hne, ?_⟩
  intro j l hj
  have hinv0 : Inv { c with valStack := c.valStack.drop k0 } := ⟨hinv.wf.pop hp0, hinv.pend⟩
  obtain ⟨fr, size, hfr, ha, hmade, hsize⟩ := hrun.slots hinv0 hj
  obtain ⟨e1, -⟩ := hrun.effect (P := fun _ => True) hinv0.wf fun _ _ => trivial
  have hinv2 : Inv c2 := ⟨e1.wf, e1.pendInv hinv0.pend⟩
  have e2 : Effect (fun _ => True) c2 c3 := by
    rw [hc3]
    exact .operands hinv2.wf [] hp rfl rfl
  have hmade3 : SlotMade c c3 (c.jt.length + j) (c.ctrlStack.length - 1 - l)
      (branchSlot pc2.p size fr.labelTypes.length fr) := by
    rw [ha]
    have hmade2 : SlotMade c c2 (c.jt.length + j) (c.ctrlStack.length - 1 - l)
      (branchSlot pc2.p size mfr.labelTypes.length fr) := ⟨hmade.waits, hmade.slot, hmade.frame⟩
    exact hmade2.of_effect hinv2.pend e2 (by rw [hc3])
  refine ⟨fr, size, hfr, ?_, hsize⟩
  exact hmade3.of_effect (e2.pendInv hinv2.pend) (.unreachable (P := fun _ => True) e2.wf h) (unreachable_types h)

/-! ### How many slots there are -/

theorem SlotRun.jt_length {pcEnd arity : ℕ} {ls : List ℕ} {c c' : Ctx} (h : SlotRun pcEnd arity ls c c') :
    c'.jt.length = c.jt.length + ls.length := by
  induction h with
  | nil => rfl
  | cons _ _ _ _ _ ih =>
    rw [ih]
    simp
    omega

theorem unreachable_jt {c c' : Ctx} (h : unreachable c = .ok c') : c'.jt = c.jt := by
  obtain ⟨fr, rest, -, -, rfl⟩ := unreachable_ok h
  rfl

theorem onInstr_slots {i : Instr} {p imm q : ℕ} {code : Str} {c c' : Ctx}
    (h : onInstr mod i ⟨code, imm⟩ c = .ok c') :
    c'.jt.length = c.jt.length + slotsOf code ⟨p, i, imm, q⟩ := by
  by_cases hc : i.isControl = false
  · obtain ⟨k, ts, us, hs⟩ := onInstr_plain hc h
    have he : c'.jt = c.jt := congrArg Prod.snd hs.shape_eq
    rw [he]
    cases i <;> first | rfl | simp [Instr.isControl] at hc
  · cases i with
    | unreachable => rw [unreachable_jt h]; rfl
    | block o ty =>
      obtain ⟨ps, rs, k, ts, -, -, -, -, rfl⟩ := onBlock_ok h
      by_cases ho : o = .if_ <;> simp [slotsOf, ho]
    | else_ =>
      obtain ⟨cf, rest, k, ts, ps, rs, slot, -, -, -, -, -, -, -, rfl⟩ := onElse_ok h
      simp [slotsOf]
    | end_ =>
      obtain ⟨cf, rest, k, ts, -, -, -, rfl⟩ := onEnd_ok h
      simp [slotsOf]
    | brOrIf o l =>
      obtain ⟨fr, k0, ts0, k, ts, c2, -, -, -, -, -, hc2, h⟩ := onBrOrIf_ok h
      have hlen : c2.jt.length = c.jt.length + 1 := by rw [hc2]; simp
      by_cases hop : o = .br
      · rw [if_pos hop] at h
        rw [unreachable_jt h, hlen]
        rfl
      · rw [if_neg hop] at h
        cases h
        rw [pushVals_jt, hlen]
        rfl
    | brTable =>
      obtain ⟨t, k0, n, pc1, labels, pc2, fr, c2, c3, k, ts, -, -, hn, hl, hrun, -, -, -, hc3, h⟩ :=
        onBrTable_ok h
      rw [unreachable_jt h, hc3]
      simp only [slotsOf, hn]
      rw [hrun.jt_length, (brTableLabels_ok hl).1]
    | return_ =>
      obtain ⟨fr, k, ts, c2, -, -, -, hc2, h⟩ := onReturn_ok h
      rw [unreachable_jt h, hc2]
      rfl
    | _ => exact absurd rfl hc

theorem scan_slots {p n : ℕ} {c c' : Ctx} (h : ReflTransGen (Step mod f) (p, c) (f.code.length, c'))
    (hn : f.code.length ≤ p + n) :
    c'.jt.length = c.jt.length + ((scan mod f.code n p).map (slotsOf f.code)).sum := by
  obtain ⟨x, hx⟩ : ∃ x, x = (p, c) := ⟨_, rfl⟩
  rw [← hx] at h
  induction h using ReflTransGen.head_induction_on generalizing n p c with
  | refl =>
    cases hx
    rw [scan_length]
    simp
  | @head a b hab hbz ih =>
    cases hx
    obtain ⟨q, d⟩ := b
    obtain ⟨i, imm, hf, hcb⟩ := step_iff.mp hab
    have hspan := fetch_span hf
    obtain ⟨n, rfl⟩ : ∃ m, n = m + 1 := ⟨n - 1, by omega⟩
    have hscan : scan mod f.code (n + 1) p = ⟨p, i, imm, q⟩ :: scan mod f.code n q := by
      simp only [scan, hf]
    rw [hscan, List.map_cons, List.sum_cons, ih (n := n) (by omega) rfl, onInstr_slots (p := p) (q := q) hcb]
    omega

/-- The size of the finished table. -/
theorem Accepts.jt_length {e imm : ℕ} {ce c : Ctx} (h : Accepts mod f e imm ce c) :
    c.jt.length = f.jt.length + slotCount mod f.code := by
  obtain ⟨c0, hc0, hs⟩ := h.reach
  obtain ⟨ps, rs, -, -, -, -, -, hjt⟩ := onDecodeBegin_ok hc0
  have hstart : Reach mod f (0, c0) := ⟨c0, hc0, .refl⟩
  rw [scan_slots (n := f.code.length) (h.steps hstart) (by omega), hjt]
  rfl

end Silverfir.Validator
