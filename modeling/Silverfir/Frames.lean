import Silverfir.JumpSlots
import Silverfir.Trace

/-! Every callback, seen from the frames: which edits it makes, that the operands below the top
frame stay as they are, and that the heights of the frames are in order. -/
namespace Silverfir.Validator

open ListStack
open Relation (ReflTransGen)

/-- The types of a frame are those of its block type. -/
def FrameTypes (fr : CtrlFrame) : Prop :=
  parseTypes fr.ftype.paramCount fr.ftype.params = .ok fr.startTypes ∧
    parseTypes fr.ftype.resultCount fr.ftype.results = .ok fr.endTypes

/-- The frames of a context are in order and the operands reach up to the top frame. -/
structure Wf (c : Ctx) : Prop where
  heights : c.ctrlStack.Pairwise (fun a b => b.height ≤ a.height)
  top : ∀ fr ∈ c.ctrlStack.head?, fr.height ≤ c.valStack.length
  types : ∀ fr ∈ c.ctrlStack, FrameTypes fr

/-- The operands of the enclosing frames stay. -/
def Rests (c c' : Ctx) : Prop :=
  ∀ fr ∈ c.ctrlStack.head?, ∀ h ≤ fr.height,
    below h c'.valStack = below h c.valStack ∧ fr.height ≤ c'.valStack.length

theorem Popped.below {c : Ctx} {k : ℕ} {ts : List TypeId} (h : Popped c k ts) {fr : CtrlFrame}
    (hfr : fr ∈ c.ctrlStack.head?) (hle : fr.height ≤ c.valStack.length) {m : ℕ} (hm : m ≤ fr.height)
    (us : List TypeId) :
    below m (us ++ c.valStack.drop k) = below m c.valStack ∧
      fr.height ≤ (us ++ c.valStack.drop k).length := by
  have habove := h.above fr hfr hle
  have hlen : fr.height ≤ (c.valStack.drop k).length := by rw [List.length_drop]; omega
  constructor
  · rw [below_append _ _ (by omega), below_drop (by omega)]
  · rw [List.length_append]
    omega

theorem head?_mem {α : Type} {a : α} {s rest : List α} (h : s = a :: rest) : a ∈ s.head? := by
  rw [h]; rfl

/-- A new top frame on frames in order. -/
theorem Wf.cons {c : Ctx} {fr : CtrlFrame} {s : List CtrlFrame} (hc : c.ctrlStack = fr :: s)
    (hs : s.Pairwise (fun a b => b.height ≤ a.height)) (hh : ∀ g ∈ s.head?, g.height ≤ fr.height)
    (htop : fr.height ≤ c.valStack.length) (ht : FrameTypes fr) (hts : ∀ g ∈ s, FrameTypes g) : Wf c where
  heights := by
    rw [hc, List.pairwise_cons]
    refine ⟨?_, hs⟩
    intro g hg
    cases s with
    | nil => simp at hg
    | cons g0 s =>
      have h0 := hh g0 rfl
      rcases List.mem_cons.mp hg with rfl | hg
      · exact h0
      · exact ((List.pairwise_cons.mp hs).1 g hg).trans h0
  top := by
    intro g hg
    rw [hc] at hg
    cases hg
    exact htop
  types := by
    intro g hg
    rw [hc] at hg
    rcases List.mem_cons.mp hg with rfl | hg
    · exact ht
    · exact hts g hg

/-- The frames below the top one. -/
theorem Wf.rest {c : Ctx} {fr : CtrlFrame} {s : List CtrlFrame} (h : Wf c) (hc : c.ctrlStack = fr :: s) :
    s.Pairwise (fun a b => b.height ≤ a.height) ∧ (∀ g ∈ s, g.height ≤ fr.height) ∧
      (∀ g ∈ s, FrameTypes g) ∧ FrameTypes fr ∧ fr.height ≤ c.valStack.length := by
  have hp := h.heights
  rw [hc, List.pairwise_cons] at hp
  refine ⟨hp.2, hp.1, fun g hg => h.types g ?_, h.types fr ?_, h.top fr (head?_mem hc)⟩
  · rw [hc]; exact List.mem_cons_of_mem _ hg
  · rw [hc]; exact List.mem_cons_self

/-- A step that keeps the frames up to pending slots. -/
theorem Wf.of_modify {c c' : Ctx} (h : Wf c) {l : ℕ} {ks : List ℕ}
    (hc : c'.ctrlStack = c.ctrlStack.modify l (·.addPending ks))
    (htop : ∀ fr ∈ c.ctrlStack.head?, fr.height ≤ c'.valStack.length) : Wf c' where
  heights := by
    have hmap : c'.ctrlStack.map (·.height) = c.ctrlStack.map (·.height) := by
      rw [hc]
      exact map_modify (f := fun fr : CtrlFrame => fr.addPending ks) (fun _ => rfl) _ _
    have hp := h.heights
    rw [← List.pairwise_map (R := fun a b => b ≤ a)] at hp ⊢
    rw [hmap]
    exact hp
  top := by
    intro fr hfr
    rw [hc] at hfr
    cases hs : c.ctrlStack with
    | nil => rw [hs] at hfr; simp at hfr
    | cons g s =>
      rw [hs] at hfr
      have hg := htop g (head?_mem hs)
      cases l with
      | zero =>
        rw [List.modify_zero_cons] at hfr
        cases hfr
        exact hg
      | succ l =>
        rw [List.modify_succ_cons] at hfr
        cases hfr
        exact hg
  types := by
    intro fr hfr
    rw [hc] at hfr
    obtain ⟨n, hn⟩ := List.mem_iff_getElem?.mp hfr
    rw [List.getElem?_modify] at hn
    obtain ⟨g, hg, rfl⟩ := Option.map_eq_some_iff.mp hn
    have ht := h.types g (List.mem_of_getElem? hg)
    by_cases hl : l = n
    · rw [if_pos hl]; exact ht
    · rw [if_neg hl]; exact ht

/-- What a callback does, seen from the frames. -/
structure Effect (P : JumpTable → Prop) (c c' : Ctx) : Prop where
  edits : ReflTransGen (Run.Within (Edit P) fun x => c.ctrlStack.length ≤ x.1.length) (shape c) (shape c')
  wf : Wf c'
  rests : Rests c c'

/-- Two parts of one callback; the first one leaves the heights of the frames alone. -/
theorem Effect.trans {P : JumpTable → Prop} {c c1 c2 : Ctx} (h : Effect P c c1) (k : Effect P c1 c2)
    (hh : c1.ctrlStack.map (·.height) = c.ctrlStack.map (·.height)) : Effect P c c2 where
  edits := by
    have hlen : c1.ctrlStack.length = c.ctrlStack.length := by
      simpa using congrArg List.length hh
    have hk := k.edits
    rw [hlen] at hk
    exact h.edits.trans hk
  wf := k.wf
  rests := by
    intro fr hfr m hm
    cases hs : c.ctrlStack with
    | nil => rw [hs] at hfr; simp at hfr
    | cons g s =>
      obtain rfl : g = fr := by rw [hs] at hfr; exact Option.some.inj hfr
      cases hs1 : c1.ctrlStack with
      | nil => rw [hs, hs1] at hh; simp at hh
      | cons g1 s1 =>
        rw [hs, hs1] at hh
        have he : g1.height = g.height := by simpa using (List.cons.inj hh).1
        have h1 := h.rests g (head?_mem hs) m hm
        have h2 := k.rests g1 (head?_mem hs1) m (by omega)
        exact ⟨h2.1.trans h1.1, by omega⟩

/-- Operands are popped from the top frame and others are pushed. -/
theorem Effect.operands {P : JumpTable → Prop} {c c' : Ctx} (hw : Wf c) {k : ℕ} {ts : List TypeId}
    (us : List TypeId) (hp : Popped c k ts) (hv : c'.valStack = us ++ c.valStack.drop k)
    (hs : shape c' = shape c) : Effect P c c' where
  edits := by rw [hs]
  wf := by
    have hc : c'.ctrlStack = c.ctrlStack := congrArg Prod.fst hs
    refine ⟨by rw [hc]; exact hw.heights, ?_, by rw [hc]; exact hw.types⟩
    intro fr hfr
    rw [hc] at hfr
    rw [hv]
    exact (hp.below hfr (hw.top fr hfr) le_rfl us).2
  rests := by
    intro fr hfr m hm
    rw [hv]
    exact hp.below hfr (hw.top fr hfr) hm us

theorem Wf.pop {c : Ctx} (hw : Wf c) {k : ℕ} {ts : List TypeId} (hp : Popped c k ts) :
    Wf { c with valStack := c.valStack.drop k } := by
  have he : Effect (fun _ => True) c { c with valStack := c.valStack.drop k } := .operands hw [] hp rfl rfl
  exact he.wf

theorem Effect.pushSlot {P : JumpTable → Prop} {c : Ctx} (hw : Wf c) {l : ℕ} {slot : JumpTable}
    (hl : l < c.ctrlStack.length) (hs : P slot) : Effect P c (pushSlot l slot c) where
  edits := .single ⟨le_rfl, .slot hl hs⟩
  wf := hw.of_modify rfl hw.top
  rests := fun fr hfr _ _ => ⟨rfl, hw.top fr hfr⟩

theorem pushSlot_heights (l : ℕ) (slot : JumpTable) (c : Ctx) :
    (Validator.pushSlot l slot c).ctrlStack.map (·.height) = c.ctrlStack.map (·.height) :=
  map_modify (f := fun fr : CtrlFrame => fr.addPending [c.jt.length]) (fun _ => rfl) _ _

theorem Effect.unreachable {P : JumpTable → Prop} {c c' : Ctx} (hw : Wf c)
    (h : unreachable c = .ok c') : Effect P c c' := by
  obtain ⟨fr, rest, hc, hle, rfl⟩ := unreachable_ok h
  obtain ⟨hs, hh, hts, ht, -⟩ := hw.rest hc
  refine ⟨?_, ?_, ?_⟩
  · refine .single ⟨le_rfl, ?_⟩
    unfold shape
    rw [hc]
    exact .mark
  · refine .cons rfl hs (fun g hg => hh g (List.mem_of_mem_head? hg)) ?_ ht hts
    simp only
    rw [length_below hle]
  · intro g hg m hm
    obtain rfl : fr = g := by rw [hc] at hg; exact Option.some.inj hg
    simp only
    exact ⟨below_below hm hle, by rw [length_below hle]⟩

/-- The offsets of the slots that the callback of `i` makes. -/
def SlotPc (imm : Stream) (i : Instr) (pc : ℕ) : Prop :=
  if i = .brTable then
    ∃ n pc1 frames labels pc2, imm.readVu32 = .ok (n, pc1) ∧
      brTableLabels frames ((n + 1) % 2 ^ 32) pc1 = .ok (labels, pc2) ∧ pc = u32 pc2.p
  else pc = u32 imm.p

theorem pushVals_shape (ts : List TypeId) (c : Ctx) : shape (pushVals ts c) = shape c := by
  simp [shape]

theorem onBlock_effect {P : JumpTable → Prop} {op : WasmOpcode} {imm : Stream} {type : FuncType}
    {c c' : Ctx} (hw : Wf c) (h : onBlock op imm type c = .ok c') (hop : op.case = .block)
    (hP : ∀ slot, slot.pc = u32 imm.p → P slot) : Effect P c c' := by
  obtain ⟨ps, rs, k, ts, hps, hrs, hm, hp, hc'⟩ := onBlock_ok h
  have hv : c'.valStack = ps.reverse ++ c.valStack.drop k := by rw [hc']; simp
  have hcs : c'.ctrlStack = blockFrame op imm.p type ps rs (c.valStack.length - k) c.jt.length :: c.ctrlStack := by
    rw [hc']; simp
  have hjt : c'.jt = if op = .if_ then c.jt ++ [ifSlot imm.p] else c.jt := by rw [hc']; simp
  have hbt : (blocktypeOf op = .if_) ↔ op = .if_ := by
    obtain rfl | rfl | rfl := WasmOpcode.block_loop_or_if hop <;> simp [blocktypeOf]
  refine ⟨?_, ?_, ?_⟩
  · refine .single ⟨le_rfl, ?_⟩
    unfold shape
    rw [hcs, hjt]
    by_cases hif : op = .if_
    · rw [if_pos hif]
      exact .openIf (hbt.mpr hif) (by simp [blockFrame, hif]) (hP _ rfl)
    · rw [if_neg hif]
      exact .openFrame (fun ht => hif (hbt.mp ht)) (by simp [blockFrame, hif])
  · refine .cons hcs hw.heights ?_ ?_ ⟨hps, hrs⟩ hw.types
    · intro g hg
      have := hp.above g hg (hw.top g hg)
      simp only [blockFrame, newFrame]
      omega
    · rw [hv]
      simp [blockFrame, newFrame]
  · intro g hg m hm'
    rw [hv]
    exact hp.below hg (hw.top g hg) hm' _

theorem onEnd_effect {P : JumpTable → Prop} {imm : Stream} {c c' : Ctx} (hw : Wf c)
    (h : onEnd imm c = .ok c') : Effect P c c' := by
  obtain ⟨cf, rest, k, ts, hc, hm, hp, hc'⟩ := onEnd_ok h
  obtain ⟨hs, hh, hts, ht, hle⟩ := hw.rest hc
  have hv : c'.valStack = cf.endTypes.reverse ++ c.valStack.drop k := by rw [hc']; simp
  have hcs : c'.ctrlStack = rest := by rw [hc']; simp
  refine ⟨?_, ⟨by rw [hcs]; exact hs, ?_, by rw [hcs]; exact hts⟩, ?_⟩
  · refine .single ⟨le_rfl, ?_⟩
    rw [hc', pushVals_shape]
    unfold shape
    rw [hc]
    exact .close imm.p
  · intro g hg
    rw [hcs] at hg
    have h1 := hh g (List.mem_of_mem_head? hg)
    have h2 := hp.above cf (head?_mem hc) hle
    rw [hv, List.length_append, List.length_drop]
    omega
  · intro g hg m hm'
    rw [hv]
    exact hp.below hg (hw.top g hg) hm' _

theorem onElse_effect {P : JumpTable → Prop} {imm : Stream} {c c' : Ctx} (hw : Wf c)
    (h : onElse imm c = .ok c') (hP : ∀ slot, slot.pc = u32 imm.p → P slot) : Effect P c c' := by
  obtain ⟨cf, rest, k, ts, ps, rs, slot, hc, htype, hm, hp, hps, hrs, hslot, hc'⟩ := onElse_ok h
  obtain ⟨hs, hh, hts, ht, hle⟩ := hw.rest hc
  have hv : c'.valStack = ps.reverse ++ c.valStack.drop k := by rw [hc']; simp
  have hcs : c'.ctrlStack = elseFrame cf ps rs (c.valStack.length - k) c.jt.length :: rest := by
    rw [hc']; simp
  have habove := hp.above cf (head?_mem hc) hle
  refine ⟨?_, ?_, ?_⟩
  · refine .single ⟨le_rfl, ?_⟩
    rw [hc', pushVals_shape]
    unfold shape
    rw [hc]
    refine .else_ imm.p htype rfl rfl ?_ rfl (hP _ hslot)
    simp only [elseFrame, newFrame]
    omega
  · refine .cons hcs hs ?_ ?_ ⟨hps, hrs⟩ hts
    · intro g hg
      have := hh g (List.mem_of_mem_head? hg)
      simp only [elseFrame, newFrame]
      omega
    · rw [hv]
      simp [elseFrame, newFrame]
  · intro g hg m hm'
    rw [hv]
    exact hp.below hg (hw.top g hg) hm' _

theorem onBrOrIf_effect {P : JumpTable → Prop} {op : WasmOpcode} {imm : Stream} {lth : ℕ} {c c' : Ctx}
    (hw : Wf c) (h : onBrOrIf op imm lth c = .ok c') (hP : ∀ slot, slot.pc = u32 imm.p → P slot) :
    Effect P c c' := by
  obtain ⟨fr, k0, ts0, k, ts, c2, hfr, hm0, hp0, hm, hp, hc2, h⟩ := onBrOrIf_ok h
  have hlt := (List.getElem?_eq_some_iff.mp hfr).1
  have e0 : Effect P c { c with valStack := c.valStack.drop k0 } := .operands hw [] hp0 rfl rfl
  have e1 : Effect P { c with valStack := c.valStack.drop k0 }
      { c with valStack := (c.valStack.drop k0).drop k } := .operands e0.wf [] hp rfl rfl
  have e01 := e0.trans e1 rfl
  have e2 : Effect P { c with valStack := (c.valStack.drop k0).drop k } c2 := by
    rw [hc2]
    exact .pushSlot e1.wf hlt (hP _ rfl)
  have e012 : Effect P c c2 := e01.trans e2 rfl
  have hh : c2.ctrlStack.map (·.height) = c.ctrlStack.map (·.height) := by
    rw [hc2]
    exact pushSlot_heights _ _ _
  by_cases hop : op = .br
  · rw [if_pos hop] at h
    exact e012.trans (.unreachable e2.wf h) hh
  · rw [if_neg hop] at h
    cases h
    refine e012.trans (.operands e2.wf fr.labelTypes.reverse (.nil c2) ?_ (pushVals_shape _ _)) hh
    simp

theorem SlotRun.effect {P : JumpTable → Prop} {pcEnd arity : ℕ} {ls : List ℕ} {c c' : Ctx}
    (h : SlotRun pcEnd arity ls c c') (hw : Wf c) (hP : ∀ slot, slot.pc = u32 pcEnd → P slot) :
    Effect P c c' ∧ c'.ctrlStack.map (·.height) = c.ctrlStack.map (·.height) := by
  induction h with
  | nil => exact ⟨.operands hw [] (.nil _) rfl rfl, rfl⟩
  | @cons l ls c c' fr k ts hfr ha hm hp hrest ih =>
    have hlt := (List.getElem?_eq_some_iff.mp hfr).1
    have e0 : Effect P c { c with valStack := c.valStack.drop k } := .operands hw [] hp rfl rfl
    have e1 := Effect.pushSlot (P := P) (l := l) e0.wf hlt (hP (branchSlot pcEnd c.valStack.length arity fr) rfl)
    have e01 := e0.trans e1 rfl
    have hh := pushSlot_heights l (branchSlot pcEnd c.valStack.length arity fr)
      { c with valStack := c.valStack.drop k }
    have e2 := Effect.operands (P := P) e1.wf ts (.nil _) (by simp)
      (pushVals_shape ts.reverse (Validator.pushSlot l (branchSlot pcEnd c.valStack.length arity fr)
        { c with valStack := c.valStack.drop k }))
    have e012 := e01.trans e2 hh
    obtain ⟨e3, hh3⟩ := ih e2.wf
    refine ⟨e012.trans e3 ?_, hh3.trans ?_⟩
    · rw [pushVals_ctrlStack]; exact hh
    · rw [pushVals_ctrlStack]; exact hh

theorem onBrTable_effect {P : JumpTable → Prop} {imm : Stream} {c c' : Ctx} (hw : Wf c)
    (h : onBrTable imm c = .ok c') (hP : ∀ slot, SlotPc imm .brTable slot.pc → P slot) : Effect P c c' := by
  obtain ⟨t, k0, n, pc1, labels, pc2, fr, c2, c3, k, ts, -, hp0, hn, hl, hrun, -, hm, hp, hc3, h⟩ :=
    onBrTable_ok h
  have e0 : Effect P c { c with valStack := c.valStack.drop k0 } := .operands hw [] hp0 rfl rfl
  obtain ⟨e1, hh1⟩ := hrun.effect (P := P) e0.wf (by
    intro slot hslot
    refine hP slot ?_
    rw [SlotPc, if_pos rfl]
    exact ⟨n, pc1, _, labels, pc2, hn, hl, hslot⟩)
  have e01 := e0.trans e1 rfl
  have e2 : Effect P c2 c3 := by
    rw [hc3]
    exact .operands e1.wf [] hp rfl rfl
  have hh3 : c3.ctrlStack = c2.ctrlStack := by rw [hc3]
  exact (e01.trans e2 hh1).trans (.unreachable e2.wf h) (by rw [hh3]; exact hh1)

theorem onReturn_effect {P : JumpTable → Prop} {c c' : Ctx} (hw : Wf c)
    (h : onReturn c = .ok c') : Effect P c c' := by
  obtain ⟨fr, k, ts, c2, -, hm, hp, hc2, h⟩ := onReturn_ok h
  have e0 : Effect P c c2 := by
    rw [hc2]
    exact .operands hw [] hp rfl rfl
  exact e0.trans (.unreachable e0.wf h) (by rw [hc2])

theorem PlainStep.shape_eq {mod : Module} {i : Instr} {c c' : Ctx} {k : ℕ} {ts us : List TypeId}
    (h : PlainStep mod i c c' k ts us) : shape c' = shape c := by
  rw [h.eq, pushVals_shape]
  rfl

theorem PlainStep.valStack_eq {mod : Module} {i : Instr} {c c' : Ctx} {k : ℕ} {ts us : List TypeId}
    (h : PlainStep mod i c c' k ts us) : c'.valStack = us.reverse ++ c.valStack.drop k := by
  rw [h.eq]
  simp

/-- Every callback, seen from the frames. -/
theorem onInstr_effect {mod : Module} {op : WasmOpcode} {i : Instr} {imm : Stream} {c c' : Ctx}
    (hw : Wf c) (hi : i.case = op.case) (hop : ∀ o ty, i = .block o ty → o = op)
    (h : onInstr mod i imm c = .ok c') : Effect (fun slot => SlotPc imm i slot.pc) c c' := by
  by_cases hc : i.isControl = false
  · obtain ⟨k, ts, us, hs⟩ := onInstr_plain hc h
    exact .operands hw us.reverse hs.popped hs.valStack_eq hs.shape_eq
  · cases i with
    | unreachable => exact .unreachable hw h
    | block o ty =>
      refine onBlock_effect hw h ?_ fun slot hs => by simpa [SlotPc] using hs
      rw [hop o ty rfl, ← hi]
      rfl
    | else_ => exact onElse_effect hw h fun slot hs => by simpa [SlotPc] using hs
    | end_ => exact onEnd_effect hw h
    | brOrIf o l => exact onBrOrIf_effect hw h fun slot hs => by simpa [SlotPc] using hs
    | brTable => exact onBrTable_effect hw h fun slot hs => hs
    | return_ => exact onReturn_effect hw h
    | _ => exact absurd rfl hc

/-! ### Steps -/

section Steps
variable {mod : Module} {f : Func}

theorem decodeImm_block {pc imm pc' : Stream} {op o : WasmOpcode} {ty : FuncType}
    (h : decodeImm mod op pc = .ok (.block o ty, imm, pc')) : o = op := by
  have hcase : op.case = .block := (decodeImm_case h).symm
  unfold decodeImm at h
  rw [hcase] at h
  obtain ⟨⟨ft, pc1⟩, -, h⟩ := bind_eq_ok.mp h
  cases h
  rfl

theorem step_effect {p q : ℕ} {c c' : Ctx} (hw : Wf c) {i : Instr} {imm : ℕ}
    (hf : fetch mod f.code p = .ok (i, imm, q)) (h : onInstr mod i ⟨f.code, imm⟩ c = .ok c') :
    Effect (fun slot => SlotPc ⟨f.code, imm⟩ i slot.pc) c c' := by
  obtain ⟨b, op, pc, -, -, hi, -⟩ := fetch_ok.mp hf
  refine onInstr_effect hw (decodeImm_case hi) ?_ h
  rintro o ty rfl
  exact decodeImm_block hi

end Steps

end Silverfir.Validator
