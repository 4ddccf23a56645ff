import Silverfir.Fetch
import Silverfir.ValidatorPlain
import Silverfir.Lib.Stack

/-! The callbacks of the control instructions: what each of them does to the operands, the
frames and the jump table when it succeeds. -/
namespace Silverfir

open ListStack

theorem CtrlFrame.addPending_nil (fr : CtrlFrame) : fr.addPending [] = fr := by
  simp [CtrlFrame.addPending]

theorem CtrlFrame.addPending_addPending (fr : CtrlFrame) (ks ls : List ℕ) :
    (fr.addPending ks).addPending ls = fr.addPending (ks ++ ls) := by
  simp [CtrlFrame.addPending]

namespace Validator

/-- Pops look at the operands and at two fields of the top frame. -/
theorem Popped.congr {c c' : Ctx} {k : ℕ} {ts : List TypeId} (h : Popped c k ts)
    (hv : c'.valStack = c.valStack)
    (hf : c'.ctrlStack.head?.map (fun fr => (fr.height, fr.unreachable)) =
      c.ctrlStack.head?.map (fun fr => (fr.height, fr.unreachable))) : Popped c' k ts := by
  have back : ∀ fr ∈ c'.ctrlStack.head?, ∃ fr0 ∈ c.ctrlStack.head?,
      fr0.height = fr.height ∧ fr0.unreachable = fr.unreachable := by
    intro fr hfr
    rw [Option.mem_def.mp hfr] at hf
    obtain ⟨fr0, h0, he⟩ := Option.map_eq_some_iff.mp hf.symm
    simp only [Prod.mk.injEq] at he
    exact ⟨fr0, h0, he⟩
  refine ⟨by rw [hv]; exact h.types, h.le, ?_, ?_⟩
  · intro fr hfr hle
    obtain ⟨fr0, h0, hh, -⟩ := back fr hfr
    have := h.above fr0 h0 (by rw [← hv]; omega)
    rw [hv]
    omega
  · intro hlt
    obtain ⟨fr0, h0, hu, hh⟩ := h.poly hlt
    rw [Option.mem_def.mp h0] at hf
    obtain ⟨fr, hfr, he⟩ := Option.map_eq_some_iff.mp hf
    simp only [Prod.mk.injEq] at he
    exact ⟨fr, hfr, by rw [he.2]; exact hu, by rw [hv, hh, he.1]⟩

theorem head?_modify_addPending (s : List CtrlFrame) (l : ℕ) (ks : List ℕ) :
    (s.modify l (·.addPending ks)).head?.map (fun fr => (fr.height, fr.unreachable)) =
      s.head?.map (fun fr => (fr.height, fr.unreachable)) := by
  cases s with
  | nil => simp
  | cons fr s => cases l <;> simp [CtrlFrame.addPending]

theorem Popped.of_pushSlot {c : Ctx} {k l : ℕ} {ts : List TypeId} {slot : JumpTable}
    (h : Popped (pushSlot l slot c) k ts) : Popped c k ts :=
  h.congr rfl (head?_modify_addPending c.ctrlStack l [c.jt.length]).symm

/-- The frame that `push_ctrl` opens. -/
def newFrame (bt : Blocktype) (ftype : FuncType) (ps rs : List TypeId) (height : ℕ) : CtrlFrame :=
  { type := bt, ftype := ftype, startTypes := ps, endTypes := rs, height := height }

theorem pushCtrl_ok {bt : Blocktype} {ft : FuncType} {c c' : Ctx} (h : pushCtrl bt ft c = .ok c') :
    ∃ ps rs, parseTypes ft.paramCount ft.params = .ok ps ∧
      parseTypes ft.resultCount ft.results = .ok rs ∧
      c' = pushVals ps { c with ctrlStack := newFrame bt ft ps rs c.valStack.length :: c.ctrlStack } := by
  simp only [pushCtrl, bind_eq_ok] at h
  obtain ⟨ps, hps, rs, hrs, h⟩ := h
  cases h
  exact ⟨ps, rs, hps, hrs, rfl⟩

theorem popCtrl_ok {c c' : Ctx} {cf : CtrlFrame} (h : popCtrl c = .ok (cf, c')) :
    ∃ rest k ts, c.ctrlStack = cf :: rest ∧ List.Forall₂ Matches ts cf.endTypes.reverse ∧
      Popped c k ts ∧ c' = { c with valStack := c.valStack.drop k, ctrlStack := rest } := by
  unfold popCtrl at h
  split at h
  · simp at h
  · next fr rest hc =>
    obtain ⟨c1, h1, h2⟩ := bind_eq_ok.mp h
    obtain ⟨ts, k, hm, hp, rfl⟩ := popVals_ok h1
    cases h2
    exact ⟨rest, k, ts, hc, hm, hp, by simp [hc]⟩

theorem unreachable_ok {c c' : Ctx} (h : unreachable c = .ok c') :
    ∃ fr rest, c.ctrlStack = fr :: rest ∧ fr.height ≤ c.valStack.length ∧
      c' = { c with
        valStack := below fr.height c.valStack
        ctrlStack := { fr with unreachable := true } :: rest } := by
  unfold unreachable at h
  split at h
  · simp [noFrame] at h
  · next fr rest hc =>
    split at h
    · simp at h
    · cases h
      exact ⟨fr, rest, hc, by omega, rfl⟩

/-- The slot of an `if`. -/
def ifSlot (imm : ℕ) : JumpTable := { pc := u32 imm, stackOffset := 0, arity := 0 }

/-- The frame of a `block`, `loop` or `if` after its callback. -/
def blockFrame (op : WasmOpcode) (imm : ℕ) (type : FuncType) (ps rs : List TypeId)
    (height slots : ℕ) : CtrlFrame :=
  { newFrame (blocktypeOf op) type ps rs height with
    pc := if op = .loop then u32 (u32 imm + 1) else 0
    pendingJtSlots := if op = .if_ then [slots] else [] }

/-- The operands of a `block`, `loop` or `if`, in pop order. -/
def blockOperands (op : WasmOpcode) (ps : List TypeId) : List TypeId :=
  if op = .if_ then .i32 :: ps.reverse else ps.reverse

/-- Everything a callback does to the frames and the table commutes with its pushes. -/
theorem pushVals_with (vs : List TypeId) (c : Ctx) (s : List CtrlFrame) (jt : List JumpTable) :
    { pushVals vs c with ctrlStack := s, jt := jt } = pushVals vs { c with ctrlStack := s, jt := jt } := by
  induction vs generalizing c with
  | nil => rfl
  | cons v vs ih => rw [pushVals_cons, pushVals_cons, ih]; rfl

/-- The part of the callback that follows the pops. -/
private theorem onBlock_pops {op : WasmOpcode} {imm : Stream} {type : FuncType} {c c' : Ctx}
    (h : onBlock op imm type c = .ok c') :
    ∃ ps ts c2 c3, parseTypes type.paramCount type.params = .ok ps ∧
      popValsRev (blockOperands op ps) c = .ok (ts, c2) ∧
      pushCtrl (blocktypeOf op) type c2 = .ok c3 ∧
      (if op = .loop then
        .ok { c3 with ctrlStack := c3.ctrlStack.modifyHead ({ · with pc := u32 (u32 imm.p + 1) }) }
      else if op = .if_ then .ok (pushSlot 0 (ifSlot imm.p) c3)
      else .ok c3) = (.ok c' : R Ctx) := by
  have pops : ∀ {d d' : Ctx} {ps : List TypeId}, popVals ps d = .ok d' →
      ∃ us, popValsRev ps.reverse d = .ok (us, d') := by
    intro d d' ps h
    obtain ⟨⟨us, e⟩, hu, he⟩ := bind_eq_ok.mp h
    cases he
    exact ⟨us, hu⟩
  by_cases hop : op = .if_
  · simp only [onBlock, if_pos hop, bind_eq_ok] at h
    obtain ⟨⟨t, e⟩, ht, c1, hc1, ps, hps, c2, h2, c3, h3, h⟩ := h
    cases hc1
    obtain ⟨us, hus⟩ := pops h2
    refine ⟨ps, t :: us, c2, c3, hps, ?_, h3, ?_⟩
    · simp only [blockOperands, if_pos hop, popValsRev, ht, ok_bind]
      rw [hus]
      rfl
    · rw [if_pos hop]
      exact h
  · simp only [onBlock, if_neg hop, bind_eq_ok] at h
    obtain ⟨c1, hc1, ps, hps, c2, h2, c3, h3, h⟩ := h
    cases hc1
    obtain ⟨us, hus⟩ := pops h2
    refine ⟨ps, us, c2, c3, hps, ?_, h3, ?_⟩
    · simpa only [blockOperands, if_neg hop] using hus
    · rw [if_neg hop]
      exact h

theorem onBlock_ok {op : WasmOpcode} {imm : Stream} {type : FuncType} {c c' : Ctx}
    (h : onBlock op imm type c = .ok c') :
    ∃ ps rs k ts, parseTypes type.paramCount type.params = .ok ps ∧
      parseTypes type.resultCount type.results = .ok rs ∧
      List.Forall₂ Matches ts (blockOperands op ps) ∧ Popped c k ts ∧
      c' = pushVals ps { c with
        valStack := c.valStack.drop k
        ctrlStack := blockFrame op imm.p type ps rs (c.valStack.length - k) c.jt.length :: c.ctrlStack
        jt := if op = .if_ then c.jt ++ [ifSlot imm.p] else c.jt } := by
  obtain ⟨ps, ts, c2, c3, hps, hts, h3, h⟩ := onBlock_pops h
  obtain ⟨hm, k, hp, hc2⟩ := popValsRev_ok hts
  obtain ⟨ps', rs, hps', hrs, hc3⟩ := pushCtrl_ok h3
  obtain rfl : ps = ps' := Except.ok.inj (hps.symm.trans hps')
  refine ⟨ps, rs, k, ts, hps, hrs, hm, hp, ?_⟩
  have hjt : c3.jt = c.jt := by rw [hc3, hc2]; simp
  have hcs : c3.ctrlStack =
      newFrame (blocktypeOf op) type ps rs (c.valStack.length - k) :: c.ctrlStack := by
    rw [hc3, hc2]; simp
  have hpush : ∀ s jt, { c3 with ctrlStack := s, jt := jt } =
      pushVals ps { c with valStack := c.valStack.drop k, ctrlStack := s, jt := jt } := by
    intro s jt
    rw [hc3, hc2, pushVals_with]
  by_cases hl : op = .loop
  · subst hl
    rw [if_pos rfl] at h
    have hc' := (Except.ok.inj h).symm
    rw [hcs] at hc'
    rw [hc', ← hjt]
    exact hpush _ _
  · rw [if_neg hl] at h
    by_cases hi : op = .if_
    · subst hi
      rw [if_pos rfl] at h
      have hc' := (Except.ok.inj h).symm
      unfold pushSlot at hc'
      rw [hcs, hjt] at hc'
      rw [hc']
      exact hpush _ _
    · rw [if_neg hi] at h
      have hc' := (Except.ok.inj h).symm
      rw [if_neg hi, hc']
      have := hpush c3.ctrlStack c3.jt
      rw [hjt, hcs] at this
      rw [blockFrame, if_neg hl, if_neg hi]
      exact Eq.trans (by rw [← hjt, ← hcs]) this

/-- The jump table after the frame `cf` was closed by the `end` before offset `imm`. -/
def closeSlots (cf : CtrlFrame) (imm : ℕ) (jt : List JumpTable) : List JumpTable :=
  if cf.type = .loop then patchSlots cf.pendingJtSlots cf.pc 0 jt
  else if cf.type = .func then patchSlots cf.pendingJtSlots (u32 imm) (-1) jt
  else patchSlots cf.pendingJtSlots (u32 imm) 0 jt

theorem onEnd_ok {imm : Stream} {c c' : Ctx} (h : onEnd imm c = .ok c') :
    ∃ cf rest k ts, c.ctrlStack = cf :: rest ∧ List.Forall₂ Matches ts cf.endTypes.reverse ∧
      Popped c k ts ∧
      c' = pushVals cf.endTypes { c with
        valStack := c.valStack.drop k, ctrlStack := rest, jt := closeSlots cf imm.p c.jt } := by
  simp only [onEnd, bind_eq_ok] at h
  obtain ⟨⟨cf, c1⟩, h1, h⟩ := h
  obtain ⟨rest, k, ts, hc, hm, hp, rfl⟩ := popCtrl_ok h1
  cases h
  exact ⟨cf, rest, k, ts, hc, hm, hp, rfl⟩

/-- The frame that `else` opens after the if frame `cf`. -/
def elseFrame (cf : CtrlFrame) (ps rs : List TypeId) (height slots : ℕ) : CtrlFrame :=
  { newFrame .else_ cf.ftype ps rs height with
    pendingJtSlots := cf.pendingJtSlots.drop 1 ++ [slots] }

theorem onElse_ok {imm : Stream} {c c' : Ctx} (h : onElse imm c = .ok c') :
    ∃ cf rest k ts ps rs slot, c.ctrlStack = cf :: rest ∧ cf.type = .if_ ∧
      List.Forall₂ Matches ts cf.endTypes.reverse ∧ Popped c k ts ∧
      parseTypes cf.ftype.paramCount cf.ftype.params = .ok ps ∧
      parseTypes cf.ftype.resultCount cf.ftype.results = .ok rs ∧ slot.pc = u32 imm.p ∧
      c' = pushVals ps { c with
        valStack := c.valStack.drop k
        ctrlStack := elseFrame cf ps rs (c.valStack.length - k) c.jt.length :: rest
        jt := patchSlots (cf.pendingJtSlots.take 1) (u32 imm.p) 0 c.jt ++ [slot] } := by
  unfold onElse at h
  split at h
  · simp [noFrame] at h
  · next fr rest0 hc =>
    obtain ⟨htype, h⟩ := guard_eq_ok.mp h
    simp only [bind_eq_ok] at h
    obtain ⟨⟨cf, c1⟩, h1, c2, h2, h⟩ := h
    obtain ⟨rest, k, ts, hcf, hm, hp, hc1⟩ := popCtrl_ok h1
    obtain ⟨ps, rs, hps, hrs, hc2⟩ := pushCtrl_ok h2
    obtain ⟨rfl, rfl⟩ : fr = cf ∧ rest0 = rest := by simpa [hc] using hcf
    have hcs : c2.ctrlStack = newFrame .else_ fr.ftype ps rs (c.valStack.length - k) :: rest0 := by
      rw [hc2, hc1]; simp
    have hjt : c2.jt = c.jt := by rw [hc2, hc1]; simp
    have hpush : ∀ s jt, { c2 with ctrlStack := s, jt := jt } =
        pushVals ps { c with valStack := c.valStack.drop k, ctrlStack := s, jt := jt } := by
      intro s jt
      rw [hc2, hc1, pushVals_with]
    simp only [hcs, hjt, List.modifyHead_cons] at h
    have hc' := (Except.ok.inj h).symm
    have hlen : (patchSlots (fr.pendingJtSlots.take 1) (u32 imm.p) 0 c.jt).length = c.jt.length := by
      unfold patchSlots
      generalize fr.pendingJtSlots.take 1 = idxs
      generalize c.jt = jt
      induction idxs generalizing jt with
      | nil => rfl
      | cons i idxs ih => rw [List.foldl_cons, ih, List.length_modify]
    unfold pushSlot at hc'
    simp only [List.modify_zero_cons, hlen] at hc'
    refine ⟨fr, rest0, k, ts, ps, rs, ?slot, hc, by simpa using htype, hm, hp, hps, hrs, ?pc, ?eq⟩
    case eq =>
      rw [hc', hpush]
      rfl
    case pc => rfl

/-- The slot of a branch to `fr` from a stack of `size` operands, the condition popped. The
arity in the offset is a 16-bit value for `br` and `br_if` only. -/
def branchSlot (pc size arity : ℕ) (fr : CtrlFrame) : JumpTable where
  pc := u32 pc
  stackOffset := (((size : ℤ) - arity - fr.height) % 2 ^ 32).toNat
  arity := u16 fr.labelTypes.length

/-- The operands of `br` and `br_if` besides those of the label. -/
def brOperands (op : WasmOpcode) : List TypeId := if op = .brIf then [.i32] else []

/-- The part of the callback that follows the condition. -/
private theorem onBrOrIf_tail {op : WasmOpcode} {imm : Stream} {lth : ℕ} {c' : Ctx} (fr : CtrlFrame) (c : Ctx)
    (h : (do
      let c ← popVals fr.labelTypes (pushSlot lth (branchSlot imm.p c.valStack.length (u16 fr.labelTypes.length) fr) c)
      if op = .br then unreachable c else .ok (pushVals fr.labelTypes c)) = (.ok c' : R Ctx)) :
    ∃ k ts c2, List.Forall₂ Matches ts fr.labelTypes.reverse ∧ Popped c k ts ∧
      c2 = pushSlot lth (branchSlot imm.p c.valStack.length (u16 fr.labelTypes.length) fr)
        { c with valStack := c.valStack.drop k } ∧
      (if op = .br then unreachable c2 else .ok (pushVals fr.labelTypes c2)) = .ok c' := by
  obtain ⟨c2, h2, h⟩ := bind_eq_ok.mp h
  obtain ⟨ts, k, hm, hp, hc2⟩ := popVals_ok h2
  exact ⟨k, ts, c2, hm, hp.of_pushSlot, hc2, h⟩

theorem onBrOrIf_ok {op : WasmOpcode} {imm : Stream} {lth : ℕ} {c c' : Ctx}
    (h : onBrOrIf op imm lth c = .ok c') :
    ∃ fr k0 ts0 k ts c2, c.ctrlStack[lth]? = some fr ∧
      List.Forall₂ Matches ts0 (brOperands op) ∧ Popped c k0 ts0 ∧
      List.Forall₂ Matches ts fr.labelTypes.reverse ∧
      Popped { c with valStack := c.valStack.drop k0 } k ts ∧
      c2 = pushSlot lth (branchSlot imm.p (c.valStack.drop k0).length (u16 fr.labelTypes.length) fr)
        { c with valStack := (c.valStack.drop k0).drop k } ∧
      (if op = .br then unreachable c2 else .ok (pushVals fr.labelTypes c2)) = .ok c' := by
  unfold onBrOrIf at h
  obtain ⟨hlt, h⟩ := guard_eq_ok.mp h
  obtain ⟨fr, hfr⟩ : ∃ fr, c.ctrlStack[lth]? = some fr :=
    ⟨c.ctrlStack[lth], List.getElem?_eq_getElem (by omega)⟩
  by_cases hop : op = .brIf
  · simp only [if_pos hop] at h
    obtain ⟨⟨t, c0⟩, ht, h⟩ := bind_eq_ok.mp h
    obtain ⟨htv, hmt⟩ := popValExpect_ok ht
    obtain ⟨k0, hp0, hc0⟩ := popVal_ok htv
    subst hc0
    simp only [ok_bind, hfr] at h
    obtain ⟨k, ts, c2, hm, hp, hc2, h⟩ := onBrOrIf_tail fr { c with valStack := c.valStack.drop k0 } h
    exact ⟨fr, k0, [t], k, ts, c2, hfr, by simpa [brOperands, hop] using hmt, hp0, hm, hp, hc2, h⟩
  · simp only [if_neg hop, ok_bind, hfr] at h
    obtain ⟨k, ts, c2, hm, hp, hc2, h⟩ := onBrOrIf_tail fr c h
    refine ⟨fr, 0, [], k, ts, c2, hfr, by simp [brOperands, hop], .nil c, hm, ?_, ?_, h⟩
    · simpa using hp
    · simpa using hc2

/-- The slots of the labels of a `br_table`, one after the other. -/
inductive SlotRun (pcEnd arity : ℕ) : List ℕ → Ctx → Ctx → Prop
  | nil {c} : SlotRun pcEnd arity [] c c
  | cons {l ls c c' fr k ts} (hfr : c.ctrlStack[l]? = some fr) (ha : fr.labelTypes.length = arity)
      (hm : List.Forall₂ Matches ts fr.labelTypes.reverse) (hp : Popped c k ts)
      (hrest : SlotRun pcEnd arity ls (pushVals ts.reverse
        (pushSlot l (branchSlot pcEnd c.valStack.length arity fr)
          { c with valStack := c.valStack.drop k })) c') :
      SlotRun pcEnd arity (l :: ls) c c'

theorem brTableSlots_ok {pcEnd arity : ℕ} {ls : List ℕ} {c c' : Ctx}
    (h : brTableSlots (u32 pcEnd) arity ls c = .ok c') : SlotRun pcEnd arity ls c c' := by
  induction ls generalizing c with
  | nil =>
    cases h
    exact .nil
  | cons l ls ih =>
    unfold brTableSlots at h
    split at h
    · simp [noFrame] at h
    · next fr hfr =>
      obtain ⟨ha, h⟩ := guard_eq_ok.mp h
      obtain ⟨⟨ts, c2⟩, h2, h⟩ := bind_eq_ok.mp h
      obtain ⟨hm, k, hp, hc2⟩ := popValsToVec_ok h2
      have ha' : arity = fr.labelTypes.length := by simpa using ha
      subst ha' hc2
      exact .cons hfr rfl hm hp.of_pushSlot (ih (by exact h))

theorem brTableLabels_ok {frames n : ℕ} {pc pc' : Stream} {ls : List ℕ}
    (h : brTableLabels frames n pc = .ok (ls, pc')) :
    ls.length = n ∧ (∀ l ∈ ls, l < frames) ∧ pc'.s = pc.s := by
  induction n generalizing pc pc' ls with
  | zero =>
    cases h
    exact ⟨rfl, by simp, rfl⟩
  | succ n ih =>
    unfold brTableLabels at h
    obtain ⟨⟨l, pc1⟩, hl, h⟩ := bind_eq_ok.mp h
    obtain ⟨hlt, h⟩ := guard_eq_ok.mp h
    obtain ⟨⟨ls', pc2⟩, h2, h⟩ := bind_eq_ok.mp h
    obtain ⟨h1, h3, h4⟩ := ih h2
    cases h
    refine ⟨by simp [h1], ?_, h4.trans (Stream.reads_readVu32 hl).s_eq⟩
    intro x hx
    rcases List.mem_cons.mp hx with rfl | hx
    · omega
    · exact h3 x hx

theorem onBrTable_ok {imm : Stream} {c c' : Ctx} (h : onBrTable imm c = .ok c') :
    ∃ t k0 n pc1 labels pc2 fr c2 c3 k ts, Matches t .i32 ∧ Popped c k0 [t] ∧
      imm.readVu32 = .ok (n, pc1) ∧
      brTableLabels c.ctrlStack.length ((n + 1) % 2 ^ 32) pc1 = .ok (labels, pc2) ∧
      SlotRun pc2.p fr.labelTypes.length labels { c with valStack := c.valStack.drop k0 } c2 ∧
      (∃ m, labels.getLast? = some m ∧ c.ctrlStack[m]? = some fr) ∧
      List.Forall₂ Matches ts fr.labelTypes.reverse ∧ Popped c2 k ts ∧
      c3 = { c2 with valStack := c2.valStack.drop k } ∧ unreachable c3 = .ok c' := by
  simp only [onBrTable, bind_eq_ok] at h
  obtain ⟨⟨t, c0⟩, ht, ⟨n, pc1⟩, hn, ⟨labels, pc2⟩, hl, h⟩ := h
  obtain ⟨htv, hmt⟩ := popValExpect_ok ht
  obtain ⟨k0, hp0, hc0⟩ := popVal_ok htv
  subst hc0
  split at h
  · simp at h
  · next m hm =>
    split at h
    · simp [noFrame] at h
    · next fr hfr =>
      obtain ⟨c2, h2, h⟩ := bind_eq_ok.mp h
      obtain ⟨c3, h3, h⟩ := bind_eq_ok.mp h
      obtain ⟨ts, k, hms, hp, hc3⟩ := popVals_ok h3
      exact ⟨t, k0, n, pc1, labels, pc2, fr, c2, c3, k, ts, hmt, hp0, hn, hl, brTableSlots_ok h2,
        ⟨m, hm, hfr⟩, hms, hp, hc3, h⟩

theorem onReturn_ok {c c' : Ctx} (h : onReturn c = .ok c') :
    ∃ fr k ts c2, c.ctrlStack.getLast? = some fr ∧
      List.Forall₂ Matches ts fr.labelTypes.reverse ∧ Popped c k ts ∧
      c2 = { c with valStack := c.valStack.drop k } ∧ unreachable c2 = .ok c' := by
  unfold onReturn at h
  split at h
  · simp at h
  · next fr hfr =>
    obtain ⟨c2, h2, h⟩ := bind_eq_ok.mp h
    obtain ⟨ts, k, hm, hp, hc2⟩ := popVals_ok h2
    exact ⟨fr, k, ts, c2, hfr, hm, hp, hc2, h⟩

end Validator

end Silverfir
