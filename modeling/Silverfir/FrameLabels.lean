import Silverfir.LabelMachine

/-! Each label of the machine stands for a frame of the validator: it has the arity and the height of the frame, and a
branch to it goes on where a branch to the frame arrives. -/
namespace Silverfir

open InPlaceDt ListStack
open Relation (ReflTransGen)

variable {mod : Module} {f : Func}

namespace Validator

variable {n : ℕ} {x y : ℕ × Ctx}

/-! ### The ends of a block -/

/-- On the way from one place in a frame to another no `end` closes the frame. -/
theorem above_not_end {z : ℕ × Ctx} {j : Instr} {imm q : ℕ} (h : ReflTransGen (Above mod f n) z y) (hlt : z.1 < y.1)
    (hy : n < y.2.ctrlStack.length) (hz : z.2.ctrlStack.length = n + 1)
    (hf : fetch mod f.code z.1 = .ok (j, imm, q)) : j ≠ .end_ := by
  rintro rfl
  rcases ReflTransGen.cases_head h with rfl | ⟨w, hzw, hwy⟩
  · omega
  · obtain ⟨j, imm', hj, hcb⟩ := step_iff.mp hzw.2
    rw [hf] at hj
    cases hj
    have hlen := onInstr_length hcb
    have hw := above_lt hwy hy
    simp only [Instr.depth] at hlen
    omega

/-- Where the frame is still that of an `if`, there was no `else`. -/
theorem above_not_else {z : ℕ × Ctx} {j : Instr} {imm q : ℕ} {cf : CtrlFrame} (hr : Reach mod f z)
    (h : ReflTransGen (Above mod f n) z y) (hlt : z.1 < y.1) (hcf : fromBottom y.2.ctrlStack n = some cf)
    (ht : cf.type = .if_) (hz : z.2.ctrlStack.length = n + 1)
    (hf : fetch mod f.code z.1 = .ok (j, imm, q)) : j ≠ .else_ := by
  rintro rfl
  have hy := lt_length_of_fromBottom hcf
  rcases ReflTransGen.cases_head h with rfl | ⟨w, hzw, hwy⟩
  · omega
  · obtain ⟨j, imm', hj, hcb⟩ := step_iff.mp hzw.2
    rw [hf] at hj
    cases hj
    obtain ⟨g, rest, k, ts, ps, rs, slot, hc, -, -, -, -, -, -, hw⟩ := onElse_ok hcb
    have hrest : rest.length = n := by
      rw [hc, List.length_cons] at hz
      omega
    have helse : fromBottom w.2.ctrlStack n = some (elseFrame g ps rs (z.2.valStack.length - k) z.2.jt.length) := by
      rw [hw, pushVals_ctrlStack, ← hrest]
      exact fromBottom_cons_length _ _
    obtain ⟨fr, hfr, hk⟩ := (hr.tail hzw.2).above_kept hwy helse hy
    obtain rfl := Option.some.inj (hfr.symm.trans hcf)
    cases hk with
    | same htype =>
      rw [ht] at htype
      cases htype
    | else_ htype => cases htype

theorem Exit.blockEnd {e imm : ℕ} {ce ce' : Ctx} {cf : CtrlFrame} {rest : List CtrlFrame}
    (h : Exit mod f n x e imm ce ce' cf rest) (hx : x.2.ctrlStack.length = n + 1) :
    blockEnd mod f.code x.1 = some ⟨e, .end_, imm, imm⟩ := by
  have htop : ce.ctrlStack.length = n + 1 := by
    rw [h.top, List.length_cons, h.depth]
  have hfind := @findOpen_scan mod f n (· == .end_) x (e, ce) .end_ imm imm f.code.length h.path htop h.fetch rfl
    (Nat.le_add_left _ _) ?_
  · rw [hx, Nat.add_sub_cancel, Nat.sub_self] at hfind
    exact hfind
  · intro z j imm' q' hxz hlt hz hj hzy
    have hne := above_not_end hzy hlt (by simp only; omega) hz hj
    simpa using hne

/-- Where the then branch of an `if` ends. -/
theorem armEnd_eq {e imm : ℕ} {ce : Ctx} {cf : CtrlFrame} {i : Instr} (hx : Reach mod f x)
    (hlen : x.2.ctrlStack.length = n + 1) (hpath : ReflTransGen (Above mod f n) x (e, ce))
    (htop : ce.ctrlStack.length = n + 1) (hcf : fromBottom ce.ctrlStack n = some cf) (ht : cf.type = .if_)
    (hi : i = .else_ ∨ i = .end_) (hf : fetch mod f.code e = .ok (i, imm, imm)) :
    armEnd mod f.code x.1 = some ⟨e, i, imm, imm⟩ := by
  have hfind := @findOpen_scan mod f n (fun i => i == .else_ || i == .end_) x (e, ce) i imm imm f.code.length hpath htop
    hf (by simpa using hi) (Nat.le_add_left _ _) ?_
  · rw [hlen, Nat.add_sub_cancel, Nat.sub_self] at hfind
    exact hfind
  · intro z j imm' q' hxz hlt hz hj hzy
    have hend := above_not_end hzy hlt (by simp only; omega) hz hj
    have helse := above_not_else (hx.trans (Run.of_within hxz)) hzy hlt hcf ht hz hj
    simp [hend, helse]

/-- The `end` of a frame is the same wherever in the frame one starts. -/
theorem Exit.later {e imm : ℕ} {ce ce' : Ctx} {cf : CtrlFrame} {rest : List CtrlFrame}
    (h : Exit mod f n x e imm ce ce' cf rest) (hpath : ReflTransGen (Above mod f n) x y)
    (hy : n < y.2.ctrlStack.length) : Exit mod f n y e imm ce ce' cf rest := by
  induction hpath using ReflTransGen.head_induction_on with
  | refl => exact h
  | @head x z hxz hzy ih =>
    have hz : n < z.2.ctrlStack.length := above_lt hzy hy
    apply ih
    rcases ReflTransGen.cases_head h.path with rfl | ⟨w, hxw, hwe⟩
    · obtain rfl := hxz.2.unique h.step
      rw [h.rest_eq, h.depth] at hz
      exact absurd hz (Nat.lt_irrefl n)
    · obtain rfl := hxz.2.unique hxw.2
      exact ⟨hwe, h.fetch, h.onEnd, h.top, h.depth⟩

theorem Exit.earlier {e imm : ℕ} {ce ce' : Ctx} {cf : CtrlFrame} {rest : List CtrlFrame}
    (h : Exit mod f n y e imm ce ce' cf rest) (hpath : ReflTransGen (Above mod f n) x y) :
    Exit mod f n x e imm ce ce' cf rest := ⟨hpath.trans h.path, h.fetch, h.onEnd, h.top, h.depth⟩

/-! ### The label of a frame -/

/-- The frame `fr`, number `n` from the bottom, is that of the label. -/
structure LabelOf (mod : Module) (f : Func) (x : ℕ × Ctx) (n : ℕ) (fr : CtrlFrame) (label : BranchLabel) : Prop where
  arity : label.arity = fr.labelTypes.length
  results : label.results = fr.endTypes.length
  height : label.height = fr.height
  stays : label.stays = true ↔ fr.type = .loop ∨ fr.type = .func
  loop : fr.type = .loop → label.cont = fr.pc
  func : fr.type = .func → label.cont + 1 = f.code.length
  exit : ∀ {e imm ce ce' cf rest}, fr.type ≠ .loop → fr.type ≠ .func → Exit mod f n x e imm ce ce' cf rest →
    label.cont = imm

/-- A frame that is kept has the same label. -/
theorem Kept.labelled {fr fr' : CtrlFrame} (h : Kept fr fr') (hx : Reach mod f x) (hy : Reach mod f y)
    (hfr : fr ∈ x.2.ctrlStack) (hfr' : fr' ∈ y.2.ctrlStack) :
    (fr'.type = .loop ↔ fr.type = .loop) ∧ (fr'.type = .func ↔ fr.type = .func) ∧
      fr'.labelTypes = fr.labelTypes ∧ fr'.endTypes = fr.endTypes ∧ (fr.type = .loop → fr'.pc = fr.pc) := by
  have htypes := (hx.inv.wf.types fr hfr).eq_of_ftype (hy.inv.wf.types fr' hfr') h.ftype
  cases h with
  | same ht _ _ hpc =>
    refine ⟨by rw [ht], by rw [ht], ?_, htypes.2, fun _ => hpc⟩
    rw [CtrlFrame.labelTypes, CtrlFrame.labelTypes, ht, htypes.1, htypes.2]
  | else_ ht ht' =>
    refine ⟨by simp [ht, ht'], by simp [ht, ht'], ?_, htypes.2, fun hl => ?_⟩
    · rw [CtrlFrame.labelTypes, CtrlFrame.labelTypes, ht, ht', htypes.2]
      rfl
    · rw [ht] at hl
      cases hl

theorem LabelOf.forward (hex : Exits mod f) {fr fr' : CtrlFrame} {label : BranchLabel} (h : LabelOf mod f x n fr label)
    (hx : Reach mod f x) (hpath : ReflTransGen (Above mod f n) x y) (hfr : fromBottom x.2.ctrlStack n = some fr)
    (hfr' : fromBottom y.2.ctrlStack n = some fr') : LabelOf mod f y n fr' label := by
  obtain ⟨g, hg, hk⟩ := hx.above_kept hpath hfr (lt_length_of_fromBottom hfr')
  obtain rfl := Option.some.inj (hg.symm.trans hfr')
  obtain ⟨hloop, hfunc, hlabel, hend, hpc⟩ := hk.labelled hx (hx.trans (Run.of_within hpath)) (mem_of_fromBottom hfr)
    (mem_of_fromBottom hfr')
  have hheight := hex.height_eq hx hpath hfr hfr'
  constructor
  · rw [h.arity, hlabel]
  · rw [h.results, hend]
  · rw [h.height, hheight]
  · rw [h.stays, hloop, hfunc]
  · intro ht
    rw [hpc (hloop.mp ht)]
    exact h.loop (hloop.mp ht)
  · exact fun ht => h.func (hfunc.mp ht)
  · intro e imm ce ce' cf rest hl hf hexit
    exact h.exit (fun ht => hl (hloop.mpr ht)) (fun ht => hf (hfunc.mpr ht)) (hexit.earlier hpath)

theorem LabelOf.backward (hex : Exits mod f) {fr fr' : CtrlFrame} {label : BranchLabel}
    (h : LabelOf mod f y n fr' label) (hx : Reach mod f x) (hpath : ReflTransGen (Above mod f n) x y) (hfr : fromBottom x.2.ctrlStack n = some fr)
    (hfr' : fromBottom y.2.ctrlStack n = some fr') : LabelOf mod f x n fr label := by
  obtain ⟨g, hg, hk⟩ := hx.above_kept hpath hfr (lt_length_of_fromBottom hfr')
  obtain rfl := Option.some.inj (hg.symm.trans hfr')
  obtain ⟨hloop, hfunc, hlabel, hend, hpc⟩ := hk.labelled hx (hx.trans (Run.of_within hpath)) (mem_of_fromBottom hfr)
    (mem_of_fromBottom hfr')
  have hheight := hex.height_eq hx hpath hfr hfr'
  constructor
  · rw [h.arity, hlabel]
  · rw [h.results, hend]
  · rw [h.height, hheight]
  · rw [h.stays, hloop, hfunc]
  · intro ht
    rw [← hpc ht]
    exact h.loop (hloop.mpr ht)
  · exact fun ht => h.func (hfunc.mpr ht)
  · intro e imm ce ce' cf rest hl hf hexit
    exact h.exit (fun ht => hl (hloop.mp ht)) (fun ht => hf (hfunc.mp ht))
      (hexit.later hpath (lt_length_of_fromBottom hfr'))

/-- A branch to the frame arrives where the label says. -/
theorem LabelOf.target (hb : Bracketed mod f) {fr : CtrlFrame} {label : BranchLabel} {target : ℕ} {ct : Ctx}
    (h : LabelOf mod f x n fr label) (hx : Reach mod f x) (hfr : fromBottom x.2.ctrlStack n = some fr)
    (hbt : BranchTarget mod f n x fr target ct) : label.cont = target := by
  cases hbt with
  | loop ht => exact h.loop ht
  | func ht hk hexit =>
    have hn : n = 0 := (hb.func_iff hx hfr).mp ht
    subst hn
    have hlast := hexit.last hb hx
    have himm := hexit.imm_eq
    have hcont := h.func ht
    omega
  | exit ht ht' hk hexit => exact h.exit ht ht' hexit

/-! ### The labels of a place -/

/-- The labels are those of the open frames. -/
structure Labelled (mod : Module) (f : Func) (x : ℕ × Ctx) (labels : List BranchLabel) : Prop where
  length : labels.length = x.2.ctrlStack.length
  each : ∀ n fr label, fromBottom x.2.ctrlStack n = some fr → fromBottom labels n = some label →
    LabelOf mod f x n fr label

theorem fromBottom_drop {α : Type} {s : List α} {k m : ℕ} (h : m < (s.drop k).length) :
    fromBottom (s.drop k) m = fromBottom s m := by
  have hlen : (s.drop k).length = s.length - k := List.length_drop
  rw [fromBottom_eq h, fromBottom_eq (by omega), List.getElem?_drop, hlen]
  congr 1
  omega

/-- The labels of the frames that are still open further on. -/
theorem Labelled.forward (hex : Exits mod f) {labels : List BranchLabel} (h : Labelled mod f x labels)
    (hx : Reach mod f x) (hle : y.2.ctrlStack.length ≤ x.2.ctrlStack.length)
    (hpath : ∀ m < y.2.ctrlStack.length, ReflTransGen (Above mod f m) x y) :
    Labelled mod f y (labels.drop (x.2.ctrlStack.length - y.2.ctrlStack.length)) := by
  have hlen : (labels.drop (x.2.ctrlStack.length - y.2.ctrlStack.length)).length = y.2.ctrlStack.length := by
    rw [List.length_drop, h.length]
    omega
  refine ⟨hlen, fun m fr label hfr hlabel => ?_⟩
  have hm := lt_length_of_fromBottom hfr
  rw [fromBottom_drop (by omega)] at hlabel
  obtain ⟨g, hg⟩ := fromBottom_lt (s := x.2.ctrlStack) (n := m) (by omega)
  exact (h.each m g label hg hlabel).forward hex hx (hpath m hm) hg hfr

/-- The labels of the frames that were open further back. -/
theorem Labelled.backward (hex : Exits mod f) {labels : List BranchLabel} (h : Labelled mod f y labels)
    (hx : Reach mod f x) (hle : x.2.ctrlStack.length ≤ y.2.ctrlStack.length)
    (hpath : ∀ m < x.2.ctrlStack.length, ReflTransGen (Above mod f m) x y) :
    Labelled mod f x (labels.drop (y.2.ctrlStack.length - x.2.ctrlStack.length)) := by
  have hlen : (labels.drop (y.2.ctrlStack.length - x.2.ctrlStack.length)).length = x.2.ctrlStack.length := by
    rw [List.length_drop, h.length]
    omega
  refine ⟨hlen, fun m fr label hfr hlabel => ?_⟩
  have hm := lt_length_of_fromBottom hfr
  rw [fromBottom_drop (by omega)] at hlabel
  obtain ⟨g, hg⟩ := fromBottom_lt (s := y.2.ctrlStack) (n := m) (by omega)
  exact (h.each m g label hg hlabel).backward hex hx (hpath m hm) hfr hg

/-- A way inside frame `n` is a way inside the frames around it. -/
theorem above_mono {m : ℕ} (h : ReflTransGen (Above mod f n) x y) (hm : m ≤ n) : ReflTransGen (Above mod f m) x y :=
  Relation.ReflTransGen.mono (fun _ _ hs => ⟨hm.trans_lt hs.1, hs.2⟩) _ _ h

theorem Exit.around {e imm m : ℕ} {ce ce' : Ctx} {cf : CtrlFrame} {rest : List CtrlFrame}
    (h : Exit mod f n x e imm ce ce' cf rest) (hm : m < ce'.ctrlStack.length) :
    ReflTransGen (Above mod f m) x (imm, ce') := by
  rw [h.rest_eq, h.depth] at hm
  have htop : ce.ctrlStack.length = n + 1 := by
    rw [h.top, List.length_cons, h.depth]
  have hopen : m < ce.ctrlStack.length := by omega
  exact (above_mono h.path hm.le).tail ⟨hopen, h.step⟩

/-- The labels behind the `end` of a frame. -/
theorem Labelled.exit (hex : Exits mod f) {labels : List BranchLabel} (h : Labelled mod f x labels)
    (hx : Reach mod f x) {e imm : ℕ} {ce ce' : Ctx} {cf : CtrlFrame} {rest : List CtrlFrame}
    (hn : n < x.2.ctrlStack.length) (hexit : Exit mod f n x e imm ce ce' cf rest) :
    Labelled mod f (imm, ce') (labels.drop (x.2.ctrlStack.length - n)) := by
  have hlen : ce'.ctrlStack.length = n := by
    rw [hexit.rest_eq, hexit.depth]
  have hfwd := h.forward hex hx (y := (imm, ce')) (by simp only; omega) (fun m hm => hexit.around hm)
  simp only [hlen] at hfwd
  exact hfwd

/-- The labels behind an instruction that opens no block. -/
theorem Labelled.step (hex : Exits mod f) {labels : List BranchLabel} {p imm q : ℕ} {i : Instr} {c c' : Ctx}
    (h : Labelled mod f (p, c) labels) (hr : Reach mod f (p, c)) (hf : fetch mod f.code p = .ok (i, imm, q))
    (hcb : onInstr mod i ⟨f.code, imm⟩ c = .ok c') (hi : i.depth c.ctrlStack.length = c.ctrlStack.length) :
    Labelled mod f (q, c') labels := by
  have hlen := onInstr_length hcb
  rw [hi] at hlen
  have hfwd := h.forward hex hr (y := (q, c')) (by simp only; omega)
    (fun m hm => .single ⟨by simp only at hm ⊢; omega, step_iff.mpr ⟨i, imm, hf, hcb⟩⟩)
  simp only [hlen, Nat.sub_self, List.drop_zero] at hfwd
  exact hfwd

/-- The labels where a branch arrives that does not leave the function. -/
theorem Labelled.branch (hex : Exits mod f) {labels : List BranchLabel} {label : BranchLabel} {fr : CtrlFrame}
    {target : ℕ} {ct : Ctx} (h : Labelled mod f x labels) (hx : Reach mod f x)
    (hfr : fromBottom x.2.ctrlStack n = some fr) (hlabel : fromBottom labels n = some label)
    (hbt : BranchTarget mod f n x fr target ct) (hfunc : fr.type ≠ .func) :
    Labelled mod f (target, ct) (labels.drop (if label.stays then labels.length - 1 - n else labels.length - n)) := by
  have hn := lt_length_of_fromBottom hfr
  have hstays := (h.each n fr label hfr hlabel).stays
  rw [h.length]
  cases hbt with
  | func ht => exact absurd ht hfunc
  | @loop _ fr0 s ht hr hc hlen hk hu hv hpath =>
    rw [if_pos (hstays.mpr (.inl ht))]
    have hct : ct.ctrlStack.length = n + 1 := by
      rw [hc, List.length_cons, hlen]
    have hback := h.backward hex hr (by simp only; omega) (fun m hm => above_mono hpath (by simp only at hm; omega))
    simp only [hct] at hback
    rw [Nat.sub_sub, Nat.add_comm 1 n]
    exact hback
  | exit ht ht' hk hexit =>
    rw [if_neg]
    · exact h.exit hex hx hn hexit
    · intro hs
      rcases hstays.mp hs with hl | hf
      · exact ht hl
      · exact ht' hf

section Block

variable {o : WasmOpcode} {ty : FuncType} {p imm q e imm' : ℕ} {c c' ce ce' : Ctx} {cf : CtrlFrame}
  {rest : List CtrlFrame}

/-- The frame of a block, its opcode at `p`. -/
theorem onBlock_frameOf (hshort : f.code.length < 2 ^ 31) (hf : fetch mod f.code p = .ok (.block o ty, imm, q))
    (hcb : onInstr mod (.block o ty) ⟨f.code, imm⟩ c = .ok c') :
    ∃ fr, c'.ctrlStack = fr :: c.ctrlStack ∧ (fr.type = .loop ↔ o = .loop) ∧ fr.type ≠ .func ∧
      fr.startTypes.length = ty.paramCount ∧ fr.endTypes.length = ty.resultCount ∧ (o = .loop → fr.pc = q) := by
  obtain ⟨himm, hq, ho, -⟩ := fetch_block hf
  obtain ⟨ps, rs, k, ts, hps, hrs, -, -, hc'⟩ := onBlock_ok hcb
  have hspan := fetch_span hf
  refine ⟨blockFrame o imm ty ps rs (c.valStack.length - k) c.jt.length, ?_, blocktypeOf_loop ho, ?_,
    parseTypes_length hps, parseTypes_length hrs, fun hl => ?_⟩
  · rw [hc', pushVals_ctrlStack]
  · simp only [blockFrame, newFrame, blocktypeOf]
    split_ifs <;> decide
  · simp only [blockFrame, if_pos hl]
    rw [u32_eq (n := imm) (by omega), u32_eq (by omega)]
    omega

variable (hshort : f.code.length < 2 ^ 31) (hf : fetch mod f.code p = .ok (.block o ty, imm, q))
  (hcb : onInstr mod (.block o ty) ⟨f.code, imm⟩ c = .ok c')
  (hexit : Exit mod f c.ctrlStack.length (q, c') e imm' ce ce' cf rest)
include hshort hf hcb hexit

/-- The label of a block is that of its frame. -/
theorem labelOf_block {fr : CtrlFrame} (hfr : fr ∈ c'.ctrlStack.head?) :
    LabelOf mod f (q, c') c.ctrlStack.length fr (blockLabel o ty fr.height q imm') := by
  obtain ⟨g, hcs, hloop, hfunc, hstart, hend, hpc⟩ := onBlock_frameOf hshort hf hcb
  rw [hcs] at hfr
  obtain rfl : g = fr := Option.some.inj hfr
  have hlen : c'.ctrlStack.length = c.ctrlStack.length + 1 := by rw [hcs, List.length_cons]
  constructor
  · simp only [blockLabel, CtrlFrame.labelTypes, hloop]
    split_ifs
    · exact hstart.symm
    · exact hend.symm
  · exact hend.symm
  · rfl
  · simp only [blockLabel, beq_iff_eq, hfunc, or_false]
    exact hloop.symm
  · intro ht
    simp only [blockLabel, if_pos (hloop.mp ht)]
    exact (hpc (hloop.mp ht)).symm
  · exact fun ht => absurd ht hfunc
  · intro e1 imm1 ce1 ce1' cf1 rest1 hl _ hexit1
    have heq := Option.some.inj ((hexit.blockEnd hlen).symm.trans (hexit1.blockEnd hlen))
    simp only [blockLabel, if_neg fun hl' => hl (hloop.mpr hl')]
    exact congrArg Located.next heq

/-- The labels in a block that has been entered. -/
theorem Labelled.block (hex : Exits mod f) {labels : List BranchLabel} (h : Labelled mod f (p, c) labels)
    (hr : Reach mod f (p, c)) {height : ℕ} (hheight : ∀ fr ∈ c'.ctrlStack.head?, fr.height = height) :
    Labelled mod f (q, c') (blockLabel o ty height q imm' :: labels) := by
  obtain ⟨g, hcs, -⟩ := onBlock_frameOf hshort hf hcb
  have hlabels : labels.length = c.ctrlStack.length := h.length
  refine ⟨?_, fun m fr label hfr hlabel => ?_⟩
  · simp only [List.length_cons, hlabels, hcs]
  have hfr' := hfr
  simp only [hcs] at hfr
  rw [fromBottom_cons] at hfr
  rw [fromBottom_cons, hlabels] at hlabel
  by_cases hm : m = c.ctrlStack.length
  · rw [if_pos hm] at hfr hlabel
    have htop : fr ∈ c'.ctrlStack.head? := by
      rw [hcs]
      exact hfr
    rw [hm, ← Option.some.inj hlabel, ← hheight fr htop]
    exact labelOf_block hshort hf hcb hexit htop
  · rw [if_neg hm] at hfr hlabel
    have hpath : ReflTransGen (Above mod f m) (p, c) (q, c') :=
      .single ⟨lt_length_of_fromBottom hfr, step_iff.mpr ⟨_, imm, hf, hcb⟩⟩
    exact (h.each m fr label hfr hlabel).forward hex hr hpath hfr hfr'

end Block

end Validator

end Silverfir
