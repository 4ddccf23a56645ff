import Silverfir.FrameLabels
import Silverfir.StackBounds
import Silverfir.Lib.Bisim

/-! The interpreter without labels does what the machine with labels does: the same instructions on the same operands,
with the same results, along every run. -/
namespace Silverfir

open InPlaceDt Validator ListStack
open Relation (ReflTransGen)

variable {V : Type} {mod : Module} {f f' : Func} {cE : Ctx}

/-! ### Reading the labels of a table -/

theorem readLabels_of_checked {frames n : ℕ} {pc pc' : Stream} {ls : List ℕ}
    (h : brTableLabels frames n pc = .ok (ls, pc')) : readLabels n pc = .ok ls := by
  induction n generalizing pc ls pc' with
  | zero =>
    cases h
    rfl
  | succ n ih =>
    unfold brTableLabels at h
    obtain ⟨⟨l, pc1⟩, hl, hguard⟩ := bind_eq_ok.mp h
    obtain ⟨⟨ls', pc2⟩, h2, hcons⟩ := bind_eq_ok.mp (guard_eq_ok.mp hguard).2
    cases hcons
    simp only [readLabels, hl, ok_bind, ih h2]

/-- The label that the interpreter reads from the byte it computes is the one in the list. -/
theorem tableLabels_eq (hj : JumpSafe mod f) {p imm q n p1 v l : ℕ} {c c' : Ctx} (hr : Reach mod f (p, c))
    (hf : fetch mod f.code p = .ok (.brTable, imm, q)) (hcb : onBrTable ⟨f.code, imm⟩ c = .ok c')
    (hn : Stream.readVu32 ⟨f.code, imm⟩ = .ok (n, ⟨f.code, p1⟩))
    (hl : (f.code[p1 + tableIndex f.code imm v]?).map UInt8.toNat = some l) :
    ∃ ls, tableLabels f.code imm = .ok ls ∧ ls[min v (ls.length - 1)]? = some l := by
  obtain ⟨t, k0, n', pc1, labels, pc2, fr, c2, c3, k, ts, -, -, hn', hlabels, -⟩ := onBrTable_ok hcb
  obtain ⟨rfl, rfl⟩ : n = n' ∧ ⟨f.code, p1⟩ = pc1 := by
    rw [hn] at hn'
    cases hn'
    exact ⟨rfl, rfl⟩
  obtain ⟨-, n', p1', hn', hq⟩ := fetch_brTable hf
  rw [hn] at hn'
  cases hn'
  have hcount := brTable_count hcb hn
  have hbytes := (brTableLabels_one_byte hlabels (safe_label_lt hj hr hf hn hq)).2
  have hlen : labels.length = n + 1 := (brTableLabels_ok hlabels).1.trans hcount
  refine ⟨labels, ?_, ?_⟩
  · rw [hcount] at hlabels
    simp only [tableLabels, hn, ok_bind]
    exact readLabels_of_checked hlabels
  · have hidx : tableIndex f.code imm v = min v (labels.length - 1) := by
      simp only [tableIndex, hn, hlen, Nat.add_sub_cancel]
      split_ifs <;> omega
    rw [← hidx]
    have hle : tableIndex f.code imm v < labels.length := by
      have := tableIndex_le v hn
      omega
    have hget := List.getElem?_eq_getElem hle
    rw [hbytes _ _ hget] at hl
    rw [hget]
    exact hl

/-! ### States in pairs -/

/-- The labels are those of the frames at the offset. At the last `end` only that of the function is left. -/
def LabelsAt (mod : Module) (f : Func) (pc : ℕ) (labels : List BranchLabel) : Prop :=
  (∃ c, Reach mod f (pc, c) ∧ Labelled mod f (pc, c) labels) ∨
    (AtEnd mod f pc ∧ ∃ label, labels = [label] ∧ label.results = f.fnType.resultCount ∧ label.height = 0)

/-- The interpreter is in step with validation, and the machine is at the same offset with the same operands. -/
structure Paired (mod : Module) (f : Func) (jt : List JumpTable) (a : Act V) (s : LabelState V) : Prop where
  lands : Lands AnySlot AnyType mod f jt a
  pc : a.regs.pc = s.pc
  stack : a.stack = s.stack
  labels : LabelsAt mod f s.pc s.labels

/-- Both go on alike. -/
inductive SameOutcome (mod : Module) (f : Func) : Outcome V → LabelOutcome V → Prop
  | plain {i labels stack} {r : Regs} {pc : ℕ} (hpc : r.pc = (pc : ℕ)) (hlabels : LabelsAt mod f pc labels) :
      SameOutcome mod f (.plain i ⟨r, stack⟩) (.plain i ⟨pc, labels, stack⟩)
  | next {labels stack} {r : Regs} {pc : ℕ} (hpc : r.pc = (pc : ℕ)) (hlabels : LabelsAt mod f pc labels) :
      SameOutcome mod f (.next ⟨r, stack⟩) (.next ⟨pc, labels, stack⟩)
  | finish {stack results} (h : stack.take f.fnType.resultCount = results) :
      SameOutcome mod f (.finish stack) (.finish results)
  | trap : SameOutcome mod f .trap .trap

/-- The machine at a decoded offset. -/
theorem labelStep_of_fetch {cond : V → ℕ} {p imm q : ℕ} {i : Instr} {labels : List BranchLabel} {stack : List V}
    (hf : fetch mod f.code p = .ok (i, imm, q)) {operand : ℕ} {rest : List V}
    (hpop : popOperand cond i.popsOperand stack = .ok (operand, rest)) :
    labelStep mod f cond ⟨p, labels, stack⟩ = labelInstr mod f.code i imm q operand labels rest := by
  simp only [labelStep, hf, hpop]

theorem leaveBlock_cons {labels : List BranchLabel} {label : BranchLabel} {stack : List V} {next : BranchLabel → ℕ}
    (hlen : stack.length = label.height + label.results) (hne : labels ≠ []) :
    leaveBlock (label :: labels) stack next = some (.next ⟨next label, labels, stack⟩) := by
  simp only [leaveBlock, hlen, ne_eq, not_true_eq_false, if_false, if_neg hne]

/-- In reachable code a frame is closed with exactly its results on top. -/
theorem closing_height {c : Ctx} {cf : CtrlFrame} {k : ℕ} {ts : List TypeId} (hw : Wf c) (htop : cf ∈ c.ctrlStack.head?)
    (hlive : ∀ fr ∈ c.ctrlStack, fr.unreachable = false) (hm : List.Forall₂ Validator.Matches ts cf.endTypes.reverse)
    (hp : Popped c k ts) (hno : NoLeftover c cf) : c.valStack.length = cf.height + cf.endTypes.length := by
  have hexact := (exact_iff hw htop hm hp).mpr hno
  have hlen : ts.length = cf.endTypes.length := by simpa using hm.length_eq
  obtain ⟨hk, -, hle⟩ := hp.of_live hlive
  rw [List.length_drop] at hexact
  omega

section Step

variable {cond : V → ℕ} {a : Act V} {p imm q : ℕ} {c c' : Ctx} {labels : List BranchLabel} {G : TypeId → Prop}
  {typed : V → TypeId → Prop}

/-- The operands that a block starts with. -/
theorem block_operands {o : WasmOpcode} {ty : FuncType} {stack : List V} (hshort : f.code.length < 2 ^ 31)
    (hr : Reach mod f (q, c')) (hf : fetch mod f.code p = .ok (.block o ty, imm, q))
    (hcb : onInstr mod (.block o ty) ⟨f.code, imm⟩ c = .ok c') (hops : OperandsAt typed G c' stack) :
    ∀ fr ∈ c'.ctrlStack.head?, stack.length = ty.paramCount + fr.height := by
  intro fr hfr
  obtain ⟨g, hcs, -, -, hstart, -⟩ := onBlock_frameOf hshort hf hcb
  obtain ⟨g', hcs', -, -, hval⟩ := onBlock_frame hcb
  rw [hcs] at hfr hcs'
  obtain rfl : g = fr := Option.some.inj hfr
  obtain rfl : g = g' := (List.cons.inj hcs').1
  have htop := hr.inv.wf.top g (by rw [hcs]; rfl)
  have hlen := congrArg List.length hval
  rw [List.length_append, List.length_reverse, length_below htop] at hlen
  rw [hops.typed.length_eq, hlen, hstart]

/-- A block that is entered at its first instruction. -/
theorem enterBlock_body {o : WasmOpcode} {ty : FuncType} {e imm' operand : ℕ} {stack : List V} {ce ce' : Ctx}
    {cf : CtrlFrame} {rest : List CtrlFrame} (hcs : c'.ctrlStack.length = c.ctrlStack.length + 1)
    (hexit : Exit mod f c.ctrlStack.length (q, c') e imm' ce ce' cf rest) (hle : ty.paramCount ≤ stack.length)
    (ho : ¬ (o = .if_ ∧ operand = 0)) :
    enterBlock mod f.code o ty q operand labels stack =
      some (.next ⟨q, blockLabel o ty (stack.length - ty.paramCount) q imm' :: labels, stack⟩) := by
  simp only [enterBlock, hexit.blockEnd hcs, if_neg (Nat.not_lt.mpr hle), if_neg ho]

theorem Validator.ElseAt.around {n e imm m : ℕ} {x : ℕ × Ctx} {ce ce' : Ctx} {cf : CtrlFrame} {rest : List CtrlFrame}
    (h : ElseAt mod f n x e imm ce ce' cf rest) (hm : m ≤ n) : ReflTransGen (Above mod f m) x (imm, ce') := by
  have htop : ce.ctrlStack.length = n + 1 := by
    rw [h.top, List.length_cons, h.depth]
  have hopen : m < ce.ctrlStack.length := by omega
  exact (above_mono h.path hm).tail ⟨hopen, h.step⟩

/-- A false `if`: the machine goes where the jump table leads. -/
theorem enterBlock_false {ty : FuncType} {target : ℕ} {stack : List V} {ct : Ctx} (h : HeightSafe mod f)
    (hs : Sound mod f cE) (hlabels : Labelled mod f (p, c) labels) (hp : Reach mod f (p, c)) (hr : Reach mod f (q, c'))
    (hf : fetch mod f.code p = .ok (.block .if_ ty, imm, q))
    (hcb : onInstr mod (.block .if_ ty) ⟨f.code, imm⟩ c = .ok c')
    (hops : OperandsAt typed G c' stack) (hif : IfTarget mod f c.ctrlStack.length (q, c') target ct) :
    ∃ labels', enterBlock mod f.code .if_ ty q 0 labels stack = some (.next ⟨target, labels', stack⟩) ∧
      LabelsAt mod f target labels' := by
  have hshort := h.jumps.short
  obtain ⟨g, hcs, -, -, hstart, hend, -⟩ := onBlock_frameOf hshort hf hcb
  have hlen : c'.ctrlStack.length = c.ctrlStack.length + 1 := by rw [hcs, List.length_cons]
  have hfr : fromBottom c'.ctrlStack c.ctrlStack.length = some g := by rw [hcs, fromBottom_cons_length]
  obtain ⟨e0, imm0, ce0, ha⟩ := hs.accepts
  obtain ⟨e, imm', ce, ce', cf, rest, hexit⟩ := ha.exit hs.bracketed hr (n := c.ctrlStack.length)
    (by simp only [hlen]; omega)
  have hheight := block_operands hshort hr hf hcb hops
  have hg := hheight g (by rw [hcs]; rfl)
  have hle : ¬ stack.length < ty.paramCount := by omega
  have hinside : Labelled mod f (q, c') (blockLabel .if_ ty (stack.length - ty.paramCount) q imm' :: labels) := by
    apply hlabels.block hshort hf hcb hexit h.exits hp
    intro fr hfr
    have := hheight fr hfr
    omega
  cases hif with
  | @else_ e1 _ ce1 _ cf1 rest1 ht hel =>
    obtain ⟨hcf, -⟩ := hel.kept hr hfr
    have htop : ce1.ctrlStack.length = c.ctrlStack.length + 1 := by
      rw [hel.top, List.length_cons, hel.depth]
    have harm := armEnd_eq hr hlen hel.path htop hcf ht (.inl rfl) hel.fetch
    have hbehind : ct.ctrlStack.length = c.ctrlStack.length + 1 := by
      have hcb1 : onInstr mod .else_ ⟨f.code, target⟩ ce1 = .ok ct := hel.onElse
      rw [onInstr_length hcb1, ← htop]
      rfl
    refine ⟨blockLabel .if_ ty (stack.length - ty.paramCount) q imm' :: labels, ?_,
      .inl ⟨ct, hr.trans (Run.of_within (hel.around le_rfl)), ?_⟩⟩
    · simp only [enterBlock, hexit.blockEnd hlen, if_neg hle, and_self, if_true, harm]
    · have hfwd := hinside.forward h.exits hr (y := (target, ct)) (by simp only; omega)
        (fun m hm => hel.around (by simp only at hm; omega))
      simp only [hlen, hbehind, Nat.sub_self, List.drop_zero] at hfwd
      exact hfwd
  | @exit e1 _ ce1 _ cf1 rest1 ht hexit1 =>
    have htop : ce1.ctrlStack.length = c.ctrlStack.length + 1 := by
      rw [hexit1.top, List.length_cons, hexit1.depth]
    have harm := armEnd_eq hr hlen hexit1.path htop hexit1.frame ht (.inr rfl) hexit1.fetch
    have htypes := hexit1.types hr hfr
    -- without `else` the parameters are the results
    have hcount := h.ifs e1 ce1 cf1 ⟨hexit1.reach hr, ⟨_, _, hexit1.fetch⟩, head?_mem hexit1.top, ht⟩
    rw [htypes.1, htypes.2, hstart, hend] at hcount
    refine ⟨labels, ?_, .inl ⟨ct, hexit1.reach' hr, ?_⟩⟩
    · have hne : ¬ Instr.end_ = Instr.else_ := by decide
      simp only [enterBlock, hexit1.blockEnd hlen, if_neg hle, and_self, if_true, harm, if_neg hne, if_pos hcount]
    · have hout := hinside.exit h.exits hr (by simp only; omega) hexit1
      simp only [hlen, Nat.add_sub_cancel_left, List.drop_succ_cons, List.drop_zero] at hout
      exact hout

variable (h : HeightSafe mod f) (hs : Sound mod f cE) (hcode : f'.code = f.code) (hjt : f'.jt = linkJumpTable cE.jt)
  (hsync : Synced mod f (linkJumpTable cE.jt) p c a.regs) (hops : OperandsAt AnySlot AnyType c a.stack)
  (hlabels : Labelled mod f (p, c) labels)
include h hs hcode hjt hsync hops hlabels

theorem block_same {o : WasmOpcode} {ty : FuncType} (hf : fetch mod f.code p = .ok (.block o ty, imm, q))
    (hcb : onInstr mod (.block o ty) ⟨f.code, imm⟩ c = .ok c') :
    ∃ out lout, actStep f' cond a = .ok out ∧ labelStep mod f cond ⟨p, labels, a.stack⟩ = some lout ∧
      SameOutcome mod f out lout := by
  have hshort := h.jumps.short
  have hr := hsync.reach.tail (step_iff.mpr ⟨_, imm, hf, hcb⟩)
  have hlen := onInstr_length hcb
  obtain ⟨e0, imm0, ce0, ha⟩ := hs.accepts
  obtain ⟨e, imm', ce, ce', cf, rest, hexit⟩ := ha.exit hs.bracketed hr (n := c.ctrlStack.length)
    (by simp only [hlen, Instr.depth]; omega)
  have enters : ∀ {operand : ℕ} {stack : List V}, OperandsAt AnySlot AnyType c' stack → ¬ (o = .if_ ∧ operand = 0) →
      ∃ labels', enterBlock mod f.code o ty q operand labels stack = some (.next ⟨q, labels', stack⟩) ∧
        LabelsAt mod f q labels' := by
    intro operand stack hops' ho
    have hheight := block_operands hshort hr hf hcb hops'
    obtain ⟨g, hcs, -⟩ := onBlock_frameOf hshort hf hcb
    have hg := hheight g (by rw [hcs]; rfl)
    refine ⟨_, enterBlock_body hlen hexit (by omega) ho, .inl ⟨c', hr, ?_⟩⟩
    apply hlabels.block hshort hf hcb hexit h.exits hsync.reach
    intro fr hfr
    have := hheight fr hfr
    omega
  rw [hsync.actStep_eq cond hcode hjt hf]
  by_cases ho : o = .if_
  · subst ho
    obtain ⟨v, stack, hst, hops'⟩ := hops.if_ anySlot_typing hr hcb
    have hpop : popOperand cond (Instr.block .if_ ty).popsOperand a.stack = .ok (cond v, stack) := by
      rw [hst]
      rfl
    rw [labelStep_of_fetch hf hpop, hpop, ok_bind]
    by_cases hv : cond v = 0
    · obtain ⟨tbl, target, ct, hj, hif⟩ := hs.if_jump hr hf hcb
      rw [← hsync.slot hs hf hcb (by simp [slotsOf])] at hj
      obtain ⟨labels', hnext, hat⟩ := enterBlock_false h hs hlabels hsync.reach hr hf hcb hops' hif
      simp only [flowOf, if_pos, hv, ne_eq, not_true_eq_false, if_false]
      exact ⟨_, _, followStack_jump hj.slot hj.pc rfl, hnext, .next hj.arrives.offset hat⟩
    · obtain ⟨labels', hnext, hat⟩ := enters hops' (fun hz => hv hz.2)
      simp only [flowOf, if_pos, hv, ne_eq, not_false_eq_true]
      exact ⟨_, _, rfl, hnext, .next rfl hat⟩
  · have hpop : popOperand cond (Instr.block o ty).popsOperand a.stack = .ok (0, a.stack) := by
      rw [show (Instr.block o ty).popsOperand = false by simp [Instr.popsOperand, ho], popOperand_false]
    rw [labelStep_of_fetch hf hpop, hpop, ok_bind]
    obtain ⟨labels', hnext, hat⟩ := enters (hops.block anySlot_typing ho hr hcb) (fun hz => ho hz.1)
    simp only [flowOf, if_neg ho]
    exact ⟨_, _, rfl, hnext, .next rfl hat⟩

omit hs hcode hjt in
/-- The innermost label, that of the frame that is closed, has exactly its results above it. -/
theorem closing_label {i : Instr} {cf : CtrlFrame} {rest : List CtrlFrame} (hc : c.ctrlStack = cf :: rest) {k : ℕ}
    {ts : List TypeId} (hm : List.Forall₂ Validator.Matches ts cf.endTypes.reverse) (hp : Popped c k ts)
    (hf : fetch mod f.code p = .ok (i, imm, q)) (hi : i = .end_ ∨ i = .else_) :
    ∃ label labels', labels = label :: labels' ∧ labels'.length = rest.length ∧
      a.stack.length = label.height + label.results ∧ LabelOf mod f (p, c) rest.length cf label := by
  have htop : cf ∈ c.ctrlStack.head? := head?_mem hc
  have hno : NoLeftover c cf := h.exits p c cf ⟨hsync.reach, ⟨i, imm, q, hf, hi⟩, htop⟩
  have hheight := closing_height hsync.reach.inv.wf htop hops.live hm hp hno
  have hlen := hlabels.length
  simp only [hc, List.length_cons] at hlen
  obtain ⟨label, labels', rfl⟩ := List.exists_cons_of_length_eq_add_one hlen
  have hlen' : labels'.length = rest.length := by simpa using hlen
  have hof : LabelOf mod f (p, c) rest.length cf label := by
    apply hlabels.each
    · simp only [hc]
      exact fromBottom_cons_length _ _
    · rw [← hlen']
      exact fromBottom_cons_length _ _
  refine ⟨label, labels', rfl, hlen', ?_, hof⟩
  rw [hops.typed.length_eq, hheight, hof.height, hof.results]

theorem else_same (hf : fetch mod f.code p = .ok (.else_, imm, q))
    (hcb : onInstr mod .else_ ⟨f.code, imm⟩ c = .ok c') :
    ∃ out lout, actStep f' cond a = .ok out ∧ labelStep mod f cond ⟨p, labels, a.stack⟩ = some lout ∧
      SameOutcome mod f out lout := by
  have hr := hsync.reach.tail (step_iff.mpr ⟨_, imm, hf, hcb⟩)
  obtain ⟨tbl, target, ct, g, rest, hj, hcs, hgt, hbt⟩ := hs.else_jump hr hf hcb
  rw [← hsync.slot hs hf hcb Nat.one_pos] at hj
  obtain ⟨cf, rest0, k, ts, ps, rs, slot, hc, hct, hm, hp, -, -, -, hc'⟩ := onElse_ok hcb
  obtain rfl : rest = rest0 := by
    rw [hc', pushVals_ctrlStack] at hcs
    exact (List.cons.inj hcs).2.symm
  obtain ⟨label, labels', rfl, hlen, hresults, hof⟩ :=
    closing_label h hsync hops hlabels hc hm hp hf (.inr rfl)
  have hfr : fromBottom c'.ctrlStack rest.length = some g := by rw [hcs, fromBottom_cons_length]
  have hlabel : fromBottom (label :: labels') rest.length = some label := by rw [← hlen, fromBottom_cons_length]
  have hbehind : Labelled mod f (q, c') (label :: labels') := hlabels.step h.exits hsync.reach hf hcb rfl
  have htarget := (hbehind.each _ _ _ hfr hlabel).target hs.bracketed hr hfr hbt
  have hat := hbehind.branch h.exits hr hfr hlabel hbt (by rw [hgt]; decide)
  have hstays : label.stays = false := by
    have := (hof.stays).not.mpr (by simp [hct])
    simpa using this
  simp only [hstays, List.length_cons, hlen, Nat.add_sub_cancel_left, List.drop_succ_cons, List.drop_zero,
    Bool.false_eq_true, if_false] at hat
  have hne : labels' ≠ [] := by
    rintro rfl
    have hzero : rest.length = 0 := hlen.symm
    have hcf : fromBottom c.ctrlStack 0 = some cf := by rw [hc, ← hzero, fromBottom_cons_length]
    have hfunc := (hs.bracketed.func_iff hsync.reach hcf).mpr rfl
    rw [hct] at hfunc
    cases hfunc
  have hpop : popOperand cond Instr.else_.popsOperand a.stack = .ok (0, a.stack) := rfl
  rw [hsync.actStep_eq cond hcode hjt hf, labelStep_of_fetch hf hpop, hpop, ok_bind]
  refine ⟨_, _, followStack_jump hj.slot hj.pc rfl, leaveBlock_cons hresults hne, ?_⟩
  apply SameOutcome.next
  · rw [htarget]
    exact hj.arrives.offset
  · rw [htarget]
    exact .inl ⟨ct, hj.arrives.reach, hat⟩

theorem end_same (hf : fetch mod f.code p = .ok (.end_, imm, q))
    (hcb : onInstr mod .end_ ⟨f.code, imm⟩ c = .ok c') (hq : q ≠ f.code.length) :
    ∃ out lout, actStep f' cond a = .ok out ∧ labelStep mod f cond ⟨p, labels, a.stack⟩ = some lout ∧
      SameOutcome mod f out lout := by
  have hstep := step_iff.mpr ⟨_, imm, hf, hcb⟩
  have hr := hsync.reach.tail hstep
  obtain ⟨cf, rest, k, ts, hc, hm, hp, hc'⟩ := onEnd_ok hcb
  have hcs : c'.ctrlStack = rest := by rw [hc', pushVals_ctrlStack]
  obtain ⟨label, labels', rfl, hlen, hresults, -⟩ :=
    closing_label h hsync hops hlabels hc hm hp hf (.inl rfl)
  have hspan := fetch_span hf
  have hrest : rest ≠ [] := by
    rw [← hcs]
    exact hs.bracketed.inside q c' hr (by omega)
  have hne : labels' ≠ [] := by
    rintro rfl
    exact hrest (List.length_eq_zero_iff.mp hlen.symm)
  have hat := hlabels.forward h.exits hsync.reach (y := (q, c')) (by simp only [hcs, hc, List.length_cons]; omega)
    (fun m hm => .single ⟨by simp only [hcs, hc, List.length_cons] at hm ⊢; omega, hstep⟩)
  simp only [hcs, hc, List.length_cons, Nat.add_sub_cancel_left, List.drop_succ_cons, List.drop_zero] at hat
  have hpop : popOperand cond Instr.end_.popsOperand a.stack = .ok (0, a.stack) := rfl
  rw [hsync.actStep_eq cond hcode hjt hf, labelStep_of_fetch hf hpop, hpop, ok_bind]
  simp only [flowOf, if_neg hq]
  have hleave : leaveBlock (label :: labels') a.stack (fun _ => q) = some (.next ⟨q, labels', a.stack⟩) :=
    leaveBlock_cons hresults hne
  exact ⟨_, _, rfl, hleave, .next rfl (.inl ⟨c', hr, hat⟩)⟩

/-- A branch that is taken. -/
theorem branch_same {l : ℕ} {rest : List V} {i : Instr} (hpick : Picks cond mod f p a.stack l rest)
    (hf : fetch mod f.code p = .ok (i, imm, q)) (hcb : onInstr mod i ⟨f.code, imm⟩ c = .ok c')
    (hi : i.depth c.ctrlStack.length = c.ctrlStack.length) (hl : l < c.ctrlStack.length) :
    ∃ out lout, actStep f' cond a = .ok out ∧ branchTo l labels rest = some lout ∧ SameOutcome mod f out lout := by
  obtain ⟨fr, hfr⟩ : ∃ fr, c.ctrlStack[l]? = some fr := ⟨_, List.getElem?_eq_getElem hl⟩
  obtain ⟨a', target, ct, hstep, hlands, hb⟩ :=
    (h.trusted hs).picks_step cond hcode hjt hsync hops hpick hfr
  have hlen : labels.length = c.ctrlStack.length := hlabels.length
  obtain ⟨label, hget⟩ : ∃ label, labels[l]? = some label := ⟨_, List.getElem?_eq_getElem (by omega)⟩
  have hlabel := fromBottom_of_getElem? hget
  rw [hlen] at hlabel
  have hof := hlabels.each _ _ _ (fromBottom_of_getElem? hfr) hlabel
  obtain ⟨q', c1, fr', hs1, hfr', ht, hbt⟩ := hb.target
  obtain ⟨i', imm', hf', hcb'⟩ := step_iff.mp hs1
  rw [hf] at hf'
  cases hf'
  obtain rfl : c' = c1 := Except.ok.inj (hcb.symm.trans hcb')
  have hr := hsync.reach.tail hs1
  have hbehind := hlabels.step h.exits hsync.reach hf hcb hi
  have htarget := (hbehind.each _ _ _ hfr' hlabel).target hs.bracketed hr hfr' hbt
  have henough := hb.enough
  have hnext : branchTo l labels rest = some (.next ⟨label.cont, labels.drop (if label.stays then l else l + 1),
      rest.take label.arity ++ below label.height rest⟩) := by
    simp only [branchTo, hget, hof.arity, hof.height, if_neg (Nat.not_lt.mpr henough)]
  refine ⟨_, _, hstep, hnext, ?_⟩
  obtain ⟨regs, stack⟩ := a'
  obtain rfl : stack = _ := hb.stack
  rw [hof.arity, hof.height, htarget]
  apply SameOutcome.next hb.pc
  by_cases hfunc : fr.type = .func
  · -- the label of the function: only the last `end` is left
    have hn : c.ctrlStack.length - 1 - l = 0 :=
      (hs.bracketed.func_iff hsync.reach (fromBottom_of_getElem? hfr)).mp hfunc
    rw [hn] at hbt hfr' hlabel
    have hend := hbt.last hs.bracketed hr (ht.trans hfunc)
    obtain ⟨g, hg, -, hft, hzero⟩ := hsync.reach.bottom (fun p' c1 hr1 hlt =>
      hs.bracketed.inside p' c1 hr1 (by have := hsync.lt; simp only at hlt; omega))
      (List.ne_nil_of_length_pos (by simp only; omega))
    have hfr0 := fromBottom_of_getElem? hfr
    rw [hn] at hfr0
    obtain rfl := Option.some.inj (hg.symm.trans hfr0)
    refine .inr ⟨⟨target, _, rfl, hend⟩, label, ?_, ?_, ?_⟩
    · rw [if_pos (hof.stays.mpr (.inr hfunc))]
      have hl' : labels.drop l = labels[l] :: labels.drop (l + 1) := List.drop_eq_getElem_cons (by omega)
      rw [hl', List.drop_eq_nil_of_le (by omega)]
      rw [List.getElem?_eq_getElem (by omega)] at hget
      rw [Option.some.inj hget]
    · rw [hof.results, parseTypes_length (hsync.reach.inv.wf.types g (mem_of_fromBottom hg)).2, hft]
    · rw [hof.height, hzero]
  · have hat := hbehind.branch h.exits hr hfr' hlabel hbt (by rw [ht]; exact hfunc)
    have h1 : labels.length - 1 - (c.ctrlStack.length - 1 - l) = l := by omega
    have h2 : labels.length - (c.ctrlStack.length - 1 - l) = l + 1 := by omega
    rw [h1, h2] at hat
    exact .inl ⟨ct, hb.reach, hat⟩

theorem br_same {o : WasmOpcode} {l : ℕ} (hf : fetch mod f.code p = .ok (.brOrIf o l, imm, q))
    (hcb : onInstr mod (.brOrIf o l) ⟨f.code, imm⟩ c = .ok c') :
    ∃ out lout, actStep f' cond a = .ok out ∧ labelStep mod f cond ⟨p, labels, a.stack⟩ = some lout ∧
      SameOutcome mod f out lout := by
  obtain ⟨fr, k0, ts0, k, ts, c2, hfr, hm0, hp0, -⟩ := onBrOrIf_ok hcb
  have hl := (List.getElem?_eq_some_iff.mp hfr).1
  obtain ⟨-, -, hor, -⟩ := fetch_br hf
  rcases hor with rfl | rfl
  · have hpop : popOperand cond (Instr.brOrIf .br l).popsOperand a.stack = .ok (0, a.stack) := rfl
    rw [labelStep_of_fetch hf hpop]
    exact branch_same h hs hcode hjt hsync hops hlabels (.br hf) hf hcb rfl hl
  · obtain ⟨t, rfl⟩ : ∃ t, ts0 = [t] := by
      rw [brOperands, if_pos rfl] at hm0
      exact List.length_eq_one_iff.mp hm0.length_eq
    obtain ⟨v, rest, hst, -, -⟩ := hops.pop hp0
    have hpop : popOperand cond (Instr.brOrIf .brIf l).popsOperand a.stack = .ok (cond v, rest) := by
      rw [hst]
      rfl
    rw [labelStep_of_fetch hf hpop]
    by_cases hv : cond v = 0
    · rw [hsync.actStep_eq cond hcode hjt hf, hpop, ok_bind]
      simp only [flowOf, labelInstr, hv, and_self, if_true]
      have hr := hsync.reach.tail (step_iff.mpr ⟨_, imm, hf, hcb⟩)
      exact ⟨_, _, rfl, rfl, .next rfl (.inl ⟨c', hr, hlabels.step h.exits hsync.reach hf hcb rfl⟩)⟩
    · simp only [labelInstr, hv, and_false, if_false]
      exact branch_same h hs hcode hjt hsync hops hlabels (.brIf hf hst hv) hf hcb rfl hl

theorem brTable_same (hf : fetch mod f.code p = .ok (.brTable, imm, q))
    (hcb : onInstr mod .brTable ⟨f.code, imm⟩ c = .ok c') :
    ∃ out lout, actStep f' cond a = .ok out ∧ labelStep mod f cond ⟨p, labels, a.stack⟩ = some lout ∧
      SameOutcome mod f out lout := by
  have hr := hsync.reach.tail (step_iff.mpr ⟨_, imm, hf, hcb⟩)
  obtain ⟨-, n, pc1, hn, -⟩ := fetch_brTable hf
  obtain ⟨t0, k0, -, -, -, -, -, hp0, -⟩ := onBrTable_slots hsync.reach.inv hcb
  obtain ⟨v, rest, hst, -, -⟩ := hops.pop hp0
  obtain ⟨t, -, l, fr, -, -, -, -, -, -, -, hfr, hlabel, -⟩ :=
    hs.brTable_jump hsync.reach hr hf hcb hn (tableIndex_le (cond v) hn)
  obtain ⟨ls, hls, hget⟩ := tableLabels_eq h.jumps hsync.reach hf hcb hn hlabel
  have hpop : popOperand cond Instr.brTable.popsOperand a.stack = .ok (cond v, rest) := by
    rw [hst]
    rfl
  rw [labelStep_of_fetch hf hpop]
  simp only [labelInstr, hls, hget, Option.bind_some]
  exact branch_same h hs hcode hjt hsync hops hlabels (.brTable hf hn hst hlabel) hf hcb rfl
    (List.getElem?_eq_some_iff.mp hfr).1

omit h in
theorem return_same (hf : fetch mod f.code p = .ok (.return_, imm, q))
    (hcb : onInstr mod .return_ ⟨f.code, imm⟩ c = .ok c') :
    ∃ out lout, actStep f' cond a = .ok out ∧ labelStep mod f cond ⟨p, labels, a.stack⟩ = some lout ∧
      SameOutcome mod f out lout := by
  obtain ⟨fr, k, ts, c2, hlast, hm, hp, -⟩ := onReturn_ok hcb
  obtain ⟨g, hg, hgt, hres⟩ := hs.bottom hsync.reach hsync.lt
  obtain rfl : fr = g := by
    have hb : fromBottom c.ctrlStack 0 = some fr := by
      rw [fromBottom, ← List.head?_eq_getElem?, List.head?_reverse]
      exact hlast
    exact Option.some.inj (hb.symm.trans hg)
  have hlabel : fr.labelTypes = fr.endTypes := by
    rw [CtrlFrame.labelTypes, if_neg (by rw [hgt]; decide)]
  rw [hlabel] at hm
  obtain ⟨hle, -⟩ := hops.finish anySlot_typing hsync.reach (mem_of_fromBottom hg) rfl hp hm
  have hlen : labels.length = c.ctrlStack.length := hlabels.length
  obtain ⟨label, hbot⟩ := fromBottom_lt (s := labels) (n := 0) (by
    have := lt_length_of_fromBottom hg
    omega)
  have hof := hlabels.each 0 fr label hg hbot
  have hget : labels.getLast? = some label := by
    rw [fromBottom, ← List.head?_eq_getElem?, List.head?_reverse] at hbot
    exact hbot
  have harity : label.arity = f.fnType.resultCount := by
    rw [hof.arity, hlabel]
    exact parseTypes_length hres
  have henough : ¬ a.stack.length < label.arity := by
    rw [hof.arity, hlabel]
    exact Nat.not_lt.mpr hle
  have hpop : popOperand cond Instr.return_.popsOperand a.stack = .ok (0, a.stack) := rfl
  rw [hsync.actStep_eq cond hcode hjt hf, labelStep_of_fetch hf hpop, hpop, ok_bind]
  simp only [labelInstr, returnFrom, hget, if_neg henough]
  exact ⟨_, _, rfl, rfl, .finish (by rw [harity])⟩

omit hs hops in
theorem plain_same {i : Instr} (hf : fetch mod f.code p = .ok (i, imm, q))
    (hcb : onInstr mod i ⟨f.code, imm⟩ c = .ok c') (hi : i.isControl = false) :
    ∃ out lout, actStep f' cond a = .ok out ∧ labelStep mod f cond ⟨p, labels, a.stack⟩ = some lout ∧
      SameOutcome mod f out lout := by
  have hpops : i.popsOperand = false := by
    cases i <;> first | rfl | cases hi
  have hdepth : i.depth c.ctrlStack.length = c.ctrlStack.length := by
    cases i <;> first | rfl | cases hi
  have hflow : flowOf f.code i imm q a.regs.nextJtIdx 0 = .plain i.erase q := by
    cases i <;> first | rfl | cases hi
  have hinstr : labelInstr mod f.code i imm q 0 labels a.stack = some (.plain i.erase ⟨q, labels, a.stack⟩) := by
    cases i <;> first | rfl | cases hi
  have hr := hsync.reach.tail (step_iff.mpr ⟨_, imm, hf, hcb⟩)
  have hpop : popOperand cond i.popsOperand a.stack = .ok (0, a.stack) := by
    rw [hpops]
    rfl
  rw [hsync.actStep_eq cond hcode hjt hf, labelStep_of_fetch hf hpop, hpop, ok_bind, hinstr]
  simp only [hflow]
  exact ⟨_, _, rfl, rfl, .plain rfl (.inl ⟨c', hr, hlabels.step h.exits hsync.reach hf hcb hdepth⟩)⟩

end Step

section Pair

variable (cond : V → ℕ) {a a' : Act V} {s s' : LabelState V}

/-- At the last `end` the labels are that of the function alone. -/
theorem LabelsAt.at_end (hs : Sound mod f cE) {pc : ℕ} {labels : List BranchLabel} (hl : LabelsAt mod f pc labels)
    (hend : AtEnd mod f pc) :
    ∃ label, labels = [label] ∧ label.results = f.fnType.resultCount ∧ label.height = 0 := by
  rcases hl with ⟨c, hr, hlabels⟩ | ⟨-, h⟩
  · obtain ⟨e, imm, hpc, hf⟩ := hend
    obtain rfl : pc = e := by exact_mod_cast hpc
    have hspan := fetch_span hf
    obtain ⟨i, imm', q, c', hf', hcb, hr'⟩ := hs.exists_step hr (by omega)
    rw [hf] at hf'
    cases hf'
    have hclosed := hs.bracketed.closed c' hr'
    have hlen := onInstr_length hcb
    rw [hclosed] at hlen
    have hpos := List.length_pos_iff.mpr (hs.bracketed.inside pc c hr (by omega))
    have hone : labels.length = 1 := by
      have := hlabels.length
      simp only [Instr.depth, List.length_nil] at this hlen
      omega
    obtain ⟨label, rfl⟩ := List.length_eq_one_iff.mp hone
    obtain ⟨fr, hfr, htype, hzero⟩ := hs.bottom hr (by omega)
    have hof := hlabels.each 0 fr label hfr rfl
    refine ⟨label, rfl, ?_, ?_⟩
    · rw [hof.results]
      exact parseTypes_length hzero
    · obtain ⟨g, hg, -, -, hheight⟩ := hr.bottom (fun p' c1 hr1 hlt =>
        hs.bracketed.inside p' c1 hr1 (by simp only at hlt; omega))
        (List.ne_nil_of_length_pos hpos)
      obtain rfl := Option.some.inj (hg.symm.trans hfr)
      rw [hof.height, hheight]
  · exact h

variable (h : HeightSafe mod f) (hs : Sound mod f cE) (hcode : f'.code = f.code) (hjt : f'.jt = linkJumpTable cE.jt)
include h hs hcode hjt

omit hjt in
/-- At the last `end` both are left with the operands as results. -/
theorem Paired.last (hpair : Paired mod f (linkJumpTable cE.jt) a s) (hend : AtEnd mod f a.regs.pc) :
    ∃ out lout, actStep f' cond a = .ok out ∧ labelStep mod f cond s = some lout ∧ SameOutcome mod f out lout := by
  have hheight : a.stack.length = f.fnType.resultCount := by
    rcases h.heightAt hs hpair.lands with ⟨-, hlen⟩ | ⟨hno, -⟩
    · exact hlen
    · exact absurd hend hno
  have hends : AtEnd mod f s.pc := by
    rw [← hpair.pc]
    exact hend
  obtain ⟨label, hlabels, hresults, hzero⟩ := hpair.labels.at_end hs hends
  obtain ⟨e, imm, hpc, hf⟩ := hend
  have hpcs : s.pc = e := by exact_mod_cast hpair.pc.symm.trans hpc
  have hf' : fetch mod f'.code e = .ok (.end_, imm, f'.code.length) := by rwa [hcode]
  have hact : actStep f' cond a = .ok (.finish a.stack) := by
    have hpop : popOperand cond Instr.end_.popsOperand a.stack = .ok (0, a.stack) := rfl
    rw [actStep_of_fetch cond hf' hpc, hpop, ok_bind]
    simp only [flowOf, if_true]
    rfl
  have hlabel : labelStep mod f cond s = some (.finish a.stack) := by
    obtain ⟨pc, labels, stack⟩ := s
    obtain rfl : a.stack = stack := hpair.stack
    simp only at hpcs hlabels
    subst hpcs hlabels
    rw [labelStep_of_fetch hf rfl]
    simp only [labelInstr, leaveBlock, hheight, hzero, hresults, Nat.zero_add, ne_eq, not_true_eq_false, if_false,
      if_true]
  refine ⟨_, _, hact, hlabel, .finish ?_⟩
  rw [← hheight, List.take_length]

/-- A pair goes on alike. -/
theorem Paired.goes_on (hpair : Paired mod f (linkJumpTable cE.jt) a s) :
    ∃ out lout, actStep f' cond a = .ok out ∧ labelStep mod f cond s = some lout ∧ SameOutcome mod f out lout := by
  by_cases hend : AtEnd mod f a.regs.pc
  · exact hpair.last cond h hs hcode hend
  · obtain ⟨hlands, hpc, hstack, hat⟩ := hpair
    obtain ⟨p, c, hsync, hops⟩ := hlands.resolve_right fun hlast => hend hlast.pc
    have hpcs : s.pc = p := by exact_mod_cast hpc.symm.trans hsync.pc
    obtain ⟨pc, labels, stack⟩ := s
    simp only at hpcs hstack hat
    subst hpcs hstack
    obtain ⟨c1, hr, hlabels⟩ := hat.resolve_right fun hlast => hend (by rw [hpc]; exact hlast.1)
    obtain rfl := hsync.reach.unique hr
    obtain ⟨i, imm, q, c', hf, hcb, hr'⟩ := hs.exists_step hsync.reach hsync.lt
    by_cases hi : i.isControl = false
    · exact plain_same h hcode hjt hsync hlabels hf hcb hi
    · cases i with
      | unreachable =>
        have hpop : popOperand cond Instr.unreachable.popsOperand a.stack = .ok (0, a.stack) := rfl
        rw [hsync.actStep_eq cond hcode hjt hf, labelStep_of_fetch hf hpop, hpop, ok_bind]
        exact ⟨_, _, rfl, rfl, .trap⟩
      | block o ty => exact block_same h hs hcode hjt hsync hops hlabels hf hcb
      | else_ => exact else_same h hs hcode hjt hsync hops hlabels hf hcb
      | end_ =>
        refine end_same h hs hcode hjt hsync hops hlabels hf hcb fun hq => hend ?_
        rw [hq] at hf
        exact ⟨_, imm, hsync.pc, hf⟩
      | brOrIf o l => exact br_same h hs hcode hjt hsync hops hlabels hf hcb
      | brTable => exact brTable_same h hs hcode hjt hsync hops hlabels hf hcb
      | return_ => exact return_same hs hcode hjt hsync hops hlabels hf hcb
      | _ => exact absurd rfl hi

end Pair

/-! ### Runs in pairs -/

section Runs

variable {cond : V → ℕ} {rel : PlainRel V}

/-- The state before the first instruction. -/
theorem Paired.start (h : HeightSafe mod f) (hs : Sound mod f cE) :
    Paired mod f (linkJumpTable cE.jt) (Act.start : Act V) (LabelState.start f) := by
  refine ⟨(h.trusted hs).start_lands, rfl, rfl, .inl ?_⟩
  obtain ⟨e, imm, ce, ha⟩ := hs.accepts
  obtain ⟨c0, hc0, -⟩ := ha.reach
  obtain ⟨ps, rs, -, hrs, -, -, hcs, -⟩ := onDecodeBegin_ok hc0
  have hspan := fetch_span ha.fetch
  refine ⟨c0, ⟨c0, hc0, .refl⟩, ?_, fun n fr label hfr hlabel => ?_⟩
  · simp only [hcs]
    rfl
  simp only [hcs] at hfr
  have hn := lt_length_of_fromBottom hfr
  obtain rfl : n = 0 := by simpa using hn
  have hfr' : newFrame .func f.fnType ps rs 0 = fr := Option.some.inj hfr
  have hlabel' : (⟨f.fnType.resultCount, f.fnType.resultCount, 0, f.code.length - 1, true⟩ : BranchLabel) = label :=
    Option.some.inj hlabel
  rw [← hfr', ← hlabel']
  constructor
  · exact (parseTypes_length hrs).symm
  · exact (parseTypes_length hrs).symm
  · rfl
  · simp [newFrame]
  · intro ht
    cases ht
  · intro _
    simp only
    omega
  · intro _ _ _ _ _ _ _ hfunc
    exact absurd rfl hfunc

/-- A pair again. -/
theorem Paired.after (h : HeightSafe mod f) (hs : Sound mod f cE) (hcode : f'.code = f.code)
    (hjt : f'.jt = linkJumpTable cE.jt)
    (hrel : ∀ pc i args results, rel pc i args results → Counted mod pc i args results)
    {a a' : Act V} {s' : LabelState V} (hlands : Lands AnySlot AnyType mod f (linkJumpTable cE.jt) a)
    (hstep : ActStep rel f' cond a a') (hpc : a'.regs.pc = s'.pc) (hstack : a'.stack = s'.stack)
    (hlabels : LabelsAt mod f s'.pc s'.labels) : Paired mod f (linkJumpTable cE.jt) a' s' := by
  refine ⟨?_, hpc, hstack, hlabels⟩
  have hcounted : ActStep (Counted mod) f' cond a a' := by
    cases hstep with
    | next hn => exact .next hn
    | plain hn hr => exact .plain hn (hrel _ _ _ _ hr)
  exact hlands.actStep (h.trusted hs) respects_counted hcode hjt hcounted

/-- The two machines go in pairs. -/
theorem paired_bisimulation (h : HeightSafe mod f) (hs : Sound mod f cE) (hcode : f'.code = f.code)
    (hjt : f'.jt = linkJumpTable cE.jt)
    (hrel : ∀ pc i args results, rel pc i args results → Counted mod pc i args results) :
    Bisim.Bisimulation (Paired mod f (linkJumpTable cE.jt)) (ActStep rel f' cond) (LabelStep rel mod f cond) := by
  constructor
  · intro a s a' hpair hstep
    obtain ⟨out, lout, hact, hlabel, hsame⟩ := hpair.goes_on cond h hs hcode hjt
    have hpaired : ∀ s', a'.regs.pc = s'.pc → a'.stack = s'.stack → LabelsAt mod f s'.pc s'.labels →
        Paired mod f (linkJumpTable cE.jt) a' s' :=
      fun s' => Paired.after h hs hcode hjt hrel hpair.lands hstep
    cases hstep with
    | next hn =>
      rw [hn] at hact
      cases hact
      cases hsame with
      | next hpc hlabels => exact ⟨_, .next hlabel, hpaired _ hpc rfl hlabels⟩
    | plain hn hr =>
      rw [hn] at hact
      cases hact
      cases hsame with
      | plain hpc hlabels =>
        rw [hpair.pc] at hr
        exact ⟨_, .plain hlabel hr, hpaired _ hpc rfl hlabels⟩
  · intro a s s' hpair hstep
    obtain ⟨out, lout, hact, hlabel, hsame⟩ := hpair.goes_on cond h hs hcode hjt
    cases hstep with
    | next hn =>
      rw [hn] at hlabel
      cases hlabel
      cases hsame with
      | next hpc hlabels =>
        have hstep' : ActStep rel f' cond a _ := .next hact
        exact ⟨_, hstep', Paired.after h hs hcode hjt hrel hpair.lands hstep' hpc rfl hlabels⟩
    | plain hn hr =>
      rw [hn] at hlabel
      cases hlabel
      cases hsame with
      | plain hpc hlabels =>
        rw [← hpair.pc] at hr
        have hstep' : ActStep rel f' cond a _ := .plain hact hr
        exact ⟨_, hstep', Paired.after h hs hcode hjt hrel hpair.lands hstep' hpc rfl hlabels⟩

/-- Of a pair the same is seen, and neither of the two is stuck. -/
theorem Paired.seen (cond : V → ℕ) {a : Act V} {s : LabelState V} (h : HeightSafe mod f) (hs : Sound mod f cE)
    (hcode : f'.code = f.code) (hjt : f'.jt = linkJumpTable cE.jt) (htype : f'.fnType = f.fnType)
    (hpair : Paired mod f (linkJumpTable cE.jt) a s) :
    actSeen f' cond a = labelSeen mod f cond s ∧ (actSeen f' cond a).2.2 ≠ none := by
  obtain ⟨out, lout, hact, hlabel, hsame⟩ := hpair.goes_on cond h hs hcode hjt
  simp only [actSeen, labelSeen, hact, hlabel, hpair.pc, hpair.stack, htype]
  cases hsame with
  | finish hres =>
    rw [← hres]
    simp
  | _ => simp

end Runs

/-- The machine looks at the code and the result count of a function only, and at the types of the module. -/
theorem labelStep_parsed {f fn : Func} (hcode : fn.code = f.code) (cond : V → ℕ) (s : LabelState V) :
    labelStep mod.parsed f cond s = labelStep mod fn cond s := by
  have hblock : ∀ q, blockEnd mod.parsed f.code q = blockEnd mod f.code q := by
    intro q
    rw [blockEnd, blockEnd, scan_parsed]
  have harm : ∀ q, armEnd mod.parsed f.code q = armEnd mod f.code q := by
    intro q
    rw [armEnd, armEnd, scan_parsed]
  have hinstr : ∀ i imm q operand labels (stack : List V),
      labelInstr mod.parsed f.code i imm q operand labels stack =
        labelInstr mod f.code i imm q operand labels stack := by
    intro i imm q operand labels stack
    cases i <;> simp only [labelInstr, enterBlock, hblock, harm]
  simp only [labelStep, hcode, hinstr]
  rfl

end Silverfir
