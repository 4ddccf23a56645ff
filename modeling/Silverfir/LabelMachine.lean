import Silverfir.Heights

/-! The structured control of the specification, run on the flat code of a function: a stack of labels, each entered
with its block and left at the `end` of it. Where a branch goes on is found by reading on to the end of the block;
nothing is precomputed. -/
namespace Silverfir

open InPlaceDt ListStack

variable {V : Type}

/-- A label: the operands that a branch to it takes, the results of its block, the height of the operands below the
block, and where a branch goes on. The labels of a loop and of the function stay when they are branched to. -/
structure BranchLabel where
  arity : ℕ
  results : ℕ
  height : ℕ
  cont : ℕ
  stays : Bool
  deriving DecidableEq, Repr

/-- The next instruction, the labels and the operands, each with the innermost at the head. -/
structure LabelState (V : Type) where
  pc : ℕ
  labels : List BranchLabel
  stack : List V
  deriving DecidableEq, Repr

/-- What is left to do after a control instruction. -/
inductive LabelOutcome (V : Type) where
  | plain (i : Instr) (s : LabelState V)
  | next (s : LabelState V)
  | finish (results : List V)
  | trap
  deriving DecidableEq, Repr

/-! ### The ends of a block -/

/-- The first instruction that `stop` is true of and that is in the block itself, not in one of the `d` blocks that are
open inside it. -/
def findOpen (stop : Instr → Bool) : ℕ → List Located → Option Located
  | _, [] => none
  | d, x :: xs => if d = 0 ∧ stop x.instr = true then some x else findOpen stop (x.instr.depth d) xs

/-- The `end` of the block whose body is at `q`. -/
def blockEnd (mod : Module) (code : Str) (q : ℕ) : Option Located :=
  findOpen (· == .end_) 0 (scan mod code code.length q)

/-- The `else` or `end` of the `if` whose body is at `q`. -/
def armEnd (mod : Module) (code : Str) (q : ℕ) : Option Located :=
  findOpen (fun i => i == .else_ || i == .end_) 0 (scan mod code code.length q)

/-- `vec(labelidx)` and the default label of a `br_table`. -/
def readLabels : ℕ → Stream → R (List ℕ)
  | 0, _ => .ok []
  | n + 1, pc => do
    let (l, pc) ← pc.readVu32
    let ls ← readLabels n pc
    .ok (l :: ls)

def tableLabels (code : Str) (imm : ℕ) : R (List ℕ) := do
  let (n, pc) ← Stream.readVu32 ⟨code, imm⟩
  readLabels (n + 1) pc

/-! ### The machine -/

/-- The label of a block with its body at `body` and the instruction behind its `end` at `next`. -/
def blockLabel (op : WasmOpcode) (type : FuncType) (height body next : ℕ) : BranchLabel where
  arity := if op = .loop then type.paramCount else type.resultCount
  results := type.resultCount
  height := height
  cont := if op = .loop then body else next
  stays := op == .loop

/-- A block is entered with its parameters on the stack. A false `if` goes to its `else`; one without `else` is an empty
block, whose parameters are its results. -/
def enterBlock (mod : Module) (code : Str) (op : WasmOpcode) (type : FuncType) (q operand : ℕ)
    (labels : List BranchLabel) (stack : List V) : Option (LabelOutcome V) :=
  match blockEnd mod code q with
  | none => none
  | some e =>
    let label := blockLabel op type (stack.length - type.paramCount) q e.next
    if stack.length < type.paramCount then none
    else if op = .if_ ∧ operand = 0 then
      match armEnd mod code q with
      | none => none
      | some x =>
        if x.instr = .else_ then some (.next ⟨x.next, label :: labels, stack⟩)
        else if type.paramCount = type.resultCount then some (.next ⟨e.next, labels, stack⟩)
        else none
    else some (.next ⟨q, label :: labels, stack⟩)

/-- A block is left at its end, or its `if` at the `else`: exactly its results are above the height of its label. -/
def leaveBlock (labels : List BranchLabel) (stack : List V) (next : BranchLabel → ℕ) : Option (LabelOutcome V) :=
  match labels with
  | [] => none
  | label :: labels =>
    if stack.length ≠ label.height + label.results then none
    else if labels = [] then some (.finish stack)
    else some (.next ⟨next label, labels, stack⟩)

/-- A branch to label number `l`. -/
def branchTo (l : ℕ) (labels : List BranchLabel) (stack : List V) : Option (LabelOutcome V) :=
  match labels[l]? with
  | none => none
  | some label =>
    if stack.length < label.arity + label.height then none
    else some (.next ⟨label.cont, labels.drop (if label.stays then l else l + 1),
      stack.take label.arity ++ below label.height stack⟩)

/-- `return`, whatever labels are open. -/
def returnFrom (labels : List BranchLabel) (stack : List V) : Option (LabelOutcome V) :=
  match labels.getLast? with
  | none => none
  | some label => if stack.length < label.arity then none else some (.finish (stack.take label.arity))

/-- The instruction `i` of the code, with its operand popped; the next one is at `q`. -/
def labelInstr (mod : Module) (code : Str) (i : Instr) (imm q operand : ℕ) (labels : List BranchLabel)
    (stack : List V) : Option (LabelOutcome V) :=
  match i with
  | .unreachable => some .trap
  | .block op type => enterBlock mod code op type q operand labels stack
  | .else_ => leaveBlock labels stack (·.cont)
  | .end_ => leaveBlock labels stack (fun _ => q)
  | .brOrIf op l =>
    if op = .brIf ∧ operand = 0 then some (.next ⟨q, labels, stack⟩) else branchTo l labels stack
  | .brTable =>
    match tableLabels code imm with
    | .error _ => none
    | .ok ls => (ls[min operand (ls.length - 1)]?).bind fun l => branchTo l labels stack
  | .return_ => returnFrom labels stack
  | i => some (.plain i.erase ⟨q, labels, stack⟩)

/-- One instruction. Nothing is said where the code is not valid. -/
def labelStep (mod : Module) (f : Func) (cond : V → ℕ) (s : LabelState V) : Option (LabelOutcome V) :=
  match fetch mod f.code s.pc with
  | .error _ => none
  | .ok (i, imm, q) =>
    match popOperand cond i.popsOperand s.stack with
    | .error _ => none
    | .ok (operand, stack) => labelInstr mod f.code i imm q operand s.labels stack

/-- The body of a function is a block without parameters that ends with the last byte. -/
def LabelState.start (f : Func) : LabelState V :=
  ⟨0, [⟨f.fnType.resultCount, f.fnType.resultCount, 0, f.code.length - 1, true⟩], []⟩

/-- Plain instructions and calls as `rel` has them. -/
inductive LabelStep (rel : PlainRel V) (mod : Module) (f : Func) (cond : V → ℕ) : LabelState V → LabelState V → Prop
  | next {s s'} (h : labelStep mod f cond s = some (.next s')) : LabelStep rel mod f cond s s'
  | plain {s i pc labels args rest results} (h : labelStep mod f cond s = some (.plain i ⟨pc, labels, args ++ rest⟩))
      (hrel : rel (s.pc : ℤ) i args results) : LabelStep rel mod f cond s ⟨pc, labels, results ++ rest⟩

/-! ### What is seen of a run -/

/-- What the instruction at a state does, as far as it can be told from outside. -/
inductive Event (V : Type) where
  | plain (i : Instr)
  | control
  | results (vs : List V)
  | trap
  deriving DecidableEq, Repr

/-- The interpreter at a state: the offset, the operands and what comes next. -/
def actSeen (f : Func) (cond : V → ℕ) (a : Act V) : ℤ × List V × Option (Event V) :=
  (a.regs.pc, a.stack, match actStep f cond a with
    | .ok (.plain i _) => some (.plain i)
    | .ok (.next _) => some .control
    | .ok (.finish stack) => some (.results (stack.take f.fnType.resultCount))
    | .ok .trap => some .trap
    | .error _ => none)

def labelSeen (mod : Module) (f : Func) (cond : V → ℕ) (s : LabelState V) : ℤ × List V × Option (Event V) :=
  (s.pc, s.stack, (labelStep mod f cond s).map fun
    | .plain i _ => .plain i
    | .next _ => .control
    | .finish results => .results results
    | .trap => .trap)

/-! ### The place where a block ends -/

namespace Validator

open Relation (ReflTransGen)

variable {mod : Module} {f : Func} {n : ℕ}

/-- A frame that is open at the end of a way is open all along it. -/
theorem above_lt {x y : ℕ × Ctx} (h : ReflTransGen (Above mod f n) x y) (hy : n < y.2.ctrlStack.length) :
    n < x.2.ctrlStack.length := by
  rcases ReflTransGen.cases_head h with rfl | ⟨z, hz, -⟩
  · exact hy
  · exact hz.1

theorem depth_above {i : Instr} {d : ℕ} (hd : n < d) (hd' : n < i.depth d) :
    i.depth d - 1 - n = i.depth (d - 1 - n) := by
  cases i <;> simp only [Instr.depth] at hd' ⊢ <;> omega

theorem scan_succ {code : Str} {m p imm q : ℕ} {i : Instr} (h : fetch mod code p = .ok (i, imm, q)) :
    scan mod code (m + 1) p = ⟨p, i, imm, q⟩ :: scan mod code m q := by
  simp only [scan, h]

/-- Reading on from inside a frame finds the first instruction of the frame itself where the search stops. -/
theorem findOpen_scan {stop : Instr → Bool} {x y : ℕ × Ctx} {i : Instr} {imm q m : ℕ}
    (h : ReflTransGen (Above mod f n) x y) (hdepth : y.2.ctrlStack.length = n + 1)
    (hf : fetch mod f.code y.1 = .ok (i, imm, q)) (hstop : stop i = true) (hm : f.code.length ≤ x.1 + m)
    (hfirst : ∀ z j imm' q', ReflTransGen (Above mod f n) x z → z.1 < y.1 → z.2.ctrlStack.length = n + 1 →
      fetch mod f.code z.1 = .ok (j, imm', q') → ReflTransGen (Above mod f n) z y → stop j = false) :
    findOpen stop (x.2.ctrlStack.length - 1 - n) (scan mod f.code m x.1) = some ⟨y.1, i, imm, q⟩ := by
  induction h using ReflTransGen.head_induction_on generalizing m with
  | refl =>
    have hspan := fetch_span hf
    obtain ⟨m, rfl⟩ : ∃ k, m = k + 1 := ⟨m - 1, by omega⟩
    rw [scan_succ hf, findOpen, if_pos]
    exact ⟨by omega, hstop⟩
  | @head x z hxz hzy ih =>
    obtain ⟨j, imm', hj, hcb⟩ := step_iff.mp hxz.2
    have hspan := fetch_span hj
    obtain ⟨m, rfl⟩ : ∃ k, m = k + 1 := ⟨m - 1, by omega⟩
    have hz : n < z.2.ctrlStack.length := above_lt hzy (by omega)
    have hlen := onInstr_length hcb
    have hle : z.1 ≤ y.1 := decodeSteps_le (Run.of_within hzy)
    rw [scan_succ hj, findOpen, if_neg]
    · rw [← depth_above hxz.1 (hlen ▸ hz), ← hlen]
      apply ih
      · omega
      · intro w k imm1 q1 hzw
        exact hfirst w k imm1 q1 (.head hxz hzw)
    · rintro ⟨hzero, hjstop⟩
      have hopen := hxz.1
      have hno := hfirst x j imm' z.1 .refl (by omega) (by omega) hj (.head hxz hzy)
      rw [hno] at hjstop
      cases hjstop

end Validator

end Silverfir
