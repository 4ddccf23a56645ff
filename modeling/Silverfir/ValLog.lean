import Silverfir.ValidatorPlain

/-! The callbacks of the validator with a log, which no callback reads: the sizes that `val_stack` has had, and for each
operand that `pop_val` has taken the height of the top frame and the size of the stack before. -/
namespace Silverfir.Validator

structure Logged where
  ctx : Ctx
  sizes : List ℕ := []
  pops : List (ℕ × ℕ) := []

namespace Logged

/-- `val_stack` has another size. -/
def resized (s : Logged) (c : Ctx) : Logged := { s with ctx := c, sizes := c.valStack.length :: s.sizes }

/-- The frames, the table or `stack_size_max` change, and `val_stack` does not. -/
def edit (s : Logged) (c : Ctx) : Logged := { s with ctx := c }

def topHeight (c : Ctx) : ℕ := (c.ctrlStack.head?.map (·.height)).getD 0

def pushVal (type : TypeId) (s : Logged) : Logged := s.resized (Validator.pushVal type s.ctx)

def pushVals (vals : List TypeId) (s : Logged) : Logged := vals.foldl (fun s v => pushVal v s) s

/-- On a stack that is polymorphic `pop_val` may take no operand. -/
def popVal (s : Logged) : R (TypeId × Logged) := do
  let (t, c) ← Validator.popVal s.ctx
  if c.valStack.length = s.ctx.valStack.length then .ok (t, s.edit c)
  else
    let s' := s.resized c
    .ok (t, { s' with pops := (topHeight s.ctx, s.ctx.valStack.length) :: s'.pops })

def popValExpect (expected : TypeId) (s : Logged) : R (TypeId × Logged) := do
  let (actual, s) ← popVal s
  if actual ≠ expected ∧ actual ≠ .unknown ∧ expected ≠ .unknown ∧
      ¬ (expected = .ref ∧ actual.isRef = true) then
    err .invalid "Value type mismatch"
  else .ok (actual, s)

def popValsRev : List TypeId → Logged → R (List TypeId × Logged)
  | [], s => .ok ([], s)
  | v :: vs, s => do
    let (t, s) ← popValExpect v s
    let (ts, s) ← popValsRev vs s
    .ok (t :: ts, s)

def popValsToVec (vals : List TypeId) (s : Logged) : R (List TypeId × Logged) := popValsRev vals.reverse s

def popVals (vals : List TypeId) (s : Logged) : R Logged := do
  let (_, s) ← popValsToVec vals s
  .ok s

def pushCtrl (bt : Blocktype) (ftype : FuncType) (s : Logged) : R Logged := do
  let params ← parseTypes ftype.paramCount ftype.params
  let results ← parseTypes ftype.resultCount ftype.results
  let frame : CtrlFrame :=
    { type := bt, ftype := ftype, startTypes := params, endTypes := results
      height := s.ctx.valStack.length }
  .ok (pushVals params (s.edit { s.ctx with ctrlStack := frame :: s.ctx.ctrlStack }))

def popCtrl (s : Logged) : R (CtrlFrame × Logged) :=
  match s.ctx.ctrlStack with
  | [] => err .invalid "Control stack underrun"
  | topFrame :: _ => do
    let s ← popVals topFrame.endTypes s
    .ok (topFrame, s.edit { s.ctx with ctrlStack := s.ctx.ctrlStack.tail })

def unreachable (s : Logged) : R Logged := do
  let c ← Validator.unreachable s.ctx
  .ok (s.resized c)

/-! ### Callbacks -/

def onDecodeBegin (f : Func) (s : Logged) : R Logged := do
  let funcParams ← parseTypes f.fnType.paramCount f.fnType.params
  let s := s.edit { s.ctx with locals := s.ctx.locals ++ funcParams ++ f.localTypes }
  let s ← pushCtrl .func f.fnType s
  .ok (s.resized { s.ctx with valStack := [] })

def pushSlot (l : ℕ) (slot : JumpTable) (s : Logged) : Logged := s.edit (Validator.pushSlot l slot s.ctx)

/-- The operand of `if` and of `br_if`. -/
def popCondition (p : Prop) [Decidable p] (s : Logged) : R Logged :=
  if p then do
    let (_, s) ← popValExpect .i32 s
    .ok s
  else .ok s

/-- `validator_on_block_loop_if`, after the operand of `if`. -/
def openBlock (op : WasmOpcode) (imm : Stream) (type : FuncType) (s : Logged) : R Logged := do
  let paramTypes ← parseTypes type.paramCount type.params
  let s ← popVals paramTypes s
  let s ← pushCtrl (blocktypeOf op) type s
  let pcOffset := u32 imm.p
  if op = .loop then
    .ok (s.edit { s.ctx with ctrlStack := s.ctx.ctrlStack.modifyHead ({ · with pc := u32 (pcOffset + 1) }) })
  else if op = .if_ then
    .ok (pushSlot 0 { pc := pcOffset, stackOffset := 0, arity := 0 } s)
  else .ok s

def onBlock (op : WasmOpcode) (imm : Stream) (type : FuncType) (s : Logged) : R Logged :=
  popCondition (op = .if_) s >>= openBlock op imm type

def onElse (imm : Stream) (s : Logged) : R Logged :=
  match s.ctx.ctrlStack with
  | [] => noFrame
  | currentFrame :: _ =>
    if currentFrame.type ≠ .if_ then err .invalid "if/else mismatch"
    else do
      let (cf, s) ← popCtrl s
      let s ← pushCtrl .else_ cf.ftype s
      let pcOffset := u32 imm.p
      let s := s.edit { s.ctx with
        jt := patchSlots (cf.pendingJtSlots.take 1) pcOffset 0 s.ctx.jt
        ctrlStack := s.ctx.ctrlStack.modifyHead (·.addPending (cf.pendingJtSlots.drop 1)) }
      match s.ctx.ctrlStack with
      | [] => noFrame
      | elseFrame :: _ =>
        let arity := u16 elseFrame.labelTypes.length
        .ok (pushSlot 0
          { pc := pcOffset, stackOffset := stackOffsetOf s.ctx arity elseFrame.height, arity := arity } s)

def onEnd (imm : Stream) (s : Logged) : R Logged := do
  let (cf, s) ← popCtrl s
  let jt :=
    if cf.type = .loop then patchSlots cf.pendingJtSlots cf.pc 0 s.ctx.jt
    else if cf.type = .func then patchSlots cf.pendingJtSlots (u32 imm.p) (-1) s.ctx.jt
    else patchSlots cf.pendingJtSlots (u32 imm.p) 0 s.ctx.jt
  .ok (pushVals cf.endTypes (s.edit { s.ctx with jt := jt }))

/-- `validator_on_br_or_if`, after the operand of `br_if`. -/
def branch (op : WasmOpcode) (imm : Stream) (lth : ℕ) (s : Logged) : R Logged :=
  match s.ctx.ctrlStack[lth]? with
  | none => noFrame
  | some targetFrame => do
    let arity := u16 targetFrame.labelTypes.length
    let s := pushSlot lth
      { pc := u32 imm.p, stackOffset := stackOffsetOf s.ctx arity targetFrame.height, arity := arity } s
    let s ← popVals targetFrame.labelTypes s
    if op = .br then unreachable s else .ok (pushVals targetFrame.labelTypes s)

def onBrOrIf (op : WasmOpcode) (imm : Stream) (lth : ℕ) (s : Logged) : R Logged :=
  if lth ≥ s.ctx.ctrlStack.length then err .invalid "invalid br n"
  else popCondition (op = .brIf) s >>= branch op imm lth

def brTableSlots (pcEnd arity : ℕ) : List ℕ → Logged → R Logged
  | [], s => .ok s
  | l :: ls, s =>
    match s.ctx.ctrlStack[l]? with
    | none => noFrame
    | some targetFrame =>
      if arity ≠ targetFrame.labelTypes.length then err .invalid "br table arity mismatch"
      else do
        let s := pushSlot l
          { pc := pcEnd, stackOffset := stackOffsetOf s.ctx arity targetFrame.height, arity := u16 arity } s
        let (popped, s) ← popValsToVec targetFrame.labelTypes s
        brTableSlots pcEnd arity ls (pushVals popped.reverse s)

def onBrTable (imm : Stream) (s : Logged) : R Logged := do
  let (_, s) ← popValExpect .i32 s
  let (tableLen, imm) ← imm.readVu32
  let (labels, pcCopy) ← brTableLabels s.ctx.ctrlStack.length ((tableLen + 1) % 2 ^ 32) imm
  match labels.getLast? with
  | none => undef "on_br_table: assert(m_frame)"
  | some m =>
    match s.ctx.ctrlStack[m]? with
    | none => noFrame
    | some mFrame =>
      let s ← brTableSlots (u32 pcCopy.p) mFrame.labelTypes.length labels s
      let s ← popVals mFrame.labelTypes s
      unreachable s

def onReturn (s : Logged) : R Logged :=
  match s.ctx.ctrlStack.getLast? with
  | none => undef "vec_at: ctrl_stack is empty"
  | some targetFrame => do
    let s ← popVals targetFrame.labelTypes s
    unreachable s

def onCall (mod : Module) (funcIdx : ℕ) (s : Logged) : R Logged :=
  match mod.funcs[funcIdx]? with
  | none => err .invalid "Invalid function index"
  | some fn => do
    let paramTypes ← parseTypes fn.fnType.paramCount fn.fnType.params
    let s ← popVals paramTypes s
    let requiredSize := u32 (s.ctx.valStack.length + fn.localCount)
    let s := s.edit { s.ctx with
      stackSizeMax := if requiredSize > s.ctx.stackSizeMax then requiredSize else s.ctx.stackSizeMax }
    let resultTypes ← parseTypes fn.fnType.resultCount fn.fnType.results
    .ok (pushVals resultTypes s)

def onSelect (s : Logged) : R Logged := do
  let (_, s) ← popValExpect .i32 s
  let (t1, s) ← popVal s
  let (t2, s) ← popVal s
  if !((t1.isNum && t2.isNum) || (t1.isVec && t2.isVec)) then
    err .invalid "select operand type mismatch"
  else if t1 ≠ t2 ∧ t1 ≠ .unknown ∧ t2 ≠ .unknown then err .invalid "select operand type mismatch"
  else .ok (pushVal (if t1 = .unknown then t2 else t1) s)

def popPush (pops pushes : List TypeId) (s : Logged) : R Logged := do
  let (_, s) ← popValsRev pops s
  .ok (pushVals pushes s)

/-- The other callbacks make their checks and then pop and push types that do not depend on the operands. -/
def onPlain (mod : Module) (i : Instr) (imm : Stream) (s : Logged) : R Logged := do
  let _ ← Validator.onInstr mod i imm s.ctx
  match fixedSig mod s.ctx.locals i with
  | none => shouldNotHappen >>= fun c => .ok (s.edit c)
  | some (pops, pushes) => popPush pops pushes s

def onInstr (mod : Module) (i : Instr) (imm : Stream) (s : Logged) : R Logged :=
  match i with
  | .unreachable => unreachable s
  | .block op type => onBlock op imm type s
  | .else_ => onElse imm s
  | .end_ => onEnd imm s
  | .brOrIf op lth => onBrOrIf op imm lth s
  | .brTable => onBrTable imm s
  | .return_ => onReturn s
  | .call funcIdx => onCall mod funcIdx s
  | .select => onSelect s
  | i => onPlain mod i imm s

end Logged

end Silverfir.Validator
