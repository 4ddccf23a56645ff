import Silverfir.OpDecoder

/-! The validator of `validator.c`: the callbacks it gives to the decoder, and the jump table
they build on the way. Allocation is taken to succeed. -/
namespace Silverfir

inductive Blocktype where
  | func | block | loop | if_ | else_
  deriving DecidableEq, Repr

structure CtrlFrame where
  type : Blocktype
  ftype : FuncType
  startTypes : List TypeId
  endTypes : List TypeId
  height : ℕ
  unreachable : Bool := false
  pendingJtSlots : List ℕ := []
  pc : ℕ := 0
  deriving DecidableEq, Repr

/-- `val_stack` and `ctrl_stack` have their back at the head of the list; `jt` is the table of
the function under validation. -/
structure ValidatorContext where
  locals : List TypeId := []
  valStack : List TypeId := []
  ctrlStack : List CtrlFrame := []
  stackSizeMax : ℕ := 0
  jt : List JumpTable := []
  deriving DecidableEq, Repr

/-- `(u32)x` -/
def u32 (n : ℕ) : ℕ := n % 2 ^ 32

/-- `(u16)x` -/
def u16 (n : ℕ) : ℕ := n % 2 ^ 16

/-- `a - b` on 32-bit unsigned operands, stored in an `i32`. -/
def i32Sub (a b : ℕ) : ℤ := Int.bmod ((a : ℤ) - b) (2 ^ 32)

def CtrlFrame.labelTypes (frame : CtrlFrame) : List TypeId :=
  if frame.type = .loop then frame.startTypes else frame.endTypes

def CtrlFrame.addPending (frame : CtrlFrame) (slots : List ℕ) : CtrlFrame :=
  { frame with pendingJtSlots := frame.pendingJtSlots ++ slots }

namespace Validator

abbrev Ctx := ValidatorContext

def noFrame {α : Type} : R α := undef "vec_back: ctrl_stack is empty"

def pushVal (type : TypeId) (c : Ctx) : Ctx :=
  let valStack := type :: c.valStack
  { c with
    valStack := valStack
    stackSizeMax := if valStack.length > c.stackSizeMax then u32 valStack.length else c.stackSizeMax }

def pushVals (vals : List TypeId) (c : Ctx) : Ctx := vals.foldl (fun c v => pushVal v c) c

def popVal (c : Ctx) : R (TypeId × Ctx) :=
  match c.ctrlStack with
  | [] => noFrame
  | frame :: _ =>
    -- stack-polymorphic
    if frame.unreachable ∧ frame.height = c.valStack.length then .ok (.unknown, c)
    else if frame.height = c.valStack.length then err .invalid "Stack underrun"
    else
      match c.valStack with
      | [] => undef "vec_back: val_stack is empty"
      | realType :: rest => .ok (realType, { c with valStack := rest })

def popValExpect (expected : TypeId) (c : Ctx) : R (TypeId × Ctx) := do
  let (actual, c) ← popVal c
  if actual ≠ expected ∧ actual ≠ .unknown ∧ expected ≠ .unknown ∧
      ¬ (expected = .ref ∧ actual.isRef = true) then
    err .invalid "Value type mismatch"
  else .ok (actual, c)

/-- Pops `vals`, given from the back of the vector; returns the popped types in pop order. -/
def popValsRev : List TypeId → Ctx → R (List TypeId × Ctx)
  | [], c => .ok ([], c)
  | v :: vs, c => do
    let (t, c) ← popValExpect v c
    let (ts, c) ← popValsRev vs c
    .ok (t :: ts, c)

def popValsToVec (vals : List TypeId) (c : Ctx) : R (List TypeId × Ctx) := popValsRev vals.reverse c

def popVals (vals : List TypeId) (c : Ctx) : R Ctx := do
  let (_, c) ← popValsToVec vals c
  .ok c

def pushCtrl (bt : Blocktype) (ftype : FuncType) (c : Ctx) : R Ctx := do
  let params ← parseTypes ftype.paramCount ftype.params
  let results ← parseTypes ftype.resultCount ftype.results
  let frame : CtrlFrame :=
    { type := bt, ftype := ftype, startTypes := params, endTypes := results
      height := c.valStack.length }
  .ok (pushVals params { c with ctrlStack := frame :: c.ctrlStack })

/-- The frame is popped after its end types; nothing compares the height that is left. -/
def popCtrl (c : Ctx) : R (CtrlFrame × Ctx) :=
  match c.ctrlStack with
  | [] => err .invalid "Control stack underrun"
  | topFrame :: _ => do
    let c ← popVals topFrame.endTypes c
    .ok (topFrame, { c with ctrlStack := c.ctrlStack.tail })

def unreachable (c : Ctx) : R Ctx :=
  match c.ctrlStack with
  | [] => noFrame
  | frame :: rest =>
    if c.valStack.length < frame.height then err .invalid "Stack underrun"
    else .ok { c with
      valStack := c.valStack.drop (c.valStack.length - frame.height)
      ctrlStack := { frame with unreachable := true } :: rest }

/-! ### Callbacks -/

def onDecodeBegin (f : Func) (c : Ctx) : R Ctx := do
  let funcParams ← parseTypes f.fnType.paramCount f.fnType.params
  let c := { c with locals := c.locals ++ funcParams ++ f.localTypes }
  let c ← pushCtrl .func f.fnType c
  -- the parameters of the first frame live in the locals
  .ok { c with valStack := [] }

def onUnreachable (c : Ctx) : R Ctx := unreachable c

def blocktypeOf (op : WasmOpcode) : Blocktype :=
  if op = .block then .block else if op = .loop then .loop else .if_

/-- Appends `slot` to the table and lists it as pending in the frame with label `l`. -/
def pushSlot (l : ℕ) (slot : JumpTable) (c : Ctx) : Ctx :=
  { c with
    jt := c.jt ++ [slot]
    ctrlStack := c.ctrlStack.modify l (·.addPending [c.jt.length]) }

def onBlock (op : WasmOpcode) (imm : Stream) (type : FuncType) (c : Ctx) : R Ctx := do
  let c ← if op = .if_ then do
      let (_, c) ← popValExpect .i32 c
      .ok c
    else .ok c
  let paramTypes ← parseTypes type.paramCount type.params
  let c ← popVals paramTypes c
  let c ← pushCtrl (blocktypeOf op) type c
  let pcOffset := u32 imm.p
  if op = .loop then
    -- the target of a loop is the instruction after it: the block type is one byte
    .ok { c with ctrlStack := c.ctrlStack.modifyHead ({ · with pc := u32 (pcOffset + 1) }) }
  else if op = .if_ then
    .ok (pushSlot 0 { pc := pcOffset, stackOffset := 0, arity := 0 } c)
  else .ok c

/-- Sets the target of the slots `idxs` to the code offset `target`, shifted by `adj`. -/
def patchSlots (idxs : List ℕ) (target : ℕ) (adj : ℤ) (jt : List JumpTable) : List JumpTable :=
  idxs.foldl
    (fun jt i => jt.modify i (fun record => { record with targetOffset := i32Sub target record.pc + adj }))
    jt

/-- `(u32)(vec_size(val_stack) - arity - height)`, a wrapping difference. -/
def stackOffsetOf (c : Ctx) (arity height : ℕ) : ℕ :=
  (((c.valStack.length : ℤ) - arity - height) % 2 ^ 32).toNat

def onElse (imm : Stream) (c : Ctx) : R Ctx :=
  match c.ctrlStack with
  | [] => noFrame
  | currentFrame :: _ =>
    if currentFrame.type ≠ .if_ then err .invalid "if/else mismatch"
    else do
      let (cf, c) ← popCtrl c
      let c ← pushCtrl .else_ cf.ftype c
      let pcOffset := u32 imm.p
      -- the first pending slot is the one of the `if`; the others move to the else block
      let c := { c with
        jt := patchSlots (cf.pendingJtSlots.take 1) pcOffset 0 c.jt
        ctrlStack := c.ctrlStack.modifyHead (·.addPending (cf.pendingJtSlots.drop 1)) }
      match c.ctrlStack with
      | [] => noFrame
      | elseFrame :: _ =>
        let arity := u16 elseFrame.labelTypes.length
        .ok (pushSlot 0
          { pc := pcOffset, stackOffset := stackOffsetOf c arity elseFrame.height, arity := arity } c)

def onEnd (imm : Stream) (c : Ctx) : R Ctx := do
  let (cf, c) ← popCtrl c
  let jt :=
    if cf.type = .loop then patchSlots cf.pendingJtSlots cf.pc 0 c.jt
    -- a branch out of the function goes to its last `end`
    else if cf.type = .func then patchSlots cf.pendingJtSlots (u32 imm.p) (-1) c.jt
    else patchSlots cf.pendingJtSlots (u32 imm.p) 0 c.jt
  .ok (pushVals cf.endTypes { c with jt := jt })

def onBrOrIf (op : WasmOpcode) (imm : Stream) (lth : ℕ) (c : Ctx) : R Ctx := do
  if lth ≥ c.ctrlStack.length then err .invalid "invalid br n"
  else do
    let c ← if op = .brIf then do
        let (_, c) ← popValExpect .i32 c
        .ok c
      else .ok c
    match c.ctrlStack[lth]? with
    | none => noFrame
    | some targetFrame =>
      let arity := u16 targetFrame.labelTypes.length
      let c := pushSlot lth
        { pc := u32 imm.p, stackOffset := stackOffsetOf c arity targetFrame.height, arity := arity } c
      let c ← popVals targetFrame.labelTypes c
      if op = .br then unreachable c else .ok (pushVals targetFrame.labelTypes c)

/-- First pass over the labels of a `br_table`: every label must name an open frame. -/
def brTableLabels (frames : ℕ) : ℕ → Stream → R (List ℕ × Stream)
  | 0, pc => .ok ([], pc)
  | n + 1, pc => do
    let (l, pc) ← pc.readVu32
    if l ≥ frames then err .invalid "invalid br table n"
    else do
      let (ls, pc) ← brTableLabels frames n pc
      .ok (l :: ls, pc)

/-- Second pass: one slot for each label; the types are popped and pushed back. -/
def brTableSlots (pcEnd arity : ℕ) : List ℕ → Ctx → R Ctx
  | [], c => .ok c
  | l :: ls, c =>
    match c.ctrlStack[l]? with
    | none => noFrame
    | some targetFrame =>
      if arity ≠ targetFrame.labelTypes.length then err .invalid "br table arity mismatch"
      else do
        let c := pushSlot l
          { pc := pcEnd, stackOffset := stackOffsetOf c arity targetFrame.height, arity := u16 arity } c
        let (popped, c) ← popValsToVec targetFrame.labelTypes c
        brTableSlots pcEnd arity ls (pushVals popped.reverse c)

def onBrTable (imm : Stream) (c : Ctx) : R Ctx := do
  let (_, c) ← popValExpect .i32 c
  let (tableLen, imm) ← imm.readVu32
  let (labels, pcCopy) ← brTableLabels c.ctrlStack.length ((tableLen + 1) % 2 ^ 32) imm
  -- `m_frame` is the frame of the last label; with `table_len + 1 = 2^32` there is none
  match labels.getLast? with
  | none => undef "on_br_table: assert(m_frame)"
  | some m =>
    match c.ctrlStack[m]? with
    | none => noFrame
    | some mFrame =>
      let c ← brTableSlots (u32 pcCopy.p) mFrame.labelTypes.length labels c
      let c ← popVals mFrame.labelTypes c
      unreachable c

def onReturn (c : Ctx) : R Ctx :=
  match c.ctrlStack.getLast? with
  | none => undef "vec_at: ctrl_stack is empty"
  | some targetFrame => do
    let c ← popVals targetFrame.labelTypes c
    unreachable c

def onCall (mod : Module) (funcIdx : ℕ) (c : Ctx) : R Ctx :=
  match mod.funcs[funcIdx]? with
  | none => err .invalid "Invalid function index"
  | some fn => do
    let paramTypes ← parseTypes fn.fnType.paramCount fn.fnType.params
    let c ← popVals paramTypes c
    -- the locals of the callee live in the caller's stack
    let requiredSize := u32 (c.valStack.length + fn.localCount)
    let c := { c with
      stackSizeMax := if requiredSize > c.stackSizeMax then requiredSize else c.stackSizeMax }
    let resultTypes ← parseTypes fn.fnType.resultCount fn.fnType.results
    .ok (pushVals resultTypes c)

/-- The type of the table is not looked at. -/
def onCallIndirect (mod : Module) (typeIdx tableIdx : ℕ) (c : Ctx) : R Ctx := do
  let (_, c) ← popValExpect .i32 c
  if tableIdx ≥ mod.tables.length then err .invalid "Invalid table index"
  else
    match mod.funcTypes[typeIdx]? with
    | none => err .invalid "Invalid type index"
    | some ft => do
      let paramTypes ← parseTypes ft.paramCount ft.params
      let c ← popVals paramTypes c
      let resultTypes ← parseTypes ft.resultCount ft.results
      .ok (pushVals resultTypes c)

def onDrop (c : Ctx) : R Ctx := do
  let (_, c) ← popVal c
  .ok c

def onSelect (c : Ctx) : R Ctx := do
  let (_, c) ← popValExpect .i32 c
  let (t1, c) ← popVal c
  let (t2, c) ← popVal c
  if !((t1.isNum && t2.isNum) || (t1.isVec && t2.isVec)) then
    err .invalid "select operand type mismatch"
  else if t1 ≠ t2 ∧ t1 ≠ .unknown ∧ t2 ≠ .unknown then err .invalid "select operand type mismatch"
  else .ok (pushVal (if t1 = .unknown then t2 else t1) c)

/-- Pops `pops`, from the top of the stack down, and pushes `pushes`. -/
def popPush (pops pushes : List TypeId) (c : Ctx) : R Ctx := do
  let (_, c) ← popValsRev pops c
  .ok (pushVals pushes c)

def onSelectT (type : TypeId) (c : Ctx) : R Ctx := popPush [.i32, type, type] [type] c

/-- The checks of the `local.*` and `global.*` callbacks before they touch the stack. -/
def withIdx {α : Type} (msg : String) (xs : List α) (idx : ℕ) (k : α → R Ctx) : R Ctx :=
  match xs[idx]? with
  | none => err .invalid msg
  | some x => k x

def onLocalGet (idx : ℕ) (c : Ctx) : R Ctx :=
  withIdx "Invalid local index" c.locals idx fun t => popPush [] [t] c

def onLocalSet (idx : ℕ) (c : Ctx) : R Ctx :=
  withIdx "Invalid local index" c.locals idx fun t => popPush [t] [] c

def onLocalTee (idx : ℕ) (c : Ctx) : R Ctx :=
  withIdx "Invalid local index" c.locals idx fun t => popPush [t] [t] c

def onGlobalGet (mod : Module) (idx : ℕ) (c : Ctx) : R Ctx :=
  withIdx "Invalid global index" mod.globals idx fun g => popPush [] [g.valtype] c

def onGlobalSet (mod : Module) (idx : ℕ) (c : Ctx) : R Ctx :=
  withIdx "Invalid global index" mod.globals idx fun g => popPush [g.valtype] [] c

def onTableGet (mod : Module) (idx : ℕ) (c : Ctx) : R Ctx :=
  withIdx "Invalid table index" mod.tables idx fun tab => popPush [.i32] [tab.valtype] c

def onTableSet (mod : Module) (idx : ℕ) (c : Ctx) : R Ctx :=
  withIdx "Invalid table index" mod.tables idx fun tab => popPush [tab.valtype, .i32] [] c

/-- `MEM_LOAD`: the alignment exponent is compared with the size in bytes. -/
def memLoad (align size : ℕ) (type : TypeId) (c : Ctx) : R Ctx :=
  if align > size then err .invalid "Invalid alignment" else popPush [.i32] [type] c

/-- `MEM_STORE` -/
def memStore (align size : ℕ) (type : TypeId) (c : Ctx) : R Ctx :=
  if align > size then err .invalid "Invalid alignment" else popPush [type, .i32] [] c

def shouldNotHappen : R Ctx := undef "assert(false)"

def needMem0 (mod : Module) (k : R Ctx) : R Ctx :=
  if mod.memories.length = 0 then err .invalid "mem0 not found" else k

def onMemoryLoadStore (mod : Module) (op : WasmOpcode) (align : ℕ) (c : Ctx) : R Ctx :=
  needMem0 mod <|
    match op with
    | .i32Load | .i32Load8S | .i32Load8U | .i32Load16S | .i32Load16U => memLoad align 4 .i32 c
    | .i64Load | .i64Load8S | .i64Load8U | .i64Load16S | .i64Load16U | .i64Load32S | .i64Load32U =>
      memLoad align 8 .i64 c
    | .f32Load => memLoad align 4 .f32 c
    | .f64Load => memLoad align 8 .f64 c
    | .i32Store | .i32Store8 | .i32Store16 => memStore align 4 .i32 c
    | .i64Store | .i64Store8 | .i64Store16 | .i64Store32 => memStore align 8 .i64 c
    | .f32Store => memStore align 4 .f32 c
    | .f64Store => memStore align 8 .f64 c
    | _ => shouldNotHappen

def pop1Push (popType pushType : TypeId) (c : Ctx) : R Ctx := popPush [popType] [pushType] c

def pop2Push (popType pushType : TypeId) (c : Ctx) : R Ctx := popPush [popType, popType] [pushType] c

def onItestop (op : WasmOpcode) : Ctx → R Ctx :=
  if op = .i32Eqz then pop1Push .i32 .i32 else pop1Push .i64 .i32

def onIunop : WasmOpcode → Ctx → R Ctx
  | .i32Clz | .i32Ctz | .i32Popcnt => pop1Push .i32 .i32
  | .i64Clz | .i64Ctz | .i64Popcnt => pop1Push .i64 .i64
  | _ => fun _ => shouldNotHappen

def onIrelop : WasmOpcode → Ctx → R Ctx
  | .i32Eq | .i32Ne | .i32LtS | .i32LtU | .i32GtS | .i32GtU | .i32LeS | .i32LeU | .i32GeS
  | .i32GeU => pop2Push .i32 .i32
  | .i64Eq | .i64Ne | .i64LtS | .i64LtU | .i64GtS | .i64GtU | .i64LeS | .i64LeU | .i64GeS
  | .i64GeU => pop2Push .i64 .i32
  | _ => fun _ => shouldNotHappen

def onIbinop : WasmOpcode → Ctx → R Ctx
  | .i32Add | .i32Sub | .i32Mul | .i32DivS | .i32DivU | .i32RemS | .i32RemU | .i32And | .i32Or
  | .i32Xor | .i32Shl | .i32ShrS | .i32ShrU | .i32Rotl | .i32Rotr => pop2Push .i32 .i32
  | .i64Add | .i64Sub | .i64Mul | .i64DivS | .i64DivU | .i64RemS | .i64RemU | .i64And | .i64Or
  | .i64Xor | .i64Shl | .i64ShrS | .i64ShrU | .i64Rotl | .i64Rotr => pop2Push .i64 .i64
  | _ => fun _ => shouldNotHappen

def onFunop : WasmOpcode → Ctx → R Ctx
  | .f32Abs | .f32Neg | .f32Ceil | .f32Floor | .f32Trunc | .f32Nearest | .f32Sqrt =>
    pop1Push .f32 .f32
  | .f64Abs | .f64Neg | .f64Ceil | .f64Floor | .f64Trunc | .f64Nearest | .f64Sqrt =>
    pop1Push .f64 .f64
  | _ => fun _ => shouldNotHappen

def onFrelop : WasmOpcode → Ctx → R Ctx
  | .f32Eq | .f32Ne | .f32Lt | .f32Gt | .f32Le | .f32Ge => pop2Push .f32 .i32
  | .f64Eq | .f64Ne | .f64Lt | .f64Gt | .f64Le | .f64Ge => pop2Push .f64 .i32
  | _ => fun _ => shouldNotHappen

def onFbinop : WasmOpcode → Ctx → R Ctx
  | .f32Add | .f32Sub | .f32Mul | .f32Div | .f32Min | .f32Max | .f32Copysign => pop2Push .f32 .f32
  | .f64Add | .f64Sub | .f64Mul | .f64Div | .f64Min | .f64Max | .f64Copysign => pop2Push .f64 .f64
  | _ => fun _ => shouldNotHappen

def onWrapop : Ctx → R Ctx := pop1Push .i64 .i32

def onTruncop : WasmOpcode → Ctx → R Ctx
  | .i32TruncF32S | .i32TruncF32U => pop1Push .f32 .i32
  | .i32TruncF64S | .i32TruncF64U => pop1Push .f64 .i32
  | .i64TruncF32S | .i64TruncF32U => pop1Push .f32 .i64
  | .i64TruncF64S | .i64TruncF64U => pop1Push .f64 .i64
  | _ => fun _ => shouldNotHappen

def onConvertop : WasmOpcode → Ctx → R Ctx
  | .f32ConvertI32S | .f32ConvertI32U => pop1Push .i32 .f32
  | .f32ConvertI64S | .f32ConvertI64U => pop1Push .i64 .f32
  | .f64ConvertI32S | .f64ConvertI32U => pop1Push .i32 .f64
  | .f64ConvertI64S | .f64ConvertI64U => pop1Push .i64 .f64
  | _ => fun _ => shouldNotHappen

def onRankop : WasmOpcode → Ctx → R Ctx
  | .f32DemoteF64 => pop1Push .f64 .f32
  | .f64PromoteF32 => pop1Push .f32 .f64
  | _ => fun _ => shouldNotHappen

def onReinterpretop : WasmOpcode → Ctx → R Ctx
  | .i32ReinterpretF32 => pop1Push .f32 .i32
  | .i64ReinterpretF64 => pop1Push .f64 .i64
  | .f32ReinterpretI32 => pop1Push .i32 .f32
  | .f64ReinterpretI64 => pop1Push .i64 .f64
  | _ => fun _ => shouldNotHappen

def onExtendop : WasmOpcode → Ctx → R Ctx
  | .i64ExtendI32S | .i64ExtendI32U => pop1Push .i32 .i64
  | .i32Extend8S | .i32Extend16S => pop1Push .i32 .i32
  | .i64Extend8S | .i64Extend16S | .i64Extend32S => pop1Push .i64 .i64
  | _ => fun _ => shouldNotHappen

def onTruncSat : WasmOpcodeFc → Ctx → R Ctx
  | .i32TruncSatF32S | .i32TruncSatF32U => pop1Push .f32 .i32
  | .i32TruncSatF64S | .i32TruncSatF64U => pop1Push .f64 .i32
  | .i64TruncSatF32S | .i64TruncSatF32U => pop1Push .f32 .i64
  | .i64TruncSatF64S | .i64TruncSatF64U => pop1Push .f64 .i64
  | _ => fun _ => shouldNotHappen

def onRefFunc (mod : Module) (fref : ℕ) (c : Ctx) : R Ctx :=
  withIdx "Invalid function index" mod.funcs fref fun _ => popPush [] [.funcref] c

def onMemoryInit (mod : Module) (dataIdx : ℕ) (c : Ctx) : R Ctx :=
  withIdx "invalid data index" mod.data dataIdx fun _ =>
    needMem0 mod (popPush [.i32, .i32, .i32] [] c)

/-- Shared by `memory.fill` (`same impl`). -/
def onMemoryCopy (mod : Module) (c : Ctx) : R Ctx := needMem0 mod (popPush [.i32, .i32, .i32] [] c)

def onDataDrop (mod : Module) (dataIdx : ℕ) (c : Ctx) : R Ctx :=
  withIdx "invalid data index" mod.data dataIdx fun _ => .ok c

def onTableInit (mod : Module) (elemIdx tableIdx : ℕ) (c : Ctx) : R Ctx :=
  withIdx "invalid table index" mod.tables tableIdx fun tab =>
    withIdx "invalid element index" mod.elements elemIdx fun elem =>
      if tab.valtype ≠ elem.valtype then err .invalid "table and element type mismatch"
      else popPush [.i32, .i32, .i32] [] c

def onElemDrop (mod : Module) (elemIdx : ℕ) (c : Ctx) : R Ctx :=
  withIdx "invalid element index" mod.elements elemIdx fun _ => .ok c

def onTableCopy (mod : Module) (dst src : ℕ) (c : Ctx) : R Ctx :=
  withIdx "invalid table index" mod.tables src fun tabX =>
    withIdx "invalid table index" mod.tables dst fun tabY =>
      if tabX.valtype ≠ tabY.valtype then err .invalid "table type mismatch"
      else popPush [.i32, .i32, .i32] [] c

/-- Any reference type is taken for the initial value. -/
def onTableGrow (mod : Module) (idx : ℕ) (c : Ctx) : R Ctx :=
  withIdx "invalid table index" mod.tables idx fun _ => popPush [.i32, .ref] [.i32] c

def onTableSize (mod : Module) (idx : ℕ) (c : Ctx) : R Ctx :=
  withIdx "invalid table index" mod.tables idx fun _ => popPush [] [.i32] c

/-- Any reference type is taken for the fill value. -/
def onTableFill (mod : Module) (idx : ℕ) (c : Ctx) : R Ctx :=
  withIdx "invalid table index" mod.tables idx fun _ => popPush [.i32, .ref, .i32] [] c

def onInstr (mod : Module) (i : Instr) (imm : Stream) (c : Ctx) : R Ctx :=
  match i with
  | .unreachable => onUnreachable c
  | .nop => .ok c
  | .block op type => onBlock op imm type c
  | .else_ => onElse imm c
  | .end_ => onEnd imm c
  | .brOrIf op lth => onBrOrIf op imm lth c
  | .brTable => onBrTable imm c
  | .return_ => onReturn c
  | .call funcIdx => onCall mod funcIdx c
  | .callIndirect typeIdx tableIdx => onCallIndirect mod typeIdx tableIdx c
  | .drop => onDrop c
  | .select => onSelect c
  | .selectT type => onSelectT type c
  | .localGet idx => onLocalGet idx c
  | .localSet idx => onLocalSet idx c
  | .localTee idx => onLocalTee idx c
  | .globalGet idx => onGlobalGet mod idx c
  | .globalSet idx => onGlobalSet mod idx c
  | .tableGet idx => onTableGet mod idx c
  | .tableSet idx => onTableSet mod idx c
  | .memoryLoadStore op align _ => onMemoryLoadStore mod op align c
  | .memorySize => popPush [] [.i32] c
  | .memoryGrow => popPush [.i32] [.i32] c
  | .i32Const _ => popPush [] [.i32] c
  | .i64Const _ => popPush [] [.i64] c
  | .f32Const _ => popPush [] [.f32] c
  | .f64Const _ => popPush [] [.f64] c
  | .itestop op => onItestop op c
  | .iunop op => onIunop op c
  | .irelop op => onIrelop op c
  | .ibinop op => onIbinop op c
  | .funop op => onFunop op c
  | .frelop op => onFrelop op c
  | .fbinop op => onFbinop op c
  | .wrapop _ => onWrapop c
  | .truncop op => onTruncop op c
  | .convertop op => onConvertop op c
  | .rankop op => onRankop op c
  | .reinterpretop op => onReinterpretop op c
  | .extendop op => onExtendop op c
  | .refNull type => popPush [] [type] c
  | .refIsNull => pop1Push .ref .i32 c
  | .refFunc fref => onRefFunc mod fref c
  | .truncSat op => onTruncSat op c
  | .memoryInit dataIdx => onMemoryInit mod dataIdx c
  | .memoryCopy => onMemoryCopy mod c
  | .memoryFill => onMemoryCopy mod c
  | .dataDrop dataIdx => onDataDrop mod dataIdx c
  | .tableInit elemIdx tableIdx => onTableInit mod elemIdx tableIdx c
  | .elemDrop elemIdx => onElemDrop mod elemIdx c
  | .tableCopy dst src => onTableCopy mod dst src c
  | .tableGrow idx => onTableGrow mod idx c
  | .tableSize idx => onTableSize mod idx c
  | .tableFill idx => onTableFill mod idx c
  | .opcodeFd _ => err .invalid "prefix_fd opcodes is not supported yet"

/-! ### Linking the jump table -/

/-- `slot->pc + slot->target_offset`, an unsigned 32-bit sum. -/
def slotTarget (slot : JumpTable) : ℕ := (((slot.pc : ℤ) + slot.targetOffset) % 2 ^ 32).toNat

/-- The forward search: the first slot from `j` on that lies after `target`. -/
def linkForward (target : ℕ) : ℕ → List JumpTable → ℕ → ℕ
  | _, [], nextIdx => nextIdx
  | j, s :: rest, nextIdx =>
    if s.pc > target then u16 j else linkForward target (j + 1) rest nextIdx

/-- The backward search over the slots before and at `j`, given from `j` down. -/
def linkBackward (target : ℕ) : ℕ → List JumpTable → ℕ → ℕ
  | _, [], nextIdx => nextIdx
  | j, s :: rest, nextIdx =>
    if s.pc > target then linkBackward target (j - 1) rest (u16 j) else nextIdx

def linkSlot (jt : List JumpTable) (i : ℕ) (slot : JumpTable) : JumpTable :=
  let target := slotTarget slot
  { slot with nextIdx :=
      if slot.targetOffset > 0 then linkForward target (i + 1) (jt.drop (i + 1)) slot.nextIdx
      else linkBackward target i (jt.take (i + 1)).reverse slot.nextIdx }

def linkJumpTable (jt : List JumpTable) : List JumpTable := jt.mapIdx (linkSlot jt)

def onDecodeEnd (c : Ctx) : R Ctx := .ok { c with jt := linkJumpTable c.jt }

def callbacks (mod : Module) (f : Func) : OpDecoderCallbacks Ctx where
  onDecodeBegin := onDecodeBegin f
  onInstr := onInstr mod
  onDecodeEnd := onDecodeEnd

end Validator

open Validator in
/-- On success the function has its jump table and `stack_size_max`. The table is appended to
the one the function already has. -/
def validateFunc (mod : Module) (f : Func) : R Func := do
  let c ← decodeFunction mod (callbacks mod f) f.code { jt := f.jt }
  .ok { f with jt := c.jt, stackSizeMax := c.stackSizeMax }

end Silverfir
