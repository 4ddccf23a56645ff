import Silverfir.Vm
import Silverfir.InPlaceDt

/-! The handlers of the plain instructions in `in_place_dt.c`: how many operands each of them
pops, and what it does with them to the locals and the store. Operands are listed from the top of
the stack. -/
namespace Silverfir.InPlaceDt

/-- The low 32 bits of a slot, `u_u32`. -/
def lo32 (v : ValueU) : ℕ := v.toNat % 2 ^ 32

/-- A slot written as `u_u32`. -/
def ofU32 (n : ℕ) : ValueU := BitVec.ofNat 64 (n % 2 ^ 32)

/-- A slot whose low half is written in place. -/
def setLo32 (v : ValueU) (n : ℕ) : ValueU := BitVec.ofNat 64 (v.toNat / 2 ^ 32 * 2 ^ 32 + n % 2 ^ 32)

/-- `-1` written as `u_i32`. -/
def minusOne : ValueU := ofU32 (2 ^ 32 - 1)

/-- What a handler can reach besides the operands. -/
structure ExecState where
  vm : Vm
  locals : List ValueU
  deriving DecidableEq, Repr

abbrev Exec := Eff Fault ExecState

def trap {α : Type} (msg : String) : Exec α := Eff.fail (.err .general msg)

def outside {α : Type} (what : String) : Exec α := Eff.fail (.undefined what)

def ofVm {α : Type} (f : Vm → R α) : Exec α := Eff.read fun s => f s.vm

def onVm {α : Type} (m : VmM α) : Exec α := fun s =>
  let (r, vm) := m s.vm
  (r, { s with vm := vm })

def modifyVm (f : Vm → Vm) : Exec Unit := Eff.modify fun s => { s with vm := f s.vm }

/-- The number of operands a handler pops. The calls are not handled here. -/
def operandCount : Instr → ℕ
  | .drop | .localSet _ | .localTee _ | .globalSet _ | .tableGet _ | .memoryGrow | .itestop _ | .iunop _
  | .funop _ | .wrapop _ | .truncop _ | .convertop _ | .rankop _ | .reinterpretop _ | .extendop _
  | .refIsNull | .truncSat _ => 1
  | .tableSet _ | .irelop _ | .ibinop _ | .frelop _ | .fbinop _ | .tableGrow _ => 2
  | .memoryLoadStore op _ _ => if op.isLoad then 1 else 2
  | .select | .selectT _ | .memoryInit _ | .memoryCopy | .memoryFill | .tableInit _ _ | .tableCopy _ _
  | .tableFill _ => 3
  | _ => 0

/-! ### Memory accesses -/

/-- Bytes of memory an access reads or writes. -/
def accessWidth : WasmOpcode → ℕ
  | .i32Load8S | .i32Load8U | .i64Load8S | .i64Load8U | .i32Store8 | .i64Store8 => 1
  | .i32Load16S | .i32Load16U | .i64Load16S | .i64Load16U | .i32Store16 | .i64Store16 => 2
  | .i64Load | .f64Load | .i64Store | .f64Store => 8
  | _ => 4

/-- `mem_read_*`, little endian, widened as the opcode says. -/
def loadValue (op : WasmOpcode) (bytes : List UInt8) : ValueU :=
  let n := Stream.leBytes bytes
  match op with
  | .i32Load8S => ((BitVec.ofNat 8 n).signExtend 32).setWidth 64
  | .i32Load16S => ((BitVec.ofNat 16 n).signExtend 32).setWidth 64
  | .i64Load8S => (BitVec.ofNat 8 n).signExtend 64
  | .i64Load16S => (BitVec.ofNat 16 n).signExtend 64
  | .i64Load32S => (BitVec.ofNat 32 n).signExtend 64
  | _ => BitVec.ofNat 64 n

/-- `mem_write_*`, little endian. -/
def storeBytes (width : ℕ) (v : ValueU) : List UInt8 :=
  (List.range width).map fun j => UInt8.ofNat (v.toNat >>> (8 * j))

/-- `memmove` of `xs` to position `p`. -/
def overwrite {α : Type} (dst : List α) (p : ℕ) (xs : List α) : List α :=
  dst.take p ++ xs ++ dst.drop (p + xs.length)

/-! ### Operands -/

def arg1 {α : Type} (args : List ValueU) (body : ValueU → Exec α) : Exec α :=
  match args with
  | [a] => body a
  | _ => outside "pop below stack_base"

def arg2 {α : Type} (args : List ValueU) (body : ValueU → ValueU → Exec α) : Exec α :=
  match args with
  | [a, b] => body a b
  | _ => outside "pop below stack_base"

def arg3 {α : Type} (args : List ValueU) (body : ValueU → ValueU → ValueU → Exec α) : Exec α :=
  match args with
  | [a, b, c] => body a b c
  | _ => outside "pop below stack_base"

/-! ### Handlers -/

section Handlers
variable (pf : Platform) (k : ℕ)

def localGet (idx : ℕ) : Exec (List ValueU) := do
  let s ← Eff.get
  match s.locals[idx]? with
  | none => outside "local"
  | some v => pure [v]

def localSet (idx : ℕ) (v : ValueU) : Exec Unit := do
  let s ← Eff.get
  if idx < s.locals.length then Eff.modify fun s => { s with locals := s.locals.set idx v }
  else outside "local"

/-- `mem_inst0` -/
def mem0 : Exec (Addr × MemoryInst) := do
  let a ← ofVm fun vm => vm.addr (·.mAddrs) k 0
  let m ← ofVm fun vm => vm.memory a
  pure (a, m)

def tabInst (idx : ℕ) : Exec (Addr × TableInst) := do
  let a ← ofVm fun vm => vm.addr (·.tAddrs) k idx
  let t ← ofVm fun vm => vm.table a
  pure (a, t)

def globalGet (idx : ℕ) : Exec (List ValueU) := do
  let a ← ofVm fun vm => vm.addr (·.gAddrs) k idx
  let g ← ofVm fun vm => vm.global a
  pure [g.gvalue]

def globalSet (idx : ℕ) (v : ValueU) : Exec (List ValueU) := do
  let a ← ofVm fun vm => vm.addr (·.gAddrs) k idx
  let _ ← ofVm fun vm => vm.global a
  modifyVm (Vm.setGlobal a v)
  pure []

def tableGet (idx : ℕ) (elemIdx : ValueU) : Exec (List ValueU) := do
  let (_, t) ← tabInst k idx
  match t.tdata[lo32 elemIdx]? with
  | none => trap "table_get: invalid table element index"
  | some ref => pure [ref]

def tableSet (idx : ℕ) (ref elemIdx : ValueU) : Exec (List ValueU) := do
  let (a, t) ← tabInst k idx
  if lo32 elemIdx ≥ t.tdata.length then trap "table_set: invalid table element index"
  else do
    modifyVm (Vm.setTable a (t.tdata.set (lo32 elemIdx) ref))
    pure []

/-- `MEM_LOAD` -/
def memLoad (op : WasmOpcode) (offset : ℕ) (base : ValueU) : Exec (List ValueU) := do
  let (_, m) ← mem0 k
  let memIdx := lo32 base + offset
  if memIdx + accessWidth op > m.mdata.length then trap "t.load: out-of-bound memory access"
  else pure [loadValue op ((m.mdata.drop memIdx).take (accessWidth op))]

/-- `MEM_STORE` -/
def memStore (op : WasmOpcode) (offset : ℕ) (val base : ValueU) : Exec (List ValueU) := do
  let (a, m) ← mem0 k
  let memIdx := lo32 base + offset
  if memIdx + accessWidth op > m.mdata.length then trap "t.store: out-of-bound memory access"
  else do
    modifyVm (Vm.setMemory a (overwrite m.mdata memIdx (storeBytes (accessWidth op) val)))
    pure []

def memorySize : Exec (List ValueU) := do
  let (_, m) ← mem0 k
  pure [ofU32 (m.mdata.length / wasmPageSize)]

/-- Allocation is taken to succeed. -/
def memoryGrow (nPages : ValueU) : Exec (List ValueU) := do
  let (a, m) ← mem0 k
  let sz := m.mdata.length / wasmPageSize
  if sz + lo32 nPages ≤ m.mem.lim.max then do
    let size := (sz + lo32 nPages) * wasmPageSize
    modifyVm (Vm.setMemory a (m.mdata.take size ++ List.replicate (size - m.mdata.length) 0))
    pure [ofU32 sz]
  else pure [minusOne]

def memoryInit (dataIdx : ℕ) (size src dst : ValueU) : Exec (List ValueU) := do
  let (a, m) ← mem0 k
  let mi ← ofVm (·.inst k)
  match mi.mod.data[dataIdx]?, mi.droppedData[dataIdx]? with
  | some d, some dropped =>
    if lo32 src + lo32 size > d.bytes.length ∨ lo32 dst + lo32 size > m.mdata.length then
      trap "Invalid data access"
    else if lo32 size = 0 then pure []
    else if dropped then trap "Data has been dropped"
    else do
      modifyVm (Vm.setMemory a (overwrite m.mdata (lo32 dst) ((d.bytes.drop (lo32 src)).take (lo32 size))))
      pure []
  | _, _ => outside "data"

def dataDrop (dataIdx : ℕ) : Exec (List ValueU) := do
  modifyVm (Vm.modifyInst k fun mi => { mi with droppedData := mi.droppedData.set dataIdx true })
  pure []

def memoryCopy (size src dst : ValueU) : Exec (List ValueU) := do
  let (a, m) ← mem0 k
  if lo32 src + lo32 size > m.mdata.length ∨ lo32 dst + lo32 size > m.mdata.length then
    trap "Invalid memory access"
  else do
    modifyVm (Vm.setMemory a (overwrite m.mdata (lo32 dst) ((m.mdata.drop (lo32 src)).take (lo32 size))))
    pure []

def memoryFill (size val dst : ValueU) : Exec (List ValueU) := do
  let (a, m) ← mem0 k
  if lo32 dst + lo32 size > m.mdata.length then trap "Invalid memory access"
  else do
    modifyVm (Vm.setMemory a (overwrite m.mdata (lo32 dst) (List.replicate (lo32 size) (UInt8.ofNat val.toNat))))
    pure []

def tableInit (elemIdx tableIdx : ℕ) (size src dst : ValueU) : Exec (List ValueU) := do
  let (a, t) ← tabInst k tableIdx
  let mi ← ofVm (·.inst k)
  match mi.mod.elements[elemIdx]?, mi.droppedElements[elemIdx]? with
  | some elem, some dropped =>
    if lo32 src + lo32 size > elem.dataLen ∨ lo32 dst + lo32 size > t.tdata.length then
      trap "Invalid table access"
    else if lo32 size = 0 then pure []
    else if dropped then trap "Element has been dropped"
    else do
      let refs ← Eff.lift (elemRefs pf k true elem (lo32 src) (lo32 size))
      onVm (putRefs a (lo32 dst) refs)
      pure []
  | _, _ => outside "element"

def elemDrop (elemIdx : ℕ) : Exec (List ValueU) := do
  modifyVm (Vm.modifyInst k fun mi => { mi with droppedElements := mi.droppedElements.set elemIdx true })
  pure []

def tableCopy (dstIdx srcIdx : ℕ) (size src dst : ValueU) : Exec (List ValueU) := do
  let (a, tDst) ← tabInst k dstIdx
  let (_, tSrc) ← tabInst k srcIdx
  if lo32 src + lo32 size > tSrc.tdata.length ∨ lo32 dst + lo32 size > tDst.tdata.length then
    trap "Invalid table access"
  else do
    modifyVm (Vm.setTable a (overwrite tDst.tdata (lo32 dst) ((tSrc.tdata.drop (lo32 src)).take (lo32 size))))
    pure []

def tableGrow (idx : ℕ) (size ref : ValueU) : Exec (List ValueU) := do
  let (a, t) ← tabInst k idx
  if t.tdata.length + lo32 size > t.tab.lim.max then pure [minusOne]
  else do
    modifyVm (Vm.setTable a (t.tdata ++ List.replicate (lo32 size) ref))
    pure [ofU32 t.tdata.length]

def tableSize (idx : ℕ) : Exec (List ValueU) := do
  let (_, t) ← tabInst k idx
  pure [ofU32 t.tdata.length]

/-- The offset is read as `u_i32` and widened to 64 bits. -/
def tableFill (idx : ℕ) (size ref offset : ValueU) : Exec (List ValueU) := do
  let (a, t) ← tabInst k idx
  let off := ((BitVec.setWidth 32 offset).signExtend 64).toNat
  if (off + lo32 size) % 2 ^ 64 > t.tdata.length then Eff.fail (.err .invalid "Invalid table access")
  else if t.tdata.length < off + lo32 size ∧ 0 < lo32 size then outside "table element"
  else do
    modifyVm (Vm.setTable a (overwrite t.tdata off (List.replicate (lo32 size) ref)))
    pure []

def refFunc (fIdx : ℕ) : Exec (List ValueU) := do
  let a ← ofVm fun vm => vm.addr (·.fAddrs) k fIdx
  pure [pf.toRef a]

/-- What a plain instruction does with its operands. -/
def effect (i : Instr) (args : List ValueU) : Exec (List ValueU) :=
  match i with
  | .nop => pure []
  | .drop => arg1 args fun _ => pure []
  | .select | .selectT _ => arg3 args fun cond falseVal trueVal =>
    pure [if lo32 cond ≠ 0 then trueVal else falseVal]
  | .localGet idx => localGet idx
  | .localSet idx => arg1 args fun v => do
    localSet idx v
    pure []
  | .localTee idx => arg1 args fun v => do
    localSet idx v
    pure [v]
  | .globalGet idx => globalGet k idx
  | .globalSet idx => arg1 args (globalSet k idx)
  | .tableGet idx => arg1 args (tableGet k idx)
  | .tableSet idx => arg2 args (tableSet k idx)
  | .memoryLoadStore op _ offset =>
    if op.isLoad then arg1 args (memLoad k op offset) else arg2 args (memStore k op offset)
  | .memorySize => memorySize k
  | .memoryGrow => arg1 args (memoryGrow k)
  | .i32Const val => pure [BitVec.ofNat 64 val]
  | .i64Const val => pure [BitVec.ofNat 64 val]
  | .f32Const val => pure [BitVec.ofNat 64 val]
  | .f64Const val => pure [BitVec.ofNat 64 val]
  | .itestop _ | .iunop _ | .funop _ | .wrapop _ | .truncop _ | .convertop _ | .rankop _
  | .reinterpretop _ | .extendop _ | .truncSat _ => arg1 args fun v => do
    let r ← Eff.lift (pf.unop i v)
    pure [r]
  | .irelop _ | .ibinop _ | .frelop _ | .fbinop _ => arg2 args fun v2 v1 => do
    let r ← Eff.lift (pf.binop i v1 v2)
    pure [r]
  | .refNull _ => pure [nullref]
  | .refIsNull => arg1 args fun v => pure [setLo32 v (if v = nullref then 1 else 0)]
  | .refFunc fIdx => refFunc pf k fIdx
  | .memoryInit dataIdx => arg3 args (memoryInit k dataIdx)
  | .memoryCopy => arg3 args (memoryCopy k)
  | .memoryFill => arg3 args (memoryFill k)
  | .dataDrop dataIdx => dataDrop k dataIdx
  | .tableInit elemIdx tableIdx => arg3 args (tableInit pf k elemIdx tableIdx)
  | .elemDrop elemIdx => elemDrop k elemIdx
  | .tableCopy dst src => arg3 args (tableCopy k dst src)
  | .tableGrow idx => arg2 args (tableGrow k idx)
  | .tableSize idx => tableSize k idx
  | .tableFill idx => arg3 args (tableFill k idx)
  | .opcodeFd _ => pure []
  | .unreachable | .block _ _ | .else_ | .end_ | .brOrIf _ _ | .brTable | .return_ | .call _
  | .callIndirect _ _ => outside "not a plain instruction"

end Handlers

end Silverfir.InPlaceDt
