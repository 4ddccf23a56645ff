import Silverfir.Lib.Eff
import Silverfir.Validator

/-! The run-time structures of `vm.h`. A pointer into an instance is the number of the instance
and an index; the instances of a VM are never removed. -/
namespace Silverfir

/-- `value_u`, as its 64 bits. -/
abbrev ValueU := BitVec 64

/-- `nullref` is not zero. -/
def nullref : ValueU := BitVec.allOnes 64

def nullfidx : ℕ := u32Max

/-- A `func_addr`, `tab_addr`, `mem_addr` or `glob_addr`. -/
structure Addr where
  inst : ℕ
  idx : ℕ
  deriving DecidableEq, Repr

structure TypedValue where
  type : TypeId
  val : ValueU
  deriving DecidableEq, Repr

structure TableInst where
  tab : Table
  tdata : List ValueU := []
  deriving DecidableEq, Repr

structure MemoryInst where
  mem : Memory
  mdata : List UInt8 := []
  deriving DecidableEq, Repr

structure GlobalInst where
  glob : Global
  gvalue : ValueU := 0
  deriving DecidableEq, Repr

inductive ModuleInstState where
  | uninitialized | initFailed | ready
  deriving DecidableEq, Repr

/-- `mod_id` stands for the pointer to the module, `mod` for what it points to. A `func_inst` is
its function in `mod`. The address tables hold null until they are linked. -/
structure ModuleInst where
  state : ModuleInstState := .uninitialized
  modId : ℕ
  mod : Module
  tables : List TableInst := []
  droppedElements : List Bool := []
  memories : List MemoryInst := []
  droppedData : List Bool := []
  globals : List GlobalInst := []
  fAddrs : List (Option Addr) := []
  mAddrs : List (Option Addr) := []
  tAddrs : List (Option Addr) := []
  gAddrs : List (Option Addr) := []
  deriving DecidableEq, Repr

structure Thread where
  trapped : Bool := false
  frameDepth : ℕ := 0
  stackSize : ℕ := 0
  results : List TypedValue := []
  deriving DecidableEq, Repr

structure Vm where
  instances : List ModuleInst := []
  thread : Thread := {}
  deriving DecidableEq, Repr

/-- What the interpreter takes from its surroundings: the addresses of the `func_inst` records,
the host functions, and the arithmetic of the numeric instructions. -/
structure Platform where
  /-- `to_ref` -/
  toRef : Addr → ValueU
  /-- The `func_inst` at an address; `to_func_addr` is only a cast. -/
  toFuncAddr : ValueU → Option Addr
  /-- A trampoline: arguments and memory 0 in, results and memory 0 out. -/
  host : ℕ → List ValueU → Option (List UInt8) → R (List ValueU × Option (List UInt8))
  unop : Instr → ValueU → R ValueU
  binop : Instr → ValueU → ValueU → R ValueU

namespace Vm

def inst (vm : Vm) (k : ℕ) : R ModuleInst :=
  match vm.instances[k]? with
  | none => undef "module_inst"
  | some mi => .ok mi

/-- The function of a `func_inst`. -/
def func (vm : Vm) (a : Addr) : R Func :=
  match vm.instances[a.inst]?.bind (·.mod.funcs[a.idx]?) with
  | none => undef "func_inst"
  | some fn => .ok fn

def table (vm : Vm) (a : Addr) : R TableInst :=
  match vm.instances[a.inst]?.bind (·.tables[a.idx]?) with
  | none => undef "table_inst"
  | some t => .ok t

def memory (vm : Vm) (a : Addr) : R MemoryInst :=
  match vm.instances[a.inst]?.bind (·.memories[a.idx]?) with
  | none => undef "memory_inst"
  | some m => .ok m

def global (vm : Vm) (a : Addr) : R GlobalInst :=
  match vm.instances[a.inst]?.bind (·.globals[a.idx]?) with
  | none => undef "global_inst"
  | some g => .ok g

/-- An entry of an address table. -/
def addr (pick : ModuleInst → List (Option Addr)) (vm : Vm) (k idx : ℕ) : R Addr :=
  match vm.instances[k]?.bind (fun mi => (pick mi)[idx]?) with
  | some (some a) => .ok a
  | _ => undef "address table"

def modifyInst (k : ℕ) (f : ModuleInst → ModuleInst) (vm : Vm) : Vm :=
  { vm with instances := vm.instances.modify k f }

def setTable (a : Addr) (tdata : List ValueU) : Vm → Vm :=
  modifyInst a.inst fun mi => { mi with tables := mi.tables.modify a.idx ({ · with tdata := tdata }) }

def setMemory (a : Addr) (mdata : List UInt8) : Vm → Vm :=
  modifyInst a.inst fun mi => { mi with memories := mi.memories.modify a.idx ({ · with mdata := mdata }) }

def setGlobal (a : Addr) (gvalue : ValueU) : Vm → Vm :=
  modifyInst a.inst fun mi => { mi with globals := mi.globals.modify a.idx ({ · with gvalue := gvalue }) }

end Vm

/-! ### Constant expressions -/

section ConstExpr
variable (pf : Platform) (vm : Vm) (k : ℕ)

/-- The value of one instruction of a constant expression; `none` is `end`. -/
def constInstr (op : WasmOpcode) (code : Stream) : R (Option (TypedValue × Stream)) :=
  match op with
  | .i32Const => do
    let (v, code) ← code.readVi32
    .ok (some (⟨.i32, BitVec.ofNat 64 v⟩, code))
  | .i64Const => do
    let (v, code) ← code.readVi64
    .ok (some (⟨.i64, BitVec.ofNat 64 v⟩, code))
  | .f32Const => do
    let (v, code) ← code.readF32
    .ok (some (⟨.f32, BitVec.ofNat 64 v⟩, code))
  | .f64Const => do
    let (v, code) ← code.readF64
    .ok (some (⟨.f64, BitVec.ofNat 64 v⟩, code))
  | .refNull => do
    let (t, code) ← readType TypeId.isRef "Invalid reference type after ref.null" code
    .ok (some (⟨t, nullref⟩, code))
  | .refFunc => do
    let (fIdx, code) ← code.readVu32
    let a ← vm.addr (·.fAddrs) k fIdx
    .ok (some (⟨.funcref, pf.toRef a⟩, code))
  | .globalGet => do
    let (idx, code) ← code.readVu32
    let mi ← vm.inst k
    if idx ≥ mi.globals.length then err .invalid "Invalid global index"
    else do
      let a ← vm.addr (·.gAddrs) k idx
      let g ← vm.global a
      .ok (some (⟨g.glob.valtype, g.gvalue⟩, code))
  | .end_ => .ok none
  | _ => err .invalid "illegal opcode"

/-- Every round reads a byte, so the length of the code bounds the number of rounds. -/
def constExprLoop (passiveElem : Bool) : ℕ → Stream → List TypedValue → R (List TypedValue)
  | 0, _, valueStack => .ok valueStack
  | n + 1, code, valueStack =>
    if code.remaining = 0 then .ok valueStack
    else do
      let (opcode, code) ← code.readU8
      match WasmOpcode.ofByte? opcode with
      | none =>
        if passiveElem then err .malformed "illegal opcode" else err .invalid "illegal opcode"
      | some op =>
        if passiveElem ∧ op ≠ .refNull ∧ op ≠ .refFunc ∧ op ≠ .end_ then err .malformed "illegal opcode"
        else do
          let v ← constInstr pf vm k op code
          match v with
          | none => .ok valueStack
          | some (v, code) => constExprLoop passiveElem n code (v :: valueStack)

/-- `interp_reduce_const_expr` -/
def reduceConstExpr (expr : Str) (passiveElem : Bool) : R TypedValue := do
  let valueStack ← constExprLoop pf vm k passiveElem (expr.length + 1) (.from_ expr) []
  match valueStack with
  | [val] => .ok val
  | _ => err .invalid "illegal opcode"

end ConstExpr

/-! ### Element segments -/

abbrev VmM := Eff Fault Vm

section Elements
variable (pf : Platform) (k : ℕ)

/-- An entry of `v_funcidx` as a reference. -/
def funcidxRef (fIdx : ℕ) (vm : Vm) : R ValueU :=
  if fIdx ≠ nullfidx then do
    let a ← vm.addr (·.fAddrs) k fIdx
    .ok (pf.toRef a)
  else .ok nullref

/-- An entry of `v_expr` as a reference. -/
def exprRef (passiveElem : Bool) (expr : Str) (vm : Vm) : R ValueU := do
  let val ← reduceConstExpr pf vm k expr passiveElem
  if !val.type.isRef then err .invalid "Incorrect element constexpr return type" else .ok val.val

/-- `size` entries of a vector from `src` on. -/
def vecSlice {α : Type} (what : String) (xs : List α) (src size : ℕ) : R (List α) :=
  if xs.length < src + size then undef what else .ok ((xs.drop src).take size)

/-- The references of an element segment from `src` on, `size` of them. Both copies of the loop,
in `vm.c` and in `table.init`, take them like this. -/
def elemRefs (passiveElem : Bool) (elem : Element) (src size : ℕ) : R (List (Vm → R ValueU)) :=
  if elem.vFuncidx ≠ [] then do
    let idxs ← vecSlice "v_funcidx" elem.vFuncidx src size
    .ok (idxs.map (funcidxRef pf k))
  else if elem.vExpr ≠ [] then do
    let exprs ← vecSlice "v_expr" elem.vExpr src size
    .ok (exprs.map (exprRef pf k passiveElem))
  else if elem.dataLen ≠ 0 then undef "assert(0)"
  else .ok []

/-- One entry of a segment is put into a table. -/
def putRef (a : Addr) (i : ℕ) (ref : Vm → R ValueU) : VmM Unit := do
  let v ← Eff.read ref
  let t ← Eff.read fun vm => vm.table a
  if i < t.tdata.length then Eff.modify (Vm.setTable a (t.tdata.set i v))
  else Eff.fail (.undefined "table element")

def putRefs (a : Addr) : ℕ → List (Vm → R ValueU) → VmM Unit
  | _, [] => pure ()
  | i, ref :: refs => do
    putRef a i ref
    putRefs a (i + 1) refs

end Elements

end Silverfir
