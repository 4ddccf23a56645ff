import Silverfir.Exec

/-! Instantiation, `vm.c`: a module is validated, gets an instance, is linked with the instances
before it, and its globals, elements and data are initialised. A failure leaves the instance and
what was done so far in the VM. -/
namespace Silverfir

/-- The loop over the functions. Validation reads types and local counts of the other functions,
and changes neither. -/
def validateFuncs : ℕ → Module → R Module
  | 0, mod => .ok mod
  | n + 1, mod => do
    let mod ← validateFuncs n mod
    match mod.funcs[n]? with
    | none => .ok mod
    | some fn =>
      if fn.linkage.imported then .ok mod
      else do
        let fn ← validateFunc mod fn
        .ok { mod with funcs := mod.funcs.set n fn }

/-- A table of the instance: the imported ones stay empty. -/
def newTable (mod : Module) (i : ℕ) (tab : Table) : TableInst :=
  { tab := tab, tdata := if i ≥ mod.importedTableCount then List.replicate tab.lim.min nullref else [] }

/-- The size in bytes is a 32-bit product. -/
def newMemory (mod : Module) (i : ℕ) (mem : Memory) : MemoryInst :=
  { mem := mem
    mdata := if i ≥ mod.importedMemCount then List.replicate (mem.lim.min * wasmPageSize % 2 ^ 32) 0 else [] }

def moduleInstNew (modId : ℕ) (mod : Module) : ModuleInst where
  modId := modId
  mod := mod
  tables := mod.tables.mapIdx (newTable mod)
  droppedElements := List.replicate mod.elements.length false
  memories := mod.memories.mapIdx (newMemory mod)
  droppedData := List.replicate mod.data.length false
  globals := mod.globals.map fun g => { glob := g }
  fAddrs := List.replicate mod.funcs.length none
  mAddrs := List.replicate mod.memories.length none
  tAddrs := List.replicate mod.tables.length none
  gAddrs := List.replicate mod.globals.length none

/-- The last instance with the name: the inner loop alone is left by `break`. -/
def Vm.findModuleInst (vm : Vm) (name : Str) : Option ℕ :=
  vm.instances.findIdxs (fun mi => mi.mod.names.contains name) |>.getLast?

/-! ### Linking -/

/-- The target of an import: the first export of the kind and name. `check` compares the two. -/
def linkImport (kind : ExternalKind) (pick : ModuleInst → List (Option Addr)) (notFound : String)
    (check : Vm → Addr → R Unit) (path : ImportPath) (vm : Vm) : R Addr :=
  match vm.findModuleInst path.module with
  | none => err .invalid "Imports: module instance not found"
  | some target => do
    let mi ← vm.inst target
    match mi.mod.exports.find? fun exp => exp.externalKind == kind && exp.name == path.field with
    | none => err .invalid notFound
    | some exp => do
      let a ← vm.addr pick target exp.externalIdx
      check vm a
      .ok a

def linkFunc (f : Func) : Vm → R Addr :=
  linkImport .func (·.fAddrs) "Imports: function not found" (fun vm a => do
    let tgt ← vm.func a
    if !funcTypeEq f.fnType tgt.fnType then err .invalid "Function type mismatch" else .ok ()) f.path

def linkGlobal (g : Global) : Vm → R Addr :=
  linkImport .global (·.gAddrs) "Imports: global not found" (fun vm a => do
    let tgt ← vm.global a
    if tgt.glob.mut_ ≠ g.mut_ then
      err .invalid "Imported global value's mut flag doesn't match the target"
    else if tgt.glob.valtype ≠ g.valtype then err .invalid "Imported global value value type mismatch"
    else .ok ()) g.path

def linkMemory (mem : Memory) : Vm → R Addr :=
  linkImport .memory (·.mAddrs) "Imports: memory not found" (fun vm a => do
    let tgt ← vm.memory a
    if mem.lim.min > tgt.mdata.length / wasmPageSize then
      err .invalid "mem import's min length should be at most the imported mem's min length"
    else if mem.lim.max < tgt.mem.lim.max then
      err .invalid "mem import's max length should be at least the imported mem's max length"
    else .ok ()) mem.path

def linkTable (tab : Table) : Vm → R Addr :=
  linkImport .table (·.tAddrs) "Imports: table not found" (fun vm a => do
    let tgt ← vm.table a
    if tab.valtype ≠ tgt.tab.valtype then err .invalid "table type mismatch"
    else if tab.lim.min > tgt.tab.lim.min then
      err .invalid "table import's min length should be at most the imported table's min length"
    else if tab.lim.max < tgt.tab.lim.max then
      err .invalid "table import's max length should be at least the imported table's max length"
    else .ok ()) tab.path

/-- One of the four loops: entry `i` of the address table is the own definition or the target. -/
def linkEntry {α : Type} (k : ℕ) (linkage : α → Linkage) (link : α → Vm → R Addr)
    (put : ℕ → Addr → ModuleInst → ModuleInst) (x : ℕ × α) : VmM Unit := do
  let a ← Eff.read fun vm => if !(linkage x.2).imported then .ok ⟨k, x.1⟩ else link x.2 vm
  Eff.modify (Vm.modifyInst k (put x.1 a))

def putFAddr (i : ℕ) (a : Addr) (mi : ModuleInst) : ModuleInst := { mi with fAddrs := mi.fAddrs.set i (some a) }
def putGAddr (i : ℕ) (a : Addr) (mi : ModuleInst) : ModuleInst := { mi with gAddrs := mi.gAddrs.set i (some a) }
def putMAddr (i : ℕ) (a : Addr) (mi : ModuleInst) : ModuleInst := { mi with mAddrs := mi.mAddrs.set i (some a) }
def putTAddr (i : ℕ) (a : Addr) (mi : ModuleInst) : ModuleInst := { mi with tAddrs := mi.tAddrs.set i (some a) }

/-- The elements of a list with their positions. -/
def indexed {α : Type} (xs : List α) : List (ℕ × α) := xs.mapIdx fun i x => (i, x)

def linkModuleInst (k : ℕ) (mod : Module) : VmM Unit := do
  Eff.each (linkEntry k (·.linkage) linkFunc putFAddr) (indexed mod.funcs)
  Eff.each (linkEntry k (·.linkage) linkGlobal putGAddr) (indexed mod.globals)
  Eff.each (linkEntry k (·.linkage) linkMemory putMAddr) (indexed mod.memories)
  Eff.each (linkEntry k (·.linkage) linkTable putTAddr) (indexed mod.tables)

/-! ### Initialisation -/

section Init
variable (pf : Platform) (k : ℕ)

def initGlobal (mod : Module) (x : ℕ × Global) : VmM Unit :=
  if x.1 < mod.importedGlobalCount then pure ()
  else do
    let val ← Eff.read fun vm => reduceConstExpr pf vm k x.2.expr false
    if x.2.valtype ≠ val.type then Eff.fail (.err .invalid "Incorrect global constexpr return type")
    else Eff.modify (Vm.setGlobal ⟨k, x.1⟩ val.val)

/-- The value of an offset expression, as a `u32`. -/
def offsetOf (msg : String) (expr : Str) (vm : Vm) : R ℕ := do
  let val ← reduceConstExpr pf vm k expr false
  if val.type ≠ .i32 then err .invalid msg else .ok (InPlaceDt.lo32 val.val)

/-- The sum of offset and length is a `size_t`. -/
def initElemActive (mod : Module) (elem : Element) : VmM Unit := do
  let mi ← Eff.read fun vm => vm.inst k
  if elem.tableidx ≥ mi.tAddrs.length then Eff.fail (.err .invalid "Element without matching table instance")
  else do
    let a ← Eff.read fun vm => vm.addr (·.tAddrs) k elem.tableidx
    if elem.tableidx ≥ mod.tables.length then Eff.fail (.err .invalid "Invalid table index")
    else do
      let offset ← Eff.read fun vm =>
        if elem.offsetExpr = [] then .ok 0
        else offsetOf pf k "Incorrect element constexpr return type" elem.offsetExpr vm
      let t ← Eff.read fun vm => vm.table a
      if offset + elem.dataLen > t.tdata.length then Eff.fail (.err .invalid "Invalid offset")
      else do
        let refs ← Eff.lift (elemRefs pf k false elem 0 elem.dataLen)
        putRefs a offset refs

def dropElem (i : ℕ) : VmM Unit :=
  Eff.modify (Vm.modifyInst k fun mi => { mi with droppedElements := mi.droppedElements.set i true })

def initElem (mod : Module) (x : ℕ × Element) : VmM Unit := do
  if x.2.mode = .active then initElemActive pf k mod x.2 else pure ()
  if x.2.mode ≠ .passive then dropElem k x.1 else pure ()

def initDataActive (i : ℕ) (d : Data) : VmM Unit := do
  let mi ← Eff.read fun vm => vm.inst k
  if d.memidx ≥ mi.memories.length then Eff.fail (.err .invalid "Missing memory section")
  else do
    let a ← Eff.read fun vm => vm.addr (·.mAddrs) k d.memidx
    let offset ← Eff.read (offsetOf pf k "Incorrect data constexpr return type" d.offsetExpr)
    let m ← Eff.read fun vm => vm.memory a
    if offset + d.bytes.length > m.mdata.length then Eff.fail (.err .invalid "Invalid data section")
    else do
      Eff.modify (Vm.setMemory a (InPlaceDt.overwrite m.mdata offset d.bytes))
      Eff.modify (Vm.modifyInst k fun mi => { mi with droppedData := mi.droppedData.set i true })

def initData (x : ℕ × Data) : VmM Unit :=
  if !x.2.isActive then pure () else initDataActive pf k x.1 x.2

def moduleInstInit (mod : Module) : VmM Unit := do
  Eff.each (initGlobal pf k mod) (indexed mod.globals)
  Eff.each (initElem pf k mod) (indexed mod.elements)
  Eff.each (initData pf k) (indexed mod.data)

end Init

end Silverfir
