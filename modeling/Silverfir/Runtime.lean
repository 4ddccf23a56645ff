import Silverfir.Calls

/-! The runtime, `runtime.c`: modules and VMs, and how many instances each module has. -/
namespace Silverfir

/-- A `module` in the list of the runtime. `id` stands for the pointer to it. -/
structure RtModule where
  id : ℕ
  mod : Module
  refCount : BitVec 32 := 0
  deriving DecidableEq, Repr

structure RtVm where
  id : ℕ
  sys : System := {}
  deriving DecidableEq, Repr

structure Runtime where
  modules : List RtModule := []
  vms : List RtVm := []
  deriving DecidableEq, Repr

/-- The allocations of one operation that fail. -/
structure Alloc where
  /-- One of those of `module_init`, with its error. -/
  init : Option (ErrType × String) := none
  validate : Bool := false
  instNew : Bool := false
  listPush : Bool := false
  start : Bool := false

def listPush {α : Type} (alloc : Alloc) (xs : List α) (x : α) : R (List α) :=
  if alloc.listPush then err .general "list: out of memory" else .ok (xs ++ [x])

/-! ### Modules -/

/-- `module_drop` -/
def moduleDrop (m : RtModule) : R Unit :=
  if m.refCount ≠ 0 then err .general "Can't drop the module because it's in use (ref_count > 0)" else .ok ()

/-- `module_inst_new`, as far as the module is concerned. -/
def RtModule.retain (m : RtModule) : RtModule := { m with refCount := m.refCount + 1 }

/-- `module_inst_drop` -/
def RtModule.release (m : RtModule) : R RtModule :=
  if m.refCount = 0 then undef "assert(mod_inst->mod->ref_count)"
  else .ok { m with refCount := m.refCount - 1 }

/-- Work on the module behind a pointer. -/
def atModule (id : ℕ) (f : RtModule → R RtModule) : List RtModule → R (List RtModule)
  | [] => undef "module"
  | m :: ms =>
    if m.id = id then do
      let m ← f m
      .ok (m :: ms)
    else do
      let ms ← atModule id f ms
      .ok (m :: ms)

/-- `vm_drop`: the instances in order. -/
def vmDrop : List ModuleInst → List RtModule → R (List RtModule)
  | [], ms => .ok ms
  | mi :: rest, ms => do
    let ms ← atModule mi.modId RtModule.release ms
    vmDrop rest ms

namespace Runtime
variable (rt : Runtime)

/-- `runtime_module_add_mod` -/
def moduleAddMod (alloc : Alloc) (id : ℕ) (mod : Module) : R Runtime :=
  if rt.modules.any fun m => m.mod.names.any fun n => mod.names.contains n then
    err .general "Module name conflict"
  else do
    let modules ← listPush alloc rt.modules { id := id, mod := mod }
    .ok { rt with modules := modules }

/-- A module that was not added is dropped again. -/
def dropTemporary (m : RtModule) (x : R Runtime) : R Runtime :=
  match x with
  | .ok rt => .ok rt
  | .error e =>
    match moduleDrop m with
    | .ok _ => .error e
    | .error _ => undef "assert(is_ok(ret))"

/-- `runtime_module_add`; the module gets an address of its own. -/
def moduleAdd (alloc : Alloc) (id : ℕ) (bin name : Str) : R Runtime :=
  match alloc.init with
  | some (t, msg) => dropTemporary { id := id, mod := {} } (err t msg)
  | none =>
    match moduleInit bin name with
    | .error e => dropTemporary { id := id, mod := {} } (.error e)
    | .ok mod => dropTemporary { id := id, mod := mod } (rt.moduleAddMod alloc id mod)

/-- `runtime_module_drop` -/
def moduleDrop (id : ℕ) : R Runtime :=
  match rt.modules.find? (·.id == id) with
  | none => err .general "The module isn't owned by the runtime"
  | some m => do
    Silverfir.moduleDrop m
    .ok { rt with modules := rt.modules.eraseP (·.id == id) }

/-- `runtime_vm_new` -/
def vmNew (alloc : Alloc) (id : ℕ) : R Runtime := do
  let vms ← listPush alloc rt.vms { id := id }
  .ok { rt with vms := vms }

/-- `runtime_vm_drop` -/
def vmDrop (id : ℕ) : R Runtime :=
  match rt.vms.find? (·.id == id) with
  | none => err .general "The vm isn't owned by the runtime"
  | some v => do
    let modules ← Silverfir.vmDrop v.sys.vm.instances rt.modules
    .ok { modules := modules, vms := rt.vms.eraseP (·.id == id) }

def dropVms : List RtVm → List RtModule → R (List RtModule)
  | [], ms => .ok ms
  | v :: vms, ms => do
    let ms ← Silverfir.vmDrop v.sys.vm.instances ms
    dropVms vms ms

def dropModules : List RtModule → R Unit
  | [] => .ok ()
  | m :: ms =>
    if m.refCount ≠ 0 then undef "assert(!iter->ref_count)"
    else do
      Silverfir.moduleDrop m
      dropModules ms

/-- `runtime_drop` -/
def drop : R Runtime := do
  let modules ← dropVms rt.vms rt.modules
  dropModules modules
  .ok {}

end Runtime

/-! ### Instantiation -/

/-- What `vm_instantiate_module` makes of the module and of the VM. `left` is what a validation
that fails leaves in the functions of the module. The instance is made on the stack of the
function and dropped there when it does not get into the list. -/
def vmInstantiateModule (pf : Platform) (alloc : Alloc) (left : Module) (vm : Vm) (m : RtModule) :
    R (System × RtModule) :=
  if vm.instances.any (·.modId == m.id) then .ok ({ vm := vm }, m)
  else if alloc.validate then .ok ({ vm := vm }, { m with mod := left })
  else
    match validateFuncs m.mod.funcs.length m.mod with
    | .error (.undefined what) => undef what
    | .error (.err _ _) => .ok ({ vm := vm }, { m with mod := left })
    | .ok mod => do
      let made := { m with mod := mod }.retain
      if alloc.instNew || alloc.listPush then do
        let dropped ← made.release
        .ok ({ vm := vm }, dropped)
      else do
        -- linking, initialisation and the start function; the validation in it is the one above
        let s ← instantiateStep pf vm m.id m.mod
        match s.running with
        | some r => .ok (if alloc.start then abort s.vm r else s, made)
        | none => .ok (s, made)

/-- `vm_instantiate_module`, for the VM at `i` and a module of the runtime. -/
def Runtime.instantiate (pf : Platform) (rt : Runtime) (alloc : Alloc) (left : Module) (i id : ℕ) : R Runtime :=
  match rt.vms[i]?, rt.modules.find? (·.id == id) with
  | some v, some m => do
    let (sys, m) ← vmInstantiateModule pf alloc left v.sys.vm m
    let modules ← atModule id (fun _ => .ok m) rt.modules
    .ok { modules := modules, vms := rt.vms.set i { v with sys := sys } }
  | _, _ => undef "pointer"

/-! ### Runs -/

/-- The module of each `module_inst` in the lists of the VMs. -/
def Runtime.records (rt : Runtime) : List ℕ := rt.vms.flatMap (·.sys.vm.modIds)

/-- An operation that fails leaves the runtime as it is. -/
def Runtime.after (rt : Runtime) : R Runtime → Option Runtime
  | .ok rt' => some rt'
  | .error (.err _ _) => some rt
  | .error (.undefined _) => none

/-- One operation, or one step of what runs in a VM. -/
inductive RtStep (pf : Platform) : Runtime → Runtime → Prop
  | moduleAdd {rt rt' alloc id bin name} (hid : ∀ m ∈ rt.modules, m.id ≠ id)
      (h : rt.after (rt.moduleAdd alloc id bin name) = some rt') : RtStep pf rt rt'
  | moduleDrop {rt rt' id} (h : rt.after (rt.moduleDrop id) = some rt') : RtStep pf rt rt'
  | vmNew {rt rt' alloc id} (hid : ∀ v ∈ rt.vms, v.id ≠ id) (h : rt.after (rt.vmNew alloc id) = some rt') :
      RtStep pf rt rt'
  | vmDrop {rt rt' id} (h : rt.after (rt.vmDrop id) = some rt') : RtStep pf rt rt'
  | instantiate {rt rt' v alloc left i id} (hv : rt.vms[i]? = some v) (hidle : v.sys.running = none)
      (h : rt.after (rt.instantiate pf alloc left i id) = some rt') : RtStep pf rt rt'
  | vm {rt v s i} (hv : rt.vms[i]? = some v) (h : SysStep pf (fun _ => False) v.sys s) :
      RtStep pf rt { rt with vms := rt.vms.set i { v with sys := s } }

/-- The numbers of instances stay within the `u32` that counts them. -/
def Runtime.Few (rt : Runtime) : Prop := rt.records.length < 2 ^ 32

def RtRun (pf : Platform) : Runtime → Prop :=
  Relation.ReflTransGen (fun rt rt' => RtStep pf rt rt' ∧ rt'.Few) {}

end Silverfir
