import Silverfir.Instantiate

/-! The whole system: one VM, in which modules are instantiated and functions are called, and the
calls of `in_place_dt_call` that are active. A step is one pass of the loop of the innermost call. -/
namespace Silverfir

open InPlaceDt

def silverfirStackFrameLimit : ℕ := 256
def silverfirStackSizeLimit : ℕ := 100 * 1024

/-- An active `in_place_dt_call`. `args` is the number of slots from the pointer `args`, where the
locals are, to the end of the buffer it points into. -/
structure Frame where
  fAddr : Addr
  act : Act ValueU
  locals : List ValueU
  args : ℕ
  deriving DecidableEq, Repr

/-- What happens when the outermost call returns: the results go to the thread of the VM, or an
instance becomes ready. -/
inductive Cont where
  | invoke (type : FuncType)
  | start (inst : ℕ)
  deriving DecidableEq, Repr

/-- The active calls, the innermost first, and the thread they run in. -/
structure Running where
  frames : List Frame
  thread : Thread
  cont : Cont
  deriving DecidableEq, Repr

structure System where
  vm : Vm := {}
  running : Option Running := none
  deriving DecidableEq, Repr

/-- The prologue of `in_place_dt_call`. -/
def enter (vm : Vm) (t : Thread) (fAddr : Addr) (params : List ValueU) (args : ℕ) : R (Frame × Thread) := do
  if t.frameDepth > silverfirStackFrameLimit then err .exhaustion "Stack frame reached limit"
  else if t.stackSize > silverfirStackSizeLimit then err .exhaustion "Stack reached size limit"
  else do
    let fn ← vm.func fAddr
    if fn.localCount < fn.fnType.paramCount then undef "locals"
    else
      .ok (
        { fAddr := fAddr
          act := ⟨Regs.start, []⟩
          locals := params ++ List.replicate (fn.localCount - fn.fnType.paramCount) 0
          args := args },
        { t with frameDepth := u32 (t.frameDepth + 1), stackSize := u32 (t.stackSize + fn.stackSizeMax) })

/-- The counters when a call returns. -/
def Thread.leave (t : Thread) (fn : Func) : Thread :=
  { t with
    frameDepth := u32 (t.frameDepth + 2 ^ 32 - 1)
    stackSize := u32 (t.stackSize + 2 ^ 32 - fn.stackSizeMax) }

/-- The run is over without a result. -/
def abort (vm : Vm) (r : Running) : System :=
  match r.cont with
  | .invoke _ => { vm := { vm with thread := { r.thread with trapped := true } } }
  | .start k => { vm := vm.modifyInst k ({ · with state := .initFailed }) }

/-- `check`: an error ends the run. -/
def checked {α : Type} (vm : Vm) (r : Running) (x : R α) (next : α → R System) : R System :=
  match x with
  | .ok a => next a
  | .error (.err _ _) => .ok (abort vm r)
  | .error (.undefined what) => undef what

/-- The result types of `interp_call_in_thread`, read from the raw bytes. -/
def typedResults : ℕ → Stream → List ValueU → R (List TypedValue)
  | 0, _, _ => .ok []
  | n + 1, st, vals => do
    let (t, st) ← st.readVi7
    match TypeId.ofI8? t, vals with
    | some t, v :: vals => do
      let ts ← typedResults n st vals
      .ok (⟨t, v⟩ :: ts)
    | _, _ => undef "results"

/-- The outermost call has returned, with its results in declaration order. -/
def finish (vm : Vm) (r : Running) (results : List ValueU) : R System :=
  match r.cont with
  | .invoke type => do
    let vals ← typedResults type.resultCount (.from_ type.results) results
    .ok { vm := { vm with thread := { r.thread with results := vals } } }
  | .start k => .ok { vm := vm.modifyInst k ({ · with state := .ready }) }

/-- Exactly `n` values, as many as `sp` moves over. -/
def fit (n : ℕ) (vals : List ValueU) : List ValueU := (vals ++ List.replicate n 0).take n

section Step
variable (pf : Platform)

/-- `mem_inst0` of a frame, null when the instance has no memory. -/
def mem0Of (vm : Vm) (fr : Frame) : Option Addr :=
  vm.instances[fr.fAddr.inst]?.bind fun mi => (mi.mAddrs[0]?).join

/-- A call of a trampoline. -/
def hostCall (vm : Vm) (r : Running) (fr : Frame) (rest : List Frame) (a : Act ValueU) (callee : Func)
    (id : ℕ) (params : List ValueU) : R System :=
  let mem := mem0Of vm fr
  let bytes := mem.bind fun m => (vm.memory m).toOption.map (·.mdata)
  checked vm r (pf.host id params bytes) fun (results, bytes) =>
    let vm := match mem, bytes with
      | some m, some b => vm.setMemory m b
      | _, _ => vm
    let stack := (fit callee.fnType.resultCount results).reverse ++ a.stack
    .ok { vm := vm, running := some { r with frames := { fr with act := { a with stack := stack } } :: rest } }

/-- A call with its arguments popped: the registers of the caller are those after the call. -/
def callFunc (vm : Vm) (r : Running) (fr : Frame) (rest : List Frame) (a : Act ValueU) (callee : Addr)
    (fn : Func) (params : List ValueU) (args : ℕ) : R System :=
  match fn.hostFunc with
  | some id => hostCall pf vm r fr rest a fn id params
  | none =>
    checked vm r (enter vm r.thread callee params args) fun (fr', t) =>
      .ok { vm := vm, running := some { r with frames := fr' :: { fr with act := a } :: rest, thread := t } }

/-- `sp -= param_count` -/
def popParams (fn : Func) (a : Act ValueU) : R (List ValueU × Act ValueU) :=
  let n := fn.fnType.paramCount
  if a.stack.length < n then undef "pop below stack_base"
  else .ok ((a.stack.take n).reverse, { a with stack := a.stack.drop n })

/-- `OP(call)` -/
def opCall (vm : Vm) (r : Running) (fr : Frame) (rest : List Frame) (fn : Func) (a : Act ValueU) (idx : ℕ) :
    R System := do
  let callee ← vm.addr (·.fAddrs) fr.fAddr.inst idx
  let calleeFn ← vm.func callee
  let (params, a) ← popParams calleeFn a
  callFunc pf vm r fr rest a callee calleeFn params (fn.stackSizeMax - a.stack.length)

/-- The callee of `OP(call_indirect)`, or the trap. -/
def indirectCallee (vm : Vm) (k typeIdx tableIdx i : ℕ) : R Addr := do
  let mi ← vm.inst k
  match mi.mod.funcTypes[typeIdx]? with
  | none => undef "func_types"
  | some srcType => do
    let t ← vm.addr (·.tAddrs) k tableIdx
    let tab ← vm.table t
    match tab.tdata[i]? with
    | none => err .general "call_indirect: invalid table element index"
    | some fref =>
      if fref = nullref then err .general "call_indirect: element is ref.null"
      else
        match pf.toFuncAddr fref with
        | none => undef "func_addr"
        | some callee => do
          let calleeFn ← vm.func callee
          if !funcTypeEq calleeFn.fnType srcType then err .general "call_indirect: function type mismatch"
          else .ok callee

/-- The index is read as `u_i32` and widened to 64 bits. -/
def indirectIndex (v : ValueU) : ℕ := ((BitVec.setWidth 32 v).signExtend 64).toNat

/-- The buffer that `OP(call_indirect)` passes: a copy of `local_count` slots if the callee has
locals of its own, the rest of the caller's stack otherwise. -/
def indirectArgs (fn calleeFn : Func) (sp : ℕ) : ℕ :=
  if calleeFn.localCount ≠ calleeFn.fnType.paramCount then calleeFn.localCount else fn.stackSizeMax - sp

def opCallIndirect (vm : Vm) (r : Running) (fr : Frame) (rest : List Frame) (fn : Func) (a : Act ValueU)
    (typeIdx tableIdx : ℕ) : R System :=
  match a.stack with
  | [] => undef "pop below stack_base"
  | v :: stack =>
    checked vm r (indirectCallee pf vm fr.fAddr.inst typeIdx tableIdx (indirectIndex v)) fun callee => do
      let calleeFn ← vm.func callee
      let (params, a) ← popParams calleeFn { a with stack := stack }
      callFunc pf vm r fr rest a callee calleeFn params (indirectArgs fn calleeFn a.stack.length)

/-- A plain instruction. -/
def opPlain (vm : Vm) (r : Running) (fr : Frame) (rest : List Frame) (i : Instr) (a : Act ValueU) : R System :=
  let n := operandCount i
  if a.stack.length < n then undef "pop below stack_base"
  else
    match effect pf fr.fAddr.inst i (a.stack.take n) ⟨vm, fr.locals⟩ with
    | (.ok results, s) =>
      let fr := { fr with act := { a with stack := results ++ a.stack.drop n }, locals := s.locals }
      .ok { vm := s.vm, running := some { r with frames := fr :: rest } }
    | (.error (.err _ _), s) => .ok (abort s.vm r)
    | (.error (.undefined what), _) => undef what

/-- The end of `in_place_dt_call`: the results are moved to where the arguments were, and the
caller moves its `sp` over them. -/
def opFinish (vm : Vm) (r : Running) (rest : List Frame) (fn : Func) (stack : List ValueU) : R System :=
  let arity := fn.fnType.resultCount
  if stack.length < arity then undef "results below stack_base"
  else
    let results := stack.take arity
    let r := { r with thread := r.thread.leave fn }
    match rest with
    | [] => finish vm r results.reverse
    | caller :: rest =>
      let caller := { caller with act := { caller.act with stack := results ++ caller.act.stack } }
      .ok { vm := vm, running := some { r with frames := caller :: rest } }

/-- One pass of the loop. -/
def runStep (vm : Vm) (r : Running) : R System :=
  match r.frames with
  | [] => undef "no frame"
  | fr :: rest => do
    let fn ← vm.func fr.fAddr
    let out ← actStep fn lo32 fr.act
    match out with
    | .trap => .ok (abort vm r)
    | .next a => .ok { vm := vm, running := some { r with frames := { fr with act := a } :: rest } }
    | .finish stack => opFinish vm r rest fn stack
    | .plain (.call idx) a => opCall pf vm r fr rest fn a idx
    | .plain (.callIndirect typeIdx tableIdx) a => opCallIndirect pf vm r fr rest fn a typeIdx tableIdx
    | .plain i a => opPlain pf vm r fr rest i a

/-! ### Operations of the host -/

/-- `vm_find_module_func`: an exported function of a ready instance. -/
def Vm.findModuleFunc (vm : Vm) (k : ℕ) (name : Str) : Option Addr :=
  vm.instances[k]?.bind fun mi =>
    if mi.state ≠ .ready then none
    else (mi.mod.exports.find? fun exp => exp.name == name && exp.externalKind == .func).bind fun exp =>
      mi.fAddrs[exp.externalIdx]?.join

/-- The arguments of `interp_call_in_thread` have the types of the parameters. -/
def argsMatch : Stream → List TypedValue → R Bool
  | _, [] => .ok true
  | st, a :: args => do
    let (t, st) ← st.readVi7
    if a.type.code ≠ t then .ok false else argsMatch st args

/-- `interp_call_in_thread`, up to the first pass of the loop. -/
def callInThread (vm : Vm) (t : Thread) (fAddr : Addr) (argv : List TypedValue) (cont : FuncType → Cont) :
    R Running := do
  if t.trapped then err .general "Thread is in trapped state"
  else do
    let fn ← vm.func fAddr
    let ft := fn.fnType
    if ft.paramCount ≠ argv.length then err .general "Incorrect amount of args"
    else do
      let ok ← argsMatch (.from_ ft.params) argv
      if !ok then err .general "Argument type mismatch"
      else do
        let (fr, t) ← enter vm t fAddr (argv.map (·.val)) (max fn.localCount ft.resultCount)
        .ok { frames := [fr], thread := t, cont := cont ft }

/-- `vm_instantiate_module`, up to the call of the start function: the start function, if there
is one, and the instance. -/
def instantiate (modId : ℕ) (mod : Module) : VmM (Option (ℕ × Option ℕ)) := do
  let vm ← Eff.get
  if vm.instances.any (·.modId == modId) then pure none
  else do
    let mod ← Eff.lift (validateFuncs mod.funcs.length mod)
    let k := vm.instances.length
    Eff.modify fun vm => { vm with instances := vm.instances ++ [moduleInstNew modId mod] }
    linkModuleInst k mod
    moduleInstInit pf k mod
    pure (some (k, mod.startFuncidx))

/-- An instance that failed after it was made. -/
def failLast (n : ℕ) (vm : Vm) : Vm :=
  if vm.instances.length = n then vm else vm.modifyInst n ({ · with state := .initFailed })

/-- The VM after `vm_instantiate_module`, or the start function running. -/
def instantiateStep (vm : Vm) (modId : ℕ) (mod : Module) : R System :=
  match instantiate pf modId mod vm with
  | (.error (.undefined what), _) => undef what
  | (.error (.err _ _), vm') => .ok { vm := failLast vm.instances.length vm' }
  | (.ok none, vm') => .ok { vm := vm' }
  | (.ok (some (k, none)), vm') => .ok { vm := vm'.modifyInst k ({ · with state := .ready }) }
  | (.ok (some (k, some idx)), vm') => do
    let fAddr ← vm'.addr (·.fAddrs) k idx
    match callInThread vm' {} fAddr [] (fun _ => .start k) with
    | .error (.undefined what) => undef what
    | .error (.err _ _) => .ok { vm := vm'.modifyInst k ({ · with state := .initFailed }) }
    | .ok r => .ok { vm := vm', running := some r }

/-- What can happen in a VM: a pass of the loop, or, when nothing runs, a call or an instantiation
by the host, which has the modules `mods`. -/
inductive SysStep (mods : Module → Prop) : System → System → Prop
  | run {vm r s} (h : runStep pf vm r = .ok s) : SysStep mods ⟨vm, some r⟩ s
  | invoke {vm k name a argv r} (hf : vm.findModuleFunc k name = some a)
      (h : callInThread vm vm.thread a argv .invoke = .ok r) : SysStep mods ⟨vm, none⟩ ⟨vm, some r⟩
  | reset {vm} : SysStep mods ⟨vm, none⟩ ⟨{ vm with thread := {} }, none⟩
  | instantiate {vm modId mod s} (hm : mods mod) (h : instantiateStep pf vm modId mod = .ok s) :
      SysStep mods ⟨vm, none⟩ s

end Step

end Silverfir
