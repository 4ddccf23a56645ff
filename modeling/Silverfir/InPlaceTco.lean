import Silverfir.Machine

/-! The interpreter with tail calls, `in_place_tco.c`. Its handlers are copies of those of
`in_place_dt.c` except that each call keeps the address and the size of memory 0 in its context. A
handler returns a bare message; `general` stands for the class that is missing. -/
namespace Silverfir.InPlaceTco

open InPlaceDt (Act Outcome Exec lo32 ofU32 minusOne trap outside ofVm modifyVm arg1 arg2 arg3 accessWidth loadValue
  storeBytes overwrite tabInst opcodeAt)

/-- `mem0` and `mem0_size`. The pointer is good for as long as the memory has not moved. -/
structure Mem0 where
  size : ℕ := 0
  valid : Bool := true
  deriving DecidableEq, Repr

/-- What `in_place_tco_call` puts into its context. -/
def takeMem0 (vm : Vm) (k : ℕ) : R Mem0 := do
  let mi ← vm.inst k
  if mi.mAddrs.length = 0 then .ok {}
  else do
    let a ← vm.addr (·.mAddrs) k 0
    let m ← vm.memory a
    .ok { size := m.mdata.length }

section Handlers
variable (pf : Platform) (k : ℕ) (c : Mem0)

/-- The memory that `mem0` points into. -/
def deref : Exec (Addr × MemoryInst) := if c.valid then InPlaceDt.mem0 k else outside "mem0"

def readMem0 (p n : ℕ) : Exec (List UInt8) := do
  let (_, m) ← deref k c
  if p + n > m.mdata.length then outside "mem0" else pure ((m.mdata.drop p).take n)

def writeMem0 (p : ℕ) (bytes : List UInt8) : Exec (List ValueU) := do
  let (a, m) ← deref k c
  if p + bytes.length > m.mdata.length then outside "mem0"
  else do
    modifyVm (Vm.setMemory a (overwrite m.mdata p bytes))
    pure []

/-- `MEM_LOAD_OP` -/
def memLoad (op : WasmOpcode) (offset : ℕ) (base : ValueU) : Exec (List ValueU) :=
  let memIdx := lo32 base + offset
  if memIdx + accessWidth op > c.size then trap "t.load: out-of-bound memory access"
  else do
    let bytes ← readMem0 k c memIdx (accessWidth op)
    pure [loadValue op bytes]

/-- `MEM_STORE_OP` -/
def memStore (op : WasmOpcode) (offset : ℕ) (val base : ValueU) : Exec (List ValueU) :=
  let memIdx := lo32 base + offset
  if memIdx + accessWidth op > c.size then trap "t.store: out-of-bound memory access"
  else writeMem0 k c memIdx (storeBytes (accessWidth op) val)

def memorySize : Exec (List ValueU) := pure [ofU32 (c.size / wasmPageSize)]

/-- The new size is computed from `mem0_size`. `vec_at_u8` asserts that there is a first byte. -/
def memoryGrow (nPages : ValueU) : Exec (List ValueU × Mem0) := do
  let pages := c.size / wasmPageSize % 2 ^ 32
  let (a, m) ← InPlaceDt.mem0 k
  if pages + lo32 nPages ≤ m.mem.lim.max then do
    let size := (pages + lo32 nPages) * wasmPageSize
    modifyVm (Vm.setMemory a (m.mdata.take size ++ List.replicate (size - m.mdata.length) 0))
    if size = 0 then outside "vec_at" else pure ([ofU32 pages], { size := size })
  else pure ([minusOne], c)

def memoryInit (dataIdx : ℕ) (size src dst : ValueU) : Exec (List ValueU) := do
  let mi ← ofVm (·.inst k)
  match mi.mod.data[dataIdx]?, mi.droppedData[dataIdx]? with
  | some d, some dropped =>
    if lo32 src + lo32 size > d.bytes.length ∨ lo32 dst + lo32 size > c.size then trap "Invalid data access"
    else if lo32 size = 0 then pure []
    else if dropped then trap "Data has been dropped"
    else writeMem0 k c (lo32 dst) ((d.bytes.drop (lo32 src)).take (lo32 size))
  | _, _ => outside "data"

def memoryCopy (size src dst : ValueU) : Exec (List ValueU) :=
  if lo32 src + lo32 size > c.size ∨ lo32 dst + lo32 size > c.size then trap "Invalid memory access"
  else if lo32 size = 0 then pure []
  else do
    let bytes ← readMem0 k c (lo32 src) (lo32 size)
    writeMem0 k c (lo32 dst) bytes

def memoryFill (size val dst : ValueU) : Exec (List ValueU) :=
  if lo32 dst + lo32 size > c.size then trap "Invalid memory access"
  else if lo32 size = 0 then pure []
  else writeMem0 k c (lo32 dst) (List.replicate (lo32 size) (UInt8.ofNat val.toNat))

/-- The message is that of `table.get`. -/
def tableSet (idx : ℕ) (ref elemIdx : ValueU) : Exec (List ValueU) := do
  let (a, t) ← tabInst k idx
  if lo32 elemIdx ≥ t.tdata.length then trap "table_get: invalid table element index"
  else do
    modifyVm (Vm.setTable a (t.tdata.set (lo32 elemIdx) ref))
    pure []

/-- A handler that leaves the context alone. -/
def keep (x : Exec (List ValueU)) : Exec (List ValueU × Mem0) := do
  let results ← x
  pure (results, c)

/-- A plain instruction, on the operands and `mem0`. -/
def effect (i : Instr) (args : List ValueU) : Exec (List ValueU × Mem0) :=
  match i with
  | .memoryLoadStore op _ offset =>
    keep c (if op.isLoad then arg1 args (memLoad k c op offset) else arg2 args (memStore k c op offset))
  | .memorySize => keep c (memorySize c)
  | .memoryGrow => arg1 args (memoryGrow k c)
  | .memoryInit dataIdx => keep c (arg3 args (memoryInit k c dataIdx))
  | .memoryCopy => keep c (arg3 args (memoryCopy k c))
  | .memoryFill => keep c (arg3 args (memoryFill k c))
  | .tableSet idx => keep c (arg2 args (tableSet k idx))
  | i => keep c (InPlaceDt.effect pf k i args)

end Handlers

/-- `op_prefix_fd` has no operands to read, the other handlers read them as in `in_place_dt.c`. -/
def actStep (f : Func) (a : Act ValueU) : R (Outcome ValueU) := do
  let op ← opcodeAt f.code a.regs.pc
  if op = .prefixFd then err .general "Unsupported opcode" else InPlaceDt.actStep f lo32 a

/-! ### Calls -/

/-- `call_ctx`. `inCall` is set while the call waits in `OP(call)` for its callee. -/
structure CallCtx extends Frame where
  mem0 : Mem0 := {}
  inCall : Bool := false
  deriving DecidableEq, Repr

structure Running where
  ctxs : List CallCtx
  thread : Thread
  cont : Cont
  deriving DecidableEq, Repr

structure System where
  vm : Vm := {}
  running : Option Running := none
  deriving DecidableEq, Repr

/-- The prologue of `in_place_tco_call`. -/
def enter (vm : Vm) (t : Thread) (fAddr : Addr) (params : List ValueU) (args : ℕ) : R (CallCtx × Thread) := do
  if t.frameDepth > silverfirStackFrameLimit then err .exhaustion "Stack Overflow"
  else if t.stackSize > silverfirStackSizeLimit then err .exhaustion "Stack reached size limit"
  else do
    let fn ← vm.func fAddr
    if fn.localCount < fn.fnType.paramCount then undef "locals"
    else do
      let mem0 ← takeMem0 vm fAddr.inst
      .ok (
        { fAddr := fAddr
          act := ⟨.start, []⟩
          locals := params ++ List.replicate (fn.localCount - fn.fnType.paramCount) 0
          args := args
          mem0 := mem0 },
        { t with frameDepth := u32 (t.frameDepth + 1), stackSize := u32 (t.stackSize + fn.stackSizeMax) })

/-- Every active call takes the counters back when a message goes through it. -/
def leaveAll (vm : Vm) : List CallCtx → Thread → Thread
  | [], t => t
  | ctx :: ctxs, t =>
    leaveAll vm ctxs <|
      match vm.func ctx.fAddr with
      | .ok fn => t.leave fn
      | .error _ => t

def abort (vm : Vm) (r : Running) : System :=
  match r.cont with
  | .invoke _ => { vm := { vm with thread := { leaveAll vm r.ctxs r.thread with trapped := true } } }
  | .start k => { vm := vm.modifyInst k ({ · with state := .initFailed }) }

def checked {α : Type} (vm : Vm) (r : Running) (x : R α) (next : α → R System) : R System :=
  match x with
  | .ok a => next a
  | .error (.err _ _) => .ok (abort vm r)
  | .error (.undefined what) => undef what

def finish (vm : Vm) (r : Running) (results : List ValueU) : R System := do
  let s ← Silverfir.finish vm { frames := [], thread := r.thread, cont := r.cont } results
  .ok { vm := s.vm }

/-- The number of bytes of memory 0. -/
def mem0Length (vm : Vm) (fr : Frame) : ℕ :=
  match (mem0Of vm fr).map vm.memory with
  | some (.ok m) => m.mdata.length
  | _ => 0

/-- A memory that has grown has moved, and `mem0` does not point to it any more. -/
def CallCtx.moved (vm vm' : Vm) (ctx : CallCtx) : CallCtx :=
  { ctx with mem0 := { ctx.mem0 with
      valid := ctx.mem0.valid && mem0Length vm' ctx.toFrame ≤ mem0Length vm ctx.toFrame } }

section Step
variable (pf : Platform)

def hostCall (vm : Vm) (r : Running) (ctx : CallCtx) (rest : List CallCtx) (a : Act ValueU) (callee : Func)
    (id : ℕ) (params : List ValueU) : R System :=
  let mem := mem0Of vm ctx.toFrame
  let bytes := mem.bind fun m => (vm.memory m).toOption.map (·.mdata)
  checked vm r (pf.host id params bytes) fun (results, bytes) =>
    let vm' := match mem, bytes with
      | some m, some b => vm.setMemory m b
      | _, _ => vm
    let stack := (fit callee.fnType.resultCount results).reverse ++ a.stack
    let ctx := { ctx with act := { a with stack := stack } }
    .ok { vm := vm', running := some { r with ctxs := (ctx :: rest).map (CallCtx.moved vm vm') } }

def callFunc (vm : Vm) (r : Running) (ctx : CallCtx) (rest : List CallCtx) (a : Act ValueU) (inCall : Bool)
    (callee : Addr) (fn : Func) (params : List ValueU) (args : ℕ) : R System :=
  match fn.hostFunc with
  | some id => hostCall pf vm r ctx rest a fn id params
  | none =>
    checked vm r (enter vm r.thread callee params args) fun (ctx', t) =>
      let ctx := { ctx with act := a, inCall := inCall }
      .ok { vm := vm, running := some { r with ctxs := ctx' :: ctx :: rest, thread := t } }

/-- `OP(call)` -/
def opCall (vm : Vm) (r : Running) (ctx : CallCtx) (rest : List CallCtx) (fn : Func) (a : Act ValueU) (idx : ℕ) :
    R System := do
  let callee ← vm.addr (·.fAddrs) ctx.fAddr.inst idx
  let calleeFn ← vm.func callee
  let (params, a) ← popParams calleeFn a
  callFunc pf vm r ctx rest a true callee calleeFn params (fn.stackSizeMax - a.stack.length)

/-- `OP(call_indirect)`: unlike `OP(call)` it does not take `mem0` again afterwards. -/
def opCallIndirect (vm : Vm) (r : Running) (ctx : CallCtx) (rest : List CallCtx) (fn : Func) (a : Act ValueU)
    (typeIdx tableIdx : ℕ) : R System :=
  match a.stack with
  | [] => undef "pop below stack_base"
  | v :: stack =>
    checked vm r (indirectCallee pf vm ctx.fAddr.inst typeIdx tableIdx (indirectIndex v)) fun callee => do
      let calleeFn ← vm.func callee
      let (params, a) ← popParams calleeFn { a with stack := stack }
      callFunc pf vm r ctx rest a false callee calleeFn params (indirectArgs fn calleeFn a.stack.length)

def opPlain (vm : Vm) (r : Running) (ctx : CallCtx) (rest : List CallCtx) (i : Instr) (a : Act ValueU) : R System :=
  let n := InPlaceDt.operandCount i
  if a.stack.length < n then undef "pop below stack_base"
  else
    match effect pf ctx.fAddr.inst ctx.mem0 i (a.stack.take n) ⟨vm, ctx.locals⟩ with
    | (.ok (results, mem0), s) =>
      let ctx :=
        { ctx with act := { a with stack := results ++ a.stack.drop n }, locals := s.locals, mem0 := mem0 }
      .ok { vm := s.vm, running := some { r with ctxs := ctx :: rest.map (CallCtx.moved vm s.vm) } }
    | (.error (.err _ _), s) => .ok (abort s.vm r)
    | (.error (.undefined what), _) => undef what

/-- What `OP(call)` does when the callee is back. Without a memory there is nothing to take. -/
def backInCaller (vm : Vm) (caller : CallCtx) : R CallCtx :=
  if caller.inCall then do
    let mem0 ← takeMem0 vm caller.fAddr.inst
    .ok { caller with mem0 := mem0 }
  else .ok caller

def opFinish (vm : Vm) (r : Running) (rest : List CallCtx) (fn : Func) (stack : List ValueU) : R System :=
  let arity := fn.fnType.resultCount
  if stack.length < arity then undef "results below stack_base"
  else
    let results := stack.take arity
    let r := { r with thread := r.thread.leave fn }
    match rest with
    | [] => finish vm r results.reverse
    | caller :: rest => do
      let caller ← backInCaller vm caller
      let caller := { caller with act := { caller.act with stack := results ++ caller.act.stack } }
      .ok { vm := vm, running := some { r with ctxs := caller :: rest } }

/-- One handler. -/
def runStep (vm : Vm) (r : Running) : R System :=
  match r.ctxs with
  | [] => undef "no frame"
  | ctx :: rest => do
    let fn ← vm.func ctx.fAddr
    let out ← actStep fn ctx.act
    match out with
    | .trap => .ok (abort vm r)
    | .next a => .ok { vm := vm, running := some { r with ctxs := { ctx with act := a } :: rest } }
    | .finish stack => opFinish vm r rest fn stack
    | .plain (.call idx) a => opCall pf vm r ctx rest fn a idx
    | .plain (.callIndirect typeIdx tableIdx) a => opCallIndirect pf vm r ctx rest fn a typeIdx tableIdx
    | .plain i a => opPlain pf vm r ctx rest i a

/-- `interp_call_in_thread` with `in_place_tco_call`, up to the first handler. -/
def callInThread (vm : Vm) (t : Thread) (fAddr : Addr) (argv : List TypedValue) (cont : FuncType → Cont) :
    R Running := do
  if t.trapped then err .general "Thread is in trapped state"
  else do
    let fn ← vm.func fAddr
    let ft := fn.fnType
    if ft.paramCount ≠ argv.length then err .general "Incorrect amount of args"
    else do
      let ok ← argsMatch (.from_ ft.params) argv
      if !ok then err .general "Argument type mismatch"
      else do
        let (ctx, t) ← enter vm t fAddr (argv.map (·.val)) (max fn.localCount ft.resultCount)
        .ok { ctxs := [ctx], thread := t, cont := cont ft }

end Step

end Silverfir.InPlaceTco
