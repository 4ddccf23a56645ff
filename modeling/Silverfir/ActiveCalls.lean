import Silverfir.Moves
import Silverfir.Linked
import Silverfir.Heights
import Silverfir.Threads

/-! The active calls of a VM, one by one. Each of them is in a run of its function alone, in which plain instructions
and calls take and leave as many operands as their types say. -/
namespace Silverfir

open InPlaceDt Validator
open Relation (ReflTransGen)

variable {pf : Platform} {mods : Module → Prop} {vm vm' : Vm} {s s' : System}

/-! ### The links of a VM -/

theorem sysStep_vmOk (hmods : ∀ mod, mods mod → mod.Fresh) (h : SysStep pf mods s s') (hs : VmOk s.vm) :
    VmOk s'.vm := by
  cases h with
  | run h => exact hs.of_shape (runStep_shape h)
  | invoke => exact hs
  | reset => exact hs.of_shape rfl
  | @instantiate vm modId mod s' hm h =>
    refine VmOk.of_shape ?_ (instantiateStep_shape h)
    have hkept := @instantiate_ok pf modId mod (hmods mod hm) vm hs
    rcases hres : instantiate pf modId mod vm with ⟨res, vm1⟩
    cases res with
    | ok => exact hkept.1 _ _ hres
    | error => exact hkept.2 _ _ hres

theorem run_vmOk (hmods : ∀ mod, mods mod → mod.Fresh) (h : ReflTransGen (SysStep pf mods) {} s) : VmOk s.vm :=
  Run.invariant (p := fun s => VmOk s.vm) (fun _ _ hstep => sysStep_vmOk hmods hstep) h VmOk.empty

/-! ### One call -/

/-- The call could be at `a` in a run of its function alone. -/
def Frame.At (vm : Vm) (fr : Frame) (a : Act ValueU) : Prop :=
  ∃ mi fn, vm.instances[fr.fAddr.inst]? = some mi ∧ mi.mod.funcs[fr.fAddr.idx]? = some fn ∧
    ReflTransGen (ActStep (Counted mi.mod) fn lo32) Act.start a

/-- A call waits for the results of another one: with any such results it would be in a run of its function. -/
def Awaits (vm : Vm) (callee caller : Frame) : Prop :=
  ∃ fn, vm.func callee.fAddr = .ok fn ∧ ∀ results : List ValueU, results.length = fn.fnType.resultCount →
    caller.At vm { caller.act with stack := results ++ caller.act.stack }

/-- The innermost call is in a run of its function, and each of the others waits for the one it has made. -/
structure System.InRuns (s : System) : Prop where
  top : ∀ fr ∈ s.frames.head?, fr.At s.vm fr.act
  waiting : s.frames.IsChain (Awaits s.vm)

theorem Frame.At.of_shape {fr : Frame} {a : Act ValueU} (h : fr.At vm a) (hs : vm'.shape = vm.shape) : fr.At vm' a := by
  obtain ⟨mi, fn, hmi, hfn, hrun⟩ := h
  obtain ⟨mi', hmi', heq⟩ := inst_of_shape hs.symm hmi
  have hmod : mi'.mod = mi.mod := mod_of_shape heq.symm
  refine ⟨mi', fn, hmi', ?_, ?_⟩
  · rw [hmod]
    exact hfn
  · rw [hmod]
    exact hrun

theorem Awaits.of_shape {callee caller : Frame} (h : Awaits vm callee caller) (hs : vm'.shape = vm.shape) :
    Awaits vm' callee caller := by
  obtain ⟨fn, hfn, hat⟩ := h
  refine ⟨fn, ?_, fun results hlen => (hat results hlen).of_shape hs⟩
  rw [Vm.func_eq_of_shape hs]
  exact hfn

/-- The callee of an instruction, and the slots from its arguments to the end of the buffer they are in. `sp` is the
height of the caller's stack without the operands. -/
inductive CalleeOf (vm : Vm) (k : ℕ) (fn : Func) (sp : ℕ) (new : Frame) (calleeFn : Func) : Instr → Prop
  | direct {idx} (haddr : vm.addr (·.fAddrs) k idx = .ok new.fAddr) (hargs : new.args = fn.stackSizeMax - sp) :
      CalleeOf vm k fn sp new calleeFn (.call idx)
  | indirect {typeIdx tableIdx} (hargs : new.args = indirectArgs fn calleeFn sp) :
      CalleeOf vm k fn sp new calleeFn (.callIndirect typeIdx tableIdx)

/-- A call is made: `new` is the callee, `caller` what the frame of the caller becomes. -/
structure Makes (vm : Vm) (mod : Module) (fn : Func) (fr caller new : Frame) (calleeFn : Func) (i : Instr)
    (args : List ValueU) : Prop where
  step : actStep fn lo32 fr.act = .ok (.plain i ⟨caller.act.regs, args ++ caller.act.stack⟩)
  addr : caller.fAddr = fr.fAddr
  pops : args.length = pops mod i
  pushes : calleeFn.fnType.resultCount = pushes mod i
  callee : vm.func new.fAddr = .ok calleeFn
  start : new.act = Act.start
  params : calleeFn.fnType.paramCount ≤ args.length
  origin : CalleeOf vm fr.fAddr.inst fn caller.act.stack.length new calleeFn i

/-- One pass, by what it means for a call alone. -/
inductive Acted (vm : Vm) (mod : Module) (r : Running) (fr : Frame) (rest : List Frame) (fn : Func) : System → Prop
  | stay {vm1 fr'} (haddr : fr'.fAddr = fr.fAddr) (h : ActStep (Counted mod) fn lo32 fr.act fr'.act) :
      Acted vm mod r fr rest fn ⟨vm1, some { r with frames := fr' :: rest }⟩
  | call {caller new calleeFn i args t} (h : Makes vm mod fn fr caller new calleeFn i args) :
      Acted vm mod r fr rest fn ⟨vm, some { r with frames := new :: caller :: rest, thread := t }⟩
  | ret {r' : Running} {caller caller' rest'} {results : List ValueU} (hrest : rest = caller :: rest')
      (hlen : results.length = fn.fnType.resultCount) (haddr : caller'.fAddr = caller.fAddr)
      (hact : caller'.act = { caller.act with stack := results ++ caller.act.stack }) :
      Acted vm mod r fr rest fn ⟨vm, some { r' with frames := caller' :: rest' }⟩
  | idle {s1 : System} (h : s1.frames = []) : Acted vm mod r fr rest fn s1

section Pass
variable {mod : Module} {r : Running} {fr : Frame} {rest : List Frame} {fn : Func}

theorem fit_length (n : ℕ) (vals : List ValueU) : (fit n vals).length = n := by
  rw [fit, List.length_take, List.length_append, List.length_replicate]
  omega

theorem popParams_split {calleeFn : Func} {a a' : Act ValueU} {params : List ValueU}
    (h : popParams calleeFn a = .ok (params, a')) :
    a'.regs = a.regs ∧ a.stack = params.reverse ++ a'.stack ∧ params.length = calleeFn.fnType.paramCount := by
  rw [popParams] at h
  split at h
  · simp at h
  · next hlen =>
    cases h
    refine ⟨rfl, ?_, ?_⟩
    · rw [List.reverse_reverse, List.take_append_drop]
    · rw [List.length_reverse, List.length_take]
      omega

/-- A call that has returned, with whatever results. -/
theorem Makes.returned {caller new : Frame} {calleeFn : Func} {i : Instr} {args results : List ValueU}
    (h : Makes vm mod fn fr caller new calleeFn i args) (hlen : results.length = calleeFn.fnType.resultCount) :
    ActStep (Counted mod) fn lo32 fr.act { caller.act with stack := results ++ caller.act.stack } :=
  .plain h.step ⟨h.pops, hlen.trans h.pushes⟩

/-- A call with its operands popped, of a function with as many results as the instruction should leave. -/
theorem callFunc_acted {i : Instr} {a a' : Act ValueU} {args : List ValueU} {callee : Addr} {calleeFn : Func}
    {params : List ValueU} {room : ℕ} (hstep : actStep fn lo32 fr.act = .ok (.plain i a))
    (hregs : a'.regs = a.regs) (hstack : a.stack = args ++ a'.stack) (hargs : args.length = pops mod i)
    (hparams : calleeFn.fnType.paramCount ≤ args.length) (hfn : vm.func callee = .ok calleeFn)
    (hresults : calleeFn.fnType.resultCount = pushes mod i)
    (horigin : ∀ new : Frame, new.fAddr = callee → new.args = room →
      CalleeOf vm fr.fAddr.inst fn a'.stack.length new calleeFn i)
    (h : callFunc pf vm r fr rest a' callee calleeFn params room = .ok s) : Acted vm mod r fr rest fn s := by
  have hsplit : a = ⟨a'.regs, args ++ a'.stack⟩ := by rw [hregs, ← hstack]
  rw [hsplit] at hstep
  rw [callFunc] at h
  split at h
  · obtain ⟨⟨results, bytes⟩, -, h⟩ | rfl := checked_ok h
    · cases h
      have hlen : (fit calleeFn.fnType.resultCount results).reverse.length = calleeFn.fnType.resultCount := by
        rw [List.length_reverse, fit_length]
      exact .stay rfl (.plain hstep ⟨hargs, hlen.trans hresults⟩)
    · exact .idle (frames_abort vm r)
  · obtain ⟨⟨new, t⟩, hent, h⟩ | rfl := checked_ok h
    · cases h
      obtain ⟨-, -, fn', hfn', -, rfl, -⟩ := enter_ok hent
      exact .call ⟨hstep, rfl, hargs, hresults, hfn, rfl, hparams, horigin _ rfl rfl⟩
    · exact .idle (frames_abort vm r)

theorem opPlain_acted {i : Instr} {a : Act ValueU} (hstep : actStep fn lo32 fr.act = .ok (.plain i a))
    (hpops : pops mod i = operandCount i) (hpushes : pushes mod i = resultCount i)
    (h : opPlain pf vm r fr rest i a = .ok s) : Acted vm mod r fr rest fn s := by
  rw [opPlain] at h
  split at h
  · simp at h
  · next hlen =>
    have hkeeps : Exec.Keeps vm.shape (resultCount i) (effect pf fr.fAddr.inst i (a.stack.take (operandCount i))) :=
      effect_keeps i _
    have hkeeps := hkeeps ⟨vm, fr.locals⟩ rfl
    split at h
    · next results s1 heff =>
      cases h
      have hresults : results.length = resultCount i := (hkeeps.1 _ _ heff).1
      have hsplit : a = ⟨a.regs, a.stack.take (operandCount i) ++ a.stack.drop (operandCount i)⟩ := by
        rw [List.take_append_drop]
      rw [hsplit] at hstep
      refine .stay rfl (.plain hstep ⟨?_, ?_⟩)
      · rw [List.length_take, hpops]
        omega
      · rw [hresults, hpushes]
    · cases h
      exact .idle (frames_abort _ r)
    · simp at h

theorem opFinish_acted {stack : List ValueU} (h : opFinish vm r rest fn stack = .ok s) :
    Acted vm mod r fr rest fn s := by
  rw [opFinish] at h
  split at h
  · simp at h
  · next hlen =>
    split at h
    · exact .idle (frames_finish h)
    · next caller rest' =>
      cases h
      refine .ret rfl ?_ rfl rfl
      rw [List.length_take]
      omega

/-- The type of the function that a table entry leads to has been compared with that of the instruction. -/
theorem indirectCallee_ok {k typeIdx tableIdx i : ℕ} {callee : Addr} {mi : ModuleInst}
    (hmi : vm.instances[k]? = some mi) (h : indirectCallee pf vm k typeIdx tableIdx i = .ok callee) :
    ∃ ft calleeFn, mi.mod.funcTypes[typeIdx]? = some ft ∧ vm.func callee = .ok calleeFn ∧ calleeFn.fnType = ft := by
  obtain ⟨mi', hmi', h⟩ := bind_eq_ok.mp h
  obtain rfl : mi' = mi := by
    rw [Vm.inst, hmi] at hmi'
    exact (Except.ok.inj hmi').symm
  split at h
  · simp at h
  · next ft hft =>
    obtain ⟨t, -, h⟩ := bind_eq_ok.mp h
    obtain ⟨tab, -, h⟩ := bind_eq_ok.mp h
    split at h
    · simp at h
    · obtain ⟨-, h⟩ := guard_eq_ok.mp h
      split at h
      · simp at h
      · next callee' _ =>
        obtain ⟨calleeFn, hfn, h⟩ := bind_eq_ok.mp h
        obtain ⟨heq, h⟩ := guard_eq_ok.mp h
        cases h
        exact ⟨ft, calleeFn, hft, hfn, funcTypeEq_iff.mp (by simpa using heq)⟩

theorem runStep_acted {mi : ModuleInst} (hok : VmOk vm) (h : runStep pf vm r = .ok s) (hframes : r.frames = fr :: rest)
    (hmi : vm.instances[fr.fAddr.inst]? = some mi) (hfn : mi.mod.funcs[fr.fAddr.idx]? = some fn) :
    Acted vm mi.mod r fr rest fn s := by
  have hfunc : vm.func fr.fAddr = .ok fn := Vm.func_ok.mpr ⟨mi, hmi, hfn⟩
  simp only [runStep, hframes, hfunc, ok_bind] at h
  obtain ⟨out, hout, h⟩ := bind_eq_ok.mp h
  split at h
  · cases h
    exact .idle (frames_abort vm r)
  · cases h
    exact .stay rfl (.next hout)
  · exact opFinish_acted h
  · next idx a =>
    simp only [opCall, bind_eq_ok] at h
    obtain ⟨callee, hcallee, calleeFn, hcalleeFn, ⟨params, a'⟩, hpop, h⟩ := h
    obtain ⟨hregs, hstack, hparams⟩ := popParams_split hpop
    obtain ⟨mi', hmi', hentry⟩ := Vm.addr_ok.mp hcallee
    obtain rfl : mi = mi' := Option.some.inj (hmi.symm.trans hmi')
    obtain ⟨d, t, hd, ht, -, htype, -⟩ := hok.funcs _ _ _ _ hmi hentry
    obtain rfl : calleeFn = t := Except.ok.inj (hcalleeFn.symm.trans ht)
    have hpops : pops mi.mod (.call idx) = calleeFn.fnType.paramCount := by
      rw [← htype]
      simp [pops, hd]
    have hpushes : pushes mi.mod (.call idx) = calleeFn.fnType.resultCount := by
      rw [← htype]
      simp [pushes, hd]
    have hlen : params.reverse.length = calleeFn.fnType.paramCount := by rw [List.length_reverse, hparams]
    refine callFunc_acted hout hregs hstack (hlen.trans hpops.symm) hlen.ge hcalleeFn hpushes.symm ?_ h
    rintro new rfl hargs
    exact .direct hcallee hargs
  · next typeIdx tableIdx a =>
    rw [opCallIndirect] at h
    split at h
    · simp at h
    · next v stack hv =>
      obtain ⟨callee, hcallee, h⟩ | rfl := checked_ok h
      · obtain ⟨ft, calleeFn, hft, hcalleeFn, rfl⟩ := indirectCallee_ok hmi hcallee
        simp only [hcalleeFn, ok_bind] at h
        obtain ⟨⟨params, a'⟩, hpop, h⟩ := bind_eq_ok.mp h
        obtain ⟨hregs, hstack, hparams⟩ := popParams_split hpop
        have hpops : pops mi.mod (.callIndirect typeIdx tableIdx) = calleeFn.fnType.paramCount + 1 := by
          simp [pops, hft]
        have hpushes : pushes mi.mod (.callIndirect typeIdx tableIdx) = calleeFn.fnType.resultCount := by
          simp [pushes, hft]
        have hargs : a.stack = (v :: params.reverse) ++ a'.stack := by
          rw [hv, List.cons_append]
          exact congrArg _ hstack
        have hlen : (v :: params.reverse).length = calleeFn.fnType.paramCount + 1 := by
          rw [List.length_cons, List.length_reverse, hparams]
        refine callFunc_acted hout hregs hargs (hlen.trans hpops.symm) (by omega) hcalleeFn hpushes.symm ?_ h
        rintro new rfl hargs
        exact .indirect hargs
      · exact .idle (frames_abort vm r)
  · next i a hcall hindirect =>
    have hcounts : pops mi.mod i = operandCount i ∧ pushes mi.mod i = resultCount i := by
      cases i with
      | call idx => exact (hcall idx rfl).elim
      | callIndirect typeIdx tableIdx => exact (hindirect typeIdx tableIdx rfl).elim
      | _ => exact ⟨rfl, rfl⟩
    exact opPlain_acted hout hcounts.1 hcounts.2 h

end Pass

/-! ### All calls -/

theorem Frame.At.of_fAddr {fr fr' : Frame} {a : Act ValueU} (h : fr.At vm a) (heq : fr'.fAddr = fr.fAddr) :
    fr'.At vm a := by
  rw [Frame.At, heq]
  exact h

/-- Calls wait for a function, whatever its frame has become. -/
theorem waiting_of_fAddr {fr fr' : Frame} {rest : List Frame} (h : (fr :: rest).IsChain (Awaits vm))
    (heq : fr'.fAddr = fr.fAddr) : (fr' :: rest).IsChain (Awaits vm) := by
  cases rest with
  | nil => exact List.IsChain.singleton fr'
  | cons caller rest =>
    obtain ⟨hawaits, hrest⟩ := List.isChain_cons_cons.mp h
    refine List.isChain_cons_cons.mpr ⟨?_, hrest⟩
    rw [Awaits, heq]
    exact hawaits

theorem Frame.At.start {fr : Frame} {fn : Func} (hfn : vm.func fr.fAddr = .ok fn) : fr.At vm Act.start := by
  obtain ⟨mi, hmi, hidx⟩ := Vm.func_ok.mp hfn
  exact ⟨mi, fn, hmi, hidx, .refl⟩

theorem inRuns_idle (h : s.frames = []) : s.InRuns := by
  refine ⟨fun fr hfr => ?_, ?_⟩
  · rw [h] at hfr
    cases hfr
  · rw [h]
    exact List.IsChain.nil

theorem callInThread_inRuns {t : Thread} {fAddr : Addr} {argv : List TypedValue} {cont : FuncType → Cont} {r : Running}
    (h : callInThread vm t fAddr argv cont = .ok r) : System.InRuns ⟨vm, some r⟩ := by
  obtain ⟨-, fn, fr, t', hfn, -, -, hent, rfl⟩ := callInThread_ok h
  obtain ⟨-, -, fn', hfn', -, rfl, -⟩ := enter_ok hent
  refine ⟨fun fr hfr => ?_, List.IsChain.singleton _⟩
  cases hfr
  exact Frame.At.start hfn'

/-- A pass of the innermost call is a step of its run. -/
theorem Acted.inRuns {mi : ModuleInst} {r : Running} {fr : Frame} {rest : List Frame} {fn : Func}
    (h : Acted vm mi.mod r fr rest fn s) (hmi : vm.instances[fr.fAddr.inst]? = some mi)
    (hfn : mi.mod.funcs[fr.fAddr.idx]? = some fn) (hshape : s.vm.shape = vm.shape) (hat : fr.At vm fr.act)
    (hwaiting : (fr :: rest).IsChain (Awaits vm)) : s.InRuns := by
  obtain ⟨mi', fn', hmi', hfn', hrun⟩ := hat
  obtain rfl : mi = mi' := Option.some.inj (hmi.symm.trans hmi')
  obtain rfl : fn = fn' := Option.some.inj (hfn.symm.trans hfn')
  have hnext : ∀ {a : Act ValueU} {fr' : Frame}, fr'.fAddr = fr.fAddr →
      ActStep (Counted mi.mod) fn lo32 fr.act a → fr'.At vm a := by
    intro a fr' haddr hstep
    exact Frame.At.of_fAddr ⟨mi, fn, hmi, hfn, hrun.tail hstep⟩ haddr
  have hkeep : ∀ {fs : List Frame}, fs.IsChain (Awaits vm) → fs.IsChain (Awaits s.vm) := by
    intro fs hfs
    exact hfs.imp fun _ _ ha => ha.of_shape hshape
  cases h with
  | stay haddr hstep =>
    refine ⟨fun fr1 hfr1 => ?_, hkeep (waiting_of_fAddr hwaiting haddr)⟩
    cases hfr1
    exact (hnext haddr hstep).of_shape hshape
  | @call caller new calleeFn i args t hmakes =>
    refine ⟨fun fr1 hfr1 => ?_, hkeep ?_⟩
    · cases hfr1
      rw [hmakes.start]
      exact Frame.At.start hmakes.callee
    · have hawaits : Awaits vm new caller :=
        ⟨calleeFn, hmakes.callee, fun results hlen => hnext hmakes.addr (hmakes.returned hlen)⟩
      exact List.isChain_cons_cons.mpr ⟨hawaits, waiting_of_fAddr hwaiting hmakes.addr⟩
  | @ret r' caller caller' rest' results hrest hlen haddr hact =>
    subst hrest
    obtain ⟨⟨fn', hfn', hat⟩, hwaiting⟩ := List.isChain_cons_cons.mp hwaiting
    obtain rfl : fn = fn' := Except.ok.inj ((Vm.func_ok.mpr ⟨mi, hmi, hfn⟩).symm.trans hfn')
    refine ⟨fun fr1 hfr1 => ?_, hkeep (waiting_of_fAddr hwaiting haddr)⟩
    cases hfr1
    rw [hact]
    exact (hat results hlen).of_fAddr haddr
  | idle hnone => exact inRuns_idle hnone

theorem sysStep_inRuns (h : SysStep pf mods s s') (hok : VmOk s.vm) (hs : s.InRuns) : s'.InRuns := by
  cases h with
  | run h =>
    obtain ⟨fr, rest, fn, hframes, hfn, -⟩ := runStep_moved h
    obtain ⟨mi, hmi, hidx⟩ := Vm.func_ok.mp hfn
    obtain ⟨htop, hwaiting⟩ := hs
    rw [frames_of_running rfl, hframes] at htop hwaiting
    exact (runStep_acted hok h hframes hmi hidx).inRuns hmi hidx (runStep_shape h) (htop fr rfl) hwaiting
  | invoke _ h => exact callInThread_inRuns h
  | reset => exact inRuns_idle rfl
  | instantiate _ h =>
    cases hr : s'.running with
    | none =>
      refine inRuns_idle ?_
      rw [System.frames, hr]
      rfl
    | some r =>
      obtain ⟨k, fAddr, hcall⟩ := (instantiateStep_ok h).2 r hr
      have hs' : s' = ⟨s'.vm, some r⟩ := by rw [← hr]
      rw [hs']
      exact callInThread_inRuns hcall

theorem run_inRuns (hmods : ∀ mod, mods mod → mod.Fresh) (h : ReflTransGen (SysStep pf mods) {} s) : s.InRuns := by
  have hinv : VmOk s.vm ∧ s.InRuns := by
    refine Run.invariant (p := fun s => VmOk s.vm ∧ s.InRuns) ?_ h ⟨VmOk.empty, inRuns_idle rfl⟩
    rintro x y hstep ⟨hok, hruns⟩
    exact ⟨sysStep_vmOk hmods hstep hok, sysStep_inRuns hstep hok hruns⟩
  exact hinv.2

/-- In every state of a VM all functions are validated, and what the address tables lead to is of the declared type: a
function that is defined where it is found, a table or a global of the same value type. -/
theorem run_linked (pf : Platform) (mods : Module → Prop) (hmods : ∀ mod, mods mod → Loaded mod) (s : System)
    (h : ReflTransGen (SysStep pf mods) {} s) : VmOk s.vm := run_vmOk (fun mod hmod => (hmods mod hmod).fresh) h

/-- Whatever happens in the VM, each active call is in a run of its function alone: the other calls, the host and the
instantiations do not show, except that a call leaves as many results as its type says. -/
theorem run_calls_alone (pf : Platform) (mods : Module → Prop) (hmods : ∀ mod, mods mod → Loaded mod) (s : System)
    (h : ReflTransGen (SysStep pf mods) {} s) : s.InRuns := run_inRuns (fun mod hmod => (hmods mod hmod).fresh) h

theorem loaded_of_recursive : ∀ mod, mod = recursiveModule → Loaded mod := by
  rintro mod rfl
  exact loaded_recursiveModule

theorem run_linked_recursion : VmOk recursiveVm := by
  have hrun := recursion_run 255 (by decide)
  exact run_linked idle (· = recursiveModule) loaded_of_recursive (recursion 255) hrun

theorem run_calls_alone_recursion : (recursion 255).InRuns := by
  have hrun := recursion_run 255 (by decide)
  exact run_calls_alone idle (· = recursiveModule) loaded_of_recursive (recursion 255) hrun

end Silverfir
