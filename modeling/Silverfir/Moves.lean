import Silverfir.Instantiated

/-! What one pass of the loop does to the active calls: the innermost call goes on, or calls another
function, or returns to its caller, or the run is over. -/
namespace Silverfir

open InPlaceDt
open Relation (ReflTransGen)

/-- The call a frame belongs to goes on: same function, registers one instruction later. -/
structure Frame.Advances (fn : Func) (fr fr' : Frame) : Prop where
  fAddr : fr'.fAddr = fr.fAddr
  regs : RegsStep fn fr.act.regs fr'.act.regs

/-- A pass, by what becomes of the active calls. `fn` is the function of the innermost one. -/
inductive Moved (pf : Platform) (vm : Vm) (r : Running) (fr : Frame) (rest : List Frame) (fn : Func) : System → Prop
  | stay {vm' fr'} (hstores : ReflTransGen (StoreStep pf) vm vm') (h : fr.Advances fn fr') :
      Moved pf vm r fr rest fn ⟨vm', some { r with frames := fr' :: rest }⟩
  | call {callee calleeFn params args new caller t} (hcaller : fr.Advances fn caller)
      (hfn : vm.func callee = .ok calleeFn) (hhost : calleeFn.hostFunc = none)
      (h : enter vm r.thread callee params args = .ok (new, t)) (hparams : params.length = calleeFn.fnType.paramCount) :
      Moved pf vm r fr rest fn ⟨vm, some { r with frames := new :: caller :: rest, thread := t }⟩
  | ret {caller caller' rest'} (hrest : rest = caller :: rest') (haddr : caller'.fAddr = caller.fAddr)
      (hregs : caller'.act.regs = caller.act.regs) :
      Moved pf vm r fr rest fn ⟨vm, some { r with frames := caller' :: rest', thread := r.thread.leave fn }⟩
  | abort {vm'} (hstores : ReflTransGen (StoreStep pf) vm vm') : Moved pf vm r fr rest fn (abort vm' r)
  | finish {results s} (hrest : rest = []) (h : finish vm { r with thread := r.thread.leave fn } results = .ok s) :
      Moved pf vm r fr rest fn s

section Pass
variable {pf : Platform} {vm : Vm} {r : Running} {fr : Frame} {rest : List Frame} {fn : Func} {s : System}

theorem actStep_regs {a a' : Act ValueU} {out : Outcome ValueU} (h : actStep fn lo32 a = .ok out)
    (hout : out = .next a' ∨ ∃ i, out = .plain i a') : RegsStep fn a.regs a'.regs := by
  simp only [actStep, bind_eq_ok] at h
  obtain ⟨op, hop, ⟨operand, stack⟩, -, flow, hflow, h⟩ := h
  refine ⟨operand, .inl ?_⟩
  simp only [regsStep, dispatch, hop, ok_bind, hflow]
  cases flow with
  | plain i pc =>
    cases h
    obtain hout | ⟨j, hout⟩ := hout <;> cases hout
    rfl
  | next pc idx =>
    cases h
    obtain hout | ⟨j, hout⟩ := hout <;> cases hout
    rfl
  | jump pc idx unwind =>
    obtain ⟨tbl, htbl, h⟩ := bind_eq_ok.mp h
    obtain ⟨stack', rfl⟩ : ∃ stack', out = .next ⟨⟨pc + tbl.targetOffset, tbl.nextIdx⟩, stack'⟩ := by
      split at h
      · obtain ⟨stack', -, h⟩ := bind_eq_ok.mp h
        cases h
        exact ⟨stack', rfl⟩
      · cases h
        exact ⟨stack, rfl⟩
    obtain hout | ⟨j, hout⟩ := hout <;> cases hout
    simp only [follow, htbl, ok_bind]
  | finish =>
    cases h
    obtain hout | ⟨j, hout⟩ := hout <;> cases hout
  | trap =>
    cases h
    obtain hout | ⟨j, hout⟩ := hout <;> cases hout

theorem popParams_ok {calleeFn : Func} {a a' : Act ValueU} {params : List ValueU}
    (h : popParams calleeFn a = .ok (params, a')) :
    a'.regs = a.regs ∧ params.length = calleeFn.fnType.paramCount := by
  rw [popParams] at h
  split at h
  · simp at h
  · next hlen =>
    cases h
    refine ⟨rfl, ?_⟩
    rw [List.length_reverse, List.length_take]
    omega

theorem callFunc_moved {a : Act ValueU} {callee : Addr} {calleeFn : Func} {params : List ValueU} {args : ℕ}
    (hfn : vm.func callee = .ok calleeFn) (hregs : RegsStep fn fr.act.regs a.regs)
    (hparams : params.length = calleeFn.fnType.paramCount)
    (h : callFunc pf vm r fr rest a callee calleeFn params args = .ok s) : Moved pf vm r fr rest fn s := by
  rw [callFunc] at h
  split at h
  · obtain ⟨vm1, stack, hwrote, rfl⟩ | rfl := hostCall_ok h
    · exact .stay hwrote.stores ⟨rfl, hregs⟩
    · exact .abort .refl
  · next hhost =>
    obtain ⟨⟨fr', t⟩, hent, h⟩ | rfl := checked_ok h
    · cases h
      have hadv : fr.Advances fn { fr with act := a } := ⟨rfl, hregs⟩
      exact .call hadv hfn hhost hent hparams
    · exact .abort .refl

theorem opPlain_moved {i : Instr} {a : Act ValueU} (hregs : RegsStep fn fr.act.regs a.regs)
    (h : opPlain pf vm r fr rest i a = .ok s) : Moved pf vm r fr rest fn s := by
  rw [opPlain] at h
  split at h
  · simp at h
  · have hstores : Exec.Stores pf vm (Written pf vm) (effect pf fr.fAddr.inst i (a.stack.take (operandCount i))) :=
      effect_stores i _
    specialize hstores ⟨vm, fr.locals⟩ .refl
    split at h
    · next results s1 heff =>
      cases h
      exact .stay (hstores.1 _ _ heff) ⟨rfl, hregs⟩
    · next type msg s1 heff =>
      cases h
      exact .abort (hstores.2 _ _ heff)
    · simp at h

theorem opFinish_moved {stack : List ValueU} (h : opFinish vm r rest fn stack = .ok s) :
    Moved pf vm r fr rest fn s := by
  rw [opFinish] at h
  split at h
  · simp at h
  · split at h
    · exact .finish rfl h
    · next caller rest' =>
      cases h
      exact @Moved.ret pf vm r fr _ fn caller _ rest' rfl rfl rfl

/-- Every pass is one of the moves. -/
theorem runStep_moved (h : runStep pf vm r = .ok s) :
    ∃ fr rest fn, r.frames = fr :: rest ∧ vm.func fr.fAddr = .ok fn ∧ Moved pf vm r fr rest fn s := by
  rw [runStep] at h
  split at h
  · simp at h
  · next fr rest hframes =>
    simp only [bind_eq_ok] at h
    obtain ⟨fn, hfn, out, hout, h⟩ := h
    refine ⟨fr, rest, fn, hframes, hfn, ?_⟩
    split at h
    · cases h
      exact .abort .refl
    · next a =>
      cases h
      exact .stay .refl ⟨rfl, actStep_regs hout (.inl rfl)⟩
    · exact opFinish_moved h
    · next idx a =>
      simp only [opCall, bind_eq_ok] at h
      obtain ⟨callee, -, calleeFn, hcallee, ⟨params, a'⟩, hpop, h⟩ := h
      obtain ⟨hregs, hparams⟩ := popParams_ok hpop
      refine callFunc_moved hcallee ?_ hparams h
      rw [hregs]
      exact actStep_regs hout (.inr ⟨_, rfl⟩)
    · next typeIdx tableIdx a =>
      rw [opCallIndirect] at h
      split at h
      · simp at h
      · next v stack hstack =>
        obtain ⟨callee, -, h⟩ | rfl := checked_ok h
        · simp only [bind_eq_ok] at h
          obtain ⟨calleeFn, hcallee, ⟨params, a'⟩, hpop, h⟩ := h
          obtain ⟨hregs, hparams⟩ := popParams_ok hpop
          refine callFunc_moved hcallee ?_ hparams h
          rw [hregs]
          exact @actStep_regs fn fr.act a _ hout (.inr ⟨_, rfl⟩)
        · exact .abort .refl
    · next i a _ _ => exact opPlain_moved (actStep_regs hout (.inr ⟨_, rfl⟩)) h

end Pass

/-! ### The modules of a VM -/

section Mods
variable {pf : Platform} {mods : Module → Prop} {P : Module → Prop}

theorem func_of_mods {vm vm' : Vm} (h : vm'.mods = vm.mods) (a : Addr) : vm'.func a = vm.func a := by
  have hbind : ∀ w : Vm, w.instances[a.inst]?.bind (·.mod.funcs[a.idx]?) = w.mods[a.inst]?.bind (·.funcs[a.idx]?) := by
    intro w
    rw [Vm.mods, List.getElem?_map]
    cases w.instances[a.inst]? <;> rfl
  rw [Vm.func, Vm.func, hbind vm', hbind vm, h]

theorem func_mem_mods {vm : Vm} {a : Addr} {fn : Func} (h : vm.func a = .ok fn) : ∃ mod ∈ vm.mods, fn ∈ mod.funcs := by
  obtain ⟨mi, hmi, hfn⟩ := Vm.func_ok.mp h
  exact ⟨mi.mod, List.mem_map.mpr ⟨mi, List.mem_of_getElem? hmi, rfl⟩, List.mem_of_getElem? hfn⟩

/-- An instantiation adds the validated module, unless it stops before. -/
theorem instantiate_mods (pf : Platform) (modId : ℕ) (mod : Module) (vm : Vm) :
    (instantiate pf modId mod vm).2.mods = vm.mods ∨
      ∃ mod', validateFuncs mod.funcs.length mod = .ok mod' ∧
        (instantiate pf modId mod vm).2.mods = vm.mods ++ [mod'] := by
  have hlinked : ∀ {mod' res vm1}, linkModuleInst vm.instances.length mod' (vm.push modId mod') = (res, vm1) →
      vm1.mods = vm.mods ++ [mod'] := by
    intro mod' res vm1 hlink
    obtain ⟨e, rfl⟩ := linkModuleInst_relinks (push_newest vm modId mod') hlink
    rw [mods_relink, Vm.push, Vm.mods, List.map_append]
    rfl
  have hinited : ∀ {mod' res vm1 vm2}, moduleInstInit pf vm.instances.length mod' vm1 = (res, vm2) →
      vm2.mods = vm1.mods := by
    intro mod' res vm1 vm2 hinit
    have hstores := @moduleInstInit_stores pf vm.instances.length vm1 mod' vm1 .refl
    cases res with
    | ok => exact Vm.mods_of_shape (stores_shape (hstores.1 _ _ hinit))
    | error => exact Vm.mods_of_shape (stores_shape (hstores.2 _ _ hinit))
  have hphases := instantiate_phases pf modId mod vm
  generalize (instantiate pf modId mod vm).1 = res, (instantiate pf modId mod vm).2 = vm' at hphases ⊢
  cases hphases with
  | known | invalid => exact .inl rfl
  | unlinked _ hval hlink => exact .inr ⟨_, hval, hlinked hlink⟩
  | uninitialized _ hval hlink hinit | done _ hval hlink hinit =>
    exact .inr ⟨_, hval, (hinited hinit).trans (hlinked hlink)⟩

theorem sysStep_mods {s s' : System} (h : SysStep pf mods s s') : s'.vm.mods = s.vm.mods ∨
    ∃ mod mod', mods mod ∧ validateFuncs mod.funcs.length mod = .ok mod' ∧ s'.vm.mods = s.vm.mods ++ [mod'] := by
  cases h with
  | run h => exact .inl (Vm.mods_of_shape (runStep_shape h))
  | invoke | reset => exact .inl rfl
  | instantiate hm h =>
    rw [Vm.mods_of_shape (instantiateStep_shape h)]
    obtain hsame | ⟨mod', hval, hadd⟩ := instantiate_mods pf _ _ _
    · exact .inl hsame
    · exact .inr ⟨_, mod', hm, hval, hadd⟩

/-- What validation establishes for every module that the host gives holds of the modules of the VM. -/
theorem sysStep_forall_mods (hP : ∀ mod mod', mods mod → validateFuncs mod.funcs.length mod = .ok mod' → P mod')
    {s s' : System} (h : SysStep pf mods s s') (hs : ∀ mod ∈ s.vm.mods, P mod) : ∀ mod ∈ s'.vm.mods, P mod := by
  obtain hsame | ⟨mod, mod', hm, hval, hadd⟩ := sysStep_mods h
  · rw [hsame]
    exact hs
  · rw [hadd]
    intro m hm'
    obtain hm' | hm' := List.mem_append.mp hm'
    · exact hs m hm'
    · rw [List.mem_singleton.mp hm']
      exact hP mod mod' hm hval

/-- Functions stay what they are. -/
theorem sysStep_func {s s' : System} (h : SysStep pf mods s s') {a : Addr} {fn : Func} (hfn : s.vm.func a = .ok fn) :
    s'.vm.func a = .ok fn := by
  obtain hsame | ⟨mod, mod', -, -, hadd⟩ := sysStep_mods h
  · rw [func_of_mods hsame]
    exact hfn
  · obtain ⟨mi, hmi, hidx⟩ := Vm.func_ok.mp hfn
    have hmod : s'.vm.mods[a.inst]? = some mi.mod := by
      have hmi' : s.vm.mods[a.inst]? = some mi.mod := by
        rw [Vm.mods, List.getElem?_map, hmi]
        rfl
      rw [hadd, List.getElem?_append_left (List.getElem?_eq_some_iff.mp hmi').1, hmi']
    obtain ⟨mi', hmi', heq⟩ := Option.map_eq_some_iff.mp ((List.getElem?_map ..).symm.trans hmod)
    exact Vm.func_ok.mpr ⟨mi', hmi', by rw [heq]; exact hidx⟩

end Mods

/-! ### Calls of the host -/

section Host
variable {pf : Platform} {vm vm' : Vm}

theorem stores_thread (h : ReflTransGen (StoreStep pf) vm vm') : vm'.thread = vm.thread :=
  Run.invariant (p := fun w => w.thread = vm.thread) (fun _ _ hstep hs => by cases hstep <;> exact hs) h rfl

theorem instantiate_thread (pf : Platform) (modId : ℕ) (mod : Module) (vm : Vm) :
    (instantiate pf modId mod vm).2.thread = vm.thread := by
  have hlinked : ∀ {mod' res vm1}, linkModuleInst vm.instances.length mod' (vm.push modId mod') = (res, vm1) →
      vm1.thread = vm.thread := by
    intro mod' res vm1 hlink
    obtain ⟨e, rfl⟩ := linkModuleInst_relinks (push_newest vm modId mod') hlink
    rfl
  have hphases := instantiate_phases pf modId mod vm
  generalize (instantiate pf modId mod vm).1 = res, (instantiate pf modId mod vm).2 = vm' at hphases ⊢
  cases hphases with
  | known | invalid => rfl
  | unlinked _ _ hlink => exact hlinked hlink
  | uninitialized _ _ hlink hinit =>
    exact (stores_thread ((moduleInstInit_stores _ _ .refl).2 _ _ hinit)).trans (hlinked hlink)
  | done _ _ hlink hinit =>
    exact (stores_thread ((moduleInstInit_stores _ _ .refl).1 _ _ hinit)).trans (hlinked hlink)

/-- The start function runs in a thread of its own, that starts out as zeros. -/
theorem instantiateStep_ok {modId : ℕ} {mod : Module} {s : System} (h : instantiateStep pf vm modId mod = .ok s) :
    s.vm.thread = vm.thread ∧
      ∀ r, s.running = some r → ∃ k fAddr, callInThread s.vm {} fAddr [] (fun _ => .start k) = .ok r := by
  have hthread := instantiate_thread pf modId mod vm
  rw [instantiateStep] at h
  split at h
  · simp at h
  · next vm1 heq =>
    cases h
    rw [heq] at hthread
    rw [failLast]
    split
    · exact ⟨hthread, fun r hr => by cases hr⟩
    · exact ⟨hthread, fun r hr => by cases hr⟩
  · next vm1 heq =>
    cases h
    rw [heq] at hthread
    exact ⟨hthread, fun r hr => by cases hr⟩
  · next k vm1 heq =>
    cases h
    rw [heq] at hthread
    exact ⟨hthread, fun r hr => by cases hr⟩
  · next k idx vm1 heq =>
    rw [heq] at hthread
    obtain ⟨fAddr, -, h⟩ := bind_eq_ok.mp h
    split at h
    · simp at h
    · cases h
      exact ⟨hthread, fun r hr => by cases hr⟩
    · next r hcall =>
      cases h
      refine ⟨hthread, fun r' hr => ?_⟩
      cases hr
      exact ⟨k, fAddr, hcall⟩

/-- A call that gets past the checks of `interp_call_in_thread` and of `in_place_dt_call`. -/
theorem callInThread_ok {t : Thread} {fAddr : Addr} {argv : List TypedValue} {cont : FuncType → Cont} {r : Running}
    (h : callInThread vm t fAddr argv cont = .ok r) :
    t.trapped = false ∧ ∃ fn fr t', vm.func fAddr = .ok fn ∧ fn.fnType.paramCount = argv.length ∧
      argsMatch (.from_ fn.fnType.params) argv = .ok true ∧
      enter vm t fAddr (argv.map (·.val)) (max fn.localCount fn.fnType.resultCount) = .ok (fr, t') ∧
      r = { frames := [fr], thread := t', cont := cont fn.fnType } := by
  obtain ⟨htrapped, h⟩ := guard_eq_ok.mp h
  obtain ⟨fn, hfn, h⟩ := bind_eq_ok.mp h
  obtain ⟨hcount, h⟩ := guard_eq_ok.mp h
  obtain ⟨ok, hok, h⟩ := bind_eq_ok.mp h
  obtain ⟨hmatch, h⟩ := guard_eq_ok.mp h
  obtain ⟨⟨fr, t'⟩, hent, h⟩ := bind_eq_ok.mp h
  cases h
  obtain rfl : ok = true := by simpa using hmatch
  exact ⟨by simpa using htrapped, fn, fr, t', hfn, not_not.mp hcount, hok, hent, rfl⟩

/-- What `in_place_dt_call` starts with. -/
theorem enter_ok {t t' : Thread} {fAddr : Addr} {params : List ValueU} {args : ℕ} {fr : Frame}
    (h : enter vm t fAddr params args = .ok (fr, t')) :
    t.frameDepth ≤ silverfirStackFrameLimit ∧ t.stackSize ≤ silverfirStackSizeLimit ∧
      ∃ fn, vm.func fAddr = .ok fn ∧ fn.fnType.paramCount ≤ fn.localCount ∧
        fr = ⟨fAddr, ⟨Regs.start, []⟩, params ++ List.replicate (fn.localCount - fn.fnType.paramCount) 0, args⟩ ∧
        t' = { t with frameDepth := u32 (t.frameDepth + 1), stackSize := u32 (t.stackSize + fn.stackSizeMax) } := by
  obtain ⟨hdepth, h⟩ := guard_eq_ok.mp h
  obtain ⟨hsize, h⟩ := guard_eq_ok.mp h
  obtain ⟨fn, hfn, h⟩ := bind_eq_ok.mp h
  split at h
  · simp at h
  · next hcount =>
    cases h
    exact ⟨Nat.not_lt.mp hdepth, Nat.not_lt.mp hsize, fn, hfn, Nat.not_lt.mp hcount, rfl, rfl⟩

end Host

/-! ### Frames -/

/-- The frame of a call: a function of the VM, and registers that a run of it can have. -/
def Frame.Placed (vm : Vm) (fr : Frame) : Prop :=
  ∃ fn, vm.func fr.fAddr = .ok fn ∧ ReflTransGen (RegsStep fn) Regs.start fr.act.regs

/-- The active calls of the system, the innermost first. -/
def System.frames (s : System) : List Frame := (s.running.map (·.frames)).getD []

theorem frames_of_running {s : System} {r : Running} (h : s.running = some r) : s.frames = r.frames := by
  rw [System.frames, h]
  rfl

theorem running_of_active {s : System} (hs : s.frames ≠ []) : ∃ r, s.running = some r := by
  cases hr : s.running with
  | none =>
    rw [System.frames, hr] at hs
    exact absurd rfl hs
  | some r => exact ⟨r, rfl⟩

def System.Placed (s : System) : Prop := ∀ fr ∈ s.frames, fr.Placed s.vm

section Placed
variable {pf : Platform} {mods : Module → Prop} {vm vm' : Vm} {fr fr' : Frame}

theorem Frame.Placed.of_func (h : fr.Placed vm) (hfunc : ∀ a fn, vm.func a = .ok fn → vm'.func a = .ok fn) :
    fr.Placed vm' := by
  obtain ⟨fn, hfn, hr⟩ := h
  exact ⟨fn, hfunc _ _ hfn, hr⟩

theorem Frame.Advances.placed {fn : Func} (h : fr.Advances fn fr') (hp : fr.Placed vm)
    (hfn : vm.func fr.fAddr = .ok fn) :
    fr'.Placed vm := by
  obtain ⟨fn', hfn', hr⟩ := hp
  rw [hfn] at hfn'
  cases hfn'
  exact ⟨fn, by rw [h.fAddr]; exact hfn, hr.tail h.regs⟩

theorem placed_of_enter {t t' : Thread} {fAddr : Addr} {params : List ValueU} {args : ℕ}
    (h : enter vm t fAddr params args = .ok (fr, t')) : fr.Placed vm := by
  obtain ⟨-, -, fn, hfn, -, rfl, -⟩ := enter_ok h
  exact ⟨fn, hfn, .refl⟩

theorem placed_of_call {t : Thread} {fAddr : Addr} {argv : List TypedValue} {cont : FuncType → Cont} {r : Running}
    (h : callInThread vm t fAddr argv cont = .ok r) : ∀ fr ∈ r.frames, fr.Placed vm := by
  obtain ⟨-, fn, fr, t', -, -, -, hent, rfl⟩ := callInThread_ok h
  intro fr' hfr
  rw [List.mem_singleton.mp hfr]
  exact placed_of_enter hent

theorem frames_abort (vm : Vm) (r : Running) : (abort vm r).frames = [] := by
  rw [abort]
  split <;> rfl

theorem frames_finish {r : Running} {results : List ValueU} {s : System} (h : finish vm r results = .ok s) :
    s.frames = [] := by
  rw [finish] at h
  split at h
  · obtain ⟨vals, -, h⟩ := bind_eq_ok.mp h
    cases h
    rfl
  · cases h
    rfl

theorem Moved.placed {r : Running} {rest : List Frame} {fn : Func} {s : System} (h : Moved pf vm r fr rest fn s)
    (hframes : r.frames = fr :: rest) (hfn : vm.func fr.fAddr = .ok fn) (hp : ∀ fr ∈ r.frames, fr.Placed vm) :
    ∀ fr ∈ s.frames, fr.Placed vm := by
  rw [hframes] at hp
  obtain ⟨hfr, hrest⟩ := List.forall_mem_cons.mp hp
  cases h with
  | stay _ hadv => exact List.forall_mem_cons.mpr ⟨hadv.placed hfr hfn, hrest⟩
  | call hadv hcallee hhost hent =>
    exact List.forall_mem_cons.mpr ⟨placed_of_enter hent, List.forall_mem_cons.mpr ⟨hadv.placed hfr hfn, hrest⟩⟩
  | ret heq haddr hregs =>
    subst heq
    obtain ⟨⟨fn', hfn', hr⟩, hrest⟩ := List.forall_mem_cons.mp hrest
    refine List.forall_mem_cons.mpr ⟨⟨fn', ?_, ?_⟩, hrest⟩
    · rw [haddr]
      exact hfn'
    · rw [hregs]
      exact hr
  | abort =>
    rw [frames_abort]
    simp
  | finish _ h =>
    rw [frames_finish h]
    simp

/-- Whatever the system does, the active calls are at registers that runs of their functions have. -/
theorem sysStep_placed {s s' : System} (h : SysStep pf mods s s') (hp : s.Placed) : s'.Placed := by
  have hfunc : ∀ a fn, s.vm.func a = .ok fn → s'.vm.func a = .ok fn := fun a fn => sysStep_func h
  cases h with
  | run h =>
    obtain ⟨fr, rest, fn, hframes, hfn, hmoved⟩ := runStep_moved h
    exact fun fr' hfr => (hmoved.placed hframes hfn hp fr' hfr).of_func hfunc
  | invoke _ h => exact placed_of_call h
  | reset =>
    intro fr hfr
    cases hfr
  | instantiate hm h =>
    intro fr hfr
    cases hr : s'.running with
    | none =>
      rw [System.frames, hr] at hfr
      cases hfr
    | some r =>
      obtain ⟨k, fAddr, hcall⟩ := (instantiateStep_ok h).2 r hr
      rw [System.frames, hr] at hfr
      exact placed_of_call hcall fr hfr

theorem run_placed {s : System} (h : ReflTransGen (SysStep pf mods) {} s) : s.Placed :=
  Run.invariant (p := System.Placed) (fun _ _ hstep => sysStep_placed hstep) h fun fr hfr => by cases hfr

end Placed

end Silverfir
