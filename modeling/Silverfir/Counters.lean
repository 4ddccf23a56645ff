import Silverfir.Lib.CallStack
import Silverfir.Moves
import Silverfir.ValidatorControl

/-! The counters of a thread. `frame_depth` and `stack_size` are those of the active calls, however
the calls end. -/
namespace Silverfir

open InPlaceDt Validator
open Relation (ReflTransGen)

/-! ### The size of a frame -/

section StackSize
variable {mod : Module} {i : Instr} {imm : Stream} {c c' : Ctx}

theorem u32_lt (n : ℕ) : u32 n < 2 ^ 32 := Nat.mod_lt _ (by decide)

theorem pushVals_stackSizeMax_lt (ts : List TypeId) (h : c.stackSizeMax < 2 ^ 32) :
    (pushVals ts c).stackSizeMax < 2 ^ 32 := by
  induction ts generalizing c with
  | nil => exact h
  | cons t ts ih =>
    rw [pushVals_cons]
    refine ih ?_
    simp only [pushVal]
    split
    · exact u32_lt _
    · exact h

theorem slotRun_stackSizeMax_lt {pcEnd arity : ℕ} {ls : List ℕ} (h : SlotRun pcEnd arity ls c c')
    (hc : c.stackSizeMax < 2 ^ 32) : c'.stackSizeMax < 2 ^ 32 := by
  induction h with
  | nil => exact hc
  | cons _ _ _ _ _ ih => exact ih (pushVals_stackSizeMax_lt _ hc)

theorem unreachable_stackSizeMax (h : unreachable c = .ok c') : c'.stackSizeMax = c.stackSizeMax := by
  obtain ⟨fr, rest, -, -, rfl⟩ := unreachable_ok h
  rfl

theorem onInstr_stackSizeMax_lt (h : onInstr mod i imm c = .ok c') (hc : c.stackSizeMax < 2 ^ 32) :
    c'.stackSizeMax < 2 ^ 32 := by
  by_cases hctl : i.isControl = true
  · cases i with
    | unreachable =>
      rw [unreachable_stackSizeMax h]
      exact hc
    | block op type =>
      obtain ⟨ps, rs, k, ts, -, -, -, -, rfl⟩ := onBlock_ok h
      exact pushVals_stackSizeMax_lt _ hc
    | else_ =>
      obtain ⟨cf, rest, k, ts, ps, rs, slot, -, -, -, -, -, -, -, rfl⟩ := onElse_ok h
      exact pushVals_stackSizeMax_lt _ hc
    | end_ =>
      obtain ⟨cf, rest, k, ts, -, -, -, rfl⟩ := onEnd_ok h
      exact pushVals_stackSizeMax_lt _ hc
    | brOrIf op l =>
      obtain ⟨fr, k0, ts0, k, ts, c2, -, -, -, -, -, rfl, h2⟩ := onBrOrIf_ok h
      split at h2
      · rw [unreachable_stackSizeMax h2]
        exact hc
      · cases h2
        exact pushVals_stackSizeMax_lt _ hc
    | brTable =>
      obtain ⟨t, k0, n, pc1, labels, pc2, fr, c2, c3, k, ts, -, -, -, -, hrun, -, -, -, rfl, h2⟩ := onBrTable_ok h
      rw [unreachable_stackSizeMax h2]
      have h2 := slotRun_stackSizeMax_lt hrun hc
      exact h2
    | return_ =>
      obtain ⟨fr, k, ts, c2, -, -, -, rfl, h2⟩ := onReturn_ok h
      rw [unreachable_stackSizeMax h2]
      exact hc
    | _ => cases hctl
  · obtain ⟨k, ts, us, hstep⟩ := onInstr_plain (by simpa using hctl) h
    rw [hstep.eq]
    refine pushVals_stackSizeMax_lt _ (max_lt hc ?_)
    unfold calleeSize
    split
    · split
      · exact u32_lt _
      · decide
    · decide

/-- The size that validation stores is a 32-bit number. -/
theorem validateFunc_stackSizeMax_lt {f f' : Func} (h : validateFunc mod f = .ok f') : f'.stackSizeMax < 2 ^ 32 := by
  obtain ⟨e, imm, ce, c, ha, rfl⟩ := validateFunc_ok.mp h
  have hreach : ∀ x : ℕ × Ctx, Reach mod f x → x.2.stackSizeMax < 2 ^ 32 := by
    intro x hx
    refine hx.induction (P := fun y => y.2.stackSizeMax < 2 ^ 32) (fun c hc => ?_) fun x y _ hs hlt => ?_
    · obtain ⟨ps, -, hc⟩ := bind_eq_ok.mp hc
      obtain ⟨c1, hc1, hc⟩ := bind_eq_ok.mp hc
      cases hc
      obtain ⟨ps', rs, -, -, rfl⟩ := pushCtrl_ok hc1
      exact pushVals_stackSizeMax_lt _ (Nat.two_pow_pos 32)
    · obtain ⟨i, imm, -, hcb⟩ := step_iff.mp hs
      exact onInstr_stackSizeMax_lt hcb hlt
  exact @onInstr_stackSizeMax_lt mod .end_ _ _ _ ha.onEnd (hreach _ ha.reach)

end StackSize

/-- `stack_size_max` of every function fits its field. -/
def Module.U32Sizes (mod : Module) : Prop := ∀ f ∈ mod.funcs, f.stackSizeMax < 2 ^ 32

theorem validateFuncs_u32Sizes {n : ℕ} {mod mod' : Module} (hm : mod.U32Sizes)
    (h : validateFuncs n mod = .ok mod') : mod'.U32Sizes := by
  induction n generalizing mod' with
  | zero =>
    cases h
    exact hm
  | succ n ih =>
    obtain ⟨mod1, h1, h⟩ := bind_eq_ok.mp h
    have hm1 := ih h1
    split at h
    · cases h
      exact hm1
    · split at h
      · cases h
        exact hm1
      · obtain ⟨fn, hval, h⟩ := bind_eq_ok.mp h
        cases h
        intro f hf
        obtain hf | rfl := List.mem_or_eq_of_mem_set hf
        · exact hm1 f hf
        · exact validateFunc_stackSizeMax_lt hval

/-! ### The counters of the active calls -/

/-- `stack_size_max` of the function at an address. -/
def Vm.stackSizeOf (vm : Vm) (a : Addr) : ℕ :=
  match vm.func a with
  | .ok fn => fn.stackSizeMax
  | .error _ => 0

def stackSum (vm : Vm) (frames : List Frame) : ℕ := (frames.map fun fr => vm.stackSizeOf fr.fAddr).sum

/-- The counters say how many calls are active, and how large their frames are. -/
structure Thread.Counts (vm : Vm) (t : Thread) (frames : List Frame) : Prop where
  depth : t.frameDepth = frames.length
  size : t.stackSize = u32 (stackSum vm frames)
  bound : frames.length ≤ silverfirStackFrameLimit + 1

section Counts
variable {vm vm' : Vm} {t t' : Thread} {frames rest : List Frame} {fr fr' : Frame} {fn : Func}

theorem stackSum_cons (vm : Vm) (fr : Frame) (frames : List Frame) :
    stackSum vm (fr :: frames) = vm.stackSizeOf fr.fAddr + stackSum vm frames := List.sum_cons

/-- Only the functions of the frames matter. -/
theorem stackSum_congr {frames' : List Frame} (h : frames'.map (·.fAddr) = frames.map (·.fAddr)) :
    stackSum vm frames' = stackSum vm frames := by
  have hmap : ∀ fs : List Frame, stackSum vm fs = ((fs.map (·.fAddr)).map vm.stackSizeOf).sum := by
    intro fs
    rw [List.map_map]
    rfl
  rw [hmap, hmap, h]

theorem Thread.Counts.congr {frames' : List Frame} (h : t.Counts vm frames)
    (hf : frames'.map (·.fAddr) = frames.map (·.fAddr)) : t.Counts vm frames' where
  depth := by
    have hlen := congrArg List.length hf
    rw [List.length_map, List.length_map] at hlen
    rw [hlen]
    exact h.depth
  size := by
    rw [stackSum_congr hf]
    exact h.size
  bound := by
    have hlen := congrArg List.length hf
    rw [List.length_map, List.length_map] at hlen
    rw [hlen]
    exact h.bound

theorem stackSum_mods (h : vm'.mods = vm.mods) (frames : List Frame) : stackSum vm' frames = stackSum vm frames := by
  have hsize : vm'.stackSizeOf = vm.stackSizeOf := by
    funext a
    rw [Vm.stackSizeOf, Vm.stackSizeOf, func_of_mods h]
  rw [stackSum, hsize, stackSum]

theorem Thread.Counts.of_mods (h : t.Counts vm frames) (hm : vm'.mods = vm.mods) : t.Counts vm' frames where
  depth := h.depth
  size := by
    rw [stackSum_mods hm]
    exact h.size
  bound := h.bound

/-- A call adds its frame to the counters. -/
theorem Thread.Counts.enter {fAddr : Addr} {params : List ValueU} {args : ℕ} (h : t.Counts vm frames)
    (hent : enter vm t fAddr params args = .ok (fr, t')) : t'.Counts vm (fr :: frames) := by
  obtain ⟨hdepth, -, fn, hfn, -, rfl, rfl⟩ := enter_ok hent
  have hle : frames.length ≤ silverfirStackFrameLimit := h.depth ▸ hdepth
  refine ⟨?_, ?_, Nat.succ_le_succ hle⟩
  · simp only [h.depth, List.length_cons]
    refine Nat.mod_eq_of_lt (lt_of_le_of_lt (Nat.succ_le_succ hle) ?_)
    decide
  · simp only [h.size, stackSum_cons, Vm.stackSizeOf, hfn, u32]
    omega

theorem leave_trapped (t : Thread) (fn : Func) : (t.leave fn).trapped = t.trapped := by
  cases t
  rfl

/-- The end of a call takes its frame off again. -/
theorem Thread.Counts.leave (h : t.Counts vm (fr :: frames)) (hfn : vm.func fr.fAddr = .ok fn)
    (hlt : fn.stackSizeMax < 2 ^ 32) : (t.leave fn).Counts vm frames := by
  have hbound := h.bound
  rw [List.length_cons] at hbound
  refine ⟨?_, ?_, by omega⟩
  · simp only [Thread.leave, h.depth, List.length_cons, u32]
    have : silverfirStackFrameLimit = 256 := rfl
    omega
  · simp only [Thread.leave, h.size, stackSum_cons, Vm.stackSizeOf, hfn, u32]
    omega

end Counts

/-! ### Threads between calls -/

/-- No call is active in the thread. -/
def Thread.Idle (t : Thread) : Prop := t.frameDepth = 0 ∧ t.stackSize = 0

/-- The checks of `interp_call_in_thread`, up to the call of `in_place_dt_call`. -/
def checkCall (vm : Vm) (t : Thread) (fAddr : Addr) (argv : List TypedValue) : R Func := do
  if t.trapped then err .general "Thread is in trapped state"
  else do
    let fn ← vm.func fAddr
    if fn.fnType.paramCount ≠ argv.length then err .general "Incorrect amount of args"
    else do
      let ok ← argsMatch (.from_ fn.fnType.params) argv
      if !ok then err .general "Argument type mismatch" else .ok fn

/-- The thread after a call that was refused: it traps if it was `in_place_dt_call` that refused. -/
def refusedThread (vm : Vm) (t : Thread) (fAddr : Addr) (argv : List TypedValue) : Thread :=
  match checkCall vm t fAddr argv with
  | .ok _ => { t with trapped := true }
  | .error _ => t

/-- What can happen to the thread of a VM: besides the steps of the system, a call of any function
with any arguments, which is made or refused. -/
inductive ThreadStep (pf : Platform) (mods : Module → Prop) : System → System → Prop
  | sys {s s'} (h : SysStep pf mods s s') : ThreadStep pf mods s s'
  | call {vm a argv r} (h : callInThread vm vm.thread a argv .invoke = .ok r) :
      ThreadStep pf mods ⟨vm, none⟩ ⟨vm, some r⟩
  | refuse {vm a argv type msg} (h : callInThread vm vm.thread a argv .invoke = .error (.err type msg)) :
      ThreadStep pf mods ⟨vm, none⟩ ⟨{ vm with thread := refusedThread vm vm.thread a argv }, none⟩

theorem SysStep.mono {pf : Platform} {mods mods' : Module → Prop} {s s' : System} (h : SysStep pf mods s s')
    (hm : ∀ mod, mods mod → mods' mod) : SysStep pf mods' s s' := by
  cases h with
  | run h => exact .run h
  | invoke hf h => exact .invoke hf h
  | reset => exact .reset
  | instantiate hmod h => exact .instantiate (hm _ hmod) h

/-- The counters are right while calls are active, and zero or of a trapped thread otherwise. A call in
the thread of the VM is made only if it is not trapped. -/
structure System.Counted (s : System) : Prop where
  funcs : ∀ mod ∈ s.vm.mods, mod.U32Sizes
  thread : s.vm.thread.trapped = true ∨ s.vm.thread.Idle
  running : ∀ r, s.running = some r → r.thread.trapped = false ∧ r.thread.Counts s.vm r.frames ∧
    (s.vm.thread.trapped = true → ∃ k, r.cont = .start k)

section Threads
variable {pf : Platform} {mods : Module → Prop} {vm vm' : Vm} {r : Running} {s s' : System}

theorem Thread.Idle.counts {t : Thread} (h : t.Idle) (vm : Vm) : t.Counts vm [] := ⟨h.1, h.2, Nat.zero_le _⟩

theorem Thread.Counts.idle {t : Thread} (h : t.Counts vm []) : t.Idle := ⟨h.depth, h.size⟩

theorem callInThread_counts {t : Thread} {a : Addr} {argv : List TypedValue} {cont : FuncType → Cont}
    (ht : t.trapped = true ∨ t.Idle) (h : callInThread vm t a argv cont = .ok r) :
    t.trapped = false ∧ r.thread.trapped = false ∧ r.thread.Counts vm r.frames ∧ ∃ type, r.cont = cont type := by
  obtain ⟨htrapped, fn, fr, t', -, -, -, hent, rfl⟩ := callInThread_ok h
  rw [htrapped] at ht
  obtain ht | hidle := ht
  · cases ht
  · obtain ⟨-, -, fn', -, -, -, ht'⟩ := enter_ok hent
    refine ⟨htrapped, ?_, (hidle.counts vm).enter hent, _, rfl⟩
    rw [ht']
    exact htrapped

/-- The outermost call returns. -/
theorem finish_counted {r' : Running} {results : List ValueU} (h : finish vm r' results = .ok s)
    (hcounts : r'.thread.Counts vm []) (hmods : s.vm.mods = vm.mods) (hc : System.Counted ⟨vm, some r⟩) :
    s.Counted := by
  have hfuncs : ∀ mod ∈ s.vm.mods, mod.U32Sizes := by
    rw [hmods]
    exact hc.funcs
  rw [finish] at h
  split at h
  · obtain ⟨vals, -, h⟩ := bind_eq_ok.mp h
    cases h
    exact ⟨hfuncs, .inr hcounts.idle, fun r' hr' => by cases hr'⟩
  · cases h
    exact ⟨hfuncs, hc.thread, fun r' hr' => by cases hr'⟩

/-- One pass of the loop. -/
theorem Moved.counted {fr : Frame} {rest : List Frame} {fn : Func} (h : Moved pf vm r fr rest fn s)
    (hframes : r.frames = fr :: rest) (hfn : vm.func fr.fAddr = .ok fn) (hmods : s.vm.mods = vm.mods)
    (hc : System.Counted ⟨vm, some r⟩) : s.Counted := by
  obtain ⟨htrapped, hcounts, hcont⟩ := hc.running r rfl
  rw [hframes] at hcounts
  have hlt : fn.stackSizeMax < 2 ^ 32 := by
    obtain ⟨mod, hmod, hmem⟩ := func_mem_mods hfn
    exact hc.funcs mod hmod fn hmem
  have hfuncs : ∀ mod ∈ s.vm.mods, mod.U32Sizes := by
    rw [hmods]
    exact hc.funcs
  have hthread := hc.thread
  cases h with
  | @stay vm' fr' hstores hadv =>
    refine ⟨hfuncs, ?_, fun r' hr' => ?_⟩
    · rw [stores_thread hstores]
      exact hthread
    · cases hr'
      refine ⟨htrapped, (hcounts.congr ?_).of_mods hmods, ?_⟩
      · rw [List.map_cons, List.map_cons, hadv.fAddr]
      · rw [stores_thread hstores]
        exact hcont
  | @call callee calleeFn params args new caller t hadv hcallee hhost hent =>
    refine ⟨hfuncs, hthread, fun r' hr' => ?_⟩
    cases hr'
    obtain ⟨-, -, fn', -, -, -, rfl⟩ := enter_ok hent
    refine ⟨htrapped, (hcounts.congr ?_).enter hent, hcont⟩
    rw [List.map_cons, List.map_cons, hadv.fAddr]
  | @ret caller caller' rest' hrest haddr hregs =>
    subst hrest
    have hleave := hcounts.leave hfn hlt
    have hkeeps := (leave_trapped r.thread fn).trans htrapped
    generalize r.thread.leave fn = t at hleave hkeeps hfuncs ⊢
    refine ⟨hfuncs, hthread, fun r' hr' => ?_⟩
    cases hr'
    refine ⟨hkeeps, hleave.congr ?_, hcont⟩
    rw [List.map_cons, List.map_cons, haddr]
  | @abort vm' hstores =>
    rw [Silverfir.abort] at hfuncs ⊢
    split
    · next hcont' =>
      rw [hcont'] at hfuncs
      exact ⟨hfuncs, .inl rfl, fun r' hr' => by cases hr'⟩
    · next k hcont' =>
      rw [hcont'] at hfuncs
      refine ⟨hfuncs, ?_, fun r' hr' => by cases hr'⟩
      have hsame : vm'.thread = vm.thread := stores_thread hstores
      rw [Vm.modifyInst, hsame]
      exact hthread
  | finish hrest hfin =>
    subst hrest
    exact finish_counted hfin (hcounts.leave hfn hlt) hmods hc

theorem sysStep_counted (h : SysStep pf Module.U32Sizes s s') (hc : s.Counted) : s'.Counted := by
  have hfuncs : ∀ mod ∈ s'.vm.mods, mod.U32Sizes :=
    sysStep_forall_mods (fun _ _ hm hval => validateFuncs_u32Sizes hm hval) h hc.funcs
  cases h with
  | run h =>
    obtain ⟨fr, rest, fn, hframes, hfn, hmoved⟩ := runStep_moved h
    exact hmoved.counted hframes hfn (Vm.mods_of_shape (runStep_shape h)) hc
  | @invoke vm k name a argv r hf h =>
    obtain ⟨hvm, htrapped, hcounts, -⟩ := callInThread_counts hc.thread h
    refine ⟨hfuncs, hc.thread, fun r' hr' => ?_⟩
    cases hr'
    refine ⟨htrapped, hcounts, fun ht => ?_⟩
    rw [show vm.thread.trapped = false from hvm] at ht
    cases ht
  | reset => exact ⟨hfuncs, .inr ⟨rfl, rfl⟩, fun r' hr' => by cases hr'⟩
  | @instantiate vm modId mod s' hm h =>
    obtain ⟨hthread, hrunning⟩ := instantiateStep_ok h
    refine ⟨hfuncs, ?_, fun r hr => ?_⟩
    · rw [hthread]
      exact hc.thread
    · obtain ⟨k, fAddr, hcall⟩ := hrunning r hr
      obtain ⟨-, htrapped, hcounts, type, hcont⟩ := callInThread_counts (.inr ⟨rfl, rfl⟩) hcall
      exact ⟨htrapped, hcounts, fun _ => ⟨k, hcont⟩⟩

theorem threadStep_counted (h : ThreadStep pf Module.U32Sizes s s') (hc : s.Counted) : s'.Counted := by
  cases h with
  | sys h => exact sysStep_counted h hc
  | @call vm a argv r h =>
    obtain ⟨hvm, htrapped, hcounts, -⟩ := callInThread_counts hc.thread h
    refine ⟨hc.funcs, hc.thread, fun r' hr' => ?_⟩
    cases hr'
    refine ⟨htrapped, hcounts, fun ht => ?_⟩
    rw [show vm.thread.trapped = false from hvm] at ht
    cases ht
  | refuse h =>
    refine ⟨hc.funcs, ?_, fun r' hr' => by cases hr'⟩
    rw [refusedThread]
    split
    · exact .inl rfl
    · exact hc.thread

theorem counted_empty : System.Counted {} where
  funcs mod hm := by cases hm
  thread := .inr ⟨rfl, rfl⟩
  running r hr := by cases hr

end Threads

end Silverfir
