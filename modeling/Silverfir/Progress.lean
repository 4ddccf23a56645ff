import Silverfir.Equipped
import Silverfir.LocalSlots
import Silverfir.Invocations

/-! Progress of the interpreter: in every run, the next pass of the loop has a defined outcome, unless `table.fill`
wraps its sum or `call_indirect` takes something for a function that is none. -/
namespace Silverfir

open InPlaceDt Validator
open Relation (ReflTransGen)

/-! ### Modules -/

/-- What the passes over a function rest on. -/
structure RunSafe (mod : Module) (f : Func) : Prop where
  heights : HeightSafe mod f
  locals : f.CountsLocals

theorem RunSafe.parsed {mod : Module} {f : Func} (h : RunSafe mod f) : RunSafe mod.parsed f :=
  ⟨h.heights.parsed, h.locals⟩

theorem RunSafe.slots {mod : Module} {f : Func} (h : RunSafe mod f) : SlotSafe mod f := ⟨h.heights.jumps, h.locals⟩

theorem Module.Validated.imp {P Q : Module → Func → Prop} {mod : Module} (h : mod.Validated P)
    (hPQ : ∀ mod f, P mod f → Q mod f) : mod.Validated Q := by
  intro fn hfn hcode
  obtain ⟨f, cE, hval⟩ := h fn hfn hcode
  exact ⟨f, cE, hPQ _ _ hval.safe, hval.accepts, hval.result⟩

/-- A module as the host holds it, all of which can be run. -/
structure Module.Runnable (mod : Module) : Prop where
  given : mod.Given RunSafe
  sizes : mod.SizesMemory
  elements : ∀ elem ∈ mod.elements, elem.InRange mod

/-- A module in a VM, all of which can be run. -/
structure Module.Running (mod : Module) : Prop where
  validated : mod.Validated RunSafe
  bodies : ∀ fn ∈ mod.funcs, fn.linkage.imported = false → fn.code ≠ []
  sizes : mod.SizesMemory
  segments : mod.SegmentsFit

theorem JumpSafe.code_ne {mod : Module} {f : Func} (h : JumpSafe mod f) : f.code ≠ [] := by
  intro hnil
  have hbalanced := h.balanced
  rw [hnil] at hbalanced
  cases hbalanced

section Modules
variable {mod mod' : Module}

theorem Element.InRange.congr {elem : Element} (h : elem.InRange mod) (hlen : mod'.funcs.length = mod.funcs.length) :
    elem.InRange mod' where
  kind := h.kind
  exprs expr hexpr i hi := by
    rw [hlen]
    exact h.exprs expr hexpr i hi

theorem Module.Runnable.running (h : mod.Runnable) (hval : validateFuncs mod.funcs.length mod = .ok mod') :
    mod'.Running := by
  have hparsed := (validateFuncs_ok hval).parsed
  have helems : mod'.parsed.elements = mod.parsed.elements := congrArg Module.elements hparsed
  change mod'.elements = mod.elements at helems
  have hlen : mod'.funcs.length = mod.funcs.length := by
    have hfuncs := congrArg (fun m : Module => m.funcs.length) hparsed
    simpa [Module.parsed] using hfuncs
  refine ⟨h.given.validated (fun _ _ hsafe => hsafe.parsed) hval, ?_, validated_sizesMemory h.sizes hval, ?_, ?_, ?_⟩
  · intro fn' hfn' himp
    obtain ⟨fn, hfn, heq, -⟩ := validated_func hval hfn'
    have hcode : fn'.parsed.code = fn.parsed.code := congrArg Func.code heq
    have hlinkage : fn'.parsed.linkage = fn.parsed.linkage := congrArg Func.linkage heq
    change fn'.code = fn.code at hcode
    change fn'.linkage = fn.linkage at hlinkage
    rw [hcode]
    rw [hlinkage] at himp
    exact (h.given.bodies fn hfn himp).heights.jumps.code_ne
  · rw [helems, hlen]
    exact h.given.loaded.indexed.funcidx
  · rw [helems]
    exact h.given.loaded.indexed.dataLen
  · rw [helems]
    intro elem helem
    exact (h.elements elem helem).congr hlen

end Modules

/-! ### Frames -/

/-- A function with a body is at the address, in an instance that has been linked. -/
def Vm.Defines (vm : Vm) (a : Addr) : Prop :=
  vm.Linked a.inst ∧ ∃ fn, vm.func a = .ok fn ∧ fn.linkage.imported = false

/-- If the step calls a function, it is such a function. -/
def EntersDefined (s s' : System) : Prop :=
  ∀ fr rest, s'.frames = fr :: rest → s.frames.length ≤ rest.length → s'.vm.Defines fr.fAddr

def ProgressStep (pf : Platform) (s s' : System) : Prop := SysStep pf Module.Runnable s s' ∧ EntersDefined s s'

/-- The outermost call is of a function with this type, or a start function. -/
def Running.Bottom (vm : Vm) (r : Running) : Prop :=
  ∃ fr fn, r.frames.getLast? = some fr ∧ vm.func fr.fAddr = .ok fn ∧
    (r.cont = .invoke fn.fnType ∨ ∃ k, r.cont = .start k)

/-- What is true of the active calls in every state. -/
structure System.Progressing (s : System) : Prop where
  frames : ∀ fr ∈ s.frames, s.vm.Defines fr.fAddr
  bottom : ∀ r, s.running = some r → r.Bottom s.vm

section Steps
variable {pf : Platform} {vm vm' : Vm} {r : Running} {fr : Frame} {rest : List Frame} {fn : Func} {s s' : System}

theorem Vm.Defines.of_shape {a : Addr} (h : vm.Defines a) (hs : vm'.shape = vm.shape) : vm'.Defines a := by
  obtain ⟨hlinked, fn, hfn, himp⟩ := h
  refine ⟨hlinked.of_shape hs, fn, ?_, himp⟩
  rw [Vm.func_eq_of_shape hs]
  exact hfn

theorem Moved.defines (h : Moved pf vm r fr rest fn s) (hframes : r.frames = fr :: rest)
    (hshape : s.vm.shape = vm.shape) (henter : EntersDefined ⟨vm, some r⟩ s)
    (hall : ∀ fr ∈ r.frames, vm.Defines fr.fAddr) : ∀ fr ∈ s.frames, s.vm.Defines fr.fAddr := by
  rw [hframes] at hall
  obtain ⟨hfr, hrest⟩ := List.forall_mem_cons.mp hall
  cases h with
  | stay _ hadv =>
    refine List.forall_mem_cons.mpr ⟨?_, fun fr' hfr' => (hrest fr' hfr').of_shape hshape⟩
    rw [hadv.fAddr]
    exact hfr.of_shape hshape
  | @call callee calleeFn params args new caller t hadv =>
    refine List.forall_mem_cons.mpr ⟨?_, List.forall_mem_cons.mpr ⟨?_, hrest⟩⟩
    · apply henter new (caller :: rest) rfl
      rw [frames_of_running (s := ⟨vm, some r⟩) rfl, hframes]
      exact Nat.le_refl _
    · rw [hadv.fAddr]
      exact hfr
  | ret heq haddr =>
    subst heq
    obtain ⟨hcaller, hrest⟩ := List.forall_mem_cons.mp hrest
    refine List.forall_mem_cons.mpr ⟨?_, hrest⟩
    rw [haddr]
    exact hcaller
  | abort =>
    rw [frames_abort]
    simp
  | finish _ h =>
    rw [frames_finish h]
    simp

theorem Running.Bottom.of_shape (h : r.Bottom vm) (hs : vm'.shape = vm.shape) : r.Bottom vm' := by
  obtain ⟨fr, fn, hlast, hfn, hcont⟩ := h
  refine ⟨fr, fn, hlast, ?_, hcont⟩
  rw [Vm.func_eq_of_shape hs]
  exact hfn

/-- The bottom frame may change, but not its function. -/
theorem Running.Bottom.congr {r' : Running} (h : r.Bottom vm) (hcont : r'.cont = r.cont)
    (hlast : r'.frames.getLast?.map (·.fAddr) = r.frames.getLast?.map (·.fAddr)) : r'.Bottom vm := by
  obtain ⟨fr, fn, hfr, hfn, hc⟩ := h
  rw [hfr, Option.map_some, Option.map_eq_some_iff] at hlast
  obtain ⟨fr', hfr', haddr⟩ := hlast
  refine ⟨fr', fn, hfr', ?_, ?_⟩
  · rw [haddr]
    exact hfn
  · rw [hcont]
    exact hc

theorem running_abort (vm : Vm) (r : Running) : (abort vm r).running = none := by
  rw [abort]
  split <;> rfl

theorem running_finish {results : List ValueU} (h : finish vm r results = .ok s) : s.running = none := by
  rw [finish] at h
  split at h
  · obtain ⟨vals, -, h⟩ := bind_eq_ok.mp h
    cases h
    rfl
  · cases h
    rfl

theorem Moved.bottom (h : Moved pf vm r fr rest fn s) (hframes : r.frames = fr :: rest) (hshape : s.vm.shape = vm.shape)
    (hb : r.Bottom vm) : ∀ r', s.running = some r' → r'.Bottom s.vm := by
  have hlast : ∀ {top top' : Frame} {below : List Frame}, top'.fAddr = top.fAddr →
      (top' :: below).getLast?.map (·.fAddr) = (top :: below).getLast?.map (·.fAddr) := by
    intro top top' below haddr
    cases below with
    | nil => simp [haddr]
    | cons => rfl
  intro r' hr'
  cases h with
  | stay _ hadv =>
    cases hr'
    refine Running.Bottom.of_shape (hb.congr rfl ?_) hshape
    rw [hframes]
    exact hlast hadv.fAddr
  | call hadv =>
    cases hr'
    refine hb.congr rfl ?_
    rw [hframes, List.getLast?_cons_cons]
    exact hlast hadv.fAddr
  | @ret caller caller' rest' heq haddr =>
    subst heq
    cases hr'
    refine hb.congr rfl ?_
    rw [hframes, List.getLast?_cons_cons]
    exact hlast haddr
  | abort =>
    rw [running_abort] at hr'
    cases hr'
  | finish _ h =>
    rw [running_finish h] at hr'
    cases hr'

theorem callInThread_bottom {t : Thread} {fAddr : Addr} {argv : List TypedValue} {cont : FuncType → Cont}
    (hcont : ∀ ft, cont ft = .invoke ft ∨ ∃ k, cont ft = .start k) (h : callInThread vm t fAddr argv cont = .ok r) :
    r.Bottom vm := by
  obtain ⟨-, fn, fr, t', hfn, -, -, hent, rfl⟩ := callInThread_ok h
  obtain ⟨-, -, fn', hfn', -, rfl, -⟩ := enter_ok hent
  exact ⟨_, fn, rfl, hfn, hcont fn.fnType⟩

/-- The only frame of a call from the host. -/
theorem defines_of_call {t : Thread} {a : Addr} {argv : List TypedValue} {cont : FuncType → Cont}
    (h : callInThread vm' t a argv cont = .ok r) (henter : EntersDefined ⟨vm, none⟩ ⟨vm', some r⟩) :
    ∀ fr ∈ r.frames, vm'.Defines fr.fAddr := by
  obtain ⟨-, fn, fr, t', -, -, -, -, rfl⟩ := callInThread_ok h
  intro fr' hfr'
  rw [List.mem_singleton.mp hfr']
  exact henter fr [] rfl (Nat.le_refl 0)

theorem progressing_idle (h : s.running = none) : s.Progressing := by
  constructor
  · intro fr hfr
    rw [System.frames, h] at hfr
    cases hfr
  · intro r hr
    rw [h] at hr
    cases hr

theorem progressStep_progressing (h : ProgressStep pf s s') (hs : s.Progressing) : s'.Progressing := by
  obtain ⟨hstep, henter⟩ := h
  cases hstep with
  | @run vm r s' h =>
    obtain ⟨fr, rest, fn, hframes, -, hmoved⟩ := runStep_moved h
    have hshape := runStep_shape h
    exact ⟨hmoved.defines hframes hshape henter hs.frames, hmoved.bottom hframes hshape (hs.bottom r rfl)⟩
  | invoke _ h =>
    refine ⟨defines_of_call h henter, fun r hr => ?_⟩
    cases hr
    exact callInThread_bottom (fun ft => .inl rfl) h
  | reset => exact progressing_idle rfl
  | instantiate hm h =>
    cases hr : s'.running with
    | none => exact progressing_idle hr
    | some r =>
      obtain ⟨k, fAddr, hcall⟩ := (instantiateStep_ok h).2 r hr
      obtain ⟨vm', running⟩ := s'
      obtain rfl : running = some r := hr
      refine ⟨defines_of_call hcall henter, fun r hr => ?_⟩
      cases hr
      exact callInThread_bottom (fun ft => .inr ⟨k, rfl⟩) hcall

theorem run_progressing (h : ReflTransGen (ProgressStep pf) {} s) : s.Progressing :=
  Run.invariant (p := System.Progressing) (fun _ _ hstep => progressStep_progressing hstep) h (progressing_idle rfl)

theorem run_of_progress (h : ReflTransGen (ProgressStep pf) {} s) : ReflTransGen (SysStep pf Module.Runnable) {} s :=
  Relation.ReflTransGen.mono (fun _ _ hstep => hstep.1) _ _ h

theorem run_running (h : ReflTransGen (SysStep pf Module.Runnable) {} s) : ∀ mod ∈ s.vm.mods, mod.Running := by
  refine Run.invariant (p := fun s : System => ∀ mod ∈ s.vm.mods, mod.Running) ?_ h ?_
  · intro x y hstep hx
    exact sysStep_forall_mods (fun _ _ hmod hval => hmod.running hval) hstep hx
  · intro mod hmod
    cases hmod

end Steps

/-! ### One pass -/

/-- The innermost call is at an instruction, with these operands. -/
def System.AtInstr (s : System) (fr : Frame) (i : Instr) (stack : List ValueU) : Prop :=
  ∃ r rest fn regs, s.running = some r ∧ r.frames = fr :: rest ∧ s.vm.func fr.fAddr = .ok fn ∧
    actStep fn lo32 fr.act = .ok (.plain i ⟨regs, stack⟩)

/-- The entry of a table that `call_indirect` finds is not null, and leads to no function with a body. -/
def StrayEntry (pf : Platform) (vm : Vm) (k tableIdx : ℕ) (v : ValueU) : Prop :=
  ∃ a t ref, vm.addr (·.tAddrs) k tableIdx = .ok a ∧ vm.table a = .ok t ∧ t.tdata[indirectIndex v]? = some ref ∧
    ref ≠ nullref ∧
      ¬ ∃ callee fn, pf.toFuncAddr ref = some callee ∧ vm.func callee = .ok fn ∧ fn.linkage.imported = false

/-- What the interpreter does not look out for. -/
inductive System.Hazard (pf : Platform) (s : System) : Prop
  | fill {fr idx size ref offset rest} (hat : s.AtInstr fr (.tableFill idx) (size :: ref :: offset :: rest))
      (h : FillWraps s.vm fr.fAddr.inst idx size offset) : System.Hazard pf s
  | stray {fr typeIdx tableIdx v rest} (hat : s.AtInstr fr (.callIndirect typeIdx tableIdx) (v :: rest))
      (h : StrayEntry pf s.vm fr.fAddr.inst tableIdx v) : System.Hazard pf s

/-- The host can go on. -/
def Succeeds {α : Type} (x : R α) : Prop := ∃ a, x = .ok a

section Pass
variable {pf : Platform} {vm : Vm} {r : Running} {fr : Frame} {rest : List Frame} {fn calleeFn : Func} {k : ℕ}
  {mi : ModuleInst} {a : Act ValueU}

theorem checked_succeeds {α : Type} {x : R α} {next : α → R System} (hx : Defined x)
    (hnext : ∀ a, x = .ok a → Succeeds (next a)) : Succeeds (checked vm r x next) := by
  cases x with
  | ok a => exact hnext a rfl
  | error e =>
    cases e with
    | err t msg => exact ⟨_, rfl⟩
    | undefined what => exact absurd rfl (hx what)

/-- A function with a body or a trampoline can be called with its arguments. -/
theorem callFunc_succeeds (hpf : pf.Total) {callee : Addr} {params : List ValueU} {args : ℕ}
    (hfn : vm.func callee = .ok calleeFn) (hcount : calleeFn.fnType.paramCount ≤ calleeFn.localCount) :
    Succeeds (callFunc pf vm r fr rest a callee calleeFn params args) := by
  rw [callFunc]
  split
  · exact checked_succeeds (hpf.host _ _ _) fun x _ => ⟨_, rfl⟩
  · refine checked_succeeds ?_ fun x _ => ⟨_, rfl⟩
    unfold enter
    simp only [hfn, ok_bind, if_neg (Nat.not_lt.mpr hcount), defined_ite, defined_err, defined_ok, implies_true,
      and_self]

theorem popParams_of_le (h : calleeFn.fnType.paramCount ≤ a.stack.length) :
    ∃ params a', popParams calleeFn a = .ok (params, a') := by
  rw [popParams, if_neg (Nat.not_lt.mpr h)]
  exact ⟨_, _, rfl⟩

theorem opCall_succeeds (hpf : pf.Total) (heq : vm.Equipped fr.fAddr.inst mi) {idx : ℕ}
    (hidx : idx < mi.mod.funcs.length) (hpops : pops mi.mod (.call idx) ≤ a.stack.length)
    (hcounts : ∀ a fn, vm.func a = .ok fn → fn.linkage.imported = false → fn.fnType.paramCount ≤ fn.localCount) :
    Succeeds (opCall pf vm r fr rest fn a idx) := by
  obtain ⟨callee, calleeFn, hcallee, hfn, himp, d, hd, htype⟩ := heq.funcs idx hidx
  have hle : calleeFn.fnType.paramCount ≤ a.stack.length := by
    rw [← htype]
    simpa [pops, hd] using hpops
  obtain ⟨params, a', hpop⟩ := popParams_of_le hle
  simp only [opCall, hcallee, hfn, hpop, ok_bind]
  exact callFunc_succeeds hpf hfn (hcounts _ _ hfn himp)

theorem opCallIndirect_succeeds (hpf : pf.Total) (heq : vm.Equipped fr.fAddr.inst mi) {typeIdx tableIdx : ℕ}
    (htype : typeIdx < mi.mod.funcTypes.length) (htable : tableIdx < mi.mod.tables.length)
    (hpops : pops mi.mod (.callIndirect typeIdx tableIdx) ≤ a.stack.length)
    (hstray : ∀ v stack, a.stack = v :: stack → ¬ StrayEntry pf vm fr.fAddr.inst tableIdx v)
    (hcounts : ∀ a fn, vm.func a = .ok fn → fn.linkage.imported = false → fn.fnType.paramCount ≤ fn.localCount) :
    Succeeds (opCallIndirect pf vm r fr rest fn a typeIdx tableIdx) := by
  have hft := List.getElem?_eq_getElem htype
  have hlen : mi.mod.funcTypes[typeIdx].paramCount + 1 ≤ a.stack.length := by
    simpa [pops, hft] using hpops
  obtain ⟨v, stack, hstack⟩ := List.exists_cons_of_length_pos (Nat.zero_lt_of_lt hlen)
  obtain ⟨ta, t, hta, ht⟩ := heq.tables tableIdx htable
  have hinst : vm.inst fr.fAddr.inst = .ok mi := by rw [Vm.inst, heq.inst]
  rw [hstack, List.length_cons] at hlen
  -- either there is a trap, or the entry leads to a function of the type of the instruction
  have hcallee : ∀ x, indirectCallee pf vm fr.fAddr.inst typeIdx tableIdx (indirectIndex v) = x →
      (∃ t msg, x = err t msg) ∨ ∃ callee calleeFn, x = .ok callee ∧ vm.func callee = .ok calleeFn ∧
        calleeFn.linkage.imported = false ∧ calleeFn.fnType = mi.mod.funcTypes[typeIdx] := by
    rintro x rfl
    simp only [indirectCallee, hinst, ok_bind, hft, hta, ht]
    cases hentry : t.tdata[indirectIndex v]? with
    | none => exact .inl ⟨_, _, rfl⟩
    | some ref =>
      simp only
      split
      · exact .inl ⟨_, _, rfl⟩
      · next hne =>
        obtain ⟨callee, calleeFn, haddr, hfn, himp⟩ : ∃ callee fn, pf.toFuncAddr ref = some callee ∧
            vm.func callee = .ok fn ∧ fn.linkage.imported = false := by
          by_contra hnone
          exact hstray v stack hstack ⟨ta, t, ref, hta, ht, hentry, hne, hnone⟩
        simp only [haddr, hfn, ok_bind]
        split
        · exact .inl ⟨_, _, rfl⟩
        · next heqt => exact .inr ⟨callee, calleeFn, rfl, hfn, himp, funcTypeEq_iff.mp (by simpa using heqt)⟩
  rw [opCallIndirect, hstack]
  obtain ⟨et, msg, herr⟩ | ⟨callee, calleeFn, hok, hfn, himp, heqt⟩ := hcallee _ rfl
  · simp only [herr]
    exact ⟨_, rfl⟩
  · simp only [hok, checked, hfn, ok_bind]
    have hle : calleeFn.fnType.paramCount ≤ stack.length := by
      rw [heqt]
      omega
    obtain ⟨params, a', hpop⟩ := popParams_of_le (a := { a with stack := stack }) hle
    simp only [hpop, ok_bind]
    exact callFunc_succeeds hpf hfn (hcounts _ _ hfn himp)

theorem opPlain_succeeds (hpf : pf.Total) (heq : vm.Equipped fr.fAddr.inst mi) (hsegs : mi.mod.SegmentsFit) {i : Instr}
    (hnames : i.Names mi.mod fr.locals.length) (hplain : i.isControl = false) (hcall : ∀ idx, i ≠ .call idx)
    (hindirect : ∀ t tab, i ≠ .callIndirect t tab) (hpops : pops mi.mod i ≤ a.stack.length)
    (hfill : ∀ idx size ref offset stack, i = .tableFill idx → a.stack = size :: ref :: offset :: stack →
      ¬ FillWraps vm fr.fAddr.inst idx size offset) : Succeeds (opPlain pf vm r fr rest i a) := by
  have hcount : pops mi.mod i = operandCount i := by
    cases i with
    | call idx => exact absurd rfl (hcall idx)
    | callIndirect t tab => exact absurd rfl (hindirect t tab)
    | _ => rfl
  rw [hcount] at hpops
  have hlen : (a.stack.take (operandCount i)).length = operandCount i := by
    rw [List.length_take]
    omega
  have hdef := effect_defined (s := ⟨vm, fr.locals⟩) hpf heq hsegs hnames hplain hcall hindirect hlen (by
    rintro idx size ref offset rfl hargs
    have hstack : a.stack = size :: ref :: offset :: a.stack.drop 3 := by
      have hsplit := (List.take_append_drop 3 a.stack).symm
      rwa [show a.stack.take 3 = [size, ref, offset] from hargs] at hsplit
    exact hfill idx size ref offset _ rfl hstack)
  rw [opPlain, if_neg (Nat.not_lt.mpr hpops)]
  cases heff : effect pf fr.fAddr.inst i (a.stack.take (operandCount i)) ⟨vm, fr.locals⟩ with
  | mk res s1 =>
    cases res with
    | ok results => exact ⟨_, rfl⟩
    | error e =>
      cases e with
      | err t msg => exact ⟨_, rfl⟩
      | undefined what =>
        rw [Exec.DefinedAt, heff] at hdef
        exact absurd rfl (hdef what)

theorem opFinish_succeeds {ts : List TypeId} (hts : parseTypes fn.fnType.resultCount fn.fnType.results = .ok ts)
    {stack : List ValueU} (hlen : fn.fnType.resultCount ≤ stack.length) (hframes : r.frames = fr :: rest)
    (hfn : vm.func fr.fAddr = .ok fn) (hb : r.Bottom vm) : Succeeds (opFinish vm r rest fn stack) := by
  rw [opFinish, if_neg (Nat.not_lt.mpr hlen)]
  cases rest with
  | cons caller rest => exact ⟨_, rfl⟩
  | nil =>
    obtain ⟨fr', fn', hlast, hfn', hcont⟩ := hb
    rw [hframes] at hlast
    cases hlast
    obtain rfl : fn = fn' := Except.ok.inj (hfn.symm.trans hfn')
    refine finish_defined (r := { r with thread := r.thread.leave fn }) hts hcont ?_
    rw [List.length_reverse, List.length_take]
    omega

end Pass

/-! ### Runs -/

theorem names_parsed {mod : Module} {locals : ℕ} (i : Instr) : i.Names mod.parsed locals ↔ i.Names mod locals := by
  cases i <;> simp [Instr.Names, Module.parsed]

theorem Instr.Names.mono {mod : Module} {locals locals' : ℕ} {i : Instr} (h : i.Names mod locals)
    (hle : locals ≤ locals') : i.Names mod locals' := by
  cases i with
  | localGet | localSet | localTee => exact Nat.lt_of_lt_of_le h hle
  | _ => exact h

theorem Module.Running.counts {mod : Module} (h : mod.Running) {fn : Func} (hfn : fn ∈ mod.funcs)
    (himp : fn.linkage.imported = false) : fn.fnType.paramCount ≤ fn.localCount := by
  obtain ⟨f, cE, hval⟩ := h.validated fn hfn (h.bodies fn hfn himp)
  have hcount : f.localCount = f.fnType.paramCount + f.localTypes.length := hval.safe.locals
  rw [hval.result]
  simp only [hcount]
  omega

/-- An instruction that validation has come to names what is there. -/
theorem Module.Running.names {mod : Module} (h : mod.Running) {fn f : Func} {cE : Ctx} (hfn : fn ∈ mod.funcs)
    (hval : fn.Validated RunSafe mod f cE) {p imm q : ℕ} {c c' : Ctx} {i : Instr} (hr : Reach mod.parsed f (p, c))
    (hf : fetch mod.parsed f.code p = .ok (i, imm, q)) (hcb : onInstr mod.parsed i ⟨f.code, imm⟩ c = .ok c') :
    i.erase.Names mod fn.localCount := by
  have haccepted : Accepted mod fn ⟨p, i, imm, q⟩ := by
    rw [Accepted, hval.code, ← instrs_parsed]
    rw [onInstr_parsed] at hcb
    exact ⟨hr.mem_instrs hf, c, c', hcb⟩
  have hnames := onInstr_names hcb fun hi =>
    h.sizes.accepted hfn haccepted (by obtain rfl | rfl := hi <;> rfl)
  rw [names_erase, ← names_parsed]
  refine hnames.mono ?_
  have hcount : fn.localCount = f.localCount := by rw [hval.result]
  rw [hcount]
  exact hval.safe.slots.locals_le hr

theorem Module.Runnable.ofHost {mod : Module} (h : mod.Runnable) : mod.OfHost := ⟨mod, h.given.loaded, rfl⟩

theorem runStep_defined {pf : Platform} (hpf : pf.Total) {s : System} (h : ReflTransGen (ProgressStep pf) {} s)
    {r : Running} (hr : s.running = some r) (hhazard : ¬ s.Hazard pf) : Succeeds (runStep pf s.vm r) := by
  have hsys := run_of_progress h
  have hprog := run_progressing h
  have hmods := run_running hsys
  have hok : VmOk s.vm := run_vmOk (fun mod hmod => hmod.given.loaded.fresh) hsys
  have hruns := run_inRuns (fun mod hmod => hmod.given.loaded.fresh) hsys
  have hground : Grounded s.vm :=
    run_grounded (ReflTransGen.mono (fun _ _ hstep => hstep.mono fun _ hmod => hmod.ofHost) _ _ hsys)
  obtain ⟨fr0, fn0, hlast, -⟩ := hprog.bottom r hr
  obtain ⟨fr, rest, hframes⟩ := List.exists_cons_of_ne_nil (List.ne_nil_of_mem (List.mem_of_getLast? hlast))
  have hmem : fr ∈ s.frames := by
    rw [frames_of_running hr, hframes]
    exact List.mem_cons_self
  obtain ⟨hlinked, fn, hfn, himp⟩ := hprog.frames fr hmem
  obtain ⟨mi, hmi, hidx⟩ := Vm.func_ok.mp hfn
  have hfnmem : fn ∈ mi.mod.funcs := List.mem_of_getElem? hidx
  have hrunning := hmods mi.mod (List.mem_map_of_mem (List.mem_of_getElem? hmi))
  have hcode := hrunning.bodies fn hfnmem himp
  have heq := equipped_of_linked hok hground (run_flagged hsys) hlinked hmi
  have hcounts : ∀ a fn, s.vm.func a = .ok fn → fn.linkage.imported = false → fn.fnType.paramCount ≤ fn.localCount := by
    intro a fn hfn himp
    obtain ⟨mod, hmod, hmem⟩ := func_mem_mods hfn
    exact (hmods mod hmod).counts hmem himp
  -- the innermost call is in step with validation
  have htop : fr.At s.vm fr.act := hruns.top fr (by rw [frames_of_running hr, hframes]; rfl)
  obtain ⟨f, cE, hval, hrun⟩ := htop.validated (fun mod hmod => (hmods mod hmod).validated) hmi hidx hcode
  have hsound : Sound mi.mod.parsed f cE := ⟨hval.accepts, hval.safe.heights.jumps⟩
  have hlands := hval.safe.heights.run_lands hsound hval.code hval.jt hrun
  obtain ⟨out, hout, hpass⟩ := hlands.step lo32 hval.code hval.jt (hval.safe.heights.trusted hsound)
  obtain ⟨fn', hfn', hslots⟩ := run_slotted hsys fr hmem
  obtain rfl : fn = fn' := Except.ok.inj (hfn.symm.trans hfn')
  rw [runStep, hframes]
  simp only [hfn, hout, ok_bind]
  cases out with
  | trap => exact ⟨_, rfl⟩
  | next a => exact ⟨_, rfl⟩
  | finish stack =>
    have hle := hpass.results_le
    cases hpass with
    | finish hrs =>
      rw [← hval.fnType] at hle hrs
      exact opFinish_succeeds hrs hle hframes hfn (hprog.bottom r hr)
  | plain i a =>
    have hpops := hpass.pops_le
    rw [pops_parsed] at hpops
    obtain ⟨p, c, i0, imm, q, c', hsync, -, hf, hctl, hcb, rfl, -⟩ := hpass.plain_inv
    have hnames := hrunning.names hfnmem hval hsync.reach hf hcb
    have hplain : i0.erase.isControl = false := by
      cases i0 <;> first | rfl | cases hctl
    generalize i0.erase = i at hout hpops hnames hplain
    have hat : ∀ {stack}, a.stack = stack → s.AtInstr fr i stack := by
      rintro stack rfl
      exact ⟨r, rest, fn, a.regs, hr, hframes, hfn, hout⟩
    rw [← hslots] at hnames
    cases i with
    | call idx => exact opCall_succeeds hpf heq hnames hpops hcounts
    | callIndirect typeIdx tableIdx =>
      refine opCallIndirect_succeeds hpf heq hnames.1 hnames.2 hpops (fun v stack hstack hstray => ?_) hcounts
      exact hhazard (.stray (hat hstack) hstray)
    | unreachable | block | else_ | end_ | brOrIf | brTable | return_ => cases hplain
    | _ =>
      refine opPlain_succeeds hpf heq hrunning.segments hnames hplain (by simp) (by simp) hpops ?_
      rintro idx size ref offset stack hi hstack hwraps
      rw [hi] at hat
      exact hhazard (.fill (hat hstack) hwraps)

theorem total_idle : idle.Total := by
  constructor
  · intro id params bytes
    exact defined_ok _
  · intro i v
    exact defined_ok _
  · intro i v w
    exact defined_ok _

theorem runnable_localModule : localModule.Runnable := by
  constructor
  · refine ⟨loaded_localModule, fun fn hfn _ => ?_⟩
    rw [List.mem_singleton.mp hfn]
    exact ⟨heightSafe_of_check (by decide +kernel) rfl, by decide⟩
  · decide +kernel
  · intro elem helem
    cases helem

theorem localRun_progress : ReflTransGen (ProgressStep idle) {} localRun := by
  have hstart : instantiateStep idle {} 0 localModule = .ok localRun := by decide +kernel
  refine .single ⟨.instantiate runnable_localModule hstart, ?_⟩
  intro fr rest hframes _
  cases hframes
  refine ⟨?_, _, rfl, rfl⟩
  intro mi hmi kind i hi
  cases hmi
  cases kind with
  | func =>
    obtain rfl : i = 0 := Nat.lt_one_iff.mp hi
    exact ⟨⟨0, 0⟩, rfl⟩
  | table | memory | global => exact absurd hi (Nat.not_lt_zero i)

/-- The instructions whose operands are not checked. -/
def Instr.Unchecked : Instr → Prop
  | .tableFill _ => True
  | .callIndirect _ _ => True
  | _ => False

theorem System.Hazard.unchecked {pf : Platform} {s : System} (h : s.Hazard pf) :
    ∃ fr i stack, s.AtInstr fr i stack ∧ i.Unchecked := by
  cases h with
  | fill hat => exact ⟨_, _, _, hat, trivial⟩
  | stray hat => exact ⟨_, _, _, hat, trivial⟩

end Silverfir
