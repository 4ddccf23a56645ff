import Silverfir.ActiveCalls
import Silverfir.StackRoom
import Silverfir.Executed
import Silverfir.Threads

/-! The operand stacks of the active calls: how high they are follows from where the calls are in their bodies, and
`stack_size_max` is enough for them, in every run of the whole system. -/
namespace Silverfir

open InPlaceDt Validator ListStack
open Relation (ReflTransGen)

variable {pf : Platform} {mods : Module → Prop} {mod mod' : Module} {f fn : Func} {cE : Ctx} {vm : Vm} {s : System}

/-! ### Before and after validation -/

theorem closes_parsed {p : ℕ} {c : Ctx} {fr : CtrlFrame} : Closes mod.parsed f p c fr ↔ Closes mod f p c fr :=
  ⟨fun h => ⟨reach_parsed.mp h.reach, h.instr, h.top⟩, fun h => ⟨reach_parsed.mpr h.reach, h.instr, h.top⟩⟩

theorem oneArmed_parsed {p : ℕ} {c : Ctx} {fr : CtrlFrame} : OneArmed mod.parsed f p c fr ↔ OneArmed mod f p c fr :=
  ⟨fun h => ⟨reach_parsed.mp h.reach, h.fetch, h.top, h.type⟩,
    fun h => ⟨reach_parsed.mpr h.reach, h.fetch, h.top, h.type⟩⟩

theorem Fits.parsed (h : Fits mod f) : Fits mod.parsed f where
  arity x fr hx := h.arity x fr (reach_parsed.mp hx)
  height x hx := h.height x (reach_parsed.mp hx)

theorem RoomSafe.parsed (h : RoomSafe mod f) : RoomSafe mod.parsed f where
  jumps := jumpSafe_parsed.mpr h.jumps
  fits := h.fits.parsed
  ifs p c fr ho := h.ifs p c fr (oneArmed_parsed.mp ho)

theorem HeightSafe.parsed (h : HeightSafe mod f) : HeightSafe mod.parsed f where
  jumps := jumpSafe_parsed.mpr h.jumps
  fits := h.fits.parsed
  exits p c fr hc := h.exits p c fr (closes_parsed.mp hc)
  ifs p c fr ho := h.ifs p c fr (oneArmed_parsed.mp ho)

theorem HeightSafe.room (h : HeightSafe mod f) : RoomSafe mod f where
  jumps := h.jumps
  fits := h.fits
  ifs p c fr ho := (h.ifs p c fr ho).le

theorem pops_parsed (mod : Module) (i : Instr) : pops mod.parsed i = pops mod i := by
  cases i with
  | call idx =>
    simp only [pops, Module.parsed, List.getElem?_map]
    cases mod.funcs[idx]? <;> rfl
  | _ => rfl

theorem pushes_parsed (mod : Module) (i : Instr) : pushes mod.parsed i = pushes mod i := by
  cases i with
  | call idx =>
    simp only [pushes, Module.parsed, List.getElem?_map]
    cases mod.funcs[idx]? <;> rfl
  | _ => rfl

theorem counted_parsed {V : Type} (mod : Module) : (Counted mod.parsed : PlainRel V) = Counted mod := by
  funext p i args results
  rw [Counted, Counted, pops_parsed, pushes_parsed]

/-- A module as the host holds it before it is validated, whose bodies satisfy `P`. -/
structure Module.Given (P : Module → Func → Prop) (mod : Module) : Prop where
  loaded : Loaded mod
  bodies : ∀ fn ∈ mod.funcs, fn.linkage.imported = false → P mod fn

/-- A function with a body, and what validation has made of it. -/
structure Func.Validated (P : Module → Func → Prop) (mod : Module) (fn f : Func) (cE : Ctx) : Prop where
  safe : P mod.parsed f
  accepts : ∃ e imm ce, Accepts mod.parsed f e imm ce cE
  result : fn = { f with jt := linkJumpTable cE.jt, stackSizeMax := cE.stackSizeMax }

section Validated
variable {P : Module → Func → Prop} (h : fn.Validated P mod f cE)
include h

theorem Func.Validated.code : fn.code = f.code := by rw [h.result]

theorem Func.Validated.jt : fn.jt = linkJumpTable cE.jt := by rw [h.result]

theorem Func.Validated.size : fn.stackSizeMax = cE.stackSizeMax := by rw [h.result]

theorem Func.Validated.fnType : fn.fnType = f.fnType := by rw [h.result]

end Validated

def Module.Validated (P : Module → Func → Prop) (mod : Module) : Prop :=
  ∀ fn ∈ mod.funcs, fn.code ≠ [] → ∃ f cE, fn.Validated P mod f cE

theorem Module.Given.validated {P : Module → Func → Prop} (hP : ∀ mod f, P mod f → P mod.parsed f) (h : mod.Given P)
    (hval : validateFuncs mod.funcs.length mod = .ok mod') : mod'.Validated P := by
  intro fn' hfn hne
  obtain ⟨fn, hmem, hparsed, hvalid⟩ := validated_func hval hfn
  have hcode : fn'.parsed.code = fn.parsed.code := congrArg Func.code hparsed
  have hlinkage : fn'.parsed.linkage = fn.parsed.linkage := congrArg Func.linkage hparsed
  change fn'.code = fn.code at hcode
  change fn'.linkage = fn.linkage at hlinkage
  have himp : fn.linkage.imported = false := by
    by_contra htrue
    rw [hcode] at hne
    exact hne (h.loaded.imported_code fn hmem (by simpa using htrue))
  have hsafe := hP mod fn (h.bodies fn hmem himp)
  obtain ⟨e, imm, ce, cE, ha, heq⟩ := validateFunc_ok.mp (hvalid (hlinkage ▸ himp))
  rw [← (validateFuncs_ok hval).parsed] at hsafe ha
  exact ⟨fn, cE, hsafe, ⟨e, imm, ce, ha⟩, heq⟩

theorem run_validated {P : Module → Func → Prop} (hP : ∀ mod f, P mod f → P mod.parsed f)
    (hmods : ∀ mod, mods mod → mod.Given P) (h : ReflTransGen (SysStep pf mods) {} s) :
    ∀ mod ∈ s.vm.mods, mod.Validated P := by
  refine Run.invariant (p := fun s : System => ∀ mod ∈ s.vm.mods, mod.Validated P) ?_ h ?_
  · intro x y hstep hx
    exact sysStep_forall_mods (fun mod mod' hmod hval => (hmods mod hmod).validated hP hval) hstep hx
  · intro mod hmod
    cases hmod

/-- A call of a function with a body is a run of what was validated. -/
theorem Frame.At.validated {P : Module → Func → Prop} {fr : Frame} {a : Act ValueU} {mi : ModuleInst}
    (hm : ∀ mod ∈ vm.mods, mod.Validated P) (h : fr.At vm a) (hmi : vm.instances[fr.fAddr.inst]? = some mi)
    (hfn : mi.mod.funcs[fr.fAddr.idx]? = some fn) (hcode : fn.code ≠ []) :
    ∃ f cE, fn.Validated P mi.mod f cE ∧ ReflTransGen (ActStep (Counted mi.mod.parsed) fn lo32) Act.start a := by
  obtain ⟨mi', fn', hmi', hfn', hrun⟩ := h
  obtain rfl : mi = mi' := Option.some.inj (hmi.symm.trans hmi')
  obtain rfl : fn = fn' := Option.some.inj (hfn.symm.trans hfn')
  have hmod : mi.mod ∈ vm.mods := List.mem_map_of_mem (List.mem_of_getElem? hmi)
  obtain ⟨f, cE, hval⟩ := hm mi.mod hmod fn (List.mem_of_getElem? hfn) hcode
  refine ⟨f, cE, hval, ?_⟩
  rw [counted_parsed]
  exact hrun

/-! ### The size of the stack -/

/-- Without a body there is nothing to run. -/
theorem code_of_actStep {a : Act ValueU} {out : Outcome ValueU} (h : actStep fn lo32 a = .ok out) : fn.code ≠ [] := by
  intro hnil
  obtain ⟨op, hop, -⟩ := bind_eq_ok.mp h
  rw [hnil, opcodeAt] at hop
  split at hop
  · cases hop
  · cases hop

theorem run_of_no_code {a : Act ValueU} (hcode : fn.code = [])
    (h : ReflTransGen (ActStep (Counted mod) fn lo32) Act.start a) : a = Act.start := by
  refine Run.invariant (p := fun a => a = Act.start) ?_ h rfl
  rintro x y hstep rfl
  cases hstep with
  | next hout => exact absurd hcode (code_of_actStep hout)
  | plain hout => exact absurd hcode (code_of_actStep hout)

/-- A call has at most as many operands as validation has counted. -/
theorem Frame.At.stack_le (hm : ∀ mod ∈ vm.mods, mod.Validated RoomSafe) {fr : Frame} {a : Act ValueU}
    (h : fr.At vm a) : ∃ fn, vm.func fr.fAddr = .ok fn ∧ a.stack.length ≤ fn.stackSizeMax := by
  obtain ⟨mi, fn, hmi, hfn, hrun⟩ := h
  refine ⟨fn, Vm.func_ok.mpr ⟨mi, hmi, hfn⟩, ?_⟩
  by_cases hcode : fn.code = []
  · rw [run_of_no_code hcode hrun]
    exact Nat.zero_le _
  · have hat : fr.At vm a := ⟨mi, fn, hmi, hfn, hrun⟩
    obtain ⟨f, cE, hval, hrun⟩ := hat.validated hm hmi hfn hcode
    have hsound : Sound mi.mod.parsed f cE := ⟨hval.accepts, hval.safe.jumps⟩
    rw [hval.size]
    exact (hval.safe.run_bounded hsound hval.code hval.jt hrun).2

/-- No call ever has more operands than `stack_size_max` of its function, the results that it waits for included: the
operand stack that `in_place_dt_call` allocates is large enough. -/
theorem run_stack_bounded (pf : Platform) (mods : Module → Prop) (hmods : ∀ mod, mods mod → mod.Given RoomSafe)
    (s : System) (h : ReflTransGen (SysStep pf mods) {} s) :
    (∀ fr ∈ s.frames.head?, ∃ fn, s.vm.func fr.fAddr = .ok fn ∧ fr.act.stack.length ≤ fn.stackSizeMax) ∧
    s.frames.IsChain fun callee caller => ∃ calleeFn fn, s.vm.func callee.fAddr = .ok calleeFn ∧
      s.vm.func caller.fAddr = .ok fn ∧
      caller.act.stack.length + calleeFn.fnType.resultCount ≤ fn.stackSizeMax := by
  have hval := run_validated (fun _ _ h => h.parsed) hmods h
  have hruns := run_inRuns (fun mod hmod => (hmods mod hmod).loaded.fresh) h
  constructor
  · intro fr hfr
    exact (hruns.top fr hfr).stack_le hval
  · refine hruns.waiting.imp fun callee caller hawaits => ?_
    obtain ⟨calleeFn, hcallee, hat⟩ := hawaits
    have hlen : (List.replicate calleeFn.fnType.resultCount (0 : ValueU)).length = calleeFn.fnType.resultCount :=
      List.length_replicate ..
    obtain ⟨fn, hfn, hle⟩ := (hat _ hlen).stack_le hval
    refine ⟨calleeFn, fn, hcallee, hfn, ?_⟩
    rw [List.length_append, hlen] at hle
    omega

theorem heightSafe_recursiveModule : recursiveModule.Given HeightSafe := by
  refine ⟨loaded_recursiveModule, fun fn hfn _ => ?_⟩
  rw [List.mem_singleton.mp hfn]
  exact heightSafe_of_check (by decide +kernel) (by decide +kernel)

theorem run_stack_bounded_recursion :
    (∀ fr ∈ (recursion 255).frames.head?, ∃ fn, recursiveVm.func fr.fAddr = .ok fn ∧
      fr.act.stack.length ≤ fn.stackSizeMax) ∧
    (recursion 255).frames.IsChain fun callee caller => ∃ calleeFn fn, recursiveVm.func callee.fAddr = .ok calleeFn ∧
      recursiveVm.func caller.fAddr = .ok fn ∧
      caller.act.stack.length + calleeFn.fnType.resultCount ≤ fn.stackSizeMax := by
  have hmods : ∀ mod, mod = recursiveModule → mod.Given RoomSafe := by
    rintro mod rfl
    exact ⟨loaded_recursiveModule, fun fn hfn himp => (heightSafe_recursiveModule.bodies fn hfn himp).room⟩
  exact run_stack_bounded idle (· = recursiveModule) hmods (recursion 255) (recursion_run 255 (by decide))

/-! ### The height of the stack -/

section Heights
variable {V : Type} {cond : V → ℕ} {a : Act V}

/-- The place of the last `end`. -/
def AtEnd (mod : Module) (f : Func) (pc : ℤ) : Prop :=
  ∃ e imm : ℕ, pc = e ∧ fetch mod f.code e = .ok (.end_, imm, f.code.length)

/-- As many operands as validation has at the same place, or the results. -/
def HeightAt (mod : Module) (f : Func) (a : Act V) : Prop :=
  (AtEnd mod f a.regs.pc ∧ a.stack.length = f.fnType.resultCount) ∨
    (¬ AtEnd mod f a.regs.pc ∧ ∃ p c, a.regs.pc = (p : ℕ) ∧ Reach mod f (p, c) ∧ a.stack.length = c.valStack.length)

/-- At the last `end` the operands are the results. -/
theorem HeightSafe.results_at_end (h : HeightSafe mod f) (hs : Sound mod f cE) {p imm : ℕ} {c : Ctx}
    (hr : Reach mod f (p, c)) (hlt : p < f.code.length) (hf : fetch mod f.code p = .ok (.end_, imm, f.code.length))
    (hlive : ∀ fr ∈ c.ctrlStack, fr.unreachable = false) : c.valStack.length = f.fnType.resultCount := by
  obtain ⟨i, imm', q, c', hf', hcb, hr'⟩ := hs.exists_step hr hlt
  rw [hf] at hf'
  cases hf'
  obtain ⟨cf, rest, k, ts, hc, hm, hp, hc'⟩ := onEnd_ok hcb
  -- the frame that is closed is the only one, that of the function
  have hrest : rest = [] := by
    have hclosed := hs.bracketed.closed c' hr'
    rw [hc', pushVals_ctrlStack] at hclosed
    exact hclosed
  subst hrest
  have hin : ∀ p' c', Reach mod f (p', c') → p' < p → c'.ctrlStack ≠ [] :=
    fun p' c' hr' hlt' => hs.bracketed.inside p' c' hr' (hlt'.trans hlt)
  obtain ⟨fr, hfr, -, htype, hzero⟩ := hr.bottom hin (by rw [hc]; simp)
  rw [hc] at hfr
  obtain rfl : cf = fr := Option.some.inj hfr
  have htop : cf ∈ c.ctrlStack.head? := by rw [hc]; rfl
  have hexact : (c.valStack.drop k).length = cf.height :=
    (exact_iff hr.inv.wf htop hm hp).mpr (h.exits.at_end hr hf htop)
  have hresults : cf.endTypes.length = f.fnType.resultCount := by
    rw [← htype]
    exact parseTypes_length (hr.inv.wf.types cf (List.mem_of_mem_head? htop)).2
  have hlen : ts.length = cf.endTypes.length := by simpa using hm.length_eq
  obtain ⟨hk, -, hle⟩ := hp.of_live hlive
  rw [hzero, List.length_drop] at hexact
  omega

theorem HeightSafe.heightAt (h : HeightSafe mod f) (hs : Sound mod f cE)
    (ha : Lands AnySlot AnyType mod f (linkJumpTable cE.jt) a) : HeightAt mod f a := by
  rcases ha with ⟨p, c, hsync, hops⟩ | ⟨⟨e, imm, hpc, hf⟩, rs, hrs, htyped⟩
  · have hlen : a.stack.length = c.valStack.length := hops.typed.length_eq
    by_cases hend : AtEnd mod f a.regs.pc
    · refine .inl ⟨hend, ?_⟩
      obtain ⟨e, imm, hpc, hf⟩ := hend
      obtain rfl : p = e := by exact_mod_cast hsync.pc.symm.trans hpc
      rw [hlen]
      exact h.results_at_end hs hsync.reach hsync.lt hf hops.live
    · exact .inr ⟨hend, p, c, hsync.pc, hsync.reach, hlen⟩
  · refine .inl ⟨⟨e, imm, hpc, hf⟩, ?_⟩
    have hlen : a.stack.length = rs.length := by simpa using htyped.length_eq
    rw [hlen]
    exact parseTypes_length hrs

/-- The place alone says how many operands there are. -/
theorem HeightAt.unique {a' : Act V} (h : HeightAt mod f a) (h' : HeightAt mod f a') (hpc : a.regs.pc = a'.regs.pc) :
    a.stack.length = a'.stack.length := by
  rw [HeightAt, hpc] at h
  rcases h with ⟨hend, hlen⟩ | ⟨hend, p, c, hp, hr, hlen⟩
  · rcases h' with ⟨-, hlen'⟩ | ⟨hend', -⟩
    · rw [hlen, hlen']
    · exact absurd hend hend'
  · rcases h' with ⟨hend', -⟩ | ⟨-, p', c', hp', hr', hlen'⟩
    · exact absurd hend' hend
    · obtain rfl : p = p' := by exact_mod_cast hp.symm.trans hp'
      obtain rfl := hr.unique hr'
      rw [hlen, hlen']

end Heights

/-- The function of a frame and the module it belongs to. -/
def Frame.Of (vm : Vm) (fr : Frame) (mod : Module) (fn : Func) : Prop :=
  ∃ mi, vm.instances[fr.fAddr.inst]? = some mi ∧ mi.mod = mod ∧ mod.funcs[fr.fAddr.idx]? = some fn

theorem Frame.At.lands (hm : ∀ mod ∈ vm.mods, mod.Validated HeightSafe) {fr : Frame} {a : Act ValueU} (h : fr.At vm a)
    (hfn : fr.Of vm mod fn) (hcode : fn.code ≠ []) :
    ∃ f cE, fn.Validated HeightSafe mod f cE ∧ Lands AnySlot AnyType mod.parsed f (linkJumpTable cE.jt) a := by
  obtain ⟨mi, hmi, rfl, hfn⟩ := hfn
  obtain ⟨f, cE, hval, hrun⟩ := h.validated hm hmi hfn hcode
  have hsound : Sound mi.mod.parsed f cE := ⟨hval.accepts, hval.safe.jumps⟩
  exact ⟨f, cE, hval, hval.safe.run_lands hsound hval.code hval.jt hrun⟩

theorem Frame.At.heightAt (hm : ∀ mod ∈ vm.mods, mod.Validated HeightSafe) {fr : Frame} {a : Act ValueU}
    (h : fr.At vm a) (hfn : fr.Of vm mod fn) (hcode : fn.code ≠ []) : HeightAt mod.parsed fn.parsed a := by
  obtain ⟨f, cE, hval, hlands⟩ := h.lands hm hfn hcode
  have hsound : Sound mod.parsed f cE := ⟨hval.accepts, hval.safe.jumps⟩
  -- validation does not look at the size of before
  have hsized : HeightAt mod.parsed { f with stackSizeMax := 0 } a := hval.safe.heightAt hsound hlands
  have hparsed : fn.parsed = { f with stackSizeMax := 0 } := by
    rw [hval.result, Func.parsed]
    simp only
    rw [← hval.safe.jumps.fresh]
  rw [hparsed]
  exact hsized

/-- How many operands a call has follows from its function and from where it is in the body: two calls of a function
that are at the same place, in whatever runs, have equally many. -/
theorem run_heights (pf pf' : Platform) (mods mods' : Module → Prop) (hmods : ∀ mod, mods mod → mod.Given HeightSafe)
    (hmods' : ∀ mod, mods' mod → mod.Given HeightSafe) (s s' : System) (h : ReflTransGen (SysStep pf mods) {} s)
    (h' : ReflTransGen (SysStep pf' mods') {} s') (mod : Module) (fn : Func) (hcode : fn.code ≠ []) :
    ∀ fr ∈ s.frames.head?, ∀ fr' ∈ s'.frames.head?, fr.Of s.vm mod fn → fr'.Of s'.vm mod fn →
      fr.act.regs.pc = fr'.act.regs.pc → fr.act.stack.length = fr'.act.stack.length := by
  intro fr hfr fr' hfr' hof hof' hpc
  have hruns := run_inRuns (fun mod hmod => (hmods mod hmod).loaded.fresh) h
  have hruns' := run_inRuns (fun mod hmod => (hmods' mod hmod).loaded.fresh) h'
  have hheight := (hruns.top fr hfr).heightAt (run_validated (fun _ _ h => h.parsed) hmods h) hof hcode
  have hheight' := (hruns'.top fr' hfr').heightAt (run_validated (fun _ _ h => h.parsed) hmods' h') hof' hcode
  exact hheight.unique hheight' hpc

theorem of_recursion (n : ℕ) : Frame.Of (recursion n).vm ⟨⟨0, 0⟩, ⟨Regs.start, []⟩, [], 0⟩ recursiveModule
    recursiveModule.funcs[0] := ⟨_, rfl, rfl, rfl⟩

theorem given_recursiveModule : ∀ mod, mod = recursiveModule → mod.Given HeightSafe := by
  rintro mod rfl
  exact heightSafe_recursiveModule

/-- A recursion at the start and deep down. -/
theorem run_heights_recursion : ∃ fr ∈ (recursion 0).frames.head?, ∃ fr' ∈ (recursion 255).frames.head?,
    fr.act.stack.length = fr'.act.stack.length := by
  have hrun := recursion_run 255 (by decide)
  exact ⟨_, rfl, _, rfl, run_heights idle idle (· = recursiveModule) (· = recursiveModule) given_recursiveModule
    given_recursiveModule (recursion 0) (recursion 255) (recursion_run 0 (Nat.zero_le _)) hrun recursiveModule
    recursiveModule.funcs[0] (by decide) _ rfl _ rfl (of_recursion 0) (of_recursion 255) rfl⟩

/-- A plain instruction or a call finds its operands. -/
theorem Passes.pops_le {V : Type} {G : TypeId → Prop} {typed : V → TypeId → Prop} {jt : List JumpTable} {a a' : Act V}
    {i : Instr} (h : Passes typed G mod f jt a (.plain i a')) : pops mod i ≤ a'.stack.length := by
  obtain ⟨p, c, i0, imm, q, c', -, hops, -, hctl, hcb, rfl, hsame, -⟩ := h.plain_inv
  obtain ⟨k, ts, us, hplain⟩ := onInstr_plain hctl hcb
  obtain ⟨hk, -, hle⟩ := hops.popped hplain.popped
  rw [hsame, pops_erase, ← hplain.types.counts.1, hops.typed.length_eq, ← hk]
  exact hle

/-- The results are there at the end. -/
theorem Passes.results_le {V : Type} {G : TypeId → Prop} {typed : V → TypeId → Prop} {jt : List JumpTable} {a : Act V}
    {stack : List V} (h : Passes typed G mod f jt a (.finish stack)) : f.fnType.resultCount ≤ stack.length := by
  cases h with
  | finish hrs hle =>
    rw [← parseTypes_length hrs]
    exact hle

end Silverfir
