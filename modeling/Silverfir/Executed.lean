import Silverfir.Moves
import Silverfir.ControlFlow

/-! What active calls execute: the plain instructions of validated bodies, and no others. -/
namespace Silverfir

open InPlaceDt Validator
open Relation (ReflTransGen)

/-! ### The instructions of a body -/

section Instrs
variable {mod : Module} {code : Str}

theorem scan_parsed (mod : Module) (code : Str) (n p : ℕ) : scan mod.parsed code n p = scan mod code n p := by
  induction n generalizing p with
  | zero => rfl
  | succ n ih => simp only [scan, show fetch mod.parsed code p = fetch mod code p from rfl, ih]

theorem instrs_parsed (mod : Module) (code : Str) : instrs mod.parsed code = instrs mod code :=
  scan_parsed mod code code.length 0

theorem jumpSafe_parsed {f : Func} : JumpSafe mod.parsed f ↔ JumpSafe mod f := by
  have hinstrs := instrs_parsed mod f.code
  constructor
  · rintro ⟨hfresh, hbalanced, hlabels, hslots, hshort⟩
    rw [balanced, hinstrs] at hbalanced
    rw [hinstrs] at hlabels
    rw [slotCount, hinstrs] at hslots
    exact ⟨hfresh, hbalanced, hlabels, hslots, hshort⟩
  · rintro ⟨hfresh, hbalanced, hlabels, hslots, hshort⟩
    rw [balanced, ← hinstrs] at hbalanced
    rw [← hinstrs] at hlabels
    rw [slotCount, ← hinstrs] at hslots
    exact ⟨hfresh, hbalanced, hlabels, hslots, hshort⟩

theorem flowOf_plain {i j : Instr} {imm q idx v pc : ℕ}
    (h : flowOf code i imm q idx v = .plain j pc) : i.erase = j := by
  cases i with
  | block op type =>
    simp only [flowOf] at h
    split at h
    · split at h <;> cases h
    · cases h
  | end_ =>
    simp only [flowOf] at h
    split at h <;> cases h
  | brOrIf op l =>
    simp only [flowOf] at h
    split at h <;> cases h
  | unreachable | else_ | brTable | return_ => cases h
  | _ => exact (Flow.plain.inj h).1

end Instrs

/-- A body has been validated, and its jump table can be trusted. -/
def Func.Trusted (mod : Module) (fn : Func) : Prop :=
  ∃ f cE, Sound mod.parsed f cE ∧ fn.code = f.code ∧ fn.jt = linkJumpTable cE.jt

/-- An instruction of a body, past the validator. -/
def Accepted (mod : Module) (fn : Func) (l : Located) : Prop :=
  l ∈ instrs mod fn.code ∧ ∃ c c', onInstr mod l.instr ⟨fn.code, l.imm⟩ c = .ok c'

/-- A function executes plain instructions where validation comes to them. -/
theorem Validator.Sound.executed {mod : Module} {f fn : Func} {cE : Ctx} (hsound : Sound mod f cE) (hcode : fn.code = f.code)
    (hjt : fn.jt = linkJumpTable cE.jt) {a a' : Act ValueU} {i : Instr}
    (hr : ReflTransGen (RegsStep fn) Regs.start a.regs) (hstep : actStep fn lo32 a = .ok (.plain i a')) :
    ∃ p c i0 imm q c', Reach mod f (p, c) ∧ fetch mod f.code p = .ok (i0, imm, q) ∧
      onInstr mod i0 ⟨f.code, imm⟩ c = .ok c' ∧ i0.erase = i := by
  obtain ⟨p, c, hsync⟩ := hsound.run_synced hcode hjt hr
  obtain ⟨i0, imm, q, c', hf, hcb, -⟩ := hsound.exists_step hsync.reach hsync.lt
  simp only [actStep, bind_eq_ok] at hstep
  obtain ⟨op, hop, ⟨operand, stack⟩, -, flow, hflow, hfollow⟩ := hstep
  have hregs : a.regs = ⟨p, a.regs.nextJtIdx⟩ := by rw [← hsync.pc]
  have hdispatch : dispatch fn.code a.regs operand = .ok flow := by
    simp only [dispatch, hop, ok_bind, hflow]
  rw [hcode, hregs, dispatch_of_fetch hf] at hdispatch
  cases hdispatch
  refine ⟨p, c, i0, imm, q, c', hsync.reach, hf, hcb, ?_⟩
  generalize hflow' : flowOf f.code i0 imm q a.regs.nextJtIdx operand = flow at hfollow
  cases flow with
  | plain j pc =>
    cases hfollow
    exact flowOf_plain hflow'
  | next => cases hfollow
  | jump pc idx unwind =>
    obtain ⟨tbl, -, hfollow⟩ := bind_eq_ok.mp hfollow
    split at hfollow
    · obtain ⟨stack', -, hfollow⟩ := bind_eq_ok.mp hfollow
      cases hfollow
    · cases hfollow
  | finish => cases hfollow
  | trap => cases hfollow

/-- A function executes the plain instructions that the validator has accepted. -/
theorem Func.Trusted.executed {mod : Module} {fn : Func} (h : fn.Trusted mod) {a a' : Act ValueU} {i : Instr}
    (hr : ReflTransGen (RegsStep fn) Regs.start a.regs) (hstep : actStep fn lo32 a = .ok (.plain i a')) :
    ∃ l, Accepted mod fn l ∧ l.instr.erase = i := by
  obtain ⟨f, cE, hsound, hcode, hjt⟩ := h
  obtain ⟨p, c, i0, imm, q, c', hreach, hf, hcb, herase⟩ := hsound.executed hcode hjt hr hstep
  rw [onInstr_parsed] at hcb
  have haccepted : Accepted mod fn ⟨p, i0, imm, q⟩ := by
    rw [Accepted, hcode, ← instrs_parsed]
    exact ⟨hreach.mem_instrs hf, c, c', hcb⟩
  exact ⟨_, haccepted, herase⟩

/-! ### Validated modules -/

/-- Every body of the module can be trusted. -/
def Module.Trusted (mod : Module) : Prop := ∀ fn ∈ mod.funcs, fn.code ≠ [] → fn.Trusted mod

/-- A module as the host holds it before it is validated, with bodies whose jump tables will be right. -/
structure Module.JumpsSafe (mod : Module) : Prop where
  loaded : Loaded mod
  bodies : ∀ fn ∈ mod.funcs, fn.linkage.imported = false → JumpSafe mod fn

section Validated
variable {mod mod' : Module}

/-- A function of the validated module, and what it was validated from. -/
theorem validated_func (hval : validateFuncs mod.funcs.length mod = .ok mod') {fn' : Func} (hfn : fn' ∈ mod'.funcs) :
    ∃ fn ∈ mod.funcs, fn'.parsed = fn.parsed ∧
      (fn'.linkage.imported = false → validateFunc mod.parsed fn = .ok fn') := by
  have hv := validateFuncs_ok hval
  obtain ⟨i, hi⟩ := List.mem_iff_getElem?.mp hfn
  have hmap : (mod'.funcs.map Func.parsed)[i]? = (mod.funcs.map Func.parsed)[i]? := by
    have hfuncs := congrArg Module.funcs hv.parsed
    simp only [Module.parsed] at hfuncs
    rw [hfuncs]
  simp only [List.getElem?_map, hi, Option.map_some] at hmap
  obtain ⟨fn, hget, heq⟩ := Option.map_eq_some_iff.mp hmap.symm
  refine ⟨fn, List.mem_of_getElem? hget, heq.symm, fun himp => ?_⟩
  obtain ⟨fn0, hfn0, hvalid⟩ := hv.done i fn' (List.getElem?_eq_some_iff.mp hget).1 hi himp
  obtain rfl : fn0 = fn := Option.some.inj (hfn0.symm.trans hget)
  exact hvalid

theorem Module.JumpsSafe.trusted (h : mod.JumpsSafe) (hval : validateFuncs mod.funcs.length mod = .ok mod') :
    mod'.Trusted := by
  intro fn' hfn hne
  obtain ⟨fn, hmem, hparsed, hvalid⟩ := validated_func hval hfn
  have hcode : fn'.parsed.code = fn.parsed.code := congrArg Func.code hparsed
  have hlinkage : fn'.parsed.linkage = fn.parsed.linkage := congrArg Func.linkage hparsed
  change fn'.code = fn.code at hcode
  change fn'.linkage = fn.linkage at hlinkage
  have himp : fn.linkage.imported = false := by
    by_contra htrue
    rw [hcode] at hne
    exact hne (h.loaded.imported_code fn hmem (by simpa using htrue))
  obtain ⟨cE, hsound, hcode', hjt⟩ := sound_of_validateFunc (hvalid (hlinkage ▸ himp))
    (jumpSafe_parsed.mpr (h.bodies fn hmem himp))
  rw [← (validateFuncs_ok hval).parsed] at hsound
  exact ⟨fn, cE, hsound, hcode', hjt⟩

/-- Validation does not change the bodies. -/
theorem validated_instrs (hval : validateFuncs mod.funcs.length mod = .ok mod') {fn' : Func} (hfn : fn' ∈ mod'.funcs) :
    ∃ fn ∈ mod.funcs, instrs mod' fn'.code = instrs mod fn.code := by
  obtain ⟨fn, hmem, hparsed, -⟩ := validated_func hval hfn
  have hcode : fn'.parsed.code = fn.parsed.code := congrArg Func.code hparsed
  change fn'.code = fn.code at hcode
  refine ⟨fn, hmem, ?_⟩
  rw [hcode, ← instrs_parsed, (validateFuncs_ok hval).parsed, instrs_parsed]

end Validated

/-- In a VM whose modules can be trusted, calls execute what is in the bodies. -/
theorem System.Executes.instr {s : System} {fr : Frame} {i : Instr} (h : s.Executes fr i) (hp : s.Placed)
    (hm : ∀ mod ∈ s.vm.mods, mod.Trusted) :
    ∃ mi fn l, s.vm.instances[fr.fAddr.inst]? = some mi ∧ fn ∈ mi.mod.funcs ∧ Accepted mi.mod fn l ∧
      l.instr.erase = i := by
  obtain ⟨r, rest, fn, a, hr, hframes, hfn, hstep⟩ := h
  obtain ⟨fn', hfn', hregs⟩ := hp fr (by rw [frames_of_running hr, hframes]; exact List.mem_cons_self)
  obtain rfl : fn = fn' := Except.ok.inj (hfn.symm.trans hfn')
  obtain ⟨mi, hmi, hget⟩ := Vm.func_ok.mp hfn
  have hmem := List.mem_of_getElem? hget
  have htrusted := hm mi.mod (List.mem_map.mpr ⟨mi, List.mem_of_getElem? hmi, rfl⟩) fn hmem
  have hne : fn.code ≠ [] := by
    intro hnil
    obtain ⟨op, hop, -⟩ := bind_eq_ok.mp hstep
    rw [hnil, opcodeAt] at hop
    split at hop
    · simp at hop
    · obtain ⟨b, hb, -⟩ := bind_eq_ok.mp hop
      cases hb
  obtain ⟨l, hl, herase⟩ := (htrusted hne).executed hregs hstep
  exact ⟨mi, fn, l, hmi, hmem, hl, herase⟩

/-! ### What a pass changes -/

/-- At the end of a call nothing but the thread of the VM and the state of an instance changes. -/
theorem Passed.part {vm : Vm} {r : Running} {done : Bool} {s : System} {β : Type} {g : ModuleInst → List β}
    (h : Passed vm r done s) (hg : ∀ mi st, g { mi with state := st } = g mi) : s.vm.part g = vm.part g := by
  cases h with
  | next => rfl
  | abort =>
    rw [Silverfir.abort]
    split
    · rfl
    · exact part_modifyInst fun mi => hg mi _
  | finish _ h =>
    rw [Silverfir.finish] at h
    split at h
    · obtain ⟨vals, -, h⟩ := bind_eq_ok.mp h
      cases h
      rfl
    · cases h
      exact part_modifyInst fun mi => hg mi _

/-- Nor does the end of an instantiation. -/
theorem instantiateStep_part {pf : Platform} {vm : Vm} {modId : ℕ} {mod : Module} {s : System} {β : Type}
    {g : ModuleInst → List β} (hg : ∀ mi st, g { mi with state := st } = g mi)
    (h : instantiateStep pf vm modId mod = .ok s) : s.vm.part g = (instantiate pf modId mod vm).2.part g := by
  have hstate : ∀ (w : Vm) k st, (w.modifyInst k ({ · with state := st })).part g = w.part g :=
    fun w k st => part_modifyInst fun mi => hg mi st
  rw [instantiateStep] at h
  split at h
  · simp at h
  · next heq =>
    cases h
    rw [heq, failLast]
    split
    · rfl
    · exact hstate _ _ _
  · next heq =>
    cases h
    rw [heq]
  · next heq =>
    cases h
    rw [heq]
    exact hstate _ _ _
  · next heq =>
    rw [heq]
    obtain ⟨fAddr, -, h⟩ := bind_eq_ok.mp h
    split at h
    · simp at h
    · cases h
      exact hstate _ _ _
    · cases h
      rfl

/-! ### Runs of a start function -/

/-- The state when the start function of a module has run for `n` instructions. -/
def startRun (mod : Module) : ℕ → R System
  | 0 => instantiateStep idle {} 0 mod
  | n + 1 => do
    let s ← startRun mod n
    match s.running with
    | none => undef "no start function"
    | some r => runStep idle s.vm r

theorem startRun_run {mods : Module → Prop} {mod : Module} (hm : mods mod) {n : ℕ} {s : System}
    (h : startRun mod n = .ok s) : ReflTransGen (SysStep idle mods) {} s := by
  induction n generalizing s with
  | zero => exact .single (.instantiate hm h)
  | succ n ih =>
    obtain ⟨⟨vm, running⟩, hs, h⟩ := bind_eq_ok.mp h
    cases running with
    | none => cases h
    | some r => exact (ih hs).tail (.run h)

theorem startRun_later {mods : Module → Prop} {mod : Module} {n m : ℕ} {s s' : System} (hnm : n ≤ m)
    (h : startRun mod n = .ok s) (h' : startRun mod m = .ok s') : ReflTransGen (SysStep idle mods) s s' := by
  induction hnm generalizing s' with
  | refl =>
    rw [h] at h'
    cases h'
    exact .refl
  | step _ ih =>
    obtain ⟨⟨vm, running⟩, hs, h'⟩ := bind_eq_ok.mp h'
    cases running with
    | none => cases h'
    | some r => exact (ih hs).tail (.run h')

end Silverfir
