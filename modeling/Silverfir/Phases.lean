import Silverfir.Store

/-! The phases of `vm_instantiate_module`, the calls of it that return, and what they return. -/
namespace Silverfir

open Relation (ReflTransGen)

/-- The new instance, at the end of the list. -/
def Vm.push (vm : Vm) (modId : ℕ) (mod : Module) : Vm :=
  { vm with instances := vm.instances ++ [moduleInstNew modId mod] }

theorem push_newest (vm : Vm) (modId : ℕ) (mod : Module) :
    (vm.push modId mod).instances[vm.instances.length]? = some (moduleInstNew modId mod) := by
  rw [Vm.push, List.getElem?_concat_length]

section Phases
variable (pf : Platform) (modId : ℕ) (mod : Module) (vm : Vm)

/-- How far an instantiation comes: the module is known, does not validate, cannot be linked or
initialised, or all of it is done up to the start function. -/
inductive Phases : Except Fault (Option (ℕ × Option ℕ)) → Vm → Prop
  | known (hk : vm.instances.any (·.modId == modId) = true) : Phases (.ok none) vm
  | invalid {e} (hk : vm.instances.any (·.modId == modId) = false)
      (hval : validateFuncs mod.funcs.length mod = .error e) : Phases (.error e) vm
  | unlinked {mod' e vm'} (hk : vm.instances.any (·.modId == modId) = false)
      (hval : validateFuncs mod.funcs.length mod = .ok mod')
      (hlink : linkModuleInst vm.instances.length mod' (vm.push modId mod') = (.error e, vm')) : Phases (.error e) vm'
  | uninitialized {mod' vm1 e vm'} (hk : vm.instances.any (·.modId == modId) = false)
      (hval : validateFuncs mod.funcs.length mod = .ok mod')
      (hlink : linkModuleInst vm.instances.length mod' (vm.push modId mod') = (.ok (), vm1))
      (hinit : moduleInstInit pf vm.instances.length mod' vm1 = (.error e, vm')) : Phases (.error e) vm'
  | done {mod' vm1 vm'} (hk : vm.instances.any (·.modId == modId) = false)
      (hval : validateFuncs mod.funcs.length mod = .ok mod')
      (hlink : linkModuleInst vm.instances.length mod' (vm.push modId mod') = (.ok (), vm1))
      (hinit : moduleInstInit pf vm.instances.length mod' vm1 = (.ok (), vm')) :
      Phases (.ok (some (vm.instances.length, mod'.startFuncidx))) vm'

theorem instantiate_phases : Phases pf modId mod vm (instantiate pf modId mod vm).1
    (instantiate pf modId mod vm).2 := by
  rw [instantiate, Eff.bind_apply]
  simp only [Eff.get]
  cases hk : vm.instances.any (·.modId == modId) with
  | true =>
    rw [if_pos rfl]
    exact .known hk
  | false =>
    rw [if_neg (by simp), Eff.bind_apply]
    simp only [Eff.lift]
    cases hval : validateFuncs mod.funcs.length mod with
    | error e => exact .invalid hk hval
    | ok mod' =>
      simp only [Eff.bind_apply, Eff.modify]
      cases hlink : linkModuleInst vm.instances.length mod' (vm.push modId mod') with
      | mk r vm1 =>
        simp only [Vm.push] at hlink
        simp only [hlink]
        cases r with
        | error e => exact .unlinked hk hval hlink
        | ok _ =>
          cases hinit : moduleInstInit pf vm.instances.length mod' vm1 with
          | mk r' vm2 =>
            simp only [hinit]
            cases r' with
            | error e => exact .uninitialized hk hval hlink hinit
            | ok _ => exact .done hk hval hlink hinit

end Phases

/-- A pass of the loop. -/
def RunStep (pf : Platform) (s s' : System) : Prop := ∃ vm r, s = ⟨vm, some r⟩ ∧ runStep pf vm r = .ok s'

/-- A call of `vm_instantiate_module` that returns: the VM before, whether it returns ok, and the
VM after. -/
inductive InstCall (pf : Platform) (modId : ℕ) (mod : Module) : Vm → Bool → Vm → Prop
  | known {vm vm'} (h : instantiate pf modId mod vm = (.ok none, vm')) : InstCall pf modId mod vm true vm'
  | failed {vm vm' t m} (h : instantiate pf modId mod vm = (.error (.err t m), vm')) :
      InstCall pf modId mod vm false (failLast vm.instances.length vm')
  | ready {vm vm' k} (h : instantiate pf modId mod vm = (.ok (some (k, none)), vm')) :
      InstCall pf modId mod vm true (vm'.modifyInst k ({ · with state := .ready }))
  | refused {vm vm' k idx fAddr t m} (h : instantiate pf modId mod vm = (.ok (some (k, some idx)), vm'))
      (ha : vm'.addr (·.fAddrs) k idx = .ok fAddr)
      (hc : callInThread vm' {} fAddr [] (fun _ => .start k) = .error (.err t m)) :
      InstCall pf modId mod vm false (vm'.modifyInst k ({ · with state := .initFailed }))
  | started {vm vm1 vm2 vm' k idx fAddr r r'} (h : instantiate pf modId mod vm = (.ok (some (k, some idx)), vm1))
      (ha : vm1.addr (·.fAddrs) k idx = .ok fAddr)
      (hc : callInThread vm1 {} fAddr [] (fun _ => .start k) = .ok r)
      (hrun : ReflTransGen (RunStep pf) ⟨vm1, some r⟩ ⟨vm2, some r'⟩) (hlast : runStep pf vm2 r' = .ok ⟨vm', none⟩) :
      InstCall pf modId mod vm (returns vm2 r') vm'

/-- A call is a run of the system. -/
theorem InstCall.run {pf : Platform} {modId : ℕ} {mod : Module} {vm vm' : Vm} {ok : Bool}
    (h : InstCall pf modId mod vm ok vm') {mods : Module → Prop} (hm : mods mod) :
    ReflTransGen (SysStep pf mods) ⟨vm, none⟩ ⟨vm', none⟩ := by
  cases h with
  | known h => exact .single (.instantiate hm (by rw [instantiateStep, h]))
  | failed h => exact .single (.instantiate hm (by rw [instantiateStep, h]))
  | ready h => exact .single (.instantiate hm (by rw [instantiateStep, h]))
  | @refused vm1 k idx fAddr ty msg h ha hc =>
    have hstep : instantiateStep pf vm modId mod =
        .ok { vm := vm1.modifyInst k ({ · with state := .initFailed }) } := by
      rw [instantiateStep, h]
      simp only [ha, ok_bind, hc]
    exact .single (.instantiate hm hstep)
  | @started vm1 vm2 _ k idx fAddr r r' h ha hc hrun hlast =>
    have hstep : instantiateStep pf vm modId mod = .ok ⟨vm1, some r⟩ := by
      rw [instantiateStep, h]
      simp only [ha, ok_bind, hc]
    refine .head (.instantiate hm hstep) (.tail (Relation.ReflTransGen.mono ?_ _ _ hrun) (.run hlast))
    rintro s s' ⟨vm, r, rfl, hrun⟩
    exact .run hrun

end Silverfir
