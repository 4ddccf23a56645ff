import Silverfir.Sizes

/-! Histories of calls of `vm_instantiate_module`, and what the result of a call says about the
instance it leaves. -/
namespace Silverfir

open Relation (ReflTransGen)

/-- A call of `vm_instantiate_module` that has returned. -/
structure Call where
  modId : ℕ
  mod : Module
  before : Vm
  ok : Bool
  after : Vm

/-- Calls one after the other in one VM. -/
inductive Calls (pf : Platform) : Vm → List Call → Vm → Prop
  | nil {vm} : Calls pf vm [] vm
  | cons {vm vm1 vm' modId mod ok calls} (h : InstCall pf modId mod vm ok vm1) (hs : Calls pf vm1 calls vm') :
      Calls pf vm (⟨modId, mod, vm, ok, vm1⟩ :: calls) vm'

theorem Calls.mem {pf : Platform} {vm vm' : Vm} {calls : List Call} (h : Calls pf vm calls vm') :
    ∀ c ∈ calls, InstCall pf c.modId c.mod c.before c.ok c.after := by
  induction h with
  | nil => simp
  | cons h _ ih =>
    intro c hc
    obtain rfl | hc := List.mem_cons.mp hc
    · exact h
    · exact ih c hc

/-! ### The modules of the instances -/

namespace Vm

def modIds (vm : Vm) : List ℕ := vm.instances.map (·.modId)

theorem modIds_of_shape {vm vm' : Vm} (h : vm'.shape = vm.shape) : vm'.modIds = vm.modIds := by
  have hids : ∀ w : Vm, w.modIds = w.shape.map (·.modId) := by
    intro w
    rw [shape, List.map_map]
    rfl
  rw [hids, hids, h]

theorem modIds_modifyInst {f : ModuleInst → ModuleInst} (h : ∀ mi, (f mi).modId = mi.modId) (k : ℕ) (vm : Vm) :
    (vm.modifyInst k f).modIds = vm.modIds := ListStack.map_modify h vm.instances k

/-- There is an instance of the module. -/
def Holds (vm : Vm) (modId : ℕ) : Prop := ∃ mi ∈ vm.instances, mi.modId = modId

def HoldsReady (vm : Vm) (modId : ℕ) : Prop := ∃ mi ∈ vm.instances, mi.modId = modId ∧ mi.state = .ready

theorem HoldsReady.holds {vm : Vm} {modId : ℕ} (h : vm.HoldsReady modId) : vm.Holds modId := by
  obtain ⟨mi, hmi, hid, -⟩ := h
  exact ⟨mi, hmi, hid⟩

theorem any_modId {vm : Vm} {modId : ℕ} : vm.instances.any (·.modId == modId) = true ↔ vm.Holds modId := by
  simp only [List.any_eq_true, beq_iff_eq]
  rfl

theorem holds_iff {vm : Vm} {modId : ℕ} : vm.Holds modId ↔ modId ∈ vm.modIds := by
  rw [modIds, List.mem_map]
  rfl

/-- The state of the newest instance decides, if it is the only one of its module. -/
theorem holdsReady_newest {vm : Vm} {modId : ℕ} {ids : List ℕ} (hids : vm.modIds = ids ++ [modId]) (hnew : modId ∉ ids)
    (st : ModuleInstState) :
    (vm.modifyInst ids.length ({ · with state := st })).HoldsReady modId ↔ st = .ready := by
  have hat : ∀ {j : ℕ} {mi : ModuleInst}, vm.instances[j]? = some mi → (mi.modId = modId ↔ j = ids.length) := by
    intro j mi hj
    have hid : (ids ++ [modId])[j]? = some mi.modId := by
      rw [← hids, modIds, List.getElem?_map, hj]
      rfl
    constructor
    · intro heq
      by_contra hne
      have hlt : j < (ids ++ [modId]).length := (List.getElem?_eq_some_iff.mp hid).1
      rw [List.length_append, List.length_singleton] at hlt
      rw [List.getElem?_append_left (by omega), heq] at hid
      exact hnew (List.mem_of_getElem? hid)
    · intro heq
      rw [heq, List.getElem?_concat_length] at hid
      exact (Option.some.inj hid).symm
  constructor
  · rintro ⟨mi', hmi', hid, hready⟩
    obtain ⟨j, hj⟩ := List.mem_iff_getElem?.mp hmi'
    rw [modifyInst, List.getElem?_modify] at hj
    obtain ⟨mi, hmi, rfl⟩ := Option.map_eq_some_iff.mp hj
    by_cases hji : ids.length = j
    · rw [if_pos hji] at hready
      exact hready
    · rw [if_neg hji] at hid
      exact absurd ((hat hmi).mp hid).symm hji
  · intro hst
    have hlt : ids.length < vm.instances.length := by
      rw [show vm.instances.length = vm.modIds.length from (List.length_map ..).symm, hids, List.length_append]
      exact Nat.lt_succ_self _
    have hmi := List.getElem?_eq_getElem hlt
    refine ⟨{ vm.instances[ids.length] with state := st }, ?_, (hat hmi).mpr rfl, hst⟩
    refine List.mem_iff_getElem?.mpr ⟨ids.length, ?_⟩
    rw [modifyInst, List.getElem?_modify, hmi, Option.map_eq_map, Option.map_some, if_pos rfl]

end Vm

/-! ### What a call leaves -/

section Call
variable {pf : Platform} {modId : ℕ} {mod : Module} {vm vm' : Vm}

theorem modIds_push (vm : Vm) (modId : ℕ) (mod : Module) : (vm.push modId mod).modIds = vm.modIds ++ [modId] := by
  rw [Vm.modIds, Vm.push, List.map_append]
  rfl

theorem linked_modIds {mod' : Module} {vm1 : Vm} {res : Except Fault Unit}
    (hlink : linkModuleInst vm.instances.length mod' (vm.push modId mod') = (res, vm1)) :
    vm1.modIds = vm.modIds ++ [modId] := by
  obtain ⟨e, rfl⟩ := linkModuleInst_relinks (push_newest vm modId mod') hlink
  rw [← modIds_push vm modId mod']
  refine Vm.modIds_modifyInst ?_ _ _
  intro mi
  rfl

theorem not_holds (hk : vm.instances.any (·.modId == modId) = false) : ¬ vm.Holds modId := by
  intro hholds
  rw [Vm.any_modId.mpr hholds] at hk
  cases hk

theorem instantiate_known (h : instantiate pf modId mod vm = (.ok none, vm')) : vm.Holds modId ∧ vm' = vm := by
  have hphases := instantiate_phases pf modId mod vm
  rw [h] at hphases
  cases hphases with
  | known hk => exact ⟨Vm.any_modId.mp hk, rfl⟩

/-- A failure leaves no instance, or the new one. -/
theorem instantiate_error {e : Fault} (h : instantiate pf modId mod vm = (.error e, vm')) :
    ¬ vm.Holds modId ∧ (vm' = vm ∨ vm'.modIds = vm.modIds ++ [modId]) := by
  have hphases := instantiate_phases pf modId mod vm
  rw [h] at hphases
  cases hphases with
  | invalid hk => exact ⟨not_holds hk, .inl rfl⟩
  | unlinked hk hval hlink =>
    exact ⟨not_holds hk, .inr (linked_modIds hlink)⟩
  | uninitialized hk hval hlink hinit =>
    have hshape := stores_shape ((moduleInstInit_stores _ _ .refl).2 _ _ hinit)
    exact ⟨not_holds hk, .inr ((Vm.modIds_of_shape hshape).trans (linked_modIds hlink))⟩

theorem instantiate_done {k : ℕ} {start : Option ℕ} (h : instantiate pf modId mod vm = (.ok (some (k, start)), vm')) :
    ¬ vm.Holds modId ∧ vm'.modIds = vm.modIds ++ [modId] ∧ k = vm.instances.length := by
  have hphases := instantiate_phases pf modId mod vm
  rw [h] at hphases
  cases hphases with
  | done hk hval hlink hinit =>
    have hshape := stores_shape ((moduleInstInit_stores _ _ .refl).1 _ _ hinit)
    exact ⟨not_holds hk, (Vm.modIds_of_shape hshape).trans (linked_modIds hlink), rfl⟩

theorem callInThread_cont {t : Thread} {fAddr : Addr} {argv : List TypedValue} {cont : FuncType → Cont} {r : Running}
    (h : callInThread vm t fAddr argv cont = .ok r) :
    ∃ ft, r.cont = cont ft := by
  rw [callInThread] at h
  split at h
  · simp at h
  · obtain ⟨fn, -, h⟩ := bind_eq_ok.mp h
    simp only at h
    split at h
    · simp at h
    · obtain ⟨ok, -, h⟩ := bind_eq_ok.mp h
      split at h
      · simp at h
      · obtain ⟨⟨fr, t'⟩, -, h⟩ := bind_eq_ok.mp h
        cases h
        exact ⟨fn.fnType, rfl⟩

/-- A start function runs, of the instance `k`. -/
def Starting (ids : List ℕ) (k : ℕ) (s : System) : Prop :=
  s.vm.modIds = ids ∧ ∀ r, s.running = some r → r.cont = .start k

/-- How a start function ends. -/
theorem Starting.last {ids : List ℕ} {k : ℕ} {r : Running} (hs : Starting ids k ⟨vm, some r⟩)
    (h : runStep pf vm r = .ok ⟨vm', none⟩) :
    ∃ vm1 : Vm, vm1.modIds = ids ∧
      vm' = vm1.modifyInst k ({ · with state := if returns vm r then .ready else .initFailed }) := by
  obtain ⟨hids, hcont⟩ := hs
  obtain ⟨vm1, hstores, hpassed⟩ := runStep_passed h
  have hids1 := (Vm.modIds_of_shape (stores_shape hstores)).trans hids
  refine ⟨vm1, hids1, ?_⟩
  generalize hdone : returns vm r = done, hend : (⟨vm', none⟩ : System) = s at hpassed
  cases hpassed with
  | next => cases hend
  | abort =>
    rw [abort, hcont r rfl] at hend
    cases hend
    rfl
  | finish hc hfin =>
    rw [finish, hc, hcont r rfl] at hfin
    cases hend
    cases hfin
    rfl

theorem Starting.step {ids : List ℕ} {k : ℕ} {s s' : System} (h : RunStep pf s s') (hs : Starting ids k s) :
    Starting ids k s' := by
  obtain ⟨vm, r, rfl, h⟩ := h
  obtain ⟨vm', running⟩ := s'
  cases running with
  | none =>
    obtain ⟨vm1, hids1, rfl⟩ := hs.last h
    refine ⟨(Vm.modIds_modifyInst ?_ k vm1).trans hids1, by simp⟩
    intro mi
    rfl
  | some r' =>
    obtain ⟨hids, hcont⟩ := hs
    obtain ⟨vm1, hstores, hpassed⟩ := runStep_passed h
    have hids1 := (Vm.modIds_of_shape (stores_shape hstores)).trans hids
    generalize hdone : returns vm r = done, hend : (⟨vm', some r'⟩ : System) = s at hpassed
    cases hpassed with
    | next hc =>
      cases hend
      refine ⟨hids1, fun r'' hr'' => ?_⟩
      cases hr''
      exact hc.trans (hcont r rfl)
    | abort =>
      rw [abort, hcont r rfl] at hend
      cases hend
    | finish hc hfin =>
      rw [finish, hc, hcont r rfl] at hfin
      cases hend
      cases hfin

theorem passed_shape {r : Running} {done : Bool} {s : System} (h : Passed vm r done s) : s.vm.shape = vm.shape := by
  cases h with
  | next => rfl
  | abort =>
    rw [abort]
    split
    · rfl
    · exact Vm.shape_withState vm _ _
  | finish _ h =>
    rw [finish] at h
    split at h
    · obtain ⟨vals, -, h⟩ := bind_eq_ok.mp h
      cases h
      rfl
    · cases h
      exact Vm.shape_withState vm _ _

theorem runStep_shape {r : Running} {s : System} (h : runStep pf vm r = .ok s) : s.vm.shape = vm.shape := by
  obtain ⟨vm1, hstores, hpassed⟩ := runStep_passed h
  exact (passed_shape hpassed).trans (stores_shape hstores)

/-- A call for a module that the VM knows does nothing. -/
theorem instCall_again {ok : Bool} (h : InstCall pf modId mod vm ok vm') (hholds : vm.Holds modId) : vm' = vm := by
  cases h with
  | known h => exact (instantiate_known h).2
  | failed h => exact absurd hholds (instantiate_error h).1
  | ready h => exact absurd hholds (instantiate_done h).1
  | refused h => exact absurd hholds (instantiate_done h).1
  | started h => exact absurd hholds (instantiate_done h).1

/-- A call that succeeds with a module that is new to the VM: linking and initialisation succeed, and
what comes then only changes contents. -/
theorem instCall_new (h : InstCall pf modId mod vm true vm') (hnew : ¬ vm.Holds modId) :
    ∃ mod' vm1 vm2, validateFuncs mod.funcs.length mod = .ok mod' ∧
      linkModuleInst vm.instances.length mod' (vm.push modId mod') = (.ok (), vm1) ∧
      moduleInstInit pf vm.instances.length mod' vm1 = (.ok (), vm2) ∧ vm'.shape = vm2.shape := by
  have hdone : ∀ {k start vm2}, instantiate pf modId mod vm = (.ok (some (k, start)), vm2) →
      ∃ mod' vm1, validateFuncs mod.funcs.length mod = .ok mod' ∧
        linkModuleInst vm.instances.length mod' (vm.push modId mod') = (.ok (), vm1) ∧
        moduleInstInit pf vm.instances.length mod' vm1 = (.ok (), vm2) := by
    intro k start vm2 hinst
    have hphases := instantiate_phases pf modId mod vm
    rw [hinst] at hphases
    cases hphases with
    | done hk hval hlink hinit => exact ⟨_, _, hval, hlink, hinit⟩
  generalize hok : true = ok at h
  cases h with
  | known h => exact absurd (instantiate_known h).1 hnew
  | failed h => cases hok
  | refused h => cases hok
  | @ready vm2 k h =>
    obtain ⟨mod', vm1, hval, hlink, hinit⟩ := hdone h
    exact ⟨mod', vm1, vm2, hval, hlink, hinit, Vm.shape_withState vm2 k _⟩
  | @started vm2 vm3 _ k idx fAddr r r' h ha hc hrun hlast =>
    obtain ⟨mod', vm1, hval, hlink, hinit⟩ := hdone h
    refine ⟨mod', vm1, vm2, hval, hlink, hinit, ?_⟩
    have hsteps : ∀ s s' : System, RunStep pf s s' → s.vm.shape = vm2.shape → s'.vm.shape = vm2.shape := by
      rintro s s' ⟨w, r, rfl, hstep⟩ hs
      exact (runStep_shape hstep).trans hs
    exact (runStep_shape hlast).trans (Run.invariant hsteps hrun rfl)

/-- The result of a call tells whether there is a ready instance of the module afterwards, exactly
when no instance that is not ready was there before. -/
theorem instCall_truthful {ok : Bool} (h : InstCall pf modId mod vm ok vm') :
    (ok = true ↔ vm'.HoldsReady modId) ↔ (vm.Holds modId → vm.HoldsReady modId) := by
  have hlen : vm.instances.length = vm.modIds.length := (List.length_map ..).symm
  have hnewest : ∀ {vm1 : Vm}, ¬ vm.Holds modId → vm1.modIds = vm.modIds ++ [modId] → ∀ st : ModuleInstState,
      ((vm1.modifyInst vm.instances.length ({ · with state := st })).HoldsReady modId ↔ st = .ready) := by
    intro vm1 hnew hids st
    rw [hlen]
    exact Vm.holdsReady_newest hids (fun hmem => hnew (Vm.holds_iff.mpr hmem)) st
  cases h with
  | known h =>
    obtain ⟨hholds, rfl⟩ := instantiate_known h
    simp [hholds]
  | @failed vm1 ty msg h =>
    obtain ⟨hnew, rfl | hids⟩ := instantiate_error h
    · have hnot : ¬ vm1.HoldsReady modId := fun hr => hnew hr.holds
      simp [failLast, hnew, hnot]
    · have hne : vm1.instances.length ≠ vm.instances.length := by
        have hlen1 : vm1.instances.length = vm1.modIds.length := (List.length_map ..).symm
        rw [hlen, hlen1, hids, List.length_append, List.length_singleton]
        omega
      rw [failLast, if_neg hne]
      simp [hnew, hnewest hnew hids]
  | ready h =>
    obtain ⟨hnew, hids, rfl⟩ := instantiate_done h
    simp [hnew, hnewest hnew hids]
  | refused h ha hc =>
    obtain ⟨hnew, hids, rfl⟩ := instantiate_done h
    simp [hnew, hnewest hnew hids]
  | @started vm1 vm2 _ k idx fAddr r r' h ha hc hrun hlast =>
    obtain ⟨hnew, hids, rfl⟩ := instantiate_done h
    have hstart : Starting (vm.modIds ++ [modId]) vm.instances.length ⟨vm1, some r⟩ := by
      refine ⟨hids, fun r0 hr0 => ?_⟩
      cases hr0
      obtain ⟨-, hcont⟩ := callInThread_cont hc
      exact hcont
    have hend := Run.invariant (fun _ _ hstep hs => Starting.step hstep hs) hrun hstart
    obtain ⟨vm3, hids3, rfl⟩ := hend.last hlast
    rw [hnewest hnew hids3]
    cases returns vm2 r' <;> simp [hnew]

end Call

/-! ### Histories -/

/-- The call returns ok if and only if there is a ready instance of the module then. -/
def Call.Truthful (c : Call) : Prop := c.ok = true ↔ c.after.HoldsReady c.modId

/-- The call is made for a module of which the VM has instances, none of them ready. -/
def Call.Leftover (c : Call) : Prop := c.before.Holds c.modId ∧ ¬ c.before.HoldsReady c.modId

/-- In a history that starts in any VM, the calls whose result can be trusted are those that are
not made for a module whose instance is left over from a failed attempt. -/
theorem calls_truthful (pf : Platform) (vm vm' : Vm) (calls : List Call) (h : Calls pf vm calls vm') :
    ∀ c ∈ calls, (c.Truthful ↔ ¬ c.Leftover) := by
  intro c hc
  rw [Call.Truthful, instCall_truthful (h.mem c hc), Call.Leftover]
  tauto

theorem calls_truthful_small : ∃ c vm', Calls idle {} [c] vm' ∧ c.ok = true ∧ (c.Truthful ↔ ¬ c.Leftover) := by
  have hinst : instantiate idle 0 smallModule {} = (.ok (some (0, none)), { instances := [
      { moduleInstNew 0 smallModule with tAddrs := [some ⟨0, 0⟩], mAddrs := [some ⟨0, 0⟩] }] }) := by rfl
  have hcalls := Calls.cons (InstCall.ready hinst) Calls.nil
  exact ⟨_, _, hcalls, rfl, calls_truthful idle _ _ _ hcalls _ List.mem_cons_self⟩

/-- A module that imports a function from a module `a`. -/
def orphanModule : Module where
  names := [[]]
  formatVersion := 1
  funcTypes := [{}]
  funcs := [{ linkage := { imported := true }, path := ⟨[0x61], [0x62]⟩ }]
  importedFuncCount := 1

theorem loaded_orphanModule : Loaded orphanModule := by
  have hmod : moduleInit [0x00, 0x61, 0x73, 0x6d, 1, 0, 0, 0, 1, 4, 1, 0x60, 0, 0, 2, 7, 1, 1, 0x61, 1, 0x62, 0, 0] [] =
      .ok orphanModule := by rfl
  exact .init hmod

/-- Without a module `a`, the first call fails, and the second one returns ok, though the instance
is not ready. -/
theorem retry_not_truthful : ∃ c c' vm', Calls idle {} [c, c'] vm' ∧ Loaded c.mod ∧ c'.mod = c.mod ∧
    c'.modId = c.modId ∧ ¬ c'.Truthful := by
  have hfirst : instantiate idle 0 orphanModule {} = (.error (.err .invalid "Imports: module instance not found"),
      { instances := [moduleInstNew 0 orphanModule] }) := by rfl
  have hsecond : instantiate idle 0 orphanModule (failLast 0 { instances := [moduleInstNew 0 orphanModule] }) =
      (.ok none, failLast 0 { instances := [moduleInstNew 0 orphanModule] }) := by rfl
  have hcalls := Calls.cons (InstCall.failed hfirst) (Calls.cons (InstCall.known hsecond) Calls.nil)
  refine ⟨_, _, _, hcalls, loaded_orphanModule, rfl, rfl, fun htrue => ?_⟩
  obtain ⟨mi, hmi, -, hready⟩ := htrue.mp rfl
  obtain rfl : mi = { moduleInstNew 0 orphanModule with state := .initFailed } := List.mem_singleton.mp hmi
  cases hready

end Silverfir
