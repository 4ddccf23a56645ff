import Silverfir.Loaded
import Silverfir.Phases
import Silverfir.Links

/-! The sizes of memories and tables. They start at their minimum and grow up to their maximum. -/
namespace Silverfir

open Relation (ReflTransGen)
open InPlaceDt

/-- A memory that the instance defines is a whole number of pages within its limits. -/
def MemoryInst.Sized (m : MemoryInst) : Prop :=
  m.mem.linkage.imported = false →
    ∃ pages, m.mdata.length = pages * wasmPageSize ∧ m.mem.lim.min ≤ pages ∧ pages ≤ m.mem.lim.max

def TableInst.Sized (t : TableInst) : Prop :=
  t.tab.linkage.imported = false → t.tab.lim.min ≤ t.tdata.length ∧ t.tdata.length ≤ t.tab.lim.max

structure ModuleInst.Sized (mi : ModuleInst) : Prop where
  memories : ∀ m ∈ mi.memories, m.Sized
  tables : ∀ t ∈ mi.tables, t.Sized

def Vm.Sized (vm : Vm) : Prop := ∀ mi ∈ vm.instances, mi.Sized

/-! ### Writes -/

theorem forall_modify {α : Type} {xs : List α} {i : ℕ} {f : α → α} {Q : α → Prop} (h : ∀ x ∈ xs, Q x)
    (hf : ∀ x, xs[i]? = some x → Q (f x)) : ∀ y ∈ xs.modify i f, Q y := by
  intro y hy
  obtain ⟨j, hj⟩ := List.mem_iff_getElem?.mp hy
  rw [List.getElem?_modify] at hj
  obtain ⟨x, hx, hxy⟩ := Option.map_eq_some_iff.mp hj
  by_cases hij : i = j
  · subst hij
    rw [← hxy, if_pos rfl]
    exact hf x hx
  · rw [← hxy, if_neg hij]
    exact h x (List.mem_of_getElem? hx)

theorem Vm.Sized.modifyInst {vm : Vm} (h : vm.Sized) {k : ℕ} {f : ModuleInst → ModuleInst}
    (hf : ∀ mi, mi.Sized → (f mi).Sized) : (vm.modifyInst k f).Sized :=
  forall_modify h fun mi hmi => hf mi (h mi (List.mem_of_getElem? hmi))

/-- A write to one table, or none. -/
theorem StoreStep.tables {pf : Platform} {vm vm' : Vm} (h : StoreStep pf vm vm')
    (hs : ∀ mi ∈ vm.instances, ∀ t ∈ mi.tables, t.Sized) : ∀ mi ∈ vm'.instances, ∀ t ∈ mi.tables, t.Sized := by
  have hsame : ∀ {k : ℕ} {f : ModuleInst → ModuleInst}, (∀ mi, (f mi).tables = mi.tables) →
      ∀ mi ∈ (vm.modifyInst k f).instances, ∀ t ∈ mi.tables, t.Sized := by
    intro k f hf
    refine forall_modify hs fun mi hmi => ?_
    rw [hf]
    exact hs mi (List.mem_of_getElem? hmi)
  cases h with
  | global => exact hsame fun _ => rfl
  | drop => exact hsame fun _ => rfl
  | memory => exact hsame fun _ => rfl
  | host => exact hsame fun _ => rfl
  | @table a t tdata ht hlen =>
    obtain ⟨mi0, hmi0, hidx0⟩ := Vm.table_ok.mp ht
    refine forall_modify hs fun mi hmi => ?_
    have hsized := hs mi (List.mem_of_getElem? hmi)
    refine forall_modify hsized fun t' ht' => ?_
    obtain rfl : mi = mi0 := Option.some.inj (hmi.symm.trans hmi0)
    obtain rfl : t' = t := Option.some.inj (ht'.symm.trans hidx0)
    intro himp
    obtain ⟨hmin, hmax⟩ := hsized t' (List.mem_of_getElem? ht') himp
    obtain hsame | ⟨hle, hmax'⟩ := hlen
    · exact ⟨hsame ▸ hmin, hsame ▸ hmax⟩
    · exact ⟨Nat.le_trans hmin hle, hmax'⟩

/-- A write keeps the sizes within the limits. -/
theorem StoreStep.sized {pf : Platform} (hhost : HostKeeps pf) {vm vm' : Vm} (h : StoreStep pf vm vm') (hs : vm.Sized) :
    vm'.Sized := by
  have htables := h.tables fun mi hmi => (hs mi hmi).tables
  suffices hmems : ∀ mi ∈ vm'.instances, ∀ m ∈ mi.memories, m.Sized from fun mi hmi => ⟨hmems mi hmi, htables mi hmi⟩
  have hsame : ∀ {k : ℕ} {f : ModuleInst → ModuleInst}, (∀ mi, (f mi).memories = mi.memories) →
      ∀ mi ∈ (vm.modifyInst k f).instances, ∀ m ∈ mi.memories, m.Sized := by
    intro k f hf
    refine forall_modify (fun mi hmi => (hs mi hmi).memories) fun mi hmi => ?_
    rw [hf]
    exact (hs mi (List.mem_of_getElem? hmi)).memories
  have hmemory : ∀ {a : Addr} {m : MemoryInst} {mdata : List UInt8}, vm.memory a = .ok m →
      (mdata.length = m.mdata.length ∨ ∃ pages, mdata.length = pages * wasmPageSize ∧
        m.mdata.length / wasmPageSize ≤ pages ∧ pages ≤ m.mem.lim.max) →
      ∀ mi ∈ (vm.setMemory a mdata).instances, ∀ m ∈ mi.memories, m.Sized := by
    intro a m mdata hm hlen
    obtain ⟨mi0, hmi0, hidx0⟩ := Vm.memory_ok.mp hm
    refine forall_modify (fun mi hmi => (hs mi hmi).memories) fun mi hmi => ?_
    have hsized := hs mi (List.mem_of_getElem? hmi)
    refine forall_modify hsized.memories fun m' hm' => ?_
    obtain rfl : mi = mi0 := Option.some.inj (hmi.symm.trans hmi0)
    obtain rfl : m' = m := Option.some.inj (hm'.symm.trans hidx0)
    intro himp
    obtain ⟨pages, hpages, hmin, hmax⟩ := hsized.memories m' (List.mem_of_getElem? hm') himp
    obtain hsame | ⟨pages', hpages', hle, hmax'⟩ := hlen
    · exact ⟨pages, hsame.trans hpages, hmin, hmax⟩
    · refine ⟨pages', hpages', ?_, hmax'⟩
      rw [hpages, Nat.mul_div_cancel _ (by decide)] at hle
      exact Nat.le_trans hmin hle
  cases h with
  | global => exact hsame fun _ => rfl
  | drop => exact hsame fun _ => rfl
  | table => exact hsame fun _ => rfl
  | memory hm hlen => exact hmemory hm hlen
  | host hm hh =>
    have hlen := hhost _ _ _ _ _ hh
    exact hmemory hm (.inl (Option.some.inj hlen))

/-! ### Instances -/

/-- The module is one of the host, up to what the validator writes into it. -/
def Module.OfHost (mod : Module) : Prop := ∃ m, Loaded m ∧ mod.parsed = m.parsed

/-- No memory of the module starts with the whole address space. -/
def Module.SmallMemories (mod : Module) : Prop :=
  ∀ m ∈ mod.memories, m.linkage.imported = false → m.lim.min < wasmMemMaxPages

/-- The own tables of a new instance have their minimum size. -/
theorem moduleInstNew_tables {modId : ℕ} {mod m : Module} (hm : Loaded m) (heq : mod.parsed = m.parsed) :
    ∀ t ∈ (moduleInstNew modId mod).tables, t.Sized := by
  have htabs : mod.tables = m.tables := by
    rw [show mod.tables = mod.parsed.tables from rfl, heq]
    rfl
  have htabCount : mod.importedTableCount = m.importedTableCount := by
    rw [show mod.importedTableCount = mod.parsed.importedTableCount from rfl, heq]
    rfl
  intro ti hti himp
  obtain ⟨i, hi, rfl⟩ := List.mem_mapIdx.mp hti
  have hmem : mod.tables[i] ∈ m.tables := htabs ▸ List.getElem_mem hi
  have hlim := hm.limited.tables _ hmem
  have hown : mod.importedTableCount ≤ i := by
    have hl : (m.linkages .table)[i]? = some mod.tables[i].linkage := by
      simp only [Module.linkages, List.getElem?_map, ← htabs, List.getElem?_eq_getElem hi, Option.map_some]
    have hiff := (hm.indexed.imported .table).imported_iff hl
    rw [show mod.tables[i].linkage.imported = false from himp] at hiff
    simp only [Bool.false_eq_true, false_iff, Nat.not_lt] at hiff
    rw [htabCount]
    exact hiff
  simp only [newTable, ge_iff_le, hown, if_true, List.length_replicate]
  exact ⟨Nat.le_refl _, hlim.min_le⟩

theorem moduleInstNew_sized {modId : ℕ} {mod m : Module} (hm : Loaded m) (heq : mod.parsed = m.parsed)
    (hsmall : mod.SmallMemories) : (moduleInstNew modId mod).Sized := by
  have hmems : mod.memories = m.memories := by
    rw [show mod.memories = mod.parsed.memories from rfl, heq]
    rfl
  have hmemCount : mod.importedMemCount = m.importedMemCount := by
    rw [show mod.importedMemCount = mod.parsed.importedMemCount from rfl, heq]
    rfl
  refine ⟨?_, moduleInstNew_tables hm heq⟩
  intro mi hmi himp
  obtain ⟨i, hi, rfl⟩ := List.mem_mapIdx.mp hmi
  have hmem : mod.memories[i] ∈ m.memories := hmems ▸ List.getElem_mem hi
  have hlim := hm.limited.memories _ hmem
  have hown : mod.importedMemCount ≤ i := by
    have hl : (m.linkages .memory)[i]? = some mod.memories[i].linkage := by
      simp only [Module.linkages, List.getElem?_map, ← hmems, List.getElem?_eq_getElem hi, Option.map_some]
    have hiff := (hm.indexed.imported .memory).imported_iff hl
    rw [show mod.memories[i].linkage.imported = false from himp] at hiff
    simp only [Bool.false_eq_true, false_iff, Nat.not_lt] at hiff
    rw [hmemCount]
    exact hiff
  have hmin : mod.memories[i].lim.min < wasmMemMaxPages := hsmall _ (List.getElem_mem hi) himp
  refine ⟨mod.memories[i].lim.min, ?_, Nat.le_refl _, hlim.min_le⟩
  simp only [newMemory, ge_iff_le, hown, if_true, List.length_replicate]
  refine Nat.mod_eq_of_lt ?_
  simp only [wasmMemMaxPages, wasmPageSize] at *
  omega

/-! ### What all instances keep -/

def Vm.All (Q : ModuleInst → Prop) (vm : Vm) : Prop := ∀ mi ∈ vm.instances, Q mi

/-- A property of the memories and tables that every new instance has and every write keeps. -/
structure Contents (pf : Platform) (mods : Module → Prop) (Q : ModuleInst → Prop) : Prop where
  same : ∀ {mi mi' : ModuleInst}, mi'.memories = mi.memories → mi'.tables = mi.tables → Q mi → Q mi'
  store : ∀ {vm vm' : Vm}, StoreStep pf vm vm' → vm.All Q → vm'.All Q
  new : ∀ {modId : ℕ} {mod mod' : Module}, mods mod → validateFuncs mod.funcs.length mod = .ok mod' →
    Q (moduleInstNew modId mod')

namespace Contents

variable {pf : Platform} {mods : Module → Prop} {Q : ModuleInst → Prop}

theorem stores (h : Contents pf mods Q) {vm vm' : Vm} (hs : ReflTransGen (StoreStep pf) vm vm') (hall : vm.All Q) :
    vm'.All Q :=
  Run.invariant (p := fun vm : Vm => vm.All Q) (fun _ _ hstep => h.store hstep) hs hall

theorem modifyInst (h : Contents pf mods Q) {vm : Vm} (hall : vm.All Q) {k : ℕ} {f : ModuleInst → ModuleInst}
    (hf : ∀ mi, (f mi).memories = mi.memories ∧ (f mi).tables = mi.tables) : (vm.modifyInst k f).All Q :=
  forall_modify hall fun mi hmi => h.same (hf mi).1 (hf mi).2 (hall mi (List.mem_of_getElem? hmi))

theorem withState (h : Contents pf mods Q) {vm : Vm} (hall : vm.All Q) (k : ℕ) (st : ModuleInstState) :
    (vm.modifyInst k ({ · with state := st })).All Q :=
  h.modifyInst hall fun _ => ⟨rfl, rfl⟩

theorem passed (h : Contents pf mods Q) {vm : Vm} {r : Running} {done : Bool} {s : System} (hp : Passed vm r done s)
    (hall : vm.All Q) : s.vm.All Q := by
  cases hp with
  | next => exact hall
  | abort =>
    rw [abort]
    split
    · exact hall
    · exact h.withState hall _ _
  | finish _ hf =>
    rw [finish] at hf
    split at hf
    · obtain ⟨vals, -, hf⟩ := bind_eq_ok.mp hf
      cases hf
      exact hall
    · cases hf
      exact h.withState hall _ _

theorem instantiate (h : Contents pf mods Q) {modId : ℕ} {mod : Module} (hmod : mods mod) {vm : Vm} (hall : vm.All Q) :
    (instantiate pf modId mod vm).2.All Q := by
  have hpush : ∀ {mod'}, validateFuncs mod.funcs.length mod = .ok mod' → (vm.push modId mod').All Q := by
    intro mod' hval mi hmi
    rcases List.mem_append.mp hmi with hmi | hmi
    · exact hall mi hmi
    · rw [List.mem_singleton.mp hmi]
      exact h.new hmod hval
  have hlinked : ∀ {mod' vm1 res}, validateFuncs mod.funcs.length mod = .ok mod' →
      linkModuleInst vm.instances.length mod' (vm.push modId mod') = (res, vm1) → vm1.All Q := by
    intro mod' vm1 res hval hlink
    obtain ⟨e, rfl⟩ := linkModuleInst_relinks (push_newest vm modId mod') hlink
    exact h.modifyInst (hpush hval) fun _ => ⟨rfl, rfl⟩
  have hphases := instantiate_phases pf modId mod vm
  generalize (Silverfir.instantiate pf modId mod vm).1 = res, (Silverfir.instantiate pf modId mod vm).2 = vm' at hphases
  cases hphases with
  | known => exact hall
  | invalid => exact hall
  | unlinked _ hval hlink => exact hlinked hval hlink
  | uninitialized _ hval hlink hinit =>
    exact h.stores ((moduleInstInit_stores _ _ .refl).2 _ _ hinit) (hlinked hval hlink)
  | done _ hval hlink hinit =>
    exact h.stores ((moduleInstInit_stores _ _ .refl).1 _ _ hinit) (hlinked hval hlink)

theorem instantiateStep (h : Contents pf mods Q) {modId : ℕ} {mod : Module} (hmod : mods mod) {vm : Vm} {s : System}
    (hall : vm.All Q) (hs : instantiateStep pf vm modId mod = .ok s) : s.vm.All Q := by
  have hinst : (Silverfir.instantiate pf modId mod vm).2.All Q := h.instantiate hmod hall
  rw [Silverfir.instantiateStep] at hs
  split at hs
  · simp at hs
  · next vm' heq =>
    cases hs
    rw [heq] at hinst
    rw [failLast]
    split
    · exact hinst
    · exact h.withState hinst _ _
  · next vm' heq =>
    cases hs
    rw [heq] at hinst
    exact hinst
  · next k vm' heq =>
    cases hs
    rw [heq] at hinst
    exact h.withState hinst _ _
  · next k idx vm' heq =>
    rw [heq] at hinst
    obtain ⟨fAddr, -, hs⟩ := bind_eq_ok.mp hs
    split at hs
    · simp at hs
    · cases hs
      exact h.withState hinst _ _
    · cases hs
      exact hinst

theorem sysStep (h : Contents pf mods Q) {s s' : System} (hstep : SysStep pf mods s s') (hall : s.vm.All Q) :
    s'.vm.All Q := by
  cases hstep with
  | run hrun =>
    obtain ⟨vm1, hstores, hpassed⟩ := runStep_passed hrun
    exact h.passed hpassed (h.stores hstores hall)
  | invoke => exact hall
  | reset => exact hall
  | instantiate hm hs => exact h.instantiateStep hm hall hs

theorem run (h : Contents pf mods Q) {s : System} (hrun : ReflTransGen (SysStep pf mods) {} s) : s.vm.All Q :=
  Run.invariant (p := fun s => s.vm.All Q) (fun _ _ hstep => h.sysStep hstep) hrun (by simp [Vm.All])

end Contents

/-- The modules that the run of a system may instantiate here. -/
def SmallModule (mod : Module) : Prop := mod.OfHost ∧ mod.SmallMemories

theorem contents_sized {pf : Platform} (hhost : HostKeeps pf) : Contents pf SmallModule ModuleInst.Sized where
  same := by
    intro mi mi' hmems htabs h
    exact ⟨hmems ▸ h.memories, htabs ▸ h.tables⟩
  store := fun hstep hall => hstep.sized hhost hall
  new := by
    intro modId mod mod' hmod hval
    obtain ⟨⟨m, hm, heq⟩, hsmall⟩ := hmod
    have hparsed := (validateFuncs_ok hval).parsed
    have hmems : mod'.memories = mod.memories := by
      rw [show mod'.memories = mod'.parsed.memories from rfl, hparsed]
      rfl
    apply moduleInstNew_sized hm (hparsed.trans heq)
    rw [Module.SmallMemories, hmems]
    exact hsmall

theorem contents_tables {pf : Platform} : Contents pf Module.OfHost fun mi => ∀ t ∈ mi.tables, t.Sized where
  same := by
    intro mi mi' _ htabs h
    rw [htabs]
    exact h
  store := fun hstep hall => hstep.tables hall
  new := by
    intro modId mod mod' hmod hval
    obtain ⟨m, hm, heq⟩ := hmod
    exact moduleInstNew_tables hm ((validateFuncs_ok hval).parsed.trans heq)

/-- In every state that is reached with modules whose own memories have fewer than 65536 pages at
first, every memory and table of an instance is within its limits. -/
theorem run_sized (pf : Platform) (hhost : HostKeeps pf) (s : System)
    (hrun : ReflTransGen (SysStep pf SmallModule) {} s) : s.vm.Sized :=
  (contents_sized hhost).run hrun

/-- A platform whose host functions do nothing. -/
def idle : Platform where
  toRef a := BitVec.ofNat 64 (a.inst * 2 ^ 32 + a.idx)
  toFuncAddr v := some ⟨v.toNat / 2 ^ 32, v.toNat % 2 ^ 32⟩
  host _ _ bytes := .ok ([], bytes)
  unop _ v := .ok v
  binop _ v _ := .ok v

theorem hostKeeps_idle : HostKeeps idle := by
  intro id args bytes results bytes' h
  cases h
  rfl

/-- A memory without pages and a table of one entry. -/
def smallModule : Module where
  names := [[]]
  formatVersion := 1
  tables := [{ valtype := .funcref, lim := ⟨1, u32Max⟩ }]
  memories := [{ lim := ⟨0, wasmMemMaxPages⟩ }]

theorem loaded_smallModule : Loaded smallModule := by
  have hmod : moduleInit [0x00, 0x61, 0x73, 0x6d, 1, 0, 0, 0, 4, 4, 1, 0x70, 0, 1, 5, 3, 1, 0, 0] [] =
      .ok smallModule := by rfl
  exact .init hmod

theorem run_sized_small : ∃ s, SysStep idle SmallModule {} s ∧ s.vm.Sized := by
  have hsmall : SmallModule smallModule := by
    refine ⟨⟨_, loaded_smallModule, rfl⟩, fun m hm _ => ?_⟩
    rw [List.mem_singleton.mp hm]
    decide
  have hinst : instantiateStep idle {} 0 smallModule = .ok { vm := { instances := [
      { moduleInstNew 0 smallModule with
        state := .ready, tAddrs := [some ⟨0, 0⟩], mAddrs := [some ⟨0, 0⟩] }] } } := by rfl
  have hstep : SysStep idle SmallModule {} _ := .instantiate hsmall hinst
  exact ⟨_, hstep, run_sized idle hostKeeps_idle _ (.single hstep)⟩

/-- A memory of 65536 pages, the whole address space. -/
def hugeModule : Module where
  names := [[]]
  formatVersion := 1
  memories := [{ lim := ⟨wasmMemMaxPages, wasmMemMaxPages⟩ }]

theorem loaded_hugeModule : Loaded hugeModule := by
  have hmod : moduleInit [0x00, 0x61, 0x73, 0x6d, 1, 0, 0, 0, 5, 5, 1, 0, 0x80, 0x80, 0x04] [] =
      .ok hugeModule := by rfl
  exact .init hmod

/-- The memory of 65536 pages has no bytes. -/
theorem hugeMemory_empty : ∃ s, ReflTransGen (SysStep idle Module.OfHost) {} s ∧ ¬ s.vm.Sized := by
  have hinst : instantiateStep idle {} 0 hugeModule = .ok { vm := { instances := [
      { moduleInstNew 0 hugeModule with state := .ready, mAddrs := [some ⟨0, 0⟩] }] } } := by rfl
  refine ⟨_, .single (.instantiate ⟨_, loaded_hugeModule, rfl⟩ hinst), fun hs => ?_⟩
  have hmem : newMemory hugeModule 0 { lim := ⟨wasmMemMaxPages, wasmMemMaxPages⟩ } ∈
      (moduleInstNew 0 hugeModule).memories := List.mem_cons_self
  obtain ⟨pages, hpages, hmin, -⟩ := (hs _ List.mem_cons_self).memories _ hmem rfl
  have hempty : 0 = pages * wasmPageSize := hpages
  have hpages0 : pages = 0 := by
    simp only [wasmPageSize] at hempty
    omega
  rw [hpages0] at hmin
  exact absurd hmin (by decide)

end Silverfir
