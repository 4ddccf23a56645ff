import Silverfir.Effects
import Silverfir.Resolution

/-! The effect of a whole instantiation on the VM. -/
namespace Silverfir

open Relation (ReflTransGen)

/-- The address tables lead to instances of the VM. -/
def Vm.Closed (vm : Vm) : Prop :=
  ∀ kind k i a, vm.addr (·.addrs kind) k i = .ok a → a.inst < vm.instances.length

theorem Vm.Closed.of_shape {vm vm' : Vm} (h : vm.Closed) (hs : vm'.shape = vm.shape) : vm'.Closed := by
  intro kind k i a ha
  rw [Vm.addr_eq_of_shape (fun _ => rfl) hs] at ha
  have hlen : vm'.instances.length = vm.instances.length := by
    have := congrArg List.length hs
    rwa [Vm.shape, Vm.shape, List.length_map, List.length_map] at this
  rw [hlen]
  exact h kind k i a ha

section Link
variable {vm : Vm} {modId : ℕ} {mod : Module} {e : ExternalKind → List (Option Addr)}

theorem addr_newest {kind : ExternalKind} {i : ℕ} {a : Addr} :
    ((vm.push modId mod).relink vm.instances.length e).addr (·.addrs kind) vm.instances.length i = .ok a ↔
      (e kind)[i]? = some (some a) := by
  have hmi : ((vm.push modId mod).relink vm.instances.length e).instances[vm.instances.length]? =
      some ((moduleInstNew modId mod).relink e) := by
    rw [Vm.relink, Vm.inst_modifyInst_of (push_newest vm modId mod), if_pos rfl]
  constructor
  · intro h
    obtain ⟨mi, hmi', ha⟩ := Vm.addr_ok.mp h
    obtain rfl := Option.some.inj (hmi'.symm.trans hmi)
    rw [addrs_relink] at ha
    exact ha
  · intro h
    refine Vm.addr_ok.mpr ⟨_, hmi, ?_⟩
    rw [addrs_relink]
    exact h

/-- The entries of the other instances. -/
theorem addr_older (hclosed : vm.Closed) {kind : ExternalKind} {k i : ℕ} {a : Addr} (hk : k ≠ vm.instances.length)
    (h : ((vm.push modId mod).relink vm.instances.length e).addr (·.addrs kind) k i = .ok a) :
    a.inst < vm.instances.length := by
  obtain ⟨mi, hmi, -⟩ := Vm.addr_ok.mp h
  have hlt : k < vm.instances.length := by
    have := (List.getElem?_eq_some_iff.mp hmi).1
    simp only [Vm.relink, Vm.modifyInst, List.length_modify, Vm.push, List.length_append, List.length_singleton] at this
    omega
  rw [addr_pushed hlt] at h
  exact hclosed kind k i a h

theorem closed_iff (hclosed : vm.Closed) : ((vm.push modId mod).relink vm.instances.length e).Closed ↔
    ∀ kind (i : ℕ) (a : Addr), (e kind)[i]? = some (some a) → a.inst ≤ vm.instances.length := by
  have hlen : ((vm.push modId mod).relink vm.instances.length e).instances.length = vm.instances.length + 1 := by
    simp [Vm.relink, Vm.modifyInst, Vm.push]
  constructor
  · intro h kind i a ha
    have := h kind _ i a (addr_newest.mpr ha)
    omega
  · intro h kind k i a ha
    rw [hlen]
    by_cases hk : k = vm.instances.length
    · subst hk
      exact Nat.lt_succ_of_le (h kind i a (addr_newest.mp ha))
    · have := addr_older hclosed hk ha
      omega

/-- Before it is linked, an instance has null in all its entries. -/
theorem addrs_null {kind : ExternalKind} {i : ℕ} {a : Addr} :
    ((moduleInstNew modId mod).addrs kind)[i]? ≠ some (some a) := by
  intro ha
  cases kind <;> exact absurd (List.eq_of_mem_replicate (List.mem_of_getElem? ha)) (by simp)

/-- Linking keeps the address tables inside the VM, and a failure leaves them so. -/
theorem link_closed (hclosed : vm.Closed) {res : Except Fault Unit} {vm1 : Vm}
    (h : linkModuleInst vm.instances.length mod (vm.push modId mod) = (res, vm1)) : vm1.Closed := by
  have hlink : Eff.Triple
      (fun w => ∃ e, w = (vm.push modId mod).relink vm.instances.length e ∧ w.Closed)
      (linkModuleInst vm.instances.length mod)
      (fun _ w => ∃ e, w = (vm.push modId mod).relink vm.instances.length e ∧ w.Closed)
      (fun w => ∃ e, w = (vm.push modId mod).relink vm.instances.length e ∧ w.Closed) := by
    rw [linkModuleInst_eq]
    refine .each fun ⟨kind, i⟩ hx => ?_
    refine Eff.Triple.bind (Q := fun a w => (∃ e, w = (vm.push modId mod).relink vm.instances.length e ∧ w.Closed) ∧
      a.inst ≤ vm.instances.length) (.read (fun w a hw ha => ⟨hw, ?_⟩) fun _ hw => hw) fun a => .modify fun w hw => ?_
    · obtain ⟨e, rfl, hc⟩ := hw
      cases himp : mod.importPath kind i with
      | none =>
        rw [linkAddr_own (mem_rounds.mp hx) himp] at ha
        cases ha
        exact Nat.le_refl _
      | some path =>
        obtain ⟨t, idx, -, haddr, -⟩ := (linkAddr_import himp).mp ha
        have := hc kind t idx a haddr
        simp only [Vm.relink, Vm.modifyInst, List.length_modify, Vm.push, List.length_append,
          List.length_singleton] at this
        omega
    · obtain ⟨⟨e, rfl, hc⟩, ha⟩ := hw
      refine ⟨_, put_relink kind i a, ?_⟩
      rw [put_relink, closed_iff hclosed]
      intro kind' j b hb
      rw [update_set] at hb
      split at hb
      · split at hb
        · cases hb
          exact ha
        · cases hb
      · exact (closed_iff hclosed).mp hc kind' j b hb
  have hstart : (vm.push modId mod).Closed := by
    rw [← relink_self (push_newest vm modId mod), closed_iff hclosed]
    exact fun _ _ _ ha => absurd ha addrs_null
  obtain ⟨hok, herr⟩ := hlink _ ⟨_, (relink_self (push_newest vm modId mod)).symm, hstart⟩
  cases res with
  | ok =>
    obtain ⟨-, -, hc⟩ := hok _ _ h
    exact hc
  | error =>
    obtain ⟨-, -, hc⟩ := herr _ _ h
    exact hc

/-! ### Imports lead out of the instance -/

theorem importPath_isSome {kind : ExternalKind} {i : ℕ} : (mod.importPath kind i).isSome = true ↔
    ∃ l, (mod.linkages kind)[i]? = some l ∧ l.imported = true := by
  have hpath : ∀ {α : Type} (xs : List α) (linkage : α → Linkage) (path : α → ImportPath),
      (xs[i]?.bind fun d => if (linkage d).imported then some (path d) else none).isSome = true ↔
        ∃ l, (xs.map linkage)[i]? = some l ∧ l.imported = true := by
    intro α xs linkage path
    rw [List.getElem?_map]
    cases xs[i]? with
    | none => simp
    | some d => by_cases himp : (linkage d).imported <;> simp [himp]
  cases kind <;> exact hpath ..

theorem pairwise_rounds (mod : Module) : mod.rounds.Pairwise fun x y => x.1 = y.1 → x.2 < y.2 := by
  have hkind : ∀ {α : Type} (xs : List α) (kind : ExternalKind),
      ((indexed xs).map fun x => (kind, x.1)).Pairwise fun x y => x.1 = y.1 → x.2 < y.2 := by
    intro α xs kind
    have hrange : ((indexed xs).map fun x => (kind, x.1)) = (List.range xs.length).map fun i => (kind, i) := by
      apply List.ext_getElem?
      intro i
      simp only [indexed, List.getElem?_map, List.getElem?_mapIdx]
      by_cases hi : i < xs.length
      · simp [hi]
      · simp [hi]
    rw [hrange, List.pairwise_map]
    refine List.Pairwise.imp ?_ List.pairwise_lt_range
    intro i j hij _
    exact hij
  simp only [Module.rounds, List.pairwise_append, List.mem_append, List.mem_map]
  refine ⟨hkind _ _, ⟨hkind _ _, ⟨hkind _ _, hkind _ _, ?_⟩, ?_⟩, ?_⟩ <;> grind

theorem import_of_lt (hfirst : ∀ kind, ImportedFirst (mod.linkages kind) (mod.importedCount kind)) {kind : ExternalKind}
    {i j : ℕ} (himp : (mod.importPath kind i).isSome = true) (hj : j < i) : (mod.importPath kind j).isSome = true := by
  obtain ⟨l, hl, hli⟩ := importPath_isSome.mp himp
  have hi := ((hfirst kind).imported_iff hl).mp hli
  have hlen := (hfirst kind).le_length
  have hget := List.getElem?_eq_getElem (l := mod.linkages kind) (i := j) (by omega)
  exact importPath_isSome.mpr ⟨_, hget, ((hfirst kind).imported_iff hget).mpr (by omega)⟩

/-- Once linked, an import leads to an older instance, also when the module imports from itself: the
imports come before the definitions, whose entries are still null then. -/
theorem linked_outside (hclosed : vm.Closed)
    (hfirst : ∀ kind, ImportedFirst (mod.linkages kind) (mod.importedCount kind))
    {vm1 : Vm} (h : linkModuleInst vm.instances.length mod (vm.push modId mod) = (.ok (), vm1)) {kind : ExternalKind}
    {i : ℕ} {a : Addr} (himp : (mod.importPath kind i).isSome = true)
    (ha : vm1.addr (·.addrs kind) vm.instances.length i = .ok a) : a.inst < vm.instances.length := by
  have hrounds : ∀ rest done e, mod.rounds = done ++ rest →
      (∀ kind (i : ℕ) (a : Addr), (e kind)[i]? = some (some a) →
        (kind, i) ∈ done ∧ ((mod.importPath kind i).isSome = true → a.inst < vm.instances.length)) →
      Eff.each (linkRound vm.instances.length mod) rest ((vm.push modId mod).relink vm.instances.length e) =
        (.ok (), vm1) →
      ∃ e', vm1 = (vm.push modId mod).relink vm.instances.length e' ∧
        ∀ kind (i : ℕ) (a : Addr), (e' kind)[i]? = some (some a) →
          (mod.importPath kind i).isSome = true → a.inst < vm.instances.length := by
    intro rest
    induction rest with
    | nil =>
      intro done e _ he hrun
      cases hrun
      exact ⟨e, rfl, fun kind i a hentry => (he kind i a hentry).2⟩
    | cons x rest ih =>
      obtain ⟨kind, i⟩ := x
      intro done e hsplit he hrun
      obtain ⟨⟨⟩, w, hround, hrest⟩ := Eff.bind_ok.mp hrun
      obtain ⟨a, w', hread, hmodify⟩ := Eff.bind_ok.mp hround
      obtain ⟨haddr, rfl⟩ := Eff.read_ok hread
      simp only [Eff.modify, Prod.mk.injEq, true_and] at hmodify
      rw [put_relink] at hmodify
      subst hmodify
      have hout : (mod.importPath kind i).isSome = true → a.inst < vm.instances.length := by
        intro himp
        obtain ⟨path, hpath⟩ := Option.isSome_iff_exists.mp himp
        obtain ⟨t, idx, -, hat, -⟩ := (linkAddr_import hpath).mp haddr
        by_cases ht : t = vm.instances.length
        · subst ht
          obtain ⟨hdone, hold⟩ := he kind idx a (addr_newest.mp hat)
          have hpair := hsplit ▸ pairwise_rounds mod
          have hlt := (List.pairwise_append.mp hpair).2.2 _ hdone _ List.mem_cons_self rfl
          exact hold (import_of_lt hfirst himp hlt)
        · exact addr_older hclosed ht hat
      refine ih (done ++ [(kind, i)]) _ (by simp [hsplit]) (fun kind' j b hb => ?_) hrest
      rw [update_set] at hb
      split at hb
      · next heq =>
        obtain ⟨rfl, rfl⟩ := heq
        split at hb
        · cases hb
          exact ⟨List.mem_append_right _ (List.mem_singleton_self _), hout⟩
        · cases hb
      · obtain ⟨hdone, hold⟩ := he kind' j b hb
        exact ⟨List.mem_append_left _ hdone, hold⟩
  rw [linkModuleInst_eq, ← relink_self (push_newest vm modId mod)] at h
  obtain ⟨e', rfl, he'⟩ := hrounds mod.rounds [] _ rfl (fun _ _ _ hentry => absurd hentry addrs_null) h
  exact he' kind i a (addr_newest.mp ha) himp

end Link

/-! ### Every state of a VM -/

section Runs
variable {pf : Platform} {vm vm' : Vm}

/-- What does not depend on contents, and is kept when a validated module is linked, is kept by an
instantiation. -/
theorem instantiate_linked {modId : ℕ} {mod : Module} {P : Vm → Prop} (hshape : ∀ w w', P w → w'.shape = w.shape → P w')
    (hlink : ∀ mod' res vm1, validateFuncs mod.funcs.length mod = .ok mod' →
      linkModuleInst vm.instances.length mod' (vm.push modId mod') = (res, vm1) → P vm1) (h : P vm) :
    P (instantiate pf modId mod vm).2 := by
  have hphases := instantiate_phases pf modId mod vm
  generalize (instantiate pf modId mod vm).1 = res, (instantiate pf modId mod vm).2 = vm' at hphases
  cases hphases with
  | known => exact h
  | invalid => exact h
  | unlinked _ hval hl => exact hlink _ _ _ hval hl
  | uninitialized _ hval hl hinit =>
    exact hshape _ _ (hlink _ _ _ hval hl) (stores_shape ((moduleInstInit_stores _ _ .refl).2 _ _ hinit))
  | done _ hval hl hinit =>
    exact hshape _ _ (hlink _ _ _ hval hl) (stores_shape ((moduleInstInit_stores _ _ .refl).1 _ _ hinit))

theorem instantiateStep_shape {modId : ℕ} {mod : Module} {s : System} (h : instantiateStep pf vm modId mod = .ok s) :
    s.vm.shape = (instantiate pf modId mod vm).2.shape := by
  rw [instantiateStep] at h
  split at h
  · simp at h
  · next vm1 heq =>
    cases h
    rw [heq, failLast]
    split
    · rfl
    · exact Vm.shape_withState vm1 _ _
  · next heq =>
    cases h
    rw [heq]
  · next k vm1 heq =>
    cases h
    rw [heq]
    exact Vm.shape_withState vm1 k _
  · next k idx vm1 heq =>
    rw [heq]
    obtain ⟨fAddr, -, h⟩ := bind_eq_ok.mp h
    split at h
    · simp at h
    · cases h
      exact Vm.shape_withState vm1 k _
    · cases h
      rfl

/-- Such a property is kept by every step. -/
theorem sysStep_linked {mods : Module → Prop} {P : Vm → Prop} (hshape : ∀ w w', P w → w'.shape = w.shape → P w')
    (hlink : ∀ w modId mod mod' res vm1, P w → mods mod → validateFuncs mod.funcs.length mod = .ok mod' →
      linkModuleInst w.instances.length mod' (w.push modId mod') = (res, vm1) → P vm1)
    {s s' : System} (h : SysStep pf mods s s') (hP : P s.vm) : P s'.vm := by
  cases h with
  | run h => exact hshape _ _ hP (runStep_shape h)
  | invoke => exact hP
  | reset => exact hshape _ _ hP rfl
  | instantiate hm h =>
    refine hshape _ _ ?_ (instantiateStep_shape h)
    exact instantiate_linked hshape (fun mod' res vm1 hval hl => hlink _ _ _ _ _ _ hP hm hval hl) hP

theorem sysStep_closed {mods : Module → Prop} {s s' : System} (h : SysStep pf mods s s') (hc : s.vm.Closed) :
    s'.vm.Closed :=
  sysStep_linked (fun _ _ hw hs => hw.of_shape hs) (fun _ _ _ _ _ _ hw _ _ hl => link_closed hw hl) h hc

theorem run_closed {mods : Module → Prop} {s : System} (h : ReflTransGen (SysStep pf mods) {} s) : s.vm.Closed := by
  refine Run.invariant (p := fun s => s.vm.Closed) (fun _ _ hstep => sysStep_closed hstep) h ?_
  intro kind k i a ha
  obtain ⟨mi, hmi, -⟩ := Vm.addr_ok.mp ha
  cases hmi

end Runs

/-! ### The effect -/

/-- The tables before the segments: those of the VM, and those of the new instance, full of null
references. -/
def initialTables (vm : Vm) (mod : Module) (a : Addr) : Option TableInst :=
  if a.inst = vm.instances.length then
    mod.tables[a.idx]?.map fun t =>
      { tab := t, tdata := if t.linkage.imported then [] else List.replicate t.lim.min nullref }
  else vm.part (·.tables) a

/-- The memories before the segments: those of the VM, and those of the new instance, full of zeros. -/
def initialMemories (vm : Vm) (mod : Module) (a : Addr) : Option MemoryInst :=
  if a.inst = vm.instances.length then
    mod.memories[a.idx]?.map fun m =>
      { mem := m, mdata := if m.linkage.imported then [] else List.replicate (m.lim.min * wasmPageSize) 0 }
  else vm.part (·.memories) a

/-- What a successful instantiation makes of a VM, and what it leaves as it is. -/
structure Instantiated (pf : Platform) (vm : Vm) (mod : Module) (vm' : Vm) : Prop where
  globals : ∀ i g, mod.globals[i]? = some g → g.linkage.imported = false →
    ∃ v, ConstValue pf vm' vm.instances.length g.expr v ∧ v.type = g.valtype ∧
      vm'.part (·.globals) ⟨vm.instances.length, i⟩ = some ⟨g, v.val⟩
  elements : ∃ segs,
    List.Forall₂ (ElemPlaced pf vm' vm.instances.length) (mod.elements.filter fun elem => elem.mode = .active) segs ∧
      ∀ a, vm'.part (·.tables) a =
        (initialTables vm mod a).map fun t => { t with tdata := overwritten segs a t.tdata }
  data : ∃ segs,
    List.Forall₂ (DataPlaced pf vm' vm.instances.length) (mod.data.filter fun d => d.isActive) segs ∧
      ∀ a, vm'.part (·.memories) a =
        (initialMemories vm mod a).map fun m => { m with mdata := overwritten segs a m.mdata }
  droppedElements : ∀ i elem, mod.elements[i]? = some elem →
    vm'.part (·.droppedElements) ⟨vm.instances.length, i⟩ = some (decide (elem.mode ≠ .passive))
  droppedData : ∀ i d, mod.data[i]? = some d → vm'.part (·.droppedData) ⟨vm.instances.length, i⟩ = some d.isActive
  otherGlobals : ∀ a : Addr, a.inst ≠ vm.instances.length → vm'.part (·.globals) a = vm.part (·.globals) a
  otherElements : ∀ a : Addr, a.inst ≠ vm.instances.length →
    vm'.part (·.droppedElements) a = vm.part (·.droppedElements) a
  otherData : ∀ a : Addr, a.inst ≠ vm.instances.length → vm'.part (·.droppedData) a = vm.part (·.droppedData) a

section Effect
variable {pf : Platform} {vm vm' : Vm} {modId : ℕ} {mod mod' : Module}

theorem part_push {β : Type} {g : ModuleInst → List β} (a : Addr) : (vm.push modId mod).part g a =
    if a.inst = vm.instances.length then (g (moduleInstNew modId mod))[a.idx]? else vm.part g a := by
  rw [Vm.part]
  split
  · next ha =>
    rw [ha, push_newest]
    rfl
  · next ha =>
    rw [Vm.part, Vm.push, List.getElem?_append]
    split
    · rfl
    · next hlt =>
      rw [List.getElem?_eq_none (l := vm.instances) (by omega), List.getElem?_eq_none]
      rw [List.length_singleton]
      omega

theorem tables_push (hfirst : ImportedFirst (mod.linkages .table) (mod.importedCount .table)) (a : Addr) :
    (vm.push modId mod).part (·.tables) a = initialTables vm mod a := by
  rw [part_push, initialTables]
  split
  · simp only [moduleInstNew, List.getElem?_mapIdx]
    cases ht : mod.tables[a.idx]? with
    | none => rfl
    | some t =>
      have hl : (mod.linkages .table)[a.idx]? = some t.linkage := by
        rw [Module.linkages, List.getElem?_map, ht]
        rfl
      have hiff := hfirst.imported_iff hl
      simp only [Option.map_some, newTable, Module.importedCount] at hiff ⊢
      by_cases himp : t.linkage.imported = true
      · rw [if_pos himp, if_neg (by have := hiff.mp himp; omega)]
      · rw [if_neg himp, if_pos (by have := mt hiff.mpr himp; omega)]
  · rfl

theorem memories_push (hfirst : ImportedFirst (mod.linkages .memory) (mod.importedCount .memory))
    (hsmall : mod.SmallMemories) (a : Addr) : (vm.push modId mod).part (·.memories) a = initialMemories vm mod a := by
  rw [part_push, initialMemories]
  split
  · simp only [moduleInstNew, List.getElem?_mapIdx]
    cases hm : mod.memories[a.idx]? with
    | none => rw [Option.map_none, Option.map_none]
    | some m =>
      have hl : (mod.linkages .memory)[a.idx]? = some m.linkage := by
        rw [Module.linkages, List.getElem?_map, hm]
        rfl
      have hiff := hfirst.imported_iff hl
      simp only [Option.map_some, newMemory, Module.importedCount] at hiff ⊢
      by_cases himp : m.linkage.imported = true
      · rw [if_pos himp, if_neg (by have := hiff.mp himp; omega)]
      · have hlt := hsmall m (List.mem_of_getElem? hm) (by simpa using himp)
        rw [if_neg himp, if_pos (by have := mt hiff.mpr himp; omega), Nat.mod_eq_of_lt]
        simp only [wasmMemMaxPages, wasmPageSize] at hlt ⊢
        omega
  · rfl

/-- The initialisers of the globals read imported globals only. -/
def Module.ReadsImported (mod : Module) : Prop :=
  ∀ (i : ℕ) g idx, mod.globals[i]? = some g → g.linkage.imported = false → IsConstExpr g.expr (.globalGet idx) →
    idx < mod.importedGlobalCount

/-- Before the initialisation, a linked instance is a new one, apart from its address tables. -/
structure Fresh (vm : Vm) (modId : ℕ) (mod : Module) (vm1 : Vm) : Prop where
  globals : vm1.part (·.globals) = (vm.push modId mod).part (·.globals)
  tables : vm1.part (·.tables) = (vm.push modId mod).part (·.tables)
  memories : vm1.part (·.memories) = (vm.push modId mod).part (·.memories)
  droppedElements : vm1.part (·.droppedElements) = (vm.push modId mod).part (·.droppedElements)
  droppedData : vm1.part (·.droppedData) = (vm.push modId mod).part (·.droppedData)

theorem linked_fresh {vm1 : Vm} {res : Except Fault Unit}
    (h : linkModuleInst vm.instances.length mod (vm.push modId mod) = (res, vm1)) : Fresh vm modId mod vm1 := by
  obtain ⟨e, rfl⟩ := linkModuleInst_relinks (push_newest vm modId mod) h
  constructor <;> exact part_modifyInst fun _ => rfl

theorem indexed_nodup {α : Type} (xs : List α) : ((indexed xs).map Prod.fst).Nodup := by
  have hrange : (indexed xs).map Prod.fst = List.range xs.length := by
    apply List.ext_getElem?
    intro i
    simp only [indexed, List.getElem?_map, List.getElem?_mapIdx]
    by_cases hi : i < xs.length <;> simp [hi]
  rw [hrange]
  exact List.nodup_range

theorem indexed_snd {α : Type} (xs : List α) : (indexed xs).map Prod.snd = xs := by
  apply List.ext_getElem?
  intro i
  simp only [indexed, List.getElem?_map, List.getElem?_mapIdx]
  cases xs[i]? <;> rfl

theorem exists_indexed {α : Type} {xs : List α} {i : ℕ} {x : α} (hx : xs[i]? = some x) {p : α → Prop} :
    (∃ y ∈ indexed xs, y.1 = i ∧ p y.2) ↔ p x := by
  constructor
  · rintro ⟨y, hy, rfl, hp⟩
    obtain rfl : y.2 = x := Option.some.inj ((mem_indexed hy).symm.trans hx)
    exact hp
  · intro hp
    refine ⟨(i, x), ?_, rfl, hp⟩
    obtain ⟨hi, rfl⟩ := List.getElem?_eq_some_iff.mp hx
    exact List.mem_mapIdx.mpr ⟨i, hi, rfl⟩

theorem globals_init {vm1 w1 : Vm} (hfresh : Fresh vm modId mod vm1)
    (hfirst : ImportedFirst (mod.linkages .global) (mod.importedCount .global)) (hreads : mod.ReadsImported)
    (hout : ∀ idx a, idx < mod.importedGlobalCount → vm1.addr (·.gAddrs) vm.instances.length idx = .ok a →
      a.inst ≠ vm.instances.length)
    (h : Eff.each (initGlobal pf vm.instances.length mod) (indexed mod.globals) vm1 = (.ok (), w1)) :
    GlobalsOnly vm1 w1 ∧ (∀ a : Addr, a.inst ≠ vm.instances.length → w1.part (·.globals) a = vm.part (·.globals) a) ∧
    ∀ i g, mod.globals[i]? = some g → g.linkage.imported = false →
      ∃ v, ConstValue pf w1 vm.instances.length g.expr v ∧ v.type = g.valtype ∧
        w1.part (·.globals) ⟨vm.instances.length, i⟩ = some ⟨g, v.val⟩ := by
  have hown : ∀ {i g}, mod.globals[i]? = some g → (g.linkage.imported = false ↔ mod.importedGlobalCount ≤ i) := by
    intro i g hg
    have hl : (mod.linkages .global)[i]? = some g.linkage := by
      rw [Module.linkages, List.getElem?_map, hg]
      rfl
    have hiff := hfirst.imported_iff hl
    rw [Module.importedCount] at hiff
    rw [← Bool.not_eq_true, hiff, Nat.not_lt]
  have hget : ∀ {i g idx a}, mod.globals[i]? = some g → mod.importedGlobalCount ≤ i →
    IsConstExpr g.expr (.globalGet idx) →
      vm1.addr (·.gAddrs) vm.instances.length idx = .ok a → a.inst ≠ vm.instances.length :=
    fun hg hi hc => hout _ _ (hreads _ _ _ hg ((hown hg).mpr hi) hc)
  obtain ⟨honly, hother, hset⟩ := initGlobals_effect (indexed_nodup mod.globals)
    (fun x hx hi idx a hc ha => hget (mem_indexed hx) hi hc ha) h
  refine ⟨honly, fun a ha => ?_, fun i g hg himp => ?_⟩
  · rw [hother a (.inl ha), hfresh.globals, part_push, if_neg ha]
  · have hmem : (i, g) ∈ indexed mod.globals := by
      obtain ⟨hi, rfl⟩ := List.getElem?_eq_some_iff.mp hg
      exact List.mem_mapIdx.mpr ⟨i, hi, rfl⟩
    obtain ⟨v, hv, hty, hval⟩ := hset (i, g) hmem ((hown hg).mp himp)
    refine ⟨v, ?_, hty, ?_⟩
    · refine hv.congr honly.shape fun idx a hc ha => hother a (.inl ?_)
      exact hget hg ((hown hg).mp himp) hc ha
    · rw [hval, hfresh.globals, part_push, if_pos rfl]
      simp [moduleInstNew, hg]

/-- The effect of linking, which fills the address tables, and of the three loops after it. -/
theorem init_effect {vm1 w3 : Vm} (hlink : linkModuleInst vm.instances.length mod (vm.push modId mod) = (.ok (), vm1))
    (hclosed : vm.Closed) (hfirst : ∀ kind, ImportedFirst (mod.linkages kind) (mod.importedCount kind))
    (hsmall : mod.SmallMemories) (hreads : mod.ReadsImported)
    (h : moduleInstInit pf vm.instances.length mod vm1 = (.ok (), w3)) : Instantiated pf vm mod w3 := by
  have hfresh := linked_fresh hlink
  obtain ⟨⟨⟩, w1, hglobals, hrest⟩ := Eff.bind_ok.mp h
  obtain ⟨⟨⟩, w2, helements, hdata⟩ := Eff.bind_ok.mp hrest
  have hout : ∀ idx a, idx < mod.importedGlobalCount → vm1.addr (·.gAddrs) vm.instances.length idx = .ok a →
      a.inst ≠ vm.instances.length := by
    intro idx a hidx ha
    have hget := List.getElem?_eq_getElem (l := mod.linkages .global) (i := idx)
      (Nat.lt_of_lt_of_le hidx (hfirst .global).le_length)
    have himp := importPath_isSome.mpr ⟨_, hget, ((hfirst .global).imported_iff hget).mpr hidx⟩
    exact Nat.ne_of_lt (linked_outside hclosed hfirst hlink himp ha)
  obtain ⟨honly1, hothers, hvalues⟩ := globals_init hfresh (hfirst .global) hreads hout hglobals
  obtain ⟨esegs, hesegs, honly2, htables, helems⟩ := initElems_effect helements
  obtain ⟨dsegs, hdsegs, honly3, hmemories, hdatas⟩ := initDatas_effect hdata
  rw [indexed_snd] at hesegs hdsegs
  have hshape3 : w3.shape = w1.shape := honly3.shape.trans honly2.shape
  have hglobals3 : w3.part (·.globals) = w1.part (·.globals) := honly3.globals.trans honly2.globals
  constructor
  · intro i g hg himp
    obtain ⟨v, hv, hty, hval⟩ := hvalues i g hg himp
    exact ⟨v, hv.keep hshape3 hglobals3, hty, by rw [hglobals3]; exact hval⟩
  · refine ⟨esegs, hesegs.imp fun elem s hs => ?_, fun a => ?_⟩
    · refine hs.keep hshape3 hglobals3 fun a t ht => ?_
      rw [honly3.tables]
      exact elems_lengths hesegs htables a t ht
    · rw [honly3.tables, htables, honly1.tables, hfresh.tables, tables_push (hfirst .table)]
  · refine ⟨dsegs, hdsegs.imp fun d s hs => hs.keep honly3.shape honly3.globals
      (data_lengths hdsegs hmemories), fun a => ?_⟩
    rw [hmemories, honly2.memories, honly1.memories, hfresh.memories, memories_push (hfirst .memory) hsmall]
  · intro i elem helem
    rw [honly3.droppedElements, helems, honly1.droppedElements, hfresh.droppedElements, part_push, if_pos rfl]
    have hflag : (moduleInstNew modId mod).droppedElements[i]? = some false := by
      rw [moduleInstNew, List.getElem?_replicate_of_lt (List.getElem?_eq_some_iff.mp helem).1]
    simp only [hflag, true_and, exists_indexed helem (p := fun elem => elem.mode ≠ .passive)]
    by_cases hp : elem.mode = .passive <;> simp [hp]
  · intro i d hd
    rw [hdatas, honly2.droppedData, honly1.droppedData, hfresh.droppedData, part_push, if_pos rfl]
    have hflag : (moduleInstNew modId mod).droppedData[i]? = some false := by
      rw [moduleInstNew, List.getElem?_replicate_of_lt (List.getElem?_eq_some_iff.mp hd).1]
    simp only [hflag, true_and, exists_indexed hd (p := fun d => d.isActive = true)]
    by_cases hp : d.isActive = true <;> simp [hp]
  · intro a ha
    rw [hglobals3]
    exact hothers a ha
  · intro a ha
    rw [honly3.droppedElements, helems, if_neg fun hk => ha hk.1, honly1.droppedElements, hfresh.droppedElements,
      part_push, if_neg ha]
  · intro a ha
    rw [hdatas, if_neg fun hk => ha hk.1, honly2.droppedData, honly1.droppedData, hfresh.droppedData, part_push,
      if_neg ha]

/-- What the validator writes into a module does not matter. -/
theorem instantiated_parsed : Instantiated pf vm mod.parsed vm' ↔ Instantiated pf vm mod vm' :=
  ⟨fun h => ⟨h.globals, h.elements, h.data, h.droppedElements, h.droppedData, h.otherGlobals,
    h.otherElements, h.otherData⟩,
    fun h => ⟨h.globals, h.elements, h.data, h.droppedElements, h.droppedData, h.otherGlobals,
      h.otherElements, h.otherData⟩⟩

theorem Instantiated.withState (h : Instantiated pf vm mod vm') (k : ℕ) (st : ModuleInstState) :
    Instantiated pf vm mod (vm'.modifyInst k ({ · with state := st })) := by
  have hs := Vm.shape_withState vm' k st
  have hpart : ∀ {β : Type} {g : ModuleInst → List β}, (∀ mi : ModuleInst, g { mi with state := st } = g mi) →
      (vm'.modifyInst k ({ · with state := st })).part g = vm'.part g := fun hg => part_modifyInst hg
  have hglobals := hpart (g := (·.globals)) fun _ => rfl
  have htables := hpart (g := (·.tables)) fun _ => rfl
  have hmemories := hpart (g := (·.memories)) fun _ => rfl
  constructor
  · intro i g hg himp
    obtain ⟨v, hv, hty, hval⟩ := h.globals i g hg himp
    exact ⟨v, hv.keep hs hglobals, hty, by rw [hglobals]; exact hval⟩
  · obtain ⟨segs, hsegs, hdata⟩ := h.elements
    refine ⟨segs, hsegs.imp fun elem s hp => ?_, by rw [htables]; exact hdata⟩
    exact hp.keep hs hglobals fun a t ht => ⟨t, by rw [htables]; exact ht, rfl⟩
  · obtain ⟨segs, hsegs, hdata⟩ := h.data
    refine ⟨segs, hsegs.imp fun d s hp => ?_, by rw [hmemories]; exact hdata⟩
    exact hp.keep hs hglobals fun a m hm => ⟨m, by rw [hmemories]; exact hm, rfl⟩
  · rw [hpart fun _ => rfl]
    exact h.droppedElements
  · rw [hpart fun _ => rfl]
    exact h.droppedData
  · rw [hglobals]
    exact h.otherGlobals
  · rw [hpart fun _ => rfl]
    exact h.otherElements
  · rw [hpart fun _ => rfl]
    exact h.otherData

theorem Module.OfHost.importedFirst (h : mod.OfHost) (kind : ExternalKind) :
    ImportedFirst (mod.linkages kind) (mod.importedCount kind) := by
  have hparsed : ∀ m : Module, m.parsed.linkages kind = m.linkages kind ∧
    m.parsed.importedCount kind = m.importedCount kind := by
    intro m
    cases kind with
    | func => exact ⟨List.map_map .., rfl⟩
    | table | memory | global => exact ⟨rfl, rfl⟩
  obtain ⟨m, hm, heq⟩ := h
  rw [← (hparsed mod).1, ← (hparsed mod).2, heq, (hparsed m).1, (hparsed m).2]
  exact hm.indexed.imported kind

end Effect

/-- In every state of a VM, a first instantiation that succeeds gives the globals the values of their
initialisers and puts the active segments into the tables and memories in order, and does nothing
else. -/
theorem instantiate_effect (pf : Platform) (vm vm' : Vm) (modId : ℕ) (mod : Module)
    (hrun : ReflTransGen (SysStep pf Module.OfHost) {} ⟨vm, none⟩) (hmod : mod.OfHost)
    (hstart : mod.startFuncidx = none) (hsmall : mod.SmallMemories) (hreads : mod.ReadsImported)
    (hnew : ¬ vm.Holds modId) (hcall : InstCall pf modId mod vm true vm') : Instantiated pf vm mod vm' := by
  have hdone : ∀ {k start vm2}, instantiate pf modId mod vm = (.ok (some (k, start)), vm2) →
      start = none ∧ k = vm.instances.length ∧ Instantiated pf vm mod vm2 := by
    intro k start vm2 hinst
    have hphases := instantiate_phases pf modId mod vm
    rw [hinst] at hphases
    cases hphases with
    | @done mod' vm1 _ hk hval hlink hinit =>
      have hp := (validateFuncs_ok hval).parsed
      refine ⟨?_, rfl, ?_⟩
      · rw [show mod'.startFuncidx = mod'.parsed.startFuncidx from rfl, hp]
        exact hstart
      · rw [← instantiated_parsed, ← hp, instantiated_parsed]
        refine init_effect hlink (run_closed hrun) (hmod.validated hp).importedFirst ?_ ?_ hinit
        · rw [Module.SmallMemories, show mod'.memories = mod'.parsed.memories from rfl, hp]
          exact hsmall
        · rw [Module.ReadsImported, show mod'.globals = mod'.parsed.globals from rfl,
            show mod'.importedGlobalCount = mod'.parsed.importedGlobalCount from rfl, hp]
          exact hreads
  generalize hok : true = ok at hcall
  cases hcall with
  | known h => exact absurd (instantiate_known h).1 hnew
  | failed h => cases hok
  | refused h => cases hok
  | ready h => exact (hdone h).2.2.withState _ _
  | started h => cases (hdone h).1

/-- A function, a table of two entries, the second one filled with the function, a memory and a
global. -/
def fullModule : Module where
  names := [[]]
  formatVersion := 1
  funcTypes := [{}]
  funcs := [{ code := [0x0b] }]
  tables := [{ valtype := .funcref, lim := ⟨2, u32Max⟩ }]
  memories := [{ lim := ⟨0, wasmMemMaxPages⟩ }]
  globals := [{ valtype := .i32, mut_ := false, expr := [0x41, 7, 0x0b] }]
  elements := [{ offsetExpr := [0x41, 1, 0x0b], dataLen := 1, vFuncidx := [0] }]

theorem loaded_fullModule : Loaded fullModule := by
  have hmod : moduleInit [0x00, 0x61, 0x73, 0x6d, 1, 0, 0, 0, 1, 4, 1, 0x60, 0, 0, 3, 2, 1, 0, 4, 4, 1, 0x70, 0, 2,
      5, 3, 1, 0, 0, 6, 6, 1, 0x7f, 0, 0x41, 7, 0x0b, 9, 7, 1, 0, 0x41, 1, 0x0b, 1, 0, 10, 4, 1, 2, 0, 0x0b] [] =
      .ok fullModule := by rfl
  exact .init hmod

theorem instantiate_effect_full : ∃ vm', InstCall idle 0 fullModule {} true vm' ∧
    Instantiated idle {} fullModule vm' := by
  have hok : (instantiate idle 0 fullModule {}).1.toOption = some (some (0, none)) := by decide +kernel
  have hinst : instantiate idle 0 fullModule {} = (.ok (some (0, none)), (instantiate idle 0 fullModule {}).2) := by
    cases hres : instantiate idle 0 fullModule {} with
    | mk res vm2 =>
      rw [hres] at hok
      cases res <;> cases hok
      rfl
  have hcall := InstCall.ready hinst
  refine ⟨_, hcall, instantiate_effect idle {} _ 0 fullModule .refl ⟨_, loaded_fullModule, rfl⟩ rfl ?_ ?_ ?_ hcall⟩
  · intro m hm _
    rw [List.mem_singleton.mp hm]
    decide
  · intro i g idx hg _ hconst
    obtain rfl : g = { valtype := .i32, mut_ := false, expr := [0x41, 7, 0x0b] } :=
      List.mem_singleton.mp (List.mem_of_getElem? hg)
    obtain ⟨b, op, s, s', hread, hop, hreads, -⟩ := hconst
    cases hread
    cases hop
    cases hreads
  · rintro ⟨mi, hmi, -⟩
    cases hmi

end Silverfir
