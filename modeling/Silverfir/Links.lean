import Silverfir.Linked
import Silverfir.Indices

/-! `vm_link_module_inst` entry by entry: where an import leads, and the address tables that the
four loops leave. -/
namespace Silverfir

/-- The address tables. -/
def ModuleInst.addrs (mi : ModuleInst) : ExternalKind → List (Option Addr)
  | .func => mi.fAddrs
  | .table => mi.tAddrs
  | .memory => mi.mAddrs
  | .global => mi.gAddrs

/-- The path of an import; an own definition has none. -/
def Module.importPath (mod : Module) : ExternalKind → ℕ → Option ImportPath
  | .func, i => mod.funcs[i]?.bind fun d => if d.linkage.imported then some d.path else none
  | .table, i => mod.tables[i]?.bind fun d => if d.linkage.imported then some d.path else none
  | .memory, i => mod.memories[i]?.bind fun d => if d.linkage.imported then some d.path else none
  | .global, i => mod.globals[i]?.bind fun d => if d.linkage.imported then some d.path else none

/-- The instance and the index that an import leads to: the first export of the kind and name. -/
def Vm.linkTarget (vm : Vm) (kind : ExternalKind) (path : ImportPath) : Option (ℕ × ℕ) :=
  (vm.findModuleInst path.module).bind fun t => vm.instances[t]?.bind fun mi =>
    (mi.mod.exports.find? fun exp => exp.externalKind == kind && exp.name == path.field).map fun exp =>
      (t, exp.externalIdx)

/-- What the check of an import asks of its target. -/
def ImportFits (mod : Module) (vm : Vm) (a : Addr) : ExternalKind → ℕ → Prop
  | .func, i => ∃ d t, mod.funcs[i]? = some d ∧ vm.func a = .ok t ∧ d.fnType = t.fnType
  | .table, i => ∃ d t, mod.tables[i]? = some d ∧ vm.table a = .ok t ∧ d.valtype = t.tab.valtype ∧
      d.lim.min ≤ t.tab.lim.min ∧ t.tab.lim.max ≤ d.lim.max
  | .memory, i => ∃ d t, mod.memories[i]? = some d ∧ vm.memory a = .ok t ∧
      d.lim.min ≤ t.mdata.length / wasmPageSize ∧ t.mem.lim.max ≤ d.lim.max
  | .global, i => ∃ d t, mod.globals[i]? = some d ∧ vm.global a = .ok t ∧ t.glob.mut_ = d.mut_ ∧
      t.glob.valtype = d.valtype

/-! ### The four loops as one -/

/-- The address for one entry. -/
def linkAddr (k : ℕ) (mod : Module) (x : ExternalKind × ℕ) (vm : Vm) : R Addr :=
  match x with
  | (.func, i) =>
    match mod.funcs[i]? with
    | none => undef "func"
    | some d => if !d.linkage.imported then .ok ⟨k, i⟩ else linkFunc d vm
  | (.table, i) =>
    match mod.tables[i]? with
    | none => undef "table"
    | some d => if !d.linkage.imported then .ok ⟨k, i⟩ else linkTable d vm
  | (.memory, i) =>
    match mod.memories[i]? with
    | none => undef "memory"
    | some d => if !d.linkage.imported then .ok ⟨k, i⟩ else linkMemory d vm
  | (.global, i) =>
    match mod.globals[i]? with
    | none => undef "global"
    | some d => if !d.linkage.imported then .ok ⟨k, i⟩ else linkGlobal d vm

def putAddr (x : ExternalKind × ℕ) (a : Addr) (mi : ModuleInst) : ModuleInst :=
  match x with
  | (.func, i) => putFAddr i a mi
  | (.table, i) => putTAddr i a mi
  | (.memory, i) => putMAddr i a mi
  | (.global, i) => putGAddr i a mi

/-- One round of a loop. -/
def linkRound (k : ℕ) (mod : Module) (x : ExternalKind × ℕ) : VmM Unit := do
  let a ← Eff.read (linkAddr k mod x)
  Eff.modify (Vm.modifyInst k (putAddr x a))

/-- The rounds of the four loops, in order. -/
def Module.rounds (mod : Module) : List (ExternalKind × ℕ) :=
  (indexed mod.funcs).map (fun x => (.func, x.1)) ++ ((indexed mod.globals).map (fun x => (.global, x.1)) ++
    ((indexed mod.memories).map (fun x => (.memory, x.1)) ++ (indexed mod.tables).map fun x => (.table, x.1)))

theorem linkModuleInst_eq (k : ℕ) (mod : Module) : linkModuleInst k mod = Eff.each (linkRound k mod) mod.rounds := by
  have hround : ∀ {α : Type} {xs : List α} {linkage : α → Linkage} {link : α → Vm → R Addr}
      {put : ℕ → Addr → ModuleInst → ModuleInst} (kind : ExternalKind),
      (∀ i x, xs[i]? = some x → (fun vm => if !(linkage x).imported then .ok ⟨k, i⟩ else link x vm) =
        linkAddr k mod (kind, i)) → (∀ i, put i = putAddr (kind, i)) →
      Eff.each (linkEntry k linkage link put) (indexed xs) =
        Eff.each (linkRound k mod) ((indexed xs).map fun x => (kind, x.1)) := by
    intro α xs linkage link put kind hlink hput
    refine Eff.each_map fun x hx => ?_
    rw [linkEntry, linkRound, hlink x.1 x.2 (mem_indexed hx), hput]
  rw [linkModuleInst, Module.rounds, Eff.each_append, Eff.each_append, Eff.each_append]
  rw [hround .func, hround .global, hround .memory, hround .table]
  all_goals intro i
  all_goals first | rfl | skip
  all_goals
    intro x hx
    funext vm
    simp only [linkAddr, hx]

theorem mem_rounds {mod : Module} {kind : ExternalKind} {i : ℕ} :
    (kind, i) ∈ mod.rounds ↔ i < mod.space kind := by
  have hmem : ∀ {α : Type} (xs : List α), (∃ x ∈ indexed xs, x.1 = i) ↔ i < xs.length := by
    intro α xs
    constructor
    · rintro ⟨x, hx, rfl⟩
      exact (List.getElem?_eq_some_iff.mp (mem_indexed hx)).1
    · intro hi
      refine ⟨(i, xs[i]), ?_, rfl⟩
      rw [indexed, List.mem_mapIdx]
      exact ⟨i, hi, rfl⟩
  simp only [Module.rounds, List.mem_append, List.mem_map, Prod.mk.injEq]
  cases kind <;> simp [hmem, Module.space]

/-! ### The address of an entry -/

section Addr
variable {k : ℕ} {mod : Module} {vm : Vm} {a : Addr}

theorem linkImport_iff {kind : ExternalKind} {pick : ModuleInst → List (Option Addr)} {notFound : String}
    {check : Vm → Addr → R Unit} {path : ImportPath} :
    linkImport kind pick notFound check path vm = .ok a ↔
      ∃ t idx, vm.linkTarget kind path = some (t, idx) ∧ vm.addr pick t idx = .ok a ∧ check vm a = .ok () := by
  rw [linkImport, Vm.linkTarget]
  cases hfind : vm.findModuleInst path.module with
  | none => simp
  | some t =>
    cases hmi : vm.instances[t]? with
    | none => simp [Vm.inst, hmi, bind_eq_ok]
    | some mi =>
      simp only [Vm.inst, hmi, ok_bind, Option.bind_some]
      cases hexp : mi.mod.exports.find? fun exp => exp.externalKind == kind && exp.name == path.field with
      | none => simp
      | some exp =>
        simp only [bind_eq_ok, Option.map_some, Option.some.injEq, Prod.mk.injEq]
        constructor
        · rintro ⟨a', ha', ⟨⟩, hc, he⟩
          cases he
          exact ⟨t, exp.externalIdx, ⟨rfl, rfl⟩, ha', hc⟩
        · rintro ⟨_, _, ⟨rfl, rfl⟩, ha', hc⟩
          exact ⟨a, ha', (), hc, rfl⟩

/-- The entry of an own definition is the definition itself. -/
theorem linkAddr_own {kind : ExternalKind} {i : ℕ} (hi : i < mod.space kind) (hown : mod.importPath kind i = none) :
    linkAddr k mod (kind, i) vm = .ok ⟨k, i⟩ := by
  cases kind <;> simp only [Module.space] at hi <;>
    simp_all [linkAddr, Module.importPath]

/-- The entry of an import is the entry of its target, if the target fits. -/
theorem linkAddr_import {kind : ExternalKind} {i : ℕ} {path : ImportPath} (himp : mod.importPath kind i = some path) :
    linkAddr k mod (kind, i) vm = .ok a ↔
      ∃ t idx, vm.linkTarget kind path = some (t, idx) ∧ vm.addr (·.addrs kind) t idx = .ok a ∧
        ImportFits mod vm a kind i := by
  have hpath : ∀ {α : Type} {xs : List α} {linkage : α → Linkage} {pathOf : α → ImportPath},
      (xs[i]?.bind fun d => if (linkage d).imported then some (pathOf d) else none) = some path →
      ∃ d, xs[i]? = some d ∧ (linkage d).imported = true ∧ pathOf d = path := by
    intro α xs linkage pathOf h
    obtain ⟨d, hd, h⟩ := Option.bind_eq_some_iff.mp h
    split at h
    · next himp => exact ⟨d, hd, himp, Option.some.inj h⟩
    · cases h
  cases kind with
  | func =>
    obtain ⟨d, hd, hl, rfl⟩ := hpath himp
    simp only [linkAddr, hd, hl, linkFunc, linkImport_iff, ImportFits, bind_eq_ok, guard_eq_ok, funcTypeEq_iff,
      Bool.not_true, Bool.not_eq_true', Bool.not_eq_false, Bool.false_eq_true, if_false]
    simp [ModuleInst.addrs]
  | table =>
    obtain ⟨d, hd, hl, rfl⟩ := hpath himp
    simp only [linkAddr, hd, hl, linkTable, linkImport_iff, ImportFits, bind_eq_ok, guard_eq_ok,
      Bool.not_true, Bool.false_eq_true, if_false]
    simp [ModuleInst.addrs]
  | memory =>
    obtain ⟨d, hd, hl, rfl⟩ := hpath himp
    simp only [linkAddr, hd, hl, linkMemory, linkImport_iff, ImportFits, bind_eq_ok, guard_eq_ok,
      Bool.not_true, Bool.false_eq_true, if_false]
    simp [ModuleInst.addrs]
  | global =>
    obtain ⟨d, hd, hl, rfl⟩ := hpath himp
    simp only [linkAddr, hd, hl, linkGlobal, linkImport_iff, ImportFits, bind_eq_ok, guard_eq_ok,
      Bool.not_true, Bool.false_eq_true, if_false]
    simp [ModuleInst.addrs]

end Addr

theorem Vm.findModuleInst_ok {vm : Vm} {name : Str} {t : ℕ} (h : vm.findModuleInst name = some t) :
    ∃ mi, vm.instances[t]? = some mi ∧ name ∈ mi.mod.names := by
  have hmem := List.mem_of_getLast? h
  obtain ⟨hlt, hname⟩ := List.mem_findIdxs_iff_exists_getElem_pos.mp hmem
  exact ⟨_, List.getElem?_eq_getElem hlt, List.contains_iff_mem.mp hname⟩

theorem Vm.linkTarget_ok {vm : Vm} {kind : ExternalKind} {path : ImportPath} {t idx : ℕ}
    (h : vm.linkTarget kind path = some (t, idx)) :
    ∃ mi exp, vm.instances[t]? = some mi ∧ path.module ∈ mi.mod.names ∧ exp.externalIdx = idx ∧
      mi.mod.exports.find? (fun exp => exp.externalKind == kind && exp.name == path.field) = some exp := by
  obtain ⟨t', hfind, h⟩ := Option.bind_eq_some_iff.mp h
  obtain ⟨mi, hmi, h⟩ := Option.bind_eq_some_iff.mp h
  obtain ⟨exp, hexp, h⟩ := Option.map_eq_some_iff.mp h
  cases h
  obtain ⟨mi', hmi', hname⟩ := Vm.findModuleInst_ok hfind
  obtain rfl : mi' = mi := Option.some.inj (hmi'.symm.trans hmi)
  exact ⟨mi', exp, hmi, hname, rfl, hexp⟩

/-! ### Other address tables -/

/-- The modules of the instances. -/
def Vm.mods (vm : Vm) : List Module := vm.instances.map (·.mod)

theorem Vm.mods_modifyInst {f : ModuleInst → ModuleInst} (h : ∀ mi, (f mi).mod = mi.mod) (k : ℕ) (vm : Vm) :
    (vm.modifyInst k f).mods = vm.mods := ListStack.map_modify h vm.instances k

theorem Vm.mods_of_shape {vm vm' : Vm} (h : vm'.shape = vm.shape) : vm'.mods = vm.mods := by
  have hmods : ∀ w : Vm, w.mods = w.shape.map (·.mod) := by
    intro w
    rw [shape, List.map_map]
    rfl
  rw [hmods, hmods, h]

theorem Vm.findModuleInst_eq (vm : Vm) (name : Str) :
    vm.findModuleInst name = ((vm.mods.map Module.parsed).findIdxs fun mod => mod.names.contains name).getLast? := by
  rw [findModuleInst, mods, List.map_map, List.findIdxs_map]
  rfl

/-- Where an import leads depends on the modules only, as they were parsed. -/
theorem Vm.linkTarget_of_parsed {vm vm' : Vm} (h : vm'.mods.map Module.parsed = vm.mods.map Module.parsed)
    (kind : ExternalKind) (path : ImportPath) : vm'.linkTarget kind path = vm.linkTarget kind path := by
  have hbind : ∀ (w : Vm) (t : ℕ) {β : Type} (g : List Export → Option β),
      (w.instances[t]?.bind fun mi => g mi.mod.exports) =
        (w.mods.map Module.parsed)[t]?.bind fun mod => g mod.exports := by
    intro w t β g
    rw [mods, List.map_map, List.getElem?_map]
    cases w.instances[t]? <;> rfl
  simp only [linkTarget, findModuleInst_eq, h]
  congr 1
  funext t
  rw [hbind vm' t fun exports => (exports.find? _).map _, hbind vm t fun exports => (exports.find? _).map _, h]

theorem Vm.linkTarget_of_mods {vm vm' : Vm} (h : vm'.mods = vm.mods) (kind : ExternalKind) (path : ImportPath) :
    vm'.linkTarget kind path = vm.linkTarget kind path := linkTarget_of_parsed (by rw [h]) kind path

theorem importPath_parsed (mod : Module) (kind : ExternalKind) (i : ℕ) :
    mod.parsed.importPath kind i = mod.importPath kind i := by
  cases kind with
  | func =>
    simp only [Module.importPath, Module.parsed, List.getElem?_map]
    cases mod.funcs[i]? <;> rfl
  | table | memory | global => rfl

theorem space_parsed (mod : Module) (kind : ExternalKind) : mod.parsed.space kind = mod.space kind := by
  cases kind with
  | func => exact List.length_map _
  | table | memory | global => rfl

/-- The instance with the address tables `e`. -/
def ModuleInst.relink (mi : ModuleInst) (e : ExternalKind → List (Option Addr)) : ModuleInst :=
  { mi with fAddrs := e .func, tAddrs := e .table, mAddrs := e .memory, gAddrs := e .global }

def Vm.relink (vm : Vm) (k : ℕ) (e : ExternalKind → List (Option Addr)) : Vm := vm.modifyInst k (·.relink e)

section Relink
variable {k : ℕ} {mod : Module} {vm : Vm} {e : ExternalKind → List (Option Addr)}

theorem addrs_relink (mi : ModuleInst) (e : ExternalKind → List (Option Addr)) : (mi.relink e).addrs = e := by
  funext kind
  cases kind <;> rfl

theorem relink_addrs (mi : ModuleInst) : mi.relink mi.addrs = mi := rfl

/-- An entry is put into one of the tables. -/
theorem putAddr_relink (kind : ExternalKind) (i : ℕ) (a : Addr) (mi : ModuleInst) :
    putAddr (kind, i) a (mi.relink e) = mi.relink (Function.update e kind ((e kind).set i (some a))) := by
  cases kind <;> rfl

theorem put_relink (kind : ExternalKind) (i : ℕ) (a : Addr) :
    (vm.relink k e).modifyInst k (putAddr (kind, i) a) =
      vm.relink k (Function.update e kind ((e kind).set i (some a))) := by
  simp only [Vm.relink, Vm.modifyInst, List.modify_modify_eq]
  congr 2
  funext mi
  exact putAddr_relink kind i a mi

theorem mods_relink : (vm.relink k e).mods = vm.mods := by
  refine Vm.mods_modifyInst ?_ k vm
  intro mi
  rfl

theorem inst_relink_ne {j : ℕ} (hj : j ≠ k) : (vm.relink k e).instances[j]? = vm.instances[j]? := by
  exact List.getElem?_modify_ne _ _ hj.symm

theorem addr_relink_ne {j idx : ℕ} (hj : j ≠ k) {pick : ModuleInst → List (Option Addr)} :
    (vm.relink k e).addr pick j idx = vm.addr pick j idx := by
  rw [Vm.addr, Vm.addr, inst_relink_ne hj]

/-- What is found at an address does not depend on the address tables. -/
theorem bind_relink {β : Type} {g : ModuleInst → Option β} (hg : ∀ mi, g (mi.relink e) = g mi) (j : ℕ) :
    (vm.relink k e).instances[j]?.bind g = vm.instances[j]?.bind g := by
  rw [Vm.relink, Vm.modifyInst, List.getElem?_modify]
  cases vm.instances[j]? with
  | none => rfl
  | some mi =>
    simp only [Option.map_eq_map, Option.map_some, Option.bind_some]
    split
    · exact hg mi
    · rfl

theorem func_relink (a : Addr) : (vm.relink k e).func a = vm.func a := by
  rw [Vm.func, Vm.func, bind_relink fun _ => rfl]

theorem table_relink (a : Addr) : (vm.relink k e).table a = vm.table a := by
  rw [Vm.table, Vm.table, bind_relink fun _ => rfl]

theorem memory_relink (a : Addr) : (vm.relink k e).memory a = vm.memory a := by
  rw [Vm.memory, Vm.memory, bind_relink fun _ => rfl]

theorem global_relink (a : Addr) : (vm.relink k e).global a = vm.global a := by
  rw [Vm.global, Vm.global, bind_relink fun _ => rfl]

theorem importFits_relink (kind : ExternalKind) (i : ℕ) (a : Addr) :
    ImportFits mod (vm.relink k e) a kind i ↔ ImportFits mod vm a kind i := by
  cases kind <;> simp only [ImportFits, func_relink, table_relink, memory_relink, global_relink]

/-- An import that leads to another instance. -/
def LeadsAway (k : ℕ) (mod : Module) (vm : Vm) (kind : ExternalKind) (i : ℕ) : Prop :=
  ∀ path t idx, mod.importPath kind i = some path → vm.linkTarget kind path = some (t, idx) → t ≠ k

theorem linkAddr_relink {kind : ExternalKind} {i : ℕ} (hi : i < mod.space kind) (haway : LeadsAway k mod vm kind i)
    (a : Addr) : linkAddr k mod (kind, i) (vm.relink k e) = .ok a ↔ linkAddr k mod (kind, i) vm = .ok a := by
  cases hpath : mod.importPath kind i with
  | none => rw [linkAddr_own hi hpath, linkAddr_own hi hpath]
  | some path =>
    rw [linkAddr_import hpath, linkAddr_import hpath]
    refine exists_congr fun t => exists_congr fun idx => ?_
    rw [Vm.linkTarget_of_mods mods_relink, importFits_relink]
    refine and_congr_right fun htarget => ?_
    rw [addr_relink_ne (haway path t idx hpath htarget)]

end Relink

/-! ### What the loops leave -/

/-- After some rounds, the entries they are about are linked, and the others are as before. -/
structure LinkedBy (k : ℕ) (mod : Module) (vm : Vm) (rounds : List (ExternalKind × ℕ))
    (e e' : ExternalKind → List (Option Addr)) : Prop where
  length : ∀ kind, (e' kind).length = (e kind).length
  set : ∀ kind i, (kind, i) ∈ rounds → i < (e kind).length →
    ∃ a, (e' kind)[i]? = some (some a) ∧ linkAddr k mod (kind, i) vm = .ok a
  other : ∀ kind i, (kind, i) ∉ rounds → (e' kind)[i]? = (e kind)[i]?

/-- One entry of one table is set. -/
theorem update_set {e : ExternalKind → List (Option Addr)} {kind kind' : ExternalKind} {i j : ℕ} {a : Addr} :
    (Function.update e kind ((e kind).set i (some a)) kind')[j]? =
      if kind' = kind ∧ j = i then (if i < (e kind).length then some (some a) else none) else (e kind')[j]? := by
  by_cases hkind : kind' = kind
  · subst hkind
    rw [Function.update_self, List.getElem?_set]
    by_cases hji : i = j
    · simp [hji]
    · simp [hji, Ne.symm hji]
  · rw [Function.update_of_ne hkind]
    simp [hkind]

theorem each_linkRound {k : ℕ} {mod : Module} {vm vm' : Vm} {rounds : List (ExternalKind × ℕ)}
    {e : ExternalKind → List (Option Addr)}
    (hrounds : ∀ kind i, (kind, i) ∈ rounds → i < mod.space kind ∧ LeadsAway k mod vm kind i)
    (h : Eff.each (linkRound k mod) rounds (vm.relink k e) = (.ok (), vm')) :
    ∃ e', vm' = vm.relink k e' ∧ LinkedBy k mod vm rounds e e' := by
  induction rounds generalizing e with
  | nil =>
    cases h
    exact ⟨e, rfl, fun _ => rfl, by simp, fun _ _ _ => rfl⟩
  | cons x rounds ih =>
    obtain ⟨kind, i⟩ := x
    obtain ⟨hi, haway⟩ := hrounds kind i List.mem_cons_self
    obtain ⟨⟨⟩, vm1, hround, hrest⟩ := Eff.bind_ok.mp h
    obtain ⟨a, vm2, hread, hmodify⟩ := Eff.bind_ok.mp hround
    obtain ⟨haddr, rfl⟩ := Eff.read_ok hread
    simp only [Eff.modify, Prod.mk.injEq, true_and] at hmodify
    rw [put_relink] at hmodify
    subst hmodify
    obtain ⟨e', rfl, hlinked⟩ := ih (fun kind i hx => hrounds kind i (List.mem_cons_of_mem _ hx)) hrest
    have hlink := (linkAddr_relink hi haway a).mp haddr
    have hlen : ∀ kind', (Function.update e kind ((e kind).set i (some a)) kind').length = (e kind').length := by
      intro kind'
      by_cases hkind : kind' = kind
      · subst hkind
        rw [Function.update_self, List.length_set]
      · rw [Function.update_of_ne hkind]
    refine ⟨e', rfl, fun kind' => (hlinked.length kind').trans (hlen kind'),
      fun kind' j hx hj => ?_, fun kind' j hx => ?_⟩
    · by_cases hmem : (kind', j) ∈ rounds
      · exact hlinked.set kind' j hmem (hlen kind' ▸ hj)
      · obtain heq | hx := List.mem_cons.mp hx
        · cases heq
          refine ⟨a, ?_, hlink⟩
          rw [hlinked.other kind i hmem, update_set, if_pos ⟨rfl, rfl⟩, if_pos hj]
        · exact absurd hx hmem
    · obtain ⟨hne, hmem⟩ := not_or.mp (fun h => hx (List.mem_cons.mpr h))
      rw [hlinked.other kind' j hmem, update_set, if_neg]
      rintro ⟨rfl, rfl⟩
      exact hne rfl

theorem relink_self {k : ℕ} {vm : Vm} {mi : ModuleInst} (hmi : vm.instances[k]? = some mi) :
    vm.relink k mi.addrs = vm := by
  rw [Vm.relink, Vm.modifyInst, InPlaceDt.modify_self hmi (relink_addrs mi)]

/-- Whether linking succeeds or fails, it writes to the address tables of the instance only. -/
theorem linkModuleInst_relinks {k : ℕ} {mod : Module} {vm vm' : Vm} {mi : ModuleInst} (hmi : vm.instances[k]? = some mi)
    {res : Except Fault Unit} (h : linkModuleInst k mod vm = (res, vm')) : ∃ e, vm' = vm.relink k e := by
  have hlink : Eff.Triple (fun w => ∃ e, w = vm.relink k e) (linkModuleInst k mod) (fun _ w => ∃ e, w = vm.relink k e)
      (fun w => ∃ e, w = vm.relink k e) := by
    rw [linkModuleInst_eq]
    refine .each fun x _ => ?_
    refine .bind (.read (fun _ _ hs _ => hs) fun _ hs => hs) fun a => .modify fun w hw => ?_
    obtain ⟨e, rfl⟩ := hw
    exact ⟨_, put_relink x.1 x.2 a⟩
  obtain ⟨hok, herr⟩ := hlink vm ⟨mi.addrs, (relink_self hmi).symm⟩
  cases res with
  | ok => exact hok _ _ h
  | error => exact herr _ _ h

/-- The address tables after linking, if no import leads to the instance itself. -/
theorem linkModuleInst_spec {k : ℕ} {mod : Module} {vm vm' : Vm} {mi : ModuleInst} (hmi : vm.instances[k]? = some mi)
    (hlen : ∀ kind, (mi.addrs kind).length = mod.space kind)
    (haway : ∀ kind i, LeadsAway k mod vm kind i) (h : linkModuleInst k mod vm = (.ok (), vm')) :
    ∃ e, vm' = vm.relink k e ∧ (∀ kind, (e kind).length = mod.space kind) ∧
      ∀ kind i, i < mod.space kind → ∃ a, (e kind)[i]? = some (some a) ∧ linkAddr k mod (kind, i) vm = .ok a := by
  have h' : Eff.each (linkRound k mod) mod.rounds (vm.relink k mi.addrs) = (.ok (), vm') := by
    rw [relink_self hmi, ← linkModuleInst_eq]
    exact h
  obtain ⟨e, rfl, hlinked⟩ := each_linkRound (fun kind i hx => ⟨mem_rounds.mp hx, haway kind i⟩) h'
  refine ⟨e, rfl, fun kind => (hlinked.length kind).trans (hlen kind), fun kind i hi => ?_⟩
  exact hlinked.set kind i (mem_rounds.mpr hi) (by rw [hlen]; exact hi)

end Silverfir
