import Silverfir.LinkSafety

/-! What the entries of the address tables are: the own definitions, and for an import the
definition at the end of the chain of re-exports. -/
namespace Silverfir

open Relation (ReflTransGen)

/-- Entry `i` of module `k` is the definition at an address: its own one, or what the export it
imports is. -/
inductive Resolves (mods : List Module) (kind : ExternalKind) : ℕ → ℕ → Addr → Prop
  | own {k i mod} (hk : mods[k]? = some mod) (hi : i < mod.space kind) (hown : mod.importPath kind i = none) :
      Resolves mods kind k i ⟨k, i⟩
  | follow {k i mod path t target exp a} (hk : mods[k]? = some mod) (himp : mod.importPath kind i = some path)
      (ht : mods[t]? = some target) (hname : path.module ∈ target.names)
      (hexp : target.exports.find? (fun exp => exp.externalKind == kind && exp.name == path.field) = some exp)
      (h : Resolves mods kind t exp.externalIdx a) : Resolves mods kind k i a

/-- A declaration and a definition have the same type. For a memory it is the maximum that is
fixed. -/
def SameType (mod mod' : Module) : ExternalKind → ℕ → ℕ → Prop
  | .func, i, j => ∃ d d', mod.funcs[i]? = some d ∧ mod'.funcs[j]? = some d' ∧ d.fnType = d'.fnType
  | .table, i, j => ∃ d d', mod.tables[i]? = some d ∧ mod'.tables[j]? = some d' ∧ d.valtype = d'.valtype
  | .memory, i, j => ∃ d d', mod.memories[i]? = some d ∧ mod'.memories[j]? = some d' ∧ d'.lim.max ≤ d.lim.max
  | .global, i, j => ∃ d d', mod.globals[i]? = some d ∧ mod'.globals[j]? = some d' ∧ d.valtype = d'.valtype ∧
      d.mut_ = d'.mut_

/-- The entry leads to a definition, and to the right one. -/
structure Resolved (vm : Vm) (kind : ExternalKind) (k i : ℕ) (mod : Module) (a : Addr) : Prop where
  entry : vm.addr (·.addrs kind) k i = .ok a
  own : mod.importPath kind i = none → a = ⟨k, i⟩
  resolves : Resolves vm.mods kind k i a
  target : ∃ target, vm.mods[a.inst]? = some target ∧ a.idx < target.space kind ∧
    target.importPath kind a.idx = none ∧ SameType mod target kind i a.idx

/-- All entries of all instances lead to the right definition. -/
def AllResolved (vm : Vm) : Prop :=
  ∀ (k : ℕ) mod kind i, vm.mods[k]? = some mod → i < mod.space kind → ∃ a, Resolved vm kind k i mod a

/-- The parts of an instance are those that its module declares. -/
structure ModuleInst.Declared (mi : ModuleInst) : Prop where
  tables : mi.tables.map (·.tab) = mi.mod.tables
  memories : mi.memories.map (·.mem) = mi.mod.memories
  globals : mi.globals.map (·.glob) = mi.mod.globals
  addrs : ∀ kind, (mi.addrs kind).length = mi.mod.space kind

theorem moduleInstNew_declared (modId : ℕ) (mod : Module) : (moduleInstNew modId mod).Declared := by
  refine ⟨?_, ?_, ?_, fun kind => ?_⟩
  · apply List.ext_getElem?
    intro i
    simp only [moduleInstNew, List.getElem?_map, List.getElem?_mapIdx]
    cases mod.tables[i]? <;> rfl
  · apply List.ext_getElem?
    intro i
    simp only [moduleInstNew, List.getElem?_map, List.getElem?_mapIdx]
    cases mod.memories[i]? <;> rfl
  · simp only [moduleInstNew, List.map_map]
    exact List.map_id _
  · cases kind <;> exact List.length_replicate

theorem ModuleInst.Declared.of_shape {mi mi' : ModuleInst} (h : mi.Declared) (hs : mi'.shape = mi.shape) :
    mi'.Declared := by
  have hparts : ∀ m : ModuleInst, m.Declared ↔ m.shape.Declared := by
    intro m
    have htables : m.shape.tables.map (·.tab) = m.tables.map (·.tab) := List.map_map ..
    have hmemories : m.shape.memories.map (·.mem) = m.memories.map (·.mem) := List.map_map ..
    have hglobals : m.shape.globals.map (·.glob) = m.globals.map (·.glob) := List.map_map ..
    constructor
    · intro hm
      exact ⟨htables.trans hm.tables, hmemories.trans hm.memories, hglobals.trans hm.globals, hm.addrs⟩
    · intro hm
      exact ⟨htables.symm.trans hm.tables, hmemories.symm.trans hm.memories, hglobals.symm.trans hm.globals, hm.addrs⟩
  rw [hparts, hs, ← hparts]
  exact h

/-! ### Changes -/

/-- What holds of a VM in which all instantiations succeeded. -/
structure LinkedVm (vm : Vm) : Prop where
  declared : ∀ mi ∈ vm.instances, mi.Declared
  resolved : AllResolved vm

theorem LinkedVm.of_shape {vm vm' : Vm} (h : LinkedVm vm) (hs : vm'.shape = vm.shape) : LinkedVm vm' where
  declared := by
    intro mi' hmi'
    have hmem : mi'.shape ∈ vm'.shape := List.mem_map_of_mem hmi'
    rw [hs] at hmem
    obtain ⟨mi, hmi, heq⟩ := List.mem_map.mp hmem
    exact (h.declared mi hmi).of_shape heq.symm
  resolved := by
    intro k mod kind i hk hi
    rw [Vm.mods_of_shape hs] at hk
    obtain ⟨a, ha⟩ := h.resolved k mod kind i hk hi
    refine ⟨a, ?_, ha.own, ?_, ?_⟩
    · rw [Vm.addr_eq_of_shape (fun _ => rfl) hs]
      exact ha.entry
    · rw [Vm.mods_of_shape hs]
      exact ha.resolves
    · rw [Vm.mods_of_shape hs]
      exact ha.target

theorem Resolves.mono {mods mods' : List Module} (hpre : mods <+: mods') {kind : ExternalKind} {k i : ℕ} {a : Addr}
    (h : Resolves mods kind k i a) : Resolves mods' kind k i a := by
  have hget : ∀ {j : ℕ} {mod : Module}, mods[j]? = some mod → mods'[j]? = some mod := by
    intro j mod hj
    obtain ⟨hlt, rfl⟩ := List.getElem?_eq_some_iff.mp hj
    exact List.prefix_iff_getElem?.mp hpre j hlt
  induction h with
  | own hk hi hown => exact .own (hget hk) hi hown
  | follow hk himp ht hname hexp _ ih => exact .follow (hget hk) himp (hget ht) hname hexp ih

/-- The target of an import that fits has the type of the declaration. -/
theorem ImportFits.sameType {vm : Vm} (hd : ∀ mi ∈ vm.instances, mi.Declared) {mod : Module} {a : Addr}
    {kind : ExternalKind} {i : ℕ} (h : ImportFits mod vm a kind i) :
    ∃ target, vm.mods[a.inst]? = some target ∧ a.idx < target.space kind ∧ SameType mod target kind i a.idx := by
  have hmods : ∀ {mi : ModuleInst}, vm.instances[a.inst]? = some mi → vm.mods[a.inst]? = some mi.mod := by
    intro mi hmi
    rw [Vm.mods, List.getElem?_map, hmi]
    rfl
  have hpart : ∀ {α β : Type} {g : α → β} {xs : List α} {ys : List β} {x : α}, xs.map g = ys →
      xs[a.idx]? = some x → ys[a.idx]? = some (g x) := by
    intro α β g xs ys x heq hx
    rw [← heq, List.getElem?_map, hx]
    rfl
  cases kind with
  | func =>
    obtain ⟨d, t, hdecl, ht, hty⟩ := h
    obtain ⟨mi, hmi, hfn⟩ := Vm.func_ok.mp ht
    exact ⟨mi.mod, hmods hmi, (List.getElem?_eq_some_iff.mp hfn).1, d, t, hdecl, hfn, hty⟩
  | table =>
    obtain ⟨d, t, hdecl, ht, hty, -⟩ := h
    obtain ⟨mi, hmi, htab⟩ := Vm.table_ok.mp ht
    have htab := hpart (hd mi (List.mem_of_getElem? hmi)).tables htab
    exact ⟨mi.mod, hmods hmi, (List.getElem?_eq_some_iff.mp htab).1, d, t.tab, hdecl, htab, hty⟩
  | memory =>
    obtain ⟨d, t, hdecl, ht, -, hmax⟩ := h
    obtain ⟨mi, hmi, hmem⟩ := Vm.memory_ok.mp ht
    have hmem := hpart (hd mi (List.mem_of_getElem? hmi)).memories hmem
    exact ⟨mi.mod, hmods hmi, (List.getElem?_eq_some_iff.mp hmem).1, d, t.mem, hdecl, hmem, hmax⟩
  | global =>
    obtain ⟨d, t, hdecl, ht, hmut, hty⟩ := h
    obtain ⟨mi, hmi, hglob⟩ := Vm.global_ok.mp ht
    have hglob := hpart (hd mi (List.mem_of_getElem? hmi)).globals hglob
    exact ⟨mi.mod, hmods hmi, (List.getElem?_eq_some_iff.mp hglob).1, d, t.glob, hdecl, hglob, hty.symm, hmut.symm⟩

/-! ### The new instance -/

section New
variable {vm : Vm} {modId : ℕ} {mod mod' : Module} {e : ExternalKind → List (Option Addr)}

theorem mods_pushed : ((vm.push modId mod').relink vm.instances.length e).mods = vm.mods ++ [mod'] := by
  rw [mods_relink, Vm.mods, Vm.push, List.map_append]
  rfl

theorem addr_pushed {k i : ℕ} (hk : k < vm.instances.length) {pick : ModuleInst → List (Option Addr)} :
    ((vm.push modId mod').relink vm.instances.length e).addr pick k i = vm.addr pick k i := by
  rw [addr_relink_ne (Nat.ne_of_lt hk), Vm.addr, Vm.addr, Vm.push, List.getElem?_append_left hk]

theorem length_mods (vm : Vm) : vm.mods.length = vm.instances.length := List.length_map _

/-- An entry that was right stays right. -/
theorem Resolved.pushed {kind : ExternalKind} {k i : ℕ} {m : Module} {a : Addr} (h : Resolved vm kind k i m a) :
    Resolved ((vm.push modId mod').relink vm.instances.length e) kind k i m a where
  entry := by
    obtain ⟨mi, hmi, -⟩ := Vm.addr_ok.mp h.entry
    rw [addr_pushed (List.getElem?_eq_some_iff.mp hmi).1]
    exact h.entry
  own := h.own
  resolves := by
    rw [mods_pushed]
    exact h.resolves.mono (List.prefix_append ..)
  target := by
    obtain ⟨target, htarget, hrest⟩ := h.target
    refine ⟨target, ?_, hrest⟩
    rw [mods_pushed, List.getElem?_append_left (List.getElem?_eq_some_iff.mp htarget).1]
    exact htarget

theorem declared_pushed (h : ∀ mi ∈ vm.instances, mi.Declared) (modId : ℕ) (mod' : Module) :
    ∀ mi ∈ (vm.push modId mod').instances, mi.Declared := by
  intro mi hmi
  obtain hmi | hmi := List.mem_append.mp hmi
  · exact h mi hmi
  · rw [List.mem_singleton.mp hmi]
    exact moduleInstNew_declared modId mod'

/-- A definition has its own type. -/
theorem sameType_self {kind : ExternalKind} {i : ℕ} (hi : i < mod.space kind) : SameType mod mod kind i i := by
  cases kind with
  | func => exact ⟨_, _, List.getElem?_eq_getElem hi, List.getElem?_eq_getElem hi, rfl⟩
  | table => exact ⟨_, _, List.getElem?_eq_getElem hi, List.getElem?_eq_getElem hi, rfl⟩
  | memory => exact ⟨_, _, List.getElem?_eq_getElem hi, List.getElem?_eq_getElem hi, Nat.le_refl _⟩
  | global => exact ⟨_, _, List.getElem?_eq_getElem hi, List.getElem?_eq_getElem hi, rfl, rfl⟩

/-- An import leads to an entry that is right. -/
theorem LinkedVm.target (h : LinkedVm vm) {kind : ExternalKind} {i : ℕ} {path : ImportPath} {a : Addr}
    (himp : mod'.importPath kind i = some path)
    (haway : LeadsAway vm.instances.length mod' (vm.push modId mod') kind i)
    (haddr : linkAddr vm.instances.length mod' (kind, i) (vm.push modId mod') = .ok a) :
    ∃ (t : ℕ) (target : Module) (exp : Export), vm.mods[t]? = some target ∧ path.module ∈ target.names ∧
      target.exports.find? (fun exp => exp.externalKind == kind && exp.name == path.field) = some exp ∧
      Resolved vm kind t exp.externalIdx target a ∧ ImportFits mod' (vm.push modId mod') a kind i := by
  obtain ⟨t, idx, ht, hat, hfits⟩ := (linkAddr_import himp).mp haddr
  obtain ⟨mi, exp, hmi, hname, rfl, hexp⟩ := Vm.linkTarget_ok ht
  have htlt : t < vm.instances.length := by
    have hlt := (List.getElem?_eq_some_iff.mp hmi).1
    have hne := haway path t exp.externalIdx himp ht
    rw [Vm.push, List.length_append, List.length_singleton] at hlt
    omega
  have hmi' : vm.instances[t]? = some mi := by
    rw [← hmi, Vm.push, List.getElem?_append_left htlt]
  have hmod : vm.mods[t]? = some mi.mod := by
    rw [Vm.mods, List.getElem?_map, hmi']
    rfl
  have hat' : vm.addr (·.addrs kind) t exp.externalIdx = .ok a := by
    rw [← addr_pushed (e := (moduleInstNew modId mod').addrs) htlt, relink_self (push_newest vm modId mod')]
    exact hat
  have hidx : exp.externalIdx < mi.mod.space kind := by
    obtain ⟨mi0, hmi0, hentry0⟩ := Vm.addr_ok.mp hat'
    obtain rfl : mi0 = mi := Option.some.inj (hmi0.symm.trans hmi')
    rw [← (h.declared mi0 (List.mem_of_getElem? hmi0)).addrs kind]
    exact (List.getElem?_eq_some_iff.mp hentry0).1
  obtain ⟨a', hres⟩ := h.resolved t mi.mod kind exp.externalIdx hmod hidx
  obtain rfl : a' = a := Except.ok.inj (hres.entry.symm.trans hat')
  exact ⟨t, mi.mod, exp, hmod, hname, hexp, hres, hfits⟩

/-- An entry of the new instance is right: for an import, one link is enough. -/
theorem LinkedVm.newest (h : LinkedVm vm) {kind : ExternalKind} {i : ℕ} {a : Addr} (hi : i < mod'.space kind)
    (haway : LeadsAway vm.instances.length mod' (vm.push modId mod') kind i)
    (ha : (e kind)[i]? = some (some a))
    (haddr : linkAddr vm.instances.length mod' (kind, i) (vm.push modId mod') = .ok a) :
    Resolved ((vm.push modId mod').relink vm.instances.length e) kind vm.instances.length i mod' a := by
  have hentry :
      ((vm.push modId mod').relink vm.instances.length e).addr (·.addrs kind) vm.instances.length i = .ok a := by
    refine Vm.addr_ok.mpr ⟨_, Vm.inst_modifyInst_of (push_newest vm modId mod'), ?_⟩
    rw [if_pos rfl, addrs_relink]
    exact ha
  have hnew : ((vm.push modId mod').relink vm.instances.length e).mods[vm.instances.length]? = some mod' := by
    rw [mods_pushed, ← length_mods, List.getElem?_concat_length]
  cases himp : mod'.importPath kind i with
  | none =>
    rw [linkAddr_own hi himp] at haddr
    cases haddr
    exact ⟨hentry, fun _ => rfl, .own hnew hi himp, mod', hnew, hi, himp, sameType_self hi⟩
  | some path =>
    obtain ⟨t, m, exp, hmod, hname, hexp, hres, hfits⟩ := h.target himp haway haddr
    have hres' := @Resolved.pushed vm modId mod' e _ _ _ _ _ hres
    obtain ⟨target, htarget, hlt, hown, -⟩ := hres'.target
    obtain ⟨target', htarget', -, hsame⟩ := hfits.sameType (declared_pushed h.declared modId mod')
    rw [← mods_relink (k := vm.instances.length) (e := e)] at htarget'
    obtain rfl : target' = target := Option.some.inj (htarget'.symm.trans htarget)
    refine ⟨hentry, fun hnone => ?_, .follow hnew himp ?_ hname hexp hres'.resolves, target', htarget, hlt, hown, hsame⟩
    · rw [himp] at hnone
      cases hnone
    · rw [mods_pushed, List.getElem?_append_left (List.getElem?_eq_some_iff.mp hmod).1]
      exact hmod

theorem LinkedVm.linked {vm1 : Vm} (h : LinkedVm vm)
    (haway : ∀ kind i, LeadsAway vm.instances.length mod' (vm.push modId mod') kind i)
    (hlink : linkModuleInst vm.instances.length mod' (vm.push modId mod') = (.ok (), vm1)) : LinkedVm vm1 := by
  obtain ⟨e, rfl, hlen, hentries⟩ := linkModuleInst_spec (push_newest vm modId mod')
    (moduleInstNew_declared modId mod').addrs haway hlink
  constructor
  · intro mi' hmi'
    obtain ⟨j, hj⟩ := List.mem_iff_getElem?.mp hmi'
    obtain ⟨mi, hmi, rfl⟩ := Vm.inst_modifyInst hj
    have hdecl := declared_pushed h.declared modId mod' mi (List.mem_of_getElem? hmi)
    split
    · next hjn =>
      subst hjn
      obtain rfl := Option.some.inj (hmi.symm.trans (push_newest vm modId mod'))
      refine ⟨hdecl.tables, hdecl.memories, hdecl.globals, fun kind => ?_⟩
      rw [addrs_relink]
      exact hlen kind
    · exact hdecl
  · intro k m kind i hk hi
    rw [mods_pushed, List.getElem?_append] at hk
    split at hk
    · obtain ⟨a, ha⟩ := h.resolved k m kind i hk hi
      exact ⟨a, ha.pushed⟩
    · next hge =>
      have hlast := (List.getElem?_eq_some_iff.mp hk).1
      have hkn : k = vm.instances.length := by
        rw [List.length_singleton] at hlast
        rw [length_mods] at hge hlast
        omega
      obtain rfl : m = mod' := by
        exact List.mem_singleton.mp (List.mem_of_getElem? hk)
      subst hkn
      obtain ⟨a, ha, haddr⟩ := hentries kind i hi
      exact ⟨a, h.newest hi (haway kind i) ha haddr⟩

end New

/-! ### Histories -/

/-- The names of the module are those of no other instance. -/
def Call.Distinct (c : Call) : Prop :=
  ∀ mi ∈ c.before.instances, mi.modId ≠ c.modId → ∀ name ∈ c.mod.names, name ∉ mi.mod.names

/-- Every import names a module that has been instantiated. -/
def Call.Earlier (c : Call) : Prop :=
  ∀ kind i path, c.mod.importPath kind i = some path → ∃ mi ∈ c.before.instances, path.module ∈ mi.mod.names

/-- The memories that the new instance imports were large enough when it was linked, and their maximum
is not too large. -/
def Call.MemoriesFit (c : Call) : Prop :=
  ¬ c.before.Holds c.modId → ∀ i d, c.mod.memories[i]? = some d → d.linkage.imported = true →
    ∃ a t, c.after.addr (·.mAddrs) c.before.instances.length i = .ok a ∧ c.before.memory a = .ok t ∧
      d.lim.min ≤ t.mdata.length / wasmPageSize ∧ t.mem.lim.max ≤ d.lim.max

section History
variable {pf : Platform}

/-- A name that an earlier instance has is not one of the new module. -/
theorem Call.away {c : Call} (hdistinct : c.Distinct) (hearlier : c.Earlier) (hnew : ¬ c.before.Holds c.modId)
    {mod' : Module} (hp : mod'.parsed = c.mod.parsed) (kind : ExternalKind) (i : ℕ) :
    LeadsAway c.before.instances.length mod' (c.before.push c.modId mod') kind i := by
  rintro path t idx himp ht rfl
  obtain ⟨mi, exp, hmi, hname, -⟩ := Vm.linkTarget_ok ht
  obtain rfl := Option.some.inj (hmi.symm.trans (push_newest c.before c.modId mod'))
  rw [← importPath_parsed, hp, importPath_parsed] at himp
  obtain ⟨mi0, hmi0, hname0⟩ := hearlier kind i path himp
  have hname' : path.module ∈ c.mod.names := by
    rw [show c.mod.names = c.mod.parsed.names from rfl, ← hp]
    exact hname
  exact hdistinct mi0 hmi0 (fun hid => hnew ⟨mi0, hmi0, hid⟩) path.module hname' hname0

/-- The memories at link time. -/
theorem Call.memoriesFit {c : Call} {mod' : Module} {vm1 : Vm} (hl : LinkedVm c.before)
    (hp : mod'.parsed = c.mod.parsed)
    (haway : ∀ kind i, LeadsAway c.before.instances.length mod' (c.before.push c.modId mod') kind i)
    (hlink : linkModuleInst c.before.instances.length mod' (c.before.push c.modId mod') = (.ok (), vm1))
    (hshape : c.after.shape = vm1.shape) : c.MemoriesFit := by
  intro _ i d hd himported
  have hd' : mod'.memories[i]? = some d := by
    rw [show mod'.memories = mod'.parsed.memories from rfl, hp]
    exact hd
  have himp : mod'.importPath .memory i = some d.path := by
    rw [Module.importPath, hd', Option.bind_some, himported, if_pos rfl]
  obtain ⟨e, rfl, -, hentries⟩ := linkModuleInst_spec (push_newest c.before c.modId mod')
    (moduleInstNew_declared c.modId mod').addrs haway hlink
  obtain ⟨a, ha, haddr⟩ := hentries .memory i (List.getElem?_eq_some_iff.mp hd').1
  obtain ⟨t, m, exp, -, -, -, hres, hfits⟩ := hl.target himp (haway .memory i) haddr
  obtain ⟨d0, mt, hd0, hmt, hmin, hmax⟩ := hfits
  obtain rfl : d0 = d := Option.some.inj (hd0.symm.trans hd')
  refine ⟨a, mt, ?_, ?_, hmin, hmax⟩
  · rw [Vm.addr_eq_of_shape (fun _ => rfl) hshape]
    refine Vm.addr_ok.mpr ⟨_, Vm.inst_modifyInst_of (push_newest c.before c.modId mod'), ?_⟩
    rw [if_pos rfl]
    exact ha
  · obtain ⟨target, htarget, -⟩ := hres.target
    have hlt := (List.getElem?_eq_some_iff.mp htarget).1
    rw [length_mods] at hlt
    obtain ⟨mi, hmi, hmem⟩ := Vm.memory_ok.mp hmt
    rw [Vm.push, List.getElem?_append_left hlt] at hmi
    exact Vm.memory_ok.mpr ⟨mi, hmi, hmem⟩

theorem call_linked {c : Call} (h : InstCall pf c.modId c.mod c.before c.ok c.after) (hok : c.ok = true)
    (hdistinct : c.Distinct) (hearlier : c.Earlier) (hl : LinkedVm c.before) : LinkedVm c.after ∧ c.MemoriesFit := by
  rw [hok] at h
  by_cases hnew : c.before.Holds c.modId
  · rw [instCall_again h hnew]
    exact ⟨hl, fun hnot => absurd hnew hnot⟩
  · obtain ⟨mod', vm1, vm2, hval, hlink, hinit, hshape⟩ := instCall_new h hnew
    have hp := (validateFuncs_ok hval).parsed
    have hshape1 := hshape.trans (stores_shape ((moduleInstInit_stores _ _ .refl).1 _ _ hinit))
    have haway := fun kind i => Call.away hdistinct hearlier hnew hp kind i
    exact ⟨(hl.linked haway hlink).of_shape hshape1, Call.memoriesFit hl hp haway hlink hshape1⟩

theorem calls_linked {vm vm' : Vm} {calls : List Call} (hcalls : Calls pf vm calls vm') (hl : LinkedVm vm)
    (hok : ∀ c ∈ calls, c.ok = true) (hdistinct : ∀ c ∈ calls, c.Distinct) (hearlier : ∀ c ∈ calls, c.Earlier) :
    LinkedVm vm' ∧ ∀ c ∈ calls, c.MemoriesFit := by
  induction hcalls with
  | nil => exact ⟨hl, by simp⟩
  | cons h _ ih =>
    simp only [List.forall_mem_cons] at hok hdistinct hearlier
    obtain ⟨hl1, hfit⟩ := call_linked h hok.1 hdistinct.1 hearlier.1 hl
    obtain ⟨hl', hfits⟩ := ih hl1 hok.2 hdistinct.2 hearlier.2
    exact ⟨hl', List.forall_mem_cons.mpr ⟨hfit, hfits⟩⟩

end History

/-- After calls in one VM that all succeed, with distinct names and imports of earlier modules, every
entry of every instance leads to the right definition, and the imported memories fitted when they
were linked. -/
theorem calls_resolved (pf : Platform) (vm : Vm) (calls : List Call) (hcalls : Calls pf {} calls vm)
    (hok : ∀ c ∈ calls, c.ok = true) (hdistinct : ∀ c ∈ calls, c.Distinct) (hearlier : ∀ c ∈ calls, c.Earlier) :
    AllResolved vm ∧ ∀ c ∈ calls, c.MemoriesFit := by
  have hempty : LinkedVm {} := by
    refine ⟨by simp, fun k mod kind i hk => ?_⟩
    cases hk
  obtain ⟨hl, hfits⟩ := calls_linked hcalls hempty hok hdistinct hearlier
  exact ⟨hl.resolved, hfits⟩

theorem calls_resolved_memory : ∃ c c' vm, Calls idle {} [c, c'] vm ∧ c.mod = exporterModule ∧
    c'.mod = importerModule ∧ AllResolved vm ∧ ∀ x ∈ [c, c'], x.MemoriesFit := by
  have hexporter : instantiate idle 0 exporterModule {} = (.ok (some (0, none)), { instances := [
      { moduleInstNew 0 exporterModule with mAddrs := [some ⟨0, 0⟩] }] }) := by rfl
  have himporter : instantiate idle 1 importerModule { instances := [
      { moduleInstNew 0 exporterModule with state := .ready, mAddrs := [some ⟨0, 0⟩] }] } =
      (.ok (some (1, none)), { instances := [
        { moduleInstNew 0 exporterModule with state := .ready, mAddrs := [some ⟨0, 0⟩] },
        { moduleInstNew 1 importerModule with mAddrs := [some ⟨0, 0⟩] }] }) := by rfl
  have hcalls := Calls.cons (InstCall.ready hexporter) (Calls.cons (InstCall.ready himporter) Calls.nil)
  refine ⟨_, _, _, hcalls, rfl, rfl, calls_resolved idle _ _ hcalls ?_ ?_ ?_⟩
  · simp
  · simp only [List.forall_mem_cons]
    refine ⟨?_, ?_, by simp⟩
    · intro mi hmi
      cases hmi
    · intro mi hmi _ name hname
      rw [List.mem_singleton.mp hmi, List.mem_singleton.mp hname]
      decide
  · simp only [List.forall_mem_cons]
    refine ⟨?_, ?_, by simp⟩
    · intro kind i path himp
      cases kind with
      | memory => cases i <;> cases himp
      | func | table | global => cases himp
    · intro kind i path himp
      obtain ⟨-, rfl⟩ := importPath_importer himp
      exact ⟨_, List.mem_singleton_self _, List.mem_singleton_self _⟩

end Silverfir
