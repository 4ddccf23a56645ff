import Silverfir.Shape
import Silverfir.Parsed

/-! What instantiation establishes: every function of an instance is validated, and every entry of
an address table leads to a definition of the declared type. -/
namespace Silverfir

theorem mem_indexed {α : Type} {xs : List α} {x : ℕ × α} (h : x ∈ indexed xs) : xs[x.1]? = some x.2 := by
  obtain ⟨i, hi⟩ := List.mem_iff_getElem?.mp h
  rw [indexed, List.getElem?_mapIdx] at hi
  obtain ⟨y, hy, rfl⟩ := Option.map_eq_some_iff.mp hi
  exact hy

theorem funcTypeEq_iff {a b : FuncType} : funcTypeEq a b = true ↔ a = b := by
  cases a
  cases b
  simp [funcTypeEq, and_assoc]

/-- Entries of an address table lead to a target that `same` relates to the declaration. -/
def LinksTo {α β : Type} (pick : ModuleInst → List (Option Addr)) (decl : Module → List α)
    (target : Vm → Addr → R β) (same : ℕ → ℕ → Addr → α → β → Prop) (vm : Vm) : Prop :=
  ∀ k (mi : ModuleInst) i a, vm.instances[k]? = some mi → (pick mi)[i]? = some (some a) →
    ∃ d t, (decl mi.mod)[i]? = some d ∧ target vm a = .ok t ∧ same k i a d t

/-- A function is linked with a definition of its type, its own if it is no import. -/
def SameFunc (k i : ℕ) (a : Addr) (d t : Func) : Prop :=
  t.linkage.imported = false ∧ d.fnType = t.fnType ∧ (d.linkage.imported = false → a = ⟨k, i⟩)

def SameTable (_ _ : ℕ) (_ : Addr) (d : Table) (t : TableInst) : Prop := d.valtype = t.tab.valtype

def SameGlobal (_ _ : ℕ) (_ : Addr) (d : Global) (t : GlobalInst) : Prop := d.valtype = t.glob.valtype

/-- What holds of every instance by itself. -/
structure InstOk (mi : ModuleInst) : Prop where
  validated : ∀ (i : ℕ) fn, mi.mod.funcs[i]? = some fn → fn.linkage.imported = false →
    validateFunc mi.mod.parsed fn.parsed = .ok fn
  tables : mi.tables.map (·.tab) = mi.mod.tables
  globals : mi.globals.map (·.glob) = mi.mod.globals

/-- What holds of every VM. -/
structure VmOk (vm : Vm) : Prop where
  insts : ∀ mi ∈ vm.instances, InstOk mi
  funcs : LinksTo (·.fAddrs) (·.funcs) Vm.func SameFunc vm
  tables : LinksTo (·.tAddrs) (·.tables) Vm.table SameTable vm
  globals : LinksTo (·.gAddrs) (·.globals) Vm.global SameGlobal vm

theorem VmOk.empty : VmOk {} := by
  refine ⟨fun mi h => ?_, fun k mi i a h => ?_, fun k mi i a h => ?_, fun k mi i a h => ?_⟩ <;> simp at h

/-! ### Targets -/

namespace Vm

theorem func_ok {vm : Vm} {a : Addr} {fn : Func} :
    vm.func a = .ok fn ↔ ∃ mi, vm.instances[a.inst]? = some mi ∧ mi.mod.funcs[a.idx]? = some fn := by
  unfold func
  rw [← Option.bind_eq_some_iff]
  cases vm.instances[a.inst]?.bind (·.mod.funcs[a.idx]?) <;> simp

theorem table_ok {vm : Vm} {a : Addr} {t : TableInst} :
    vm.table a = .ok t ↔ ∃ mi, vm.instances[a.inst]? = some mi ∧ mi.tables[a.idx]? = some t := by
  unfold table
  rw [← Option.bind_eq_some_iff]
  cases vm.instances[a.inst]?.bind (·.tables[a.idx]?) <;> simp

theorem memory_ok {vm : Vm} {a : Addr} {m : MemoryInst} :
    vm.memory a = .ok m ↔ ∃ mi, vm.instances[a.inst]? = some mi ∧ mi.memories[a.idx]? = some m := by
  unfold memory
  rw [← Option.bind_eq_some_iff]
  cases vm.instances[a.inst]?.bind (·.memories[a.idx]?) <;> simp

theorem global_ok {vm : Vm} {a : Addr} {g : GlobalInst} :
    vm.global a = .ok g ↔ ∃ mi, vm.instances[a.inst]? = some mi ∧ mi.globals[a.idx]? = some g := by
  unfold global
  rw [← Option.bind_eq_some_iff]
  cases vm.instances[a.inst]?.bind (·.globals[a.idx]?) <;> simp

theorem addr_ok {pick : ModuleInst → List (Option Addr)} {vm : Vm} {k idx : ℕ} {a : Addr} :
    vm.addr pick k idx = .ok a ↔ ∃ mi, vm.instances[k]? = some mi ∧ (pick mi)[idx]? = some (some a) := by
  unfold addr
  rw [← Option.bind_eq_some_iff]
  split
  · next b hb => rw [hb]; simp
  · next hne =>
    constructor
    · intro h
      simp at h
    · exact fun h => absurd h (hne a)

theorem inst_modifyInst {vm : Vm} {k j : ℕ} {f : ModuleInst → ModuleInst} {mi' : ModuleInst}
    (h : (vm.modifyInst k f).instances[j]? = some mi') :
    ∃ mi, vm.instances[j]? = some mi ∧ mi' = if k = j then f mi else mi := by
  simp only [modifyInst, List.getElem?_modify] at h
  split at h
  · next he =>
    obtain ⟨mi, hmi, rfl⟩ := Option.map_eq_some_iff.mp h
    exact ⟨mi, hmi, by rw [if_pos he]⟩
  · next he =>
    obtain ⟨mi, hmi, rfl⟩ := Option.map_eq_some_iff.mp h
    exact ⟨mi, hmi, by rw [if_neg he]⟩

theorem inst_modifyInst_of {vm : Vm} {k j : ℕ} {f : ModuleInst → ModuleInst} {mi : ModuleInst}
    (h : vm.instances[j]? = some mi) : (vm.modifyInst k f).instances[j]? = some (if k = j then f mi else mi) := by
  simp only [modifyInst, List.getElem?_modify, h]
  split <;> rfl

end Vm

/-! ### Changes that keep links -/

section Changes

variable {α β : Type} {pick : ModuleInst → List (Option Addr)} {decl : Module → List α}
  {target : Vm → Addr → R β} {same : ℕ → ℕ → Addr → α → β → Prop} {vm vm' : Vm}

/-- A change of one instance that keeps its module. -/
theorem LinksTo.modify (h : LinksTo pick decl target same vm) {k : ℕ} {f : ModuleInst → ModuleInst}
    (hmod : ∀ mi, (f mi).mod = mi.mod)
    (htarget : ∀ a t, target vm a = .ok t → ∃ t', target (vm.modifyInst k f) a = .ok t' ∧
      ∀ j i d, same j i a d t → same j i a d t')
    (hpick : ∀ mi i a, vm.instances[k]? = some mi → (pick (f mi))[i]? = some (some a) →
      (pick mi)[i]? = some (some a) ∨ ∃ d t, (decl mi.mod)[i]? = some d ∧ target vm a = .ok t ∧ same k i a d t) :
    LinksTo pick decl target same (vm.modifyInst k f) := by
  intro j mi' i a hmi' ha
  obtain ⟨mi, hmi, rfl⟩ := Vm.inst_modifyInst hmi'
  have key : ∃ d t, (decl mi.mod)[i]? = some d ∧ target vm a = .ok t ∧ same j i a d t := by
    by_cases hk : k = j
    · subst hk
      rw [if_pos rfl] at ha
      rcases hpick mi i a hmi ha with hold | hnew
      · exact h k mi i a hmi hold
      · exact hnew
    · rw [if_neg hk] at ha
      exact h j mi i a hmi ha
  obtain ⟨d, t, hd, ht, hs⟩ := key
  obtain ⟨t', ht', hs'⟩ := htarget a t ht
  refine ⟨d, t', ?_, ht', hs' j i d hs⟩
  split
  · rw [hmod]
    exact hd
  · exact hd

/-- A new instance that is not linked yet. -/
theorem LinksTo.append (h : LinksTo pick decl target same vm) {new : ModuleInst}
    (htarget : ∀ a t, target vm a = .ok t → target { vm with instances := vm.instances ++ [new] } a = .ok t)
    (hpick : ∀ (i : ℕ) a, (pick new)[i]? ≠ some (some a)) :
    LinksTo pick decl target same { vm with instances := vm.instances ++ [new] } := by
  intro j mi i a hmi ha
  rw [List.getElem?_append] at hmi
  split at hmi
  · obtain ⟨d, t, hd, ht, hs⟩ := h j mi i a hmi ha
    exact ⟨d, t, hd, htarget a t ht, hs⟩
  · obtain rfl : new = mi := by
      have := List.mem_of_getElem? hmi
      exact (List.mem_singleton.mp this).symm
    exact absurd ha (hpick i a)

end Changes

/-! ### Changes of contents -/

theorem mod_of_shape {mi mi' : ModuleInst} (h : mi'.shape = mi.shape) : mi'.mod = mi.mod := by
  have := congrArg (fun m : ModuleInst => m.mod) h
  exact this

section Shape

variable {vm vm' : Vm} (hs : vm'.shape = vm.shape)
include hs

theorem inst_of_shape {k : ℕ} {mi' : ModuleInst} (h : vm'.instances[k]? = some mi') :
    ∃ mi, vm.instances[k]? = some mi ∧ mi'.shape = mi.shape := by
  have hk : vm'.shape[k]? = vm.shape[k]? := by rw [hs]
  simp only [Vm.shape, List.getElem?_map, h, Option.map_some] at hk
  obtain ⟨mi, hmi, he⟩ := Option.map_eq_some_iff.mp hk.symm
  exact ⟨mi, hmi, he.symm⟩

theorem table_of_shape {a : Addr} {t : TableInst} (h : vm.table a = .ok t) :
    ∃ t', vm'.table a = .ok t' ∧ t'.tab = t.tab := by
  obtain ⟨mi, hmi, ht⟩ := Vm.table_ok.mp h
  obtain ⟨mi', hmi', he⟩ := inst_of_shape hs.symm hmi
  have htab := congrArg (fun m : ModuleInst => m.tables[a.idx]?) he
  simp only [ModuleInst.shape, List.getElem?_map, ht, Option.map_some] at htab
  obtain ⟨t', ht', he'⟩ := Option.map_eq_some_iff.mp htab.symm
  exact ⟨t', Vm.table_ok.mpr ⟨mi', hmi', ht'⟩, (TableInst.mk.inj he').1⟩

theorem global_of_shape {a : Addr} {g : GlobalInst} (h : vm.global a = .ok g) :
    ∃ g', vm'.global a = .ok g' ∧ g'.glob = g.glob := by
  obtain ⟨mi, hmi, hg⟩ := Vm.global_ok.mp h
  obtain ⟨mi', hmi', he⟩ := inst_of_shape hs.symm hmi
  have hglob := congrArg (fun m : ModuleInst => m.globals[a.idx]?) he
  simp only [ModuleInst.shape, List.getElem?_map, hg, Option.map_some] at hglob
  obtain ⟨g', hg', he'⟩ := Option.map_eq_some_iff.mp hglob.symm
  exact ⟨g', Vm.global_ok.mpr ⟨mi', hmi', hg'⟩, (GlobalInst.mk.inj he').1⟩

theorem LinksTo.of_shape {α β : Type} {pick : ModuleInst → List (Option Addr)} {decl : Module → List α}
    {target : Vm → Addr → R β} {same : ℕ → ℕ → Addr → α → β → Prop} (h : LinksTo pick decl target same vm)
    (hpick : ∀ mi, pick mi.shape = pick mi)
    (htarget : ∀ a t, target vm a = .ok t → ∃ t', target vm' a = .ok t' ∧ ∀ j i d, same j i a d t → same j i a d t') :
    LinksTo pick decl target same vm' := by
  intro k mi' i a hmi' ha
  obtain ⟨mi, hmi, he⟩ := inst_of_shape hs hmi'
  rw [← hpick, he, hpick] at ha
  obtain ⟨d, t, hd, ht, hsame⟩ := h k mi i a hmi ha
  obtain ⟨t', ht', hs'⟩ := htarget a t ht
  have hmod := mod_of_shape he
  exact ⟨d, t', by rw [hmod]; exact hd, ht', hs' k i d hsame⟩

end Shape

theorem InstOk.of_shape {mi mi' : ModuleInst} (h : InstOk mi) (hs : mi'.shape = mi.shape) : InstOk mi' := by
  have hmod := mod_of_shape hs
  have htab := congrArg (fun m : ModuleInst => m.tables.map (·.tab)) hs
  have hglob := congrArg (fun m : ModuleInst => m.globals.map (·.glob)) hs
  simp only [ModuleInst.shape, List.map_map] at htab hglob
  refine ⟨?_, ?_, ?_⟩
  · rw [hmod]
    exact h.validated
  · rw [hmod, ← h.tables]
    exact htab
  · rw [hmod, ← h.globals]
    exact hglob

/-- Contents do not matter. -/
theorem VmOk.of_shape {vm vm' : Vm} (h : VmOk vm) (hs : vm'.shape = vm.shape) : VmOk vm' where
  insts mi' hmi' := by
    obtain ⟨k, hk⟩ := List.mem_iff_getElem?.mp hmi'
    obtain ⟨mi, hmi, he⟩ := inst_of_shape hs hk
    exact (h.insts mi (List.mem_of_getElem? hmi)).of_shape he
  funcs := h.funcs.of_shape hs (fun _ => rfl) fun a t ht =>
    ⟨t, by rw [Vm.func_eq_of_shape hs]; exact ht, fun _ _ _ => id⟩
  tables := h.tables.of_shape hs (fun _ => rfl) fun a t ht => by
    obtain ⟨t', ht', he⟩ := table_of_shape hs ht
    refine ⟨t', ht', fun j i d hsame => ?_⟩
    rw [SameTable, he]
    exact hsame
  globals := h.globals.of_shape hs (fun _ => rfl) fun a g hg => by
    obtain ⟨g', hg', he⟩ := global_of_shape hs hg
    refine ⟨g', hg', fun j i d hsame => ?_⟩
    rw [SameGlobal, he]
    exact hsame

/-! ### Linking -/

theorem linkImport_ok {kind : ExternalKind} {pick : ModuleInst → List (Option Addr)} {notFound : String}
    {check : Vm → Addr → R Unit} {path : ImportPath} {vm : Vm} {a : Addr}
    (h : linkImport kind pick notFound check path vm = .ok a) :
    ∃ k idx, vm.addr pick k idx = .ok a ∧ check vm a = .ok () := by
  unfold linkImport at h
  split at h
  · simp at h
  · next target _ =>
    obtain ⟨mi, -, h⟩ := bind_eq_ok.mp h
    split at h
    · simp at h
    · next exp _ =>
      obtain ⟨a', ha', h⟩ := bind_eq_ok.mp h
      obtain ⟨⟨⟩, hc, h⟩ := bind_eq_ok.mp h
      cases h
      exact ⟨target, exp.externalIdx, ha', hc⟩

/-- A VM in the middle of linking instance `k` of module `mod`. -/
structure Linking (k : ℕ) (mod : Module) (vm : Vm) : Prop where
  ok : VmOk vm
  inst : ∃ mi, vm.instances[k]? = some mi ∧ mi.mod = mod

/-- One entry of an address table is linked. -/
theorem linkEntry_linking {α β : Type} {k : ℕ} {mod : Module} {linkage : α → Linkage} {link : α → Vm → R Addr}
    {put : ℕ → Addr → ModuleInst → ModuleInst} {x : ℕ × α} (target : Vm → Addr → R β)
    (same : ℕ → ℕ → Addr → α → β → Prop)
    (hown : ∀ vm, Linking k mod vm → (linkage x.2).imported = false →
      ∃ t, target vm ⟨k, x.1⟩ = .ok t ∧ same k x.1 ⟨k, x.1⟩ x.2 t)
    (hlink : ∀ vm a, Linking k mod vm → (linkage x.2).imported = true → link x.2 vm = .ok a →
      ∃ t, target vm a = .ok t ∧ same k x.1 a x.2 t)
    (hput : ∀ vm a t, Linking k mod vm → target vm a = .ok t → same k x.1 a x.2 t →
      Linking k mod (vm.modifyInst k (put x.1 a))) :
    Eff.Triple (Linking k mod) (linkEntry k linkage link put x) (fun _ => Linking k mod) (Linking k mod) := by
  refine .bind (Q := fun a vm => Linking k mod vm ∧ ∃ t, target vm a = .ok t ∧ same k x.1 a x.2 t)
    (.read (fun vm a hvm ha => ⟨hvm, ?_⟩) fun _ hvm => hvm) fun a => .modify fun vm hvm => ?_
  · split at ha
    · next himp =>
      cases ha
      exact hown vm hvm (by simpa using himp)
    · next himp => exact hlink vm a hvm (by simpa using himp) ha
  · obtain ⟨hvm, t, ht, hs⟩ := hvm
    exact hput vm a t hvm ht hs

/-- Setting an entry of an address table. -/
theorem mem_set {α : Type} {xs : List (Option α)} {i j : ℕ} {a b : α}
    (h : (xs.set i (some a))[j]? = some (some b)) : xs[j]? = some (some b) ∨ (j = i ∧ b = a) := by
  rw [List.getElem?_set] at h
  split at h
  · next he =>
    split at h
    · cases h
      exact .inr ⟨he.symm, rfl⟩
    · cases h
  · exact .inl h

/-- A change of an instance that keeps its module, its tables and its globals. -/
structure KeepsDefs (f : ModuleInst → ModuleInst) : Prop where
  mod : ∀ mi, (f mi).mod = mi.mod
  tables : ∀ mi, (f mi).tables = mi.tables
  globals : ∀ mi, (f mi).globals = mi.globals

section KeepsDefs

variable {f : ModuleInst → ModuleInst} (hf : KeepsDefs f) {vm : Vm} {k : ℕ}
include hf

theorem KeepsDefs.func {a : Addr} {fn : Func} (h : vm.func a = .ok fn) : (vm.modifyInst k f).func a = .ok fn := by
  obtain ⟨mi, hmi, hfn⟩ := Vm.func_ok.mp h
  refine Vm.func_ok.mpr ⟨_, Vm.inst_modifyInst_of hmi, ?_⟩
  split
  · rw [hf.mod]
    exact hfn
  · exact hfn

theorem KeepsDefs.table {a : Addr} {t : TableInst} (h : vm.table a = .ok t) :
    (vm.modifyInst k f).table a = .ok t := by
  obtain ⟨mi, hmi, ht⟩ := Vm.table_ok.mp h
  refine Vm.table_ok.mpr ⟨_, Vm.inst_modifyInst_of hmi, ?_⟩
  split
  · rw [hf.tables]
    exact ht
  · exact ht

theorem KeepsDefs.global {a : Addr} {g : GlobalInst} (h : vm.global a = .ok g) :
    (vm.modifyInst k f).global a = .ok g := by
  obtain ⟨mi, hmi, hg⟩ := Vm.global_ok.mp h
  refine Vm.global_ok.mpr ⟨_, Vm.inst_modifyInst_of hmi, ?_⟩
  split
  · rw [hf.globals]
    exact hg
  · exact hg

theorem KeepsDefs.insts (h : VmOk vm) : ∀ mi ∈ (vm.modifyInst k f).instances, InstOk mi := by
  intro mi' hmi'
  obtain ⟨j, hj⟩ := List.mem_iff_getElem?.mp hmi'
  obtain ⟨mi, hmi, rfl⟩ := Vm.inst_modifyInst hj
  have hok := h.insts mi (List.mem_of_getElem? hmi)
  split
  · refine ⟨?_, ?_, ?_⟩
    · rw [hf.mod]
      exact hok.validated
    · rw [hf.mod, hf.tables]
      exact hok.tables
    · rw [hf.mod, hf.globals]
      exact hok.globals
  · exact hok

/-- The entries of one table can be set to linked targets while the others stay. -/
theorem KeepsDefs.linking {mod : Module} (h : Linking k mod vm)
    (hfs : ∀ mi (i : ℕ) a, mi.mod = mod → (f mi).fAddrs[i]? = some (some a) → mi.fAddrs[i]? = some (some a) ∨
      ∃ d t, mod.funcs[i]? = some d ∧ vm.func a = .ok t ∧ SameFunc k i a d t)
    (hts : ∀ mi (i : ℕ) a, mi.mod = mod → (f mi).tAddrs[i]? = some (some a) → mi.tAddrs[i]? = some (some a) ∨
      ∃ d t, mod.tables[i]? = some d ∧ vm.table a = .ok t ∧ SameTable k i a d t)
    (hgs : ∀ mi (i : ℕ) a, mi.mod = mod → (f mi).gAddrs[i]? = some (some a) → mi.gAddrs[i]? = some (some a) ∨
      ∃ d t, mod.globals[i]? = some d ∧ vm.global a = .ok t ∧ SameGlobal k i a d t) :
    Linking k mod (vm.modifyInst k f) := by
  obtain ⟨mi0, hmi0, rfl⟩ := h.inst
  have hk : ∀ mi, vm.instances[k]? = some mi → mi.mod = mi0.mod := by
    intro mi hmi
    rw [hmi0] at hmi
    cases hmi
    rfl
  refine ⟨⟨hf.insts h.ok, ?_, ?_, ?_⟩, _, Vm.inst_modifyInst_of hmi0, ?_⟩
  · refine h.ok.funcs.modify hf.mod (fun a t ht => ⟨t, hf.func ht, fun _ _ _ => id⟩) fun mi i a hmi ha => ?_
    rw [hk mi hmi]
    exact hfs mi i a (hk mi hmi) ha
  · refine h.ok.tables.modify hf.mod (fun a t ht => ⟨t, hf.table ht, fun _ _ _ => id⟩) fun mi i a hmi ha => ?_
    rw [hk mi hmi]
    exact hts mi i a (hk mi hmi) ha
  · refine h.ok.globals.modify hf.mod (fun a t ht => ⟨t, hf.global ht, fun _ _ _ => id⟩) fun mi i a hmi ha => ?_
    rw [hk mi hmi]
    exact hgs mi i a (hk mi hmi) ha
  · rw [if_pos rfl, hf.mod]

end KeepsDefs

section Link

variable {k : ℕ} {mod : Module}

theorem linkFunc_linking {x : ℕ × Func} (hx : mod.funcs[x.1]? = some x.2) :
    Eff.Triple (Linking k mod) (linkEntry k (·.linkage) linkFunc putFAddr x) (fun _ => Linking k mod)
      (Linking k mod) := by
  refine linkEntry_linking Vm.func SameFunc (fun vm h himp => ?_) (fun vm a h himp ha => ?_) fun vm a t h ht hs => ?_
  · obtain ⟨mi, hmi, rfl⟩ := h.inst
    exact ⟨x.2, Vm.func_ok.mpr ⟨mi, hmi, hx⟩, himp, rfl, fun _ => rfl⟩
  · obtain ⟨j, idx, hj, hc⟩ := linkImport_ok ha
    obtain ⟨t, ht, hc⟩ := bind_eq_ok.mp hc
    have heq : funcTypeEq x.2.fnType t.fnType = true := by simpa using (guard_eq_ok.mp hc).1
    obtain ⟨mi, hmi, ha'⟩ := Vm.addr_ok.mp hj
    obtain ⟨d, t', -, ht', hdef, -⟩ := h.ok.funcs j mi idx a hmi ha'
    obtain rfl : t = t' := Except.ok.inj (ht.symm.trans ht')
    refine ⟨t, ht, hdef, funcTypeEq_iff.mp heq, fun hno => ?_⟩
    rw [himp] at hno
    cases hno
  · have hkeep : KeepsDefs (putFAddr x.1 a) := ⟨fun _ => rfl, fun _ => rfl, fun _ => rfl⟩
    refine hkeep.linking h (fun mi i b _ hb => ?_) (fun _ _ _ _ hb => .inl hb) fun _ _ _ _ hb => .inl hb
    rcases mem_set hb with hold | ⟨rfl, rfl⟩
    · exact .inl hold
    · exact .inr ⟨x.2, t, hx, ht, hs⟩

theorem linkGlobal_linking {x : ℕ × Global} (hx : mod.globals[x.1]? = some x.2) :
    Eff.Triple (Linking k mod) (linkEntry k (·.linkage) linkGlobal putGAddr x) (fun _ => Linking k mod)
      (Linking k mod) := by
  refine linkEntry_linking Vm.global SameGlobal (fun vm h himp => ?_)
    (fun vm a h himp ha => ?_) fun vm a t h ht hs => ?_
  · obtain ⟨mi, hmi, rfl⟩ := h.inst
    have hown := (h.ok.insts mi (List.mem_of_getElem? hmi)).globals
    rw [← hown, List.getElem?_map] at hx
    obtain ⟨g, hg, he⟩ := Option.map_eq_some_iff.mp hx
    exact ⟨g, Vm.global_ok.mpr ⟨mi, hmi, hg⟩, by rw [SameGlobal, he]⟩
  · obtain ⟨j, idx, -, hc⟩ := linkImport_ok ha
    obtain ⟨t, ht, hc⟩ := bind_eq_ok.mp hc
    have heq := (guard_eq_ok.mp (guard_eq_ok.mp hc).2).1
    exact ⟨t, ht, (not_not.mp heq).symm⟩
  · have hkeep : KeepsDefs (putGAddr x.1 a) := ⟨fun _ => rfl, fun _ => rfl, fun _ => rfl⟩
    refine hkeep.linking h (fun _ _ _ _ hb => .inl hb) (fun _ _ _ _ hb => .inl hb) fun mi i b _ hb => ?_
    rcases mem_set hb with hold | ⟨rfl, rfl⟩
    · exact .inl hold
    · exact .inr ⟨x.2, t, hx, ht, hs⟩

/-- Nothing is asked of the memories. -/
theorem linkMemory_linking (x : ℕ × Memory) :
    Eff.Triple (Linking k mod) (linkEntry k (·.linkage) linkMemory putMAddr x) (fun _ => Linking k mod)
      (Linking k mod) := by
  refine linkEntry_linking (fun _ _ => .ok ()) (fun _ _ _ _ _ => True) (fun _ _ _ => ⟨(), rfl, trivial⟩)
    (fun _ _ _ _ _ => ⟨(), rfl, trivial⟩) fun vm a t h _ _ => ?_
  have hkeep : KeepsDefs (putMAddr x.1 a) := ⟨fun _ => rfl, fun _ => rfl, fun _ => rfl⟩
  exact hkeep.linking h (fun _ _ _ _ hb => .inl hb) (fun _ _ _ _ hb => .inl hb) fun _ _ _ _ hb => .inl hb

theorem linkTable_linking {x : ℕ × Table} (hx : mod.tables[x.1]? = some x.2) :
    Eff.Triple (Linking k mod) (linkEntry k (·.linkage) linkTable putTAddr x) (fun _ => Linking k mod)
      (Linking k mod) := by
  refine linkEntry_linking Vm.table SameTable (fun vm h himp => ?_) (fun vm a h himp ha => ?_) fun vm a t h ht hs => ?_
  · obtain ⟨mi, hmi, rfl⟩ := h.inst
    have hown := (h.ok.insts mi (List.mem_of_getElem? hmi)).tables
    rw [← hown, List.getElem?_map] at hx
    obtain ⟨t, ht, he⟩ := Option.map_eq_some_iff.mp hx
    exact ⟨t, Vm.table_ok.mpr ⟨mi, hmi, ht⟩, by rw [SameTable, he]⟩
  · obtain ⟨j, idx, -, hc⟩ := linkImport_ok ha
    obtain ⟨t, ht, hc⟩ := bind_eq_ok.mp hc
    exact ⟨t, ht, not_not.mp (guard_eq_ok.mp hc).1⟩
  · have hkeep : KeepsDefs (putTAddr x.1 a) := ⟨fun _ => rfl, fun _ => rfl, fun _ => rfl⟩
    refine hkeep.linking h (fun _ _ _ _ hb => .inl hb) (fun mi i b _ hb => ?_) fun _ _ _ _ hb => .inl hb
    rcases mem_set hb with hold | ⟨rfl, rfl⟩
    · exact .inl hold
    · exact .inr ⟨x.2, t, hx, ht, hs⟩

/-- Linking keeps the VM in order, and a failure leaves it so. -/
theorem linkModuleInst_linking :
    Eff.Triple (Linking k mod) (linkModuleInst k mod) (fun _ => Linking k mod) (Linking k mod) :=
  .bind (.each fun _ hx => linkFunc_linking (mem_indexed hx)) fun _ =>
    .bind (.each fun _ hx => linkGlobal_linking (mem_indexed hx)) fun _ =>
      .bind (.each fun x _ => linkMemory_linking x) fun _ =>
        .each fun _ hx => linkTable_linking (mem_indexed hx)

end Link

/-! ### Instantiation -/

section Instantiate

variable {pf : Platform}

theorem VmOk.append {vm : Vm} (h : VmOk vm) {modId : ℕ} {mod : Module}
    (hval : ∀ (i : ℕ) fn, mod.funcs[i]? = some fn → fn.linkage.imported = false →
      validateFunc mod.parsed fn.parsed = .ok fn) :
    Linking vm.instances.length mod { vm with instances := vm.instances ++ [moduleInstNew modId mod] } := by
  have hold : ∀ {j : ℕ} {mi : ModuleInst}, vm.instances[j]? = some mi →
      (vm.instances ++ [moduleInstNew modId mod])[j]? = some mi := by
    intro j mi hj
    rw [List.getElem?_append_left (List.getElem?_eq_some_iff.mp hj).1]
    exact hj
  have hnone : ∀ {n i : ℕ} {a : Addr}, (List.replicate n (none : Option Addr))[i]? ≠ some (some a) := by
    intro n i a he
    have := List.eq_of_mem_replicate (List.mem_of_getElem? he)
    cases this
  refine ⟨⟨?_, ?_, ?_, ?_⟩, moduleInstNew modId mod, ?_, rfl⟩
  · intro mi hmi
    rcases List.mem_append.mp hmi with hmi | hmi
    · exact h.insts mi hmi
    · obtain rfl := List.mem_singleton.mp hmi
      refine ⟨hval, ?_, ?_⟩
      · simp only [moduleInstNew]
        apply List.ext_getElem?
        intro i
        rw [List.getElem?_map, List.getElem?_mapIdx]
        cases mod.tables[i]? <;> rfl
      · simp only [moduleInstNew, List.map_map]
        exact List.map_id _
  · refine h.funcs.append (fun a t ht => ?_) fun i a => hnone
    obtain ⟨mi, hmi, hfn⟩ := Vm.func_ok.mp ht
    exact Vm.func_ok.mpr ⟨mi, hold hmi, hfn⟩
  · refine h.tables.append (fun a t ht => ?_) fun i a => hnone
    obtain ⟨mi, hmi, htab⟩ := Vm.table_ok.mp ht
    exact Vm.table_ok.mpr ⟨mi, hold hmi, htab⟩
  · refine h.globals.append (fun a t ht => ?_) fun i a => hnone
    obtain ⟨mi, hmi, hg⟩ := Vm.global_ok.mp ht
    exact Vm.global_ok.mpr ⟨mi, hold hmi, hg⟩
  · simp

/-- Instantiation keeps the VM in order, whether it succeeds or not. -/
theorem instantiate_ok {modId : ℕ} {mod : Module} (hfresh : mod.Fresh) :
    Eff.Triple VmOk (instantiate pf modId mod) (fun _ => VmOk) VmOk := by
  intro vm hvm
  have key : Eff.Triple (fun s => s = vm) (instantiate pf modId mod) (fun _ => VmOk) VmOk := by
    refine .bind (Q := fun a s => s = vm ∧ a = vm) ?_ fun a => .ite (fun _ => ?_) fun _ => ?_
    · intro s hs
      subst hs
      refine ⟨fun a s' h => ?_, fun e s' h => ?_⟩
      · cases h
        exact ⟨rfl, rfl⟩
      · cases h
    · exact .pure fun s hs => hs.1 ▸ hvm
    · refine .bind (Q := fun mod' s => s = vm ∧ a = vm ∧ validateFuncs mod.funcs.length mod = .ok mod')
        (.lift (fun s mod' hs hval => ⟨hs.1, hs.2, hval⟩) fun s hs => hs.1 ▸ hvm) fun mod' => ?_
      refine .bind (Q := fun _ s => Linking a.instances.length mod' s) (.modify fun s hs => ?_) fun _ => ?_
      · obtain ⟨rfl, rfl, hval⟩ := hs
        exact hvm.append fun i fn hfn himp => validateFuncs_fresh hfresh hval hfn himp
      · have hlink := @linkModuleInst_linking a.instances.length mod'
        refine .bind (Q := fun _ => Linking a.instances.length mod') ?_ fun _ => ?_
        · intro s hs
          exact ⟨(hlink s hs).1, fun e s' h => ((hlink s hs).2 e s' h).ok⟩
        · refine .bind (Q := fun _ => VmOk) ?_ fun _ => .pure fun _ hs => hs
          intro s hs
          have hinit := @moduleInstInit_stores pf a.instances.length s mod' s .refl
          exact ⟨fun _ s' h => hs.ok.of_shape (stores_shape (hinit.1 _ s' h)),
            fun e s' h => hs.ok.of_shape (stores_shape (hinit.2 e s' h))⟩
  exact key vm rfl

end Instantiate

end Silverfir
