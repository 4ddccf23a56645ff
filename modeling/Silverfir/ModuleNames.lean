import Silverfir.RefCounts
import Mathlib.Data.List.Pairwise

/-! The names of the modules of a runtime, and the two ways to look a name up. -/
namespace Silverfir

open Relation (ReflTransGen)

/-! ### Registered names -/

/-- `module_register_name` writes to the module, and all instances point to it. -/
def Module.register (name : Str) (mod : Module) : Module := { mod with names := mod.names ++ [name] }

def RtModule.register (id : ℕ) (name : Str) (m : RtModule) : RtModule :=
  if m.id = id then { m with mod := m.mod.register name } else m

def ModuleInst.register (id : ℕ) (name : Str) (mi : ModuleInst) : ModuleInst :=
  if mi.modId = id then { mi with mod := mi.mod.register name } else mi

def RtVm.register (id : ℕ) (name : Str) (v : RtVm) : RtVm :=
  { v with sys := { v.sys with vm := { v.sys.vm with instances := v.sys.vm.instances.map (·.register id name) } } }

namespace Runtime
variable (rt : Runtime)

/-- `module_register_name`, for a module of the runtime; `fails` when the vector cannot grow. -/
def registerName (fails : Bool) (id : ℕ) (name : Str) : R Runtime :=
  match rt.modules.find? (·.id == id) with
  | none => undef "pointer"
  | some m =>
    if m.mod.names = [] then undef "assert(vec_size_vstr(&mod->names))"
    else if fails then err .general "vector: out of memory"
    else .ok { modules := rt.modules.map (·.register id name), vms := rt.vms.map (·.register id name) }

/-- `runtime_module_find`: the first module with the name. -/
def moduleFind (name : Str) : Option RtModule := rt.modules.find? fun m => m.mod.names.contains name

end Runtime

/-! ### Operations -/

/-- An operation on a runtime, or one step of what runs in one of its VMs. -/
inductive RtOp where
  | moduleAdd (alloc : Alloc) (id : ℕ) (bin name : Str)
  | moduleAddMod (alloc : Alloc) (id : ℕ) (mod : Module)
  | moduleDrop (id : ℕ)
  | registerName (fails : Bool) (id : ℕ) (name : Str)
  | vmNew (alloc : Alloc) (id : ℕ)
  | vmDrop (id : ℕ)
  | instantiate (alloc : Alloc) (left : Module) (i id : ℕ)
  | vm (i : ℕ) (s : System)

/-- A module that is added has an address of its own, and a validation that fails writes to the functions
of the module only. -/
inductive RtOp.Step (pf : Platform) : RtOp → Runtime → Runtime → Prop
  | moduleAdd {rt rt' alloc id bin name} (hid : ∀ m ∈ rt.modules, m.id ≠ id)
      (h : rt.after (rt.moduleAdd alloc id bin name) = some rt') : Step pf (.moduleAdd alloc id bin name) rt rt'
  | moduleAddMod {rt rt' alloc id mod} (hid : ∀ m ∈ rt.modules, m.id ≠ id)
      (h : rt.after (rt.moduleAddMod alloc id mod) = some rt') : Step pf (.moduleAddMod alloc id mod) rt rt'
  | moduleDrop {rt rt' id} (h : rt.after (rt.moduleDrop id) = some rt') : Step pf (.moduleDrop id) rt rt'
  | registerName {rt rt' fails id name} (h : rt.after (rt.registerName fails id name) = some rt') :
      Step pf (.registerName fails id name) rt rt'
  | vmNew {rt rt' alloc id} (hid : ∀ v ∈ rt.vms, v.id ≠ id) (h : rt.after (rt.vmNew alloc id) = some rt') :
      Step pf (.vmNew alloc id) rt rt'
  | vmDrop {rt rt' id} (h : rt.after (rt.vmDrop id) = some rt') : Step pf (.vmDrop id) rt rt'
  | instantiate {rt rt' v alloc left i id} (hv : rt.vms[i]? = some v) (hidle : v.sys.running = none)
      (hleft : ∀ m, rt.modules.find? (·.id == id) = some m → left.parsed = m.mod.parsed)
      (h : rt.after (rt.instantiate pf alloc left i id) = some rt') : Step pf (.instantiate alloc left i id) rt rt'
  | vm {rt v s i} (hv : rt.vms[i]? = some v) (h : SysStep pf (fun _ => False) v.sys s) :
      Step pf (.vm i s) rt { rt with vms := rt.vms.set i { v with sys := s } }

/-- No other module has the name that is registered, and a module whose count is 0 has no instances when it is
dropped: the count has not wrapped. -/
def RtOp.Unambiguous (rt : Runtime) : RtOp → Prop
  | .registerName _ id name => ∀ m ∈ rt.modules, m.id ≠ id → name ∉ m.mod.names
  | .moduleDrop id => ∀ m, rt.modules.find? (·.id == id) = some m → m.refCount = 0 → id ∉ rt.records
  | _ => True

/-- The runs in which every operation is one of these. -/
def NameRun (pf : Platform) : Runtime → Prop :=
  ReflTransGen (fun rt rt' => ∃ op : RtOp, op.Step pf rt rt' ∧ op.Unambiguous rt) {}

/-! ### Labels -/

/-- What a lookup sees of a module: its address and its names. -/
abbrev Label := ℕ × List Str

def RtModule.label (m : RtModule) : Label := (m.id, m.mod.names)

def ModuleInst.label (mi : ModuleInst) : Label := (mi.modId, mi.mod.names)

def Vm.labels (vm : Vm) : List Label := vm.instances.map (·.label)

section Labels
variable {pf : Platform} {vm vm' : Vm}

theorem Vm.labels_of_shape (h : vm'.shape = vm.shape) : vm'.labels = vm.labels := by
  have hlabels : ∀ w : Vm, w.labels = w.shape.map (·.label) := by
    intro w
    rw [shape, List.map_map]
    rfl
  rw [hlabels, hlabels, h]

theorem names_of_parsed {mod mod' : Module} (h : mod'.parsed = mod.parsed) : mod'.names = mod.names := by
  change mod'.parsed.names = mod.parsed.names
  rw [h]

theorem linked_labels {modId : ℕ} {mod' : Module} {vm1 : Vm} {res : Except Fault Unit}
    (hlink : linkModuleInst vm.instances.length mod' (vm.push modId mod') = (res, vm1)) :
    vm1.labels = vm.labels ++ [(modId, mod'.names)] := by
  obtain ⟨e, rfl⟩ := linkModuleInst_relinks (push_newest vm modId mod') hlink
  have hlabel : ∀ mi : ModuleInst, (mi.relink e).label = mi.label := fun _ => rfl
  have hrelink : ((vm.push modId mod').relink vm.instances.length e).labels = (vm.push modId mod').labels :=
    ListStack.map_modify hlabel _ _
  rw [hrelink, Vm.labels, Vm.push, List.map_append]
  rfl

/-- An instantiation leaves at most one more instance, which has the label of its module. -/
theorem instantiateStep_labels {modId : ℕ} {mod : Module} {s : System} (h : instantiateStep pf vm modId mod = .ok s) :
    s.vm.labels = vm.labels ∨ s.vm.labels = vm.labels ++ [(modId, mod.names)] := by
  rw [Vm.labels_of_shape (instantiateStep_shape h)]
  have hnames : ∀ {mod'}, validateFuncs mod.funcs.length mod = .ok mod' → mod'.names = mod.names := fun hval =>
    names_of_parsed (validateFuncs_ok hval).parsed
  have hphases := instantiate_phases pf modId mod vm
  generalize (instantiate pf modId mod vm).1 = res, (instantiate pf modId mod vm).2 = vm' at hphases
  cases hphases with
  | known => exact Or.inl rfl
  | invalid => exact Or.inl rfl
  | unlinked _ hval hlink =>
    rw [linked_labels hlink, hnames hval]
    exact Or.inr rfl
  | uninitialized _ hval hlink hinit =>
    rw [Vm.labels_of_shape (stores_shape ((moduleInstInit_stores _ _ .refl).2 _ _ hinit)),
      linked_labels hlink, hnames hval]
    exact Or.inr rfl
  | done _ hval hlink hinit =>
    rw [Vm.labels_of_shape (stores_shape ((moduleInstInit_stores _ _ .refl).1 _ _ hinit)),
      linked_labels hlink, hnames hval]
    exact Or.inr rfl

theorem abort_shape (vm : Vm) (r : Running) : (abort vm r).vm.shape = vm.shape := by
  unfold abort
  split
  · rfl
  · exact Vm.shape_withState vm _ _

theorem sysStep_labels {s s' : System} (h : SysStep pf (fun _ => False) s s') : s'.vm.labels = s.vm.labels := by
  cases h with
  | run h => exact Vm.labels_of_shape (runStep_shape h)
  | invoke | reset => rfl
  | instantiate hm => exact hm.elim

/-- The label of the module stays, and the VM gets an instance with this label, or none. -/
theorem vmInstantiateModule_labels {alloc : Alloc} {left : Module} {m m' : RtModule} {s : System}
    (hleft : left.parsed = m.mod.parsed) (h : vmInstantiateModule pf alloc left vm m = .ok (s, m')) :
    m'.label = m.label ∧ (s.vm.labels = vm.labels ∨ s.vm.labels = vm.labels ++ [m.label]) := by
  have hnames : left.names = m.mod.names := names_of_parsed hleft
  have hlabel : ({ m with mod := left } : RtModule).label = m.label := by rw [RtModule.label, RtModule.label, hnames]
  rw [vmInstantiateModule] at h
  split at h
  · cases h
    exact ⟨rfl, Or.inl rfl⟩
  · split at h
    · cases h
      exact ⟨hlabel, Or.inl rfl⟩
    · split at h
      · simp at h
      · cases h
        exact ⟨hlabel, Or.inl rfl⟩
      · next mod hval =>
        have hmod : ({ m with mod := mod } : RtModule).label = m.label := by
          have hkept : mod.names = m.mod.names := names_of_parsed (validateFuncs_ok hval).parsed
          rw [RtModule.label, RtModule.label, hkept]
        dsimp only at h
        split at h
        · obtain ⟨dropped, hrel, h⟩ := bind_eq_ok.mp h
          cases h
          rw [RtModule.release] at hrel
          split at hrel
          · simp at hrel
          · cases hrel
            exact ⟨hmod, Or.inl rfl⟩
        · obtain ⟨s1, hstep, h⟩ := bind_eq_ok.mp h
          have hlabels := instantiateStep_labels hstep
          split at h
          · cases h
            refine ⟨hmod, ?_⟩
            split
            · rw [Vm.labels_of_shape (abort_shape _ _)]
              exact hlabels
            · exact hlabels
          · cases h
            exact ⟨hmod, hlabels⟩

/-- Work on a module that keeps its label. -/
theorem atModule_labels {id : ℕ} {f : RtModule → R RtModule} {ms ms' : List RtModule}
    (hf : ∀ m m', m ∈ ms → m.id = id → f m = .ok m' → m'.label = m.label) (h : atModule id f ms = .ok ms') :
    ms'.map (·.label) = ms.map (·.label) := by
  induction ms generalizing ms' with
  | nil => simp [atModule] at h
  | cons m ms ih =>
    rw [atModule] at h
    split at h
    · next hid =>
      obtain ⟨m', hm', h⟩ := bind_eq_ok.mp h
      cases h
      rw [List.map_cons, List.map_cons, hf m m' List.mem_cons_self hid hm']
    · obtain ⟨ms1, hms1, h⟩ := bind_eq_ok.mp h
      cases h
      rw [List.map_cons, List.map_cons, ih (fun x x' hx => hf x x' (List.mem_cons_of_mem _ hx)) hms1]

theorem vmDrop_labels {mis : List ModuleInst} {ms ms' : List RtModule} (h : vmDrop mis ms = .ok ms') :
    ms'.map (·.label) = ms.map (·.label) := by
  induction mis generalizing ms with
  | nil =>
    cases h
    rfl
  | cons mi rest ih =>
    obtain ⟨ms1, hat, h⟩ := bind_eq_ok.mp h
    rw [ih h]
    refine atModule_labels (fun m m' _ _ hm' => ?_) hat
    rw [RtModule.release] at hm'
    split at hm'
    · simp at hm'
    · cases hm'
      rfl

end Labels

/-! ### The invariant -/

/-- Two modules have no name in common. -/
def RtModule.Apart (m m' : RtModule) : Prop := ∀ name ∈ m.mod.names, name ∉ m'.mod.names

instance : Std.Symm RtModule.Apart where
  symm _ _ h name hname hname' := h name hname' hname

namespace Runtime
variable {pf : Platform} {rt rt' : Runtime}

/-- The modules have different addresses and no name in common, and every instance is of one of them. -/
structure Named (rt : Runtime) : Prop where
  ids : (rt.modules.map (·.id)).Nodup
  apart : rt.modules.Pairwise RtModule.Apart
  owned : ∀ v ∈ rt.vms, ∀ x ∈ v.sys.vm.labels, x ∈ rt.modules.map (·.label)

/-- The labels of the modules are all that matters. -/
theorem Named.of_labels (h : rt.Named) {ms : List RtModule} {vms : List RtVm}
    (hms : ms.map (·.label) = rt.modules.map (·.label))
    (hvms : ∀ v ∈ vms, ∀ x ∈ v.sys.vm.labels, x ∈ rt.modules.map (·.label)) : Named { modules := ms, vms := vms } where
  ids := by
    have hids : ∀ l : List RtModule, l.map (·.id) = (l.map (·.label)).map Prod.fst := fun l => by
      rw [List.map_map]
      rfl
    rw [hids, hms, ← hids]
    exact h.ids
  apart := by
    have hapart : ∀ l : List RtModule, l.Pairwise RtModule.Apart ↔
        (l.map (·.label)).Pairwise fun x y => ∀ name ∈ x.2, name ∉ y.2 := fun l => by
      rw [List.pairwise_map]
      rfl
    rw [hapart, hms, ← hapart]
    exact h.apart
  owned v hv x hx := by
    rw [hms]
    exact hvms v hv x hx

theorem listPush_ok {α : Type} {alloc : Alloc} {xs ys : List α} {x : α} (h : listPush alloc xs x = .ok ys) :
    ys = xs ++ [x] := by
  rw [listPush] at h
  split at h
  · simp at h
  · cases h
    rfl

/-- A module is added when no name of it is taken. -/
theorem moduleAddMod_ok {alloc : Alloc} {id : ℕ} {mod : Module} (h : rt.moduleAddMod alloc id mod = .ok rt') :
    (∀ m ∈ rt.modules, ∀ name ∈ m.mod.names, name ∉ mod.names) ∧
      rt' = { rt with modules := rt.modules ++ [{ id := id, mod := mod }] } := by
  rw [moduleAddMod] at h
  split at h
  · simp at h
  · next hnone =>
    obtain ⟨modules, hpush, h⟩ := bind_eq_ok.mp h
    cases h
    rw [listPush_ok hpush]
    refine ⟨fun m hm name hname hmem => hnone ?_, rfl⟩
    exact List.any_eq_true.mpr ⟨m, hm, List.any_eq_true.mpr ⟨name, hname, List.contains_iff_mem.mpr hmem⟩⟩

theorem moduleAdd_addMod {alloc : Alloc} {id : ℕ} {bin name : Str} (h : rt.moduleAdd alloc id bin name = .ok rt') :
    ∃ mod, rt.moduleAddMod alloc id mod = .ok rt' := by
  have htemp : ∀ {m : RtModule} {x : R Runtime}, dropTemporary m x = .ok rt' → x = .ok rt' := by
    intro m x hx
    unfold dropTemporary at hx
    split at hx
    · exact hx
    · split at hx
      · cases hx
      · simp at hx
  rw [Runtime.moduleAdd] at h
  split at h
  · exact absurd (htemp h) (err_ne_ok _ _ _)
  · split at h
    · cases htemp h
    · exact ⟨_, htemp h⟩

theorem Named.moduleAddMod (hn : rt.Named) {alloc : Alloc} {id : ℕ} {mod : Module} (hid : ∀ m ∈ rt.modules, m.id ≠ id)
    (h : rt.moduleAddMod alloc id mod = .ok rt') : rt'.Named := by
  obtain ⟨hapart, rfl⟩ := moduleAddMod_ok h
  refine ⟨?_, ?_, fun v hv x hx => ?_⟩
  · rw [List.map_append]
    refine List.nodup_append.mpr ⟨hn.ids, List.pairwise_singleton _ _, fun a ha b hb => ?_⟩
    obtain ⟨m, hm, rfl⟩ := List.mem_map.mp ha
    rw [List.mem_singleton.mp hb]
    exact hid m hm
  · refine List.pairwise_append.mpr ⟨hn.apart, List.pairwise_singleton _ _, fun m hm m' hm' => ?_⟩
    rw [List.mem_singleton.mp hm']
    exact hapart m hm
  · rw [List.map_append]
    exact List.mem_append_left _ (hn.owned v hv x hx)

theorem mem_records {v : RtVm} (hv : v ∈ rt.vms) {x : Label} (hx : x ∈ v.sys.vm.labels) : x.1 ∈ rt.records := by
  obtain ⟨mi, hmi, rfl⟩ := List.mem_map.mp hx
  exact List.mem_flatMap.mpr ⟨v, hv, List.mem_map.mpr ⟨mi, hmi, rfl⟩⟩

theorem Named.moduleDrop (hn : rt.Named) {id : ℕ} (hop : (RtOp.moduleDrop id).Unambiguous rt)
    (h : rt.moduleDrop id = .ok rt') : rt'.Named := by
  rw [Runtime.moduleDrop] at h
  split at h
  · simp at h
  · next m hfind =>
    obtain ⟨_, hdrop, h⟩ := bind_eq_ok.mp h
    cases h
    have hzero : m.refCount = 0 := by
      by_contra hne
      rw [Silverfir.moduleDrop, if_pos hne] at hdrop
      simp at hdrop
    have hunused := hop m hfind hzero
    obtain ⟨hp, as, bs, hsplit, herase⟩ := find_split hfind
    have hsub : (as ++ bs).Sublist rt.modules := by
      rw [hsplit]
      exact List.Sublist.append_left (List.sublist_cons_self _ _) _
    rw [herase]
    refine ⟨hn.ids.sublist (hsub.map _), hn.apart.sublist hsub, fun v hv x hx => ?_⟩
    have hmem := hn.owned v hv x hx
    rw [hsplit, List.map_append, List.map_cons, List.mem_append, List.mem_cons] at hmem
    rw [List.map_append, List.mem_append]
    rcases hmem with hmem | heq | hmem
    · exact Or.inl hmem
    · have hrecord := mem_records hv hx
      rw [heq, RtModule.label, beq_iff_eq.mp hp] at hrecord
      exact absurd hrecord hunused
    · exact Or.inr hmem

theorem Named.vmNew (hn : rt.Named) {alloc : Alloc} {id : ℕ} (h : rt.vmNew alloc id = .ok rt') : rt'.Named := by
  obtain ⟨vms, hpush, h⟩ := bind_eq_ok.mp h
  cases h
  rw [listPush_ok hpush]
  refine hn.of_labels rfl fun v hv x hx => ?_
  rcases List.mem_append.mp hv with hv | hv
  · exact hn.owned v hv x hx
  · rw [List.mem_singleton.mp hv] at hx
    exact absurd hx List.not_mem_nil

theorem Named.vmDrop (hn : rt.Named) {id : ℕ} (h : rt.vmDrop id = .ok rt') : rt'.Named := by
  rw [Runtime.vmDrop] at h
  split at h
  · simp at h
  · obtain ⟨modules, hdrop, h⟩ := bind_eq_ok.mp h
    cases h
    exact hn.of_labels (vmDrop_labels hdrop) fun v hv => hn.owned v (List.mem_of_mem_eraseP hv)

/-- One VM is replaced by one whose instances are of modules of the runtime. -/
theorem Named.setVm (hn : rt.Named) {ms : List RtModule} (hms : ms.map (·.label) = rt.modules.map (·.label)) {i : ℕ}
    {v : RtVm} (hv : ∀ x ∈ v.sys.vm.labels, x ∈ rt.modules.map (·.label)) :
    Named { modules := ms, vms := rt.vms.set i v } := by
  refine hn.of_labels hms fun w hw => ?_
  rcases List.mem_or_eq_of_mem_set hw with hw | rfl
  · exact hn.owned w hw
  · exact hv

theorem Named.instantiate (hn : rt.Named) {alloc : Alloc} {left : Module} {i id : ℕ}
    (hleft : ∀ m, rt.modules.find? (·.id == id) = some m → left.parsed = m.mod.parsed)
    (h : rt.instantiate pf alloc left i id = .ok rt') : rt'.Named := by
  rw [Runtime.instantiate] at h
  split at h
  · next v m hv hfind =>
    obtain ⟨⟨sys, m'⟩, hinst, h⟩ := bind_eq_ok.mp h
    obtain ⟨modules, hat, h⟩ := bind_eq_ok.mp h
    cases h
    have hm : m ∈ rt.modules := List.mem_of_find?_eq_some hfind
    have hmid : m.id = id := by simpa using List.find?_some hfind
    obtain ⟨hlabel, hlabels⟩ := vmInstantiateModule_labels (hleft m hfind) hinst
    have hmodules : modules.map (·.label) = rt.modules.map (·.label) := by
      refine atModule_labels (fun x x' hx hid hx' => ?_) hat
      cases hx'
      rw [hlabel, List.inj_on_of_nodup_map hn.ids hx hm (hid.trans hmid.symm)]
    refine hn.setVm hmodules fun x hx => ?_
    have hold := hn.owned v (List.mem_of_getElem? hv)
    rcases hlabels with heq | heq
    · rw [heq] at hx
      exact hold x hx
    · rw [heq] at hx
      rcases List.mem_append.mp hx with hx | hx
      · exact hold x hx
      · rw [List.mem_singleton.mp hx]
        exact List.mem_map_of_mem hm
  · simp at h

/-- What `module_register_name` does to a label. -/
def relabel (id : ℕ) (name : Str) (x : Label) : Label := if x.1 = id then (x.1, x.2 ++ [name]) else x

theorem label_register (id : ℕ) (name : Str) (m : RtModule) : (m.register id name).label = relabel id name m.label := by
  rw [RtModule.register, relabel, show m.label.1 = m.id from rfl]
  split
  · rfl
  · rfl

theorem labels_register (id : ℕ) (name : Str) (v : RtVm) :
    (v.register id name).sys.vm.labels = v.sys.vm.labels.map (relabel id name) := by
  have hlabel : ∀ mi : ModuleInst, (mi.register id name).label = relabel id name mi.label := by
    intro mi
    rw [ModuleInst.register, relabel, show mi.label.1 = mi.modId from rfl]
    split
    · rfl
    · rfl
  rw [RtVm.register, Vm.labels, Vm.labels, List.map_map, List.map_map]
  exact List.map_congr_left fun mi _ => hlabel mi

theorem id_register (id : ℕ) (name : Str) (m : RtModule) : (m.register id name).id = m.id := by
  rw [RtModule.register]
  split <;> rfl

theorem mem_names_register {id : ℕ} {name n : Str} {m : RtModule} :
    n ∈ (m.register id name).mod.names ↔ n ∈ m.mod.names ∨ m.id = id ∧ n = name := by
  rw [RtModule.register]
  split
  · next hid => simp [Module.register, hid]
  · next hid => simp [hid]

theorem registerName_ok {fails : Bool} {id : ℕ} {name : Str} (h : rt.registerName fails id name = .ok rt') :
    rt' = { modules := rt.modules.map (·.register id name), vms := rt.vms.map (·.register id name) } := by
  rw [registerName] at h
  split at h
  · simp at h
  · split at h
    · simp at h
    · split at h
      · simp at h
      · cases h
        rfl

/-- The names stay apart when the new one is free. -/
theorem Named.registerName (hn : rt.Named) {fails : Bool} {id : ℕ} {name : Str}
    (hop : (RtOp.registerName fails id name).Unambiguous rt) (h : rt.registerName fails id name = .ok rt') :
    rt'.Named := by
  obtain rfl := registerName_ok h
  have hids : (rt.modules.map (·.register id name)).map (·.id) = rt.modules.map (·.id) := by
    rw [List.map_map]
    exact List.map_congr_left fun m _ => id_register id name m
  refine ⟨?_, ?_, fun v hv x hx => ?_⟩
  · rw [hids]
    exact hn.ids
  · have hdistinct : rt.modules.Pairwise fun m m' => m.id ≠ m'.id := List.pairwise_map.mp hn.ids
    refine List.pairwise_map.mpr ((hn.apart.and hdistinct).imp_of_mem fun {m m'} hm hm' hboth n hn1 hn2 => ?_)
    obtain ⟨hapart, hne⟩ := hboth
    rcases mem_names_register.mp hn1 with hleft | ⟨hid, rfl⟩
    · rcases mem_names_register.mp hn2 with hright | ⟨hid', rfl⟩
      · exact hapart n hleft hright
      · exact hop m hm (fun hid => hne (hid.trans hid'.symm)) hleft
    · rcases mem_names_register.mp hn2 with hright | ⟨hid', -⟩
      · exact hop m' hm' (fun hid' => hne (hid.trans hid'.symm)) hright
      · exact hne (hid.trans hid'.symm)
  · obtain ⟨w, hw, rfl⟩ := List.mem_map.mp hv
    rw [labels_register] at hx
    obtain ⟨y, hy, rfl⟩ := List.mem_map.mp hx
    obtain ⟨m, hm, rfl⟩ := List.mem_map.mp (hn.owned w hw y hy)
    rw [← label_register]
    exact List.mem_map_of_mem (List.mem_map_of_mem hm)

/-- Two modules share the name after `module_register_name` if another module has it. -/
theorem registerName_apart_iff (hn : rt.Named) {fails : Bool} {id : ℕ} {name : Str}
    (h : rt.registerName fails id name = .ok rt') :
    rt'.modules.Pairwise RtModule.Apart ↔ (RtOp.registerName fails id name).Unambiguous rt := by
  constructor
  · intro hapart m hm hid hname
    obtain rfl := registerName_ok h
    obtain ⟨m', hm', hid'⟩ : ∃ m' ∈ rt.modules, m'.id = id := by
      rw [Runtime.registerName] at h
      split at h
      · simp at h
      · next m' hfind => exact ⟨m', List.mem_of_find?_eq_some hfind, by simpa using List.find?_some hfind⟩
    have hne : m.register id name ≠ m'.register id name := by
      intro heq
      have hids := congrArg RtModule.id heq
      rw [id_register, id_register, hid'] at hids
      exact hid hids
    have hshared := hapart.forall (List.mem_map_of_mem hm) (List.mem_map_of_mem hm') hne
    exact hshared name (mem_names_register.mpr (Or.inl hname)) (mem_names_register.mpr (Or.inr ⟨hid', rfl⟩))
  · intro hop
    exact (hn.registerName hop h).apart

/-! ### Runs -/

theorem step_named {op : RtOp} (h : op.Step pf rt rt') (hop : op.Unambiguous rt) (hn : rt.Named) : rt'.Named := by
  cases h with
  | moduleAdd hid h =>
    rcases after_some h with hok | rfl
    · obtain ⟨mod, hadd⟩ := moduleAdd_addMod hok
      exact hn.moduleAddMod hid hadd
    · exact hn
  | moduleAddMod hid h =>
    rcases after_some h with hok | rfl
    · exact hn.moduleAddMod hid hok
    · exact hn
  | moduleDrop h =>
    rcases after_some h with hok | rfl
    · exact hn.moduleDrop hop hok
    · exact hn
  | registerName h =>
    rcases after_some h with hok | rfl
    · exact hn.registerName hop hok
    · exact hn
  | vmNew _ h =>
    rcases after_some h with hok | rfl
    · exact hn.vmNew hok
    · exact hn
  | vmDrop h =>
    rcases after_some h with hok | rfl
    · exact hn.vmDrop hok
    · exact hn
  | instantiate hv _ hleft h =>
    rcases after_some h with hok | rfl
    · exact hn.instantiate hleft hok
    · exact hn
  | @vm _ v s i hv h =>
    refine hn.setVm rfl ?_
    dsimp only
    rw [sysStep_labels h]
    exact hn.owned v (List.mem_of_getElem? hv)

theorem run_named (h : NameRun pf rt) : rt.Named := by
  refine Run.invariant (p := Named) ?_ h ⟨List.nodup_nil, List.Pairwise.nil, fun _ hv => absurd hv List.not_mem_nil⟩
  rintro a b ⟨op, hstep, hop⟩ hn
  exact step_named hstep hop hn

/-! ### The counts -/

theorem records_register (id : ℕ) (name : Str) (ms : List RtModule) :
    records { modules := ms, vms := rt.vms.map (·.register id name) } = rt.records := by
  have hid : ∀ mi : ModuleInst, (mi.register id name).modId = mi.modId := by
    intro mi
    rw [ModuleInst.register]
    split <;> rfl
  have hids : ∀ v : RtVm, (v.register id name).sys.vm.modIds = v.sys.vm.modIds := by
    intro v
    rw [RtVm.register, Vm.modIds, Vm.modIds, List.map_map]
    exact List.map_congr_left fun mi _ => hid mi
  rw [records, records, List.flatMap_map]
  simp only [hids]

theorem Counted.registerName (hc : rt.Counted) {fails : Bool} {id : ℕ} {name : Str}
    (h : rt.registerName fails id name = .ok rt') : rt'.Counted := by
  obtain rfl := registerName_ok h
  have hids : (rt.modules.map (·.register id name)).map (·.id) = rt.modules.map (·.id) := by
    rw [List.map_map]
    exact List.map_congr_left fun m _ => id_register id name m
  refine ⟨?_, fun j hj => ?_, fun m' hm' => ?_⟩
  · rw [hids]
    exact hc.ids
  · rw [records_register] at hj
    rw [hids]
    exact hc.owned j hj
  · obtain ⟨m, hm, rfl⟩ := List.mem_map.mp hm'
    rw [records_register, id_register, RtModule.register]
    split <;> exact hc.counted m hm

theorem step_counted {op : RtOp} (h : op.Step pf rt rt') (hc : rt.Counted) (hfew : rt.Few) : rt'.Counted := by
  cases h with
  | moduleAdd hid h => exact @rtStep_counted pf _ _ (.moduleAdd hid h) hc hfew
  | moduleAddMod hid h =>
    rcases after_some h with hok | rfl
    · obtain ⟨-, rfl⟩ := moduleAddMod_ok hok
      exact hc.moduleAdd hid
    · exact hc
  | moduleDrop h => exact @rtStep_counted pf _ _ (.moduleDrop h) hc hfew
  | registerName h =>
    rcases after_some h with hok | rfl
    · exact hc.registerName hok
    · exact hc
  | vmNew hid h => exact @rtStep_counted pf _ _ (.vmNew hid h) hc hfew
  | vmDrop h => exact @rtStep_counted pf _ _ (.vmDrop h) hc hfew
  | instantiate hv hidle _ h => exact rtStep_counted (.instantiate hv hidle h) hc hfew
  | vm hv h => exact rtStep_counted (.vm hv h) hc hfew

/-- While the numbers of instances fit the counts, only the names that are registered matter. -/
theorem nameRun_of_few (h : ReflTransGen (fun rt rt' => (∃ op : RtOp, op.Step pf rt rt' ∧
    ∀ fails id name, op = .registerName fails id name → op.Unambiguous rt) ∧ rt'.Few) {} rt) : NameRun pf rt := by
  refine (Run.invariant (p := fun rt : Runtime => NameRun pf rt ∧ rt.Counted ∧ rt.Few) ?_ h ?_).1
  · rintro a b ⟨⟨op, hstep, hfree⟩, hfew'⟩ ⟨hrun, hc, hfew⟩
    refine ⟨hrun.tail ⟨op, hstep, ?_⟩, step_counted hstep hc hfew, hfew'⟩
    cases op with
    | registerName fails id name => exact hfree fails id name rfl
    | moduleDrop id =>
      intro m hfind hzero
      have hmid : m.id = id := by simpa using List.find?_some hfind
      rw [← hmid]
      exact (hc.unused_iff hfew (List.mem_of_find?_eq_some hfind)).mp hzero
    | moduleAdd | moduleAddMod | vmNew | vmDrop | instantiate | vm => trivial
  · refine ⟨.refl, ⟨List.nodup_nil, fun _ h => absurd h List.not_mem_nil, fun _ h => absurd h List.not_mem_nil⟩, ?_⟩
    change 0 < 2 ^ 32
    omega

/-! ### Lookups -/

/-- The two lookups find the same module. -/
theorem Named.find (hn : rt.Named) {v : RtVm} (hv : v ∈ rt.vms) {name : Str} {k : ℕ}
    (hk : v.sys.vm.findModuleInst name = some k) :
    ∃ mi m, v.sys.vm.instances[k]? = some mi ∧ rt.moduleFind name = some m ∧ m.id = mi.modId := by
  obtain ⟨mi, hmi, hname⟩ := Vm.findModuleInst_ok hk
  obtain ⟨m, hm, hlabel⟩ := List.mem_map.mp (hn.owned v hv mi.label (List.mem_map_of_mem (List.mem_of_getElem? hmi)))
  obtain ⟨hid, hnames⟩ := Prod.mk.inj hlabel
  have hmem : name ∈ m.mod.names := by rw [hnames]; exact hname
  obtain ⟨n, hfind⟩ := Option.isSome_iff_exists.mp
    (List.find?_isSome.mpr ⟨m, hm, List.contains_iff_mem.mpr hmem⟩ :
      (rt.modules.find? fun m => m.mod.names.contains name).isSome)
  have hcontains := List.find?_some hfind
  have hn' : name ∈ n.mod.names := List.contains_iff_mem.mp hcontains
  have heq : n = m := by
    by_contra hne
    exact hn.apart.forall (List.mem_of_find?_eq_some hfind) hm hne name hn' hmem
  exact ⟨mi, n, hmi, hfind, heq ▸ hid⟩

/-- In every state of every run in which only free names are registered, and no module is dropped whose count
has wrapped, names are unambiguous, and the lookup in a VM agrees with the lookup in the runtime. -/
theorem names_unambiguous (h : NameRun pf rt) :
    rt.modules.Pairwise RtModule.Apart ∧
    ∀ name, ∀ v ∈ rt.vms, ∀ k, v.sys.vm.findModuleInst name = some k →
      ∃ mi m, v.sys.vm.instances[k]? = some mi ∧ rt.moduleFind name = some m ∧ m.id = mi.modId := by
  have hn := run_named h
  exact ⟨hn.apart, fun name v hv k hk => hn.find hv hk⟩

/-! ### Two modules -/

/-- An empty module. -/
def emptyModule (names : List Str) : Module where
  names := names
  formatVersion := 1

/-- The modules `a` and `b`, where `b` may have more names, and a VM with an instance of each. -/
def pair (more : List Str) : Runtime where
  modules := [
    { id := 3, mod := emptyModule [[0x61]], refCount := 1 },
    { id := 4, mod := emptyModule ([0x62] :: more), refCount := 1 }]
  vms := [{ id := 5, sys := { vm := { instances := [
    { moduleInstNew 3 (emptyModule [[0x61]]) with state := .ready },
    { moduleInstNew 4 (emptyModule ([0x62] :: more)) with state := .ready }] } } }]

theorem run_pair : NameRun idle (pair []) := by
  let a : RtModule := { id := 3, mod := emptyModule [[0x61]] }
  let b : RtModule := { id := 4, mod := emptyModule [[0x62]] }
  let ia : ModuleInst := { moduleInstNew 3 (emptyModule [[0x61]]) with state := .ready }
  have h1 : RtOp.Step idle (.moduleAdd {} 3 [0x00, 0x61, 0x73, 0x6d, 1, 0, 0, 0] [0x61]) {} { modules := [a] } :=
    .moduleAdd (by decide) (by decide +kernel)
  have h2 : RtOp.Step idle (.moduleAdd {} 4 [0x00, 0x61, 0x73, 0x6d, 1, 0, 0, 0] [0x62]) { modules := [a] }
      { modules := [a, b] } := .moduleAdd (by decide) (by decide +kernel)
  have h3 : RtOp.Step idle (.vmNew {} 5) { modules := [a, b] } { modules := [a, b], vms := [{ id := 5 }] } :=
    .vmNew (by decide) (by decide +kernel)
  have h4 : RtOp.Step idle (.instantiate {} a.mod 0 3) { modules := [a, b], vms := [{ id := 5 }] }
      { modules := [{ a with refCount := 1 }, b], vms := [{ id := 5, sys := { vm := { instances := [ia] } } }] } :=
    .instantiate rfl rfl (fun m hm => by cases hm; rfl) (by decide +kernel)
  have h5 : RtOp.Step idle (.instantiate {} b.mod 0 4)
      { modules := [{ a with refCount := 1 }, b], vms := [{ id := 5, sys := { vm := { instances := [ia] } } }] }
      (pair []) := .instantiate rfl rfl (fun m hm => by cases hm; rfl) (by decide +kernel)
  exact ((((ReflTransGen.single ⟨_, h1, trivial⟩).tail ⟨_, h2, trivial⟩).tail ⟨_, h3, trivial⟩).tail
    ⟨_, h4, trivial⟩).tail ⟨_, h5, trivial⟩

theorem register_pair (name : Str) : RtOp.Step idle (.registerName false 4 name) (pair []) (pair [name]) :=
  .registerName rfl

/-- `b` gets the name `c`, which is free. -/
theorem names_unambiguous_pair : NameRun idle (pair [[0x63]]) ∧ (pair [[0x63]]).modules.Pairwise RtModule.Apart := by
  have hfree : (RtOp.registerName false 4 [0x63]).Unambiguous (pair []) := by
    intro m hm hid
    rcases List.mem_cons.mp hm with rfl | hm
    · decide
    · rw [List.mem_singleton.mp hm] at hid
      exact absurd rfl hid
  have hrun : NameRun idle (pair [[0x63]]) := run_pair.tail ⟨_, register_pair [0x63], hfree⟩
  exact ⟨hrun, (names_unambiguous hrun).1⟩

/-- `b` gets the name `a`: the runtime finds the first module, and the VM the instance of the second. -/
theorem registered_twice : ∃ rt, ReflTransGen (fun rt rt' => ∃ op : RtOp, op.Step idle rt rt') {} rt ∧
    ¬ rt.modules.Pairwise RtModule.Apart ∧
    ∃ v ∈ rt.vms, ∃ k mi m, v.sys.vm.findModuleInst [0x61] = some k ∧ v.sys.vm.instances[k]? = some mi ∧
      rt.moduleFind [0x61] = some m ∧ m.id ≠ mi.modId := by
  have hrun : ReflTransGen (fun rt rt' => ∃ op : RtOp, op.Step idle rt rt') {} (pair []) := by
    refine ReflTransGen.mono ?_ _ _ run_pair
    rintro a b ⟨op, hstep, -⟩
    exact ⟨op, hstep⟩
  refine ⟨pair [[0x61]], hrun.tail ⟨_, register_pair [0x61]⟩, fun hapart => ?_, _, List.mem_cons_self, 1,
    _, _, rfl, rfl,
    rfl, by decide⟩
  have hshared := List.rel_of_pairwise_cons hapart List.mem_cons_self
  exact hshared [0x61] (by decide) (by decide)

end Runtime

end Silverfir
