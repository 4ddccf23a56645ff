import Silverfir.Runtime
import Silverfir.Instantiated
import Mathlib.Data.List.Nodup

/-! The count of a module is the number of its instances in all VMs. -/
namespace Silverfir

open Relation (ReflTransGen)

/-! ### What the VMs hold -/

section Records
variable {pf : Platform}

/-- A new module that validates gets one instance, whatever happens to it afterwards. -/
theorem instantiateStep_modIds {vm : Vm} {modId : ℕ} {mod mod' : Module} {s : System}
    (hnew : vm.instances.any (·.modId == modId) = false) (hval : validateFuncs mod.funcs.length mod = .ok mod')
    (h : instantiateStep pf vm modId mod = .ok s) : s.vm.modIds = vm.modIds ++ [modId] := by
  rw [Vm.modIds_of_shape (instantiateStep_shape h)]
  have hphases := instantiate_phases pf modId mod vm
  generalize (instantiate pf modId mod vm).1 = res, (instantiate pf modId mod vm).2 = vm' at hphases
  cases hphases with
  | known hk =>
    rw [hnew] at hk
    cases hk
  | invalid _ hinvalid =>
    rw [hval] at hinvalid
    cases hinvalid
  | unlinked _ _ hlink => exact linked_modIds hlink
  | uninitialized _ _ hlink hinit =>
    exact (Vm.modIds_of_shape (stores_shape ((moduleInstInit_stores _ _ .refl).2 _ _ hinit))).trans
      (linked_modIds hlink)
  | done _ _ hlink hinit =>
    exact (Vm.modIds_of_shape (stores_shape ((moduleInstInit_stores _ _ .refl).1 _ _ hinit))).trans
      (linked_modIds hlink)

theorem abort_modIds (vm : Vm) (r : Running) : (abort vm r).vm.modIds = vm.modIds := by
  unfold abort
  split
  · rfl
  · exact Vm.modIds_of_shape (Vm.shape_withState vm _ _)

theorem sysStep_modIds {s s' : System} (h : SysStep pf (fun _ => False) s s') : s'.vm.modIds = s.vm.modIds := by
  cases h with
  | run h => exact Vm.modIds_of_shape (runStep_shape h)
  | invoke | reset => rfl
  | instantiate hm => exact hm.elim

end Records

/-! ### Accounts -/

/-- The count of each module is what `c` says, as a `u32`. -/
def Accounts (c : ℕ → ℕ) (ms : List RtModule) : Prop := ∀ m ∈ ms, m.refCount = BitVec.ofNat 32 (c m.id)

/-- Work on the module behind a pointer changes one account. -/
theorem atModule_ok {id : ℕ} (f : RtModule → R RtModule) {c : ℕ → ℕ} (c' : ℕ → ℕ) {ms : List RtModule}
    {m m' : RtModule} (hc : Accounts c ms) (hids : (ms.map (·.id)).Nodup) (hm : m ∈ ms) (hid : m.id = id)
    (hf : f m = .ok m') (hid' : m'.id = id) (hc' : m'.refCount = BitVec.ofNat 32 (c' id))
    (hrest : ∀ j, j ≠ id → c' j = c j) :
    ∃ ms', atModule id f ms = .ok ms' ∧ ms'.map (·.id) = ms.map (·.id) ∧ Accounts c' ms' := by
  induction ms with
  | nil => exact absurd hm List.not_mem_nil
  | cons n ms ih =>
    have hinj := List.inj_on_of_nodup_map hids
    rw [List.map_cons, List.nodup_cons] at hids
    have htail : Accounts c ms := fun x hx => hc x (List.mem_cons_of_mem _ hx)
    by_cases hn : n.id = id
    · obtain rfl : m = n := hinj hm List.mem_cons_self (hid.trans hn.symm)
      refine ⟨m' :: ms, by rw [atModule, if_pos hn, hf]; rfl, by rw [List.map_cons, List.map_cons, hid, hid'], ?_⟩
      intro x hx
      obtain rfl | hx := List.mem_cons.mp hx
      · rw [hid', hc']
      · have hne : x.id ≠ id := fun h => hids.1 (List.mem_map.mpr ⟨x, hx, h.trans hn.symm⟩)
        rw [hrest _ hne]
        exact htail x hx
    · have hm' : m ∈ ms := by
        obtain rfl | hm := List.mem_cons.mp hm
        · exact absurd hid hn
        · exact hm
      obtain ⟨ms', hok, hmap, hacc⟩ := ih htail hids.2 hm'
      refine ⟨n :: ms', by rw [atModule, if_neg hn, hok]; rfl, by rw [List.map_cons, List.map_cons, hmap], ?_⟩
      intro x hx
      obtain rfl | hx := List.mem_cons.mp hx
      · rw [hrest _ hn]
        exact hc x List.mem_cons_self
      · exact hacc x hx

/-- A module with an instance can give it up. -/
theorem release_ok {m : RtModule} {n : ℕ} (hc : m.refCount = BitVec.ofNat 32 (n + 1)) (hn : n + 1 < 2 ^ 32) :
    m.release = .ok { m with refCount := BitVec.ofNat 32 n } := by
  have hne : m.refCount ≠ 0 := by
    intro h
    have := congrArg BitVec.toNat (hc.symm.trans h)
    rw [BitVec.toNat_ofNat, Nat.mod_eq_of_lt hn] at this
    exact absurd this (Nat.succ_ne_zero n)
  have hsub : m.refCount - 1 = BitVec.ofNat 32 n := by
    rw [hc, BitVec.ofNat_add]
    exact BitVec.add_sub_cancel _ _
  rw [RtModule.release, if_neg hne, hsub]

theorem accounts_congr {c c' : ℕ → ℕ} {ms : List RtModule} (hc : Accounts c ms) (h : ∀ j, c' j = c j) :
    Accounts c' ms :=
  fun m hm => by rw [h]; exact hc m hm

/-- A VM is dropped: each of its instances is taken off an account that has it. -/
theorem vmDrop_ok {c : ℕ → ℕ} (mis : List ModuleInst) {ms : List RtModule} (hids : (ms.map (·.id)).Nodup)
    (howned : ∀ mi ∈ mis, mi.modId ∈ ms.map (·.id))
    (hc : Accounts (fun j => (mis.map (·.modId)).count j + c j) ms)
    (hfew : ∀ j, (mis.map (·.modId)).count j + c j < 2 ^ 32) :
    ∃ ms', vmDrop mis ms = .ok ms' ∧ ms'.map (·.id) = ms.map (·.id) ∧ Accounts c ms' := by
  induction mis generalizing ms with
  | nil => exact ⟨ms, rfl, rfl, accounts_congr hc fun j => by simp⟩
  | cons mi rest ih =>
    obtain ⟨m, hm, hid⟩ := List.mem_map.mp (howned mi List.mem_cons_self)
    have hone : ((mi :: rest).map (·.modId)).count mi.modId + c mi.modId =
        (rest.map (·.modId)).count mi.modId + c mi.modId + 1 := by
      rw [List.map_cons, List.count_cons_self]
      omega
    have hrel := release_ok (m := m) (n := (rest.map (·.modId)).count mi.modId + c mi.modId)
      (by rw [← hone, ← hid]; exact hc m hm) (by rw [← hone]; exact hfew _)
    obtain ⟨ms1, hok, hmap, hacc⟩ := atModule_ok _ (fun j => (rest.map (·.modId)).count j + c j) hc hids hm hid hrel
      hid rfl fun j hj => by rw [List.map_cons, List.count_cons_of_ne (Ne.symm hj)]
    obtain ⟨ms2, hok2, hmap2, hacc2⟩ := ih (by rw [hmap]; exact hids)
      (fun x hx => by rw [hmap]; exact howned x (List.mem_cons_of_mem _ hx)) hacc
      fun j => Nat.lt_of_le_of_lt
        (Nat.add_le_add_right (List.Sublist.count_le j (List.sublist_cons_self _ _)) _) (hfew j)
    exact ⟨ms2, by rw [vmDrop, hok]; exact hok2, hmap2.trans hmap, hacc2⟩

namespace Runtime
variable {pf : Platform} {rt rt' : Runtime}

/-- Every instance is of a module of the runtime, and every module is counted. -/
structure Counted (rt : Runtime) : Prop where
  ids : (rt.modules.map (·.id)).Nodup
  owned : ∀ id ∈ rt.records, id ∈ rt.modules.map (·.id)
  counted : Accounts (fun id => rt.records.count id) rt.modules

theorem Counted.refCount_toNat (hc : rt.Counted) (hfew : rt.Few) {m : RtModule} (hm : m ∈ rt.modules) :
    m.refCount.toNat = rt.records.count m.id := by
  rw [hc.counted m hm, BitVec.toNat_ofNat, Nat.mod_eq_of_lt]
  exact Nat.lt_of_le_of_lt List.count_le_length hfew

theorem Counted.unused_iff (hc : rt.Counted) (hfew : rt.Few) {m : RtModule} (hm : m ∈ rt.modules) :
    m.refCount = 0 ↔ m.id ∉ rt.records := by
  rw [← List.count_eq_zero, ← hc.refCount_toNat hfew hm]
  exact ⟨fun h => by rw [h]; rfl, fun h => BitVec.eq_of_toNat_eq h⟩

theorem after_some {x : R Runtime} (h : rt.after x = some rt') : x = .ok rt' ∨ rt' = rt := by
  obtain ⟨_, _⟩ | rt1 := x
  · exact .inr (Option.some.inj h).symm
  · cases h
  · exact .inl (congrArg _ (Option.some.inj h))

/-- A VM in the list is replaced. -/
theorem records_set {i : ℕ} {v : RtVm} (v' : RtVm) (hv : rt.vms[i]? = some v) (ms : List RtModule) :
    (v.sys.vm.modIds ++ records { modules := ms, vms := rt.vms.set i v' }).Perm (v'.sys.vm.modIds ++ rt.records) := by
  obtain ⟨hi, hvi⟩ := List.getElem?_eq_some_iff.mp hv
  have hold : rt.vms = rt.vms.take i ++ v :: rt.vms.drop (i + 1) := by
    rw [← hvi, List.getElem_cons_drop, List.take_append_drop]
  have hnew : rt.vms.set i v' = rt.vms.take i ++ v' :: rt.vms.drop (i + 1) := List.set_eq_take_append_cons_drop ▸ by
    rw [if_pos hi]
  generalize rt.vms.take i = as, rt.vms.drop (i + 1) = bs at hold hnew
  rw [records, records, hnew, hold, List.flatMap_append, List.flatMap_append, List.flatMap_cons, List.flatMap_cons]
  generalize as.flatMap (·.sys.vm.modIds) = xs, bs.flatMap (·.sys.vm.modIds) = ys, v.sys.vm.modIds = a,
    v'.sys.vm.modIds = b
  have hswap : ∀ a b : List ℕ, (a ++ (xs ++ (b ++ ys))).Perm (a ++ b ++ (xs ++ ys)) := by
    intro a b
    rw [List.append_assoc]
    refine List.Perm.append_left a ?_
    rw [← List.append_assoc, ← List.append_assoc]
    exact List.Perm.append_right ys List.perm_append_comm
  exact (hswap a b).trans ((List.Perm.append_right _ List.perm_append_comm).trans (hswap b a).symm)

theorem find_split {α : Type} {p : α → Bool} {xs : List α} {x : α} (h : xs.find? p = some x) :
    p x = true ∧ ∃ as bs, xs = as ++ x :: bs ∧ xs.eraseP p = as ++ bs := by
  obtain ⟨hp, as, bs, rfl, has⟩ := List.find?_eq_some_iff_append.mp h
  refine ⟨hp, as, bs, rfl, ?_⟩
  rw [List.eraseP_append_right _ (fun a ha => by simpa using has a ha), List.eraseP_cons_of_pos hp]

theorem find_of_nodup {ms : List RtModule} (hids : (ms.map (·.id)).Nodup) {m : RtModule} (hm : m ∈ ms) :
    ms.find? (·.id == m.id) = some m := by
  obtain ⟨n, hn⟩ := Option.isSome_iff_exists.mp
    (List.find?_isSome.mpr ⟨m, hm, beq_self_eq_true m.id⟩ : (ms.find? (·.id == m.id)).isSome)
  have hid : n.id = m.id := by simpa using List.find?_some hn
  rw [hn, List.inj_on_of_nodup_map hids (List.mem_of_find?_eq_some hn) hm hid]

/-- A VM is taken out of the list. -/
theorem records_erase {p : RtVm → Bool} {v : RtVm} (h : rt.vms.find? p = some v) (ms : List RtModule) :
    (v.sys.vm.modIds ++ records { modules := ms, vms := rt.vms.eraseP p }).Perm rt.records := by
  obtain ⟨-, as, bs, hsplit, herase⟩ := find_split h
  rw [records, records, herase, hsplit, List.flatMap_append, List.flatMap_append, List.flatMap_cons,
    ← List.append_assoc, ← List.append_assoc]
  exact List.Perm.append_right _ List.perm_append_comm

/-! ### The operations -/

theorem moduleAdd_ok {alloc : Alloc} {id : ℕ} {bin name : Str} (h : rt.moduleAdd alloc id bin name = .ok rt') :
    ∃ mod, rt' = { rt with modules := rt.modules ++ [{ id := id, mod := mod }] } := by
  have htemp : ∀ {m : RtModule} {x : R Runtime}, dropTemporary m x = .ok rt' → x = .ok rt' := by
    intro m x hx
    unfold dropTemporary at hx
    split at hx
    · exact hx
    · split at hx
      · cases hx
      · simp at hx
  rw [Runtime.moduleAdd] at h
  split at h
  · exact absurd (htemp h) (err_ne_ok _ _ _)
  · split at h
    · cases htemp h
    · next mod _ =>
      have hadd := htemp h
      rw [moduleAddMod] at hadd
      split at hadd
      · simp at hadd
      · obtain ⟨modules, hpush, hadd⟩ := bind_eq_ok.mp hadd
        cases hadd
        rw [listPush] at hpush
        split at hpush
        · simp at hpush
        · cases hpush
          exact ⟨mod, rfl⟩

theorem Counted.moduleAdd (hc : rt.Counted) {id : ℕ} {mod : Module} (hid : ∀ m ∈ rt.modules, m.id ≠ id) :
    Counted { rt with modules := rt.modules ++ [{ id := id, mod := mod }] } := by
  have hnew : id ∉ rt.modules.map (·.id) := by
    intro h
    obtain ⟨m, hm, heq⟩ := List.mem_map.mp h
    exact hid m hm heq
  refine ⟨?_, fun j hj => ?_, fun m hm => ?_⟩
  · rw [List.map_append]
    exact List.nodup_append.mpr ⟨hc.ids, List.pairwise_singleton _ _, fun a ha b hb => by
      rw [List.mem_singleton.mp hb]
      rintro rfl
      exact hnew ha⟩
  · rw [List.map_append]
    exact List.mem_append_left _ (hc.owned j hj)
  · obtain hm | hm := List.mem_append.mp hm
    · exact hc.counted m hm
    · obtain rfl := List.mem_singleton.mp hm
      have hzero : rt.records.count id = 0 := List.count_eq_zero.mpr fun h => hnew (hc.owned id h)
      change (0 : BitVec 32) = BitVec.ofNat 32 (rt.records.count id)
      rw [hzero]
      rfl

theorem Counted.moduleDrop (hc : rt.Counted) (hfew : rt.Few) {id : ℕ} (h : rt.moduleDrop id = .ok rt') :
    rt'.Counted := by
  rw [Runtime.moduleDrop] at h
  split at h
  · simp at h
  · next m hfind =>
    obtain ⟨_, hdrop, h⟩ := bind_eq_ok.mp h
    cases h
    obtain ⟨hp, as, bs, hsplit, herase⟩ := find_split hfind
    have hm : m ∈ rt.modules := by
      rw [hsplit]
      exact List.mem_append_right _ List.mem_cons_self
    have hunused : m.id ∉ rt.records := by
      rw [← hc.unused_iff hfew hm]
      by_contra hne
      rw [Silverfir.moduleDrop, if_pos hne] at hdrop
      simp at hdrop
    have hsub : (as ++ bs).Sublist rt.modules := by
      rw [hsplit]
      exact List.Sublist.append_left (List.sublist_cons_self _ _) _
    rw [herase]
    refine ⟨hc.ids.sublist (hsub.map _), fun j hj => ?_, fun x hx => hc.counted x (hsub.subset hx)⟩
    have hmem := hc.owned j hj
    rw [hsplit, List.map_append, List.map_cons, List.mem_append, List.mem_cons] at hmem
    rw [List.map_append, List.mem_append]
    obtain hj' | rfl | hj' := hmem
    · exact .inl hj'
    · exact absurd hj hunused
    · exact .inr hj'

/-- The count only depends on what the VMs hold. -/
theorem Counted.of_perm (hc : rt.Counted) {vms : List RtVm}
    (h : (records { modules := rt.modules, vms := vms }).Perm rt.records) :
    Counted { modules := rt.modules, vms := vms } :=
  ⟨hc.ids, fun j hj => hc.owned j (h.mem_iff.mp hj), accounts_congr hc.counted fun j => h.count_eq j⟩

theorem Counted.vmNew (hc : rt.Counted) {alloc : Alloc} {id : ℕ} (h : rt.vmNew alloc id = .ok rt') : rt'.Counted := by
  obtain ⟨vms, hpush, h⟩ := bind_eq_ok.mp h
  cases h
  rw [listPush] at hpush
  split at hpush
  · simp at hpush
  · cases hpush
    refine hc.of_perm (List.Perm.of_eq ?_)
    rw [records, List.flatMap_append, records]
    exact List.append_nil _

/-- What `vm_drop` needs in a runtime that counts. -/
theorem Counted.vmDrop_ok (hc : rt.Counted) (hfew : rt.Few) {v : RtVm} {rest : List ℕ}
    (hperm : (v.sys.vm.modIds ++ rest).Perm rt.records) :
    ∃ ms, Silverfir.vmDrop v.sys.vm.instances rt.modules = .ok ms ∧ ms.map (·.id) = rt.modules.map (·.id) ∧
      Accounts (fun j => rest.count j) ms := by
  have hcount : ∀ j, v.sys.vm.modIds.count j + rest.count j = rt.records.count j := by
    intro j
    rw [← List.count_append, hperm.count_eq]
  refine Silverfir.vmDrop_ok v.sys.vm.instances hc.ids (fun mi hmi => ?_) (accounts_congr hc.counted hcount) fun j => ?_
  · exact hc.owned _ (hperm.mem_iff.mp (List.mem_append_left _ (List.mem_map.mpr ⟨mi, hmi, rfl⟩)))
  · exact (hcount j).trans_lt (Nat.lt_of_le_of_lt List.count_le_length hfew)

theorem Counted.vmDrop (hc : rt.Counted) (hfew : rt.Few) {id : ℕ} (h : rt.vmDrop id = .ok rt') : rt'.Counted := by
  rw [Runtime.vmDrop] at h
  split at h
  · simp at h
  · next v hfind =>
    obtain ⟨modules, hdrop, h⟩ := bind_eq_ok.mp h
    cases h
    have hperm := records_erase hfind modules
    obtain ⟨ms, hok, hmap, hacc⟩ := hc.vmDrop_ok hfew hperm
    obtain rfl : ms = modules := Except.ok.inj (hok.symm.trans hdrop)
    refine ⟨by rw [hmap]; exact hc.ids, fun j hj => ?_, hacc⟩
    rw [hmap]
    exact hc.owned j (hperm.mem_iff.mp (List.mem_append_right _ hj))

/-- The module and the VM after an instantiation: one more instance and one more in the count, or
neither. -/
theorem vmInstantiateModule_ok {alloc : Alloc} {left : Module} {vm : Vm} {m m' : RtModule} {s : System}
    (h : vmInstantiateModule pf alloc left vm m = .ok (s, m')) : m'.id = m.id ∧
      (s.vm.modIds = vm.modIds ∧ m'.refCount = m.refCount ∨
        s.vm.modIds = vm.modIds ++ [m.id] ∧ m'.refCount = m.refCount + 1) := by
  rw [vmInstantiateModule] at h
  split at h
  · cases h
    exact ⟨rfl, .inl ⟨rfl, rfl⟩⟩
  · next hnew =>
    rw [Bool.not_eq_true] at hnew
    split at h
    · cases h
      exact ⟨rfl, .inl ⟨rfl, rfl⟩⟩
    · split at h
      · simp at h
      · cases h
        exact ⟨rfl, .inl ⟨rfl, rfl⟩⟩
      · next mod hval =>
        dsimp only at h
        split at h
        · obtain ⟨dropped, hrel, h⟩ := bind_eq_ok.mp h
          cases h
          rw [RtModule.release] at hrel
          split at hrel
          · simp at hrel
          · cases hrel
            exact ⟨rfl, .inl ⟨rfl, BitVec.add_sub_cancel _ _⟩⟩
        · obtain ⟨s1, hstep, h⟩ := bind_eq_ok.mp h
          have hids := instantiateStep_modIds hnew hval hstep
          split at h
          · cases h
            refine ⟨rfl, .inr ⟨?_, rfl⟩⟩
            split
            · exact (abort_modIds _ _).trans hids
            · exact hids
          · cases h
            exact ⟨rfl, .inr ⟨hids, rfl⟩⟩

theorem Counted.instantiate (hc : rt.Counted) {alloc : Alloc} {left : Module} {i id : ℕ}
    (h : rt.instantiate pf alloc left i id = .ok rt') : rt'.Counted := by
  rw [Runtime.instantiate] at h
  split at h
  · next v m hv hfind =>
    obtain ⟨⟨sys, m'⟩, hinst, h⟩ := bind_eq_ok.mp h
    obtain ⟨modules, hat, h⟩ := bind_eq_ok.mp h
    cases h
    obtain ⟨hp, as, bs, hsplit, -⟩ := find_split hfind
    have hm : m ∈ rt.modules := by
      rw [hsplit]
      exact List.mem_append_right _ List.mem_cons_self
    have hmid : m.id = id := beq_iff_eq.mp hp
    obtain ⟨hid', hcase⟩ := vmInstantiateModule_ok hinst
    have hperm := records_set { v with sys := sys } hv modules
    obtain ⟨hids, hcount⟩ | ⟨hids, hcount⟩ := hcase
    · have hsame : (records { modules := modules, vms := rt.vms.set i { v with sys := sys } }).Perm rt.records := by
        rw [hids] at hperm
        exact (List.perm_append_left_iff _).mp hperm
      obtain ⟨ms, hok, hmap, hacc⟩ := atModule_ok (fun _ => .ok m') (fun j => rt.records.count j) hc.counted
        hc.ids hm hmid rfl (hid'.trans hmid) (by rw [hcount, ← hmid]; exact hc.counted m hm) fun _ _ => rfl
      obtain rfl : ms = modules := Except.ok.inj (hok.symm.trans hat)
      exact ⟨by rw [hmap]; exact hc.ids, fun j hj => by rw [hmap]; exact hc.owned j (hsame.mem_iff.mp hj),
        accounts_congr hacc fun j => hsame.count_eq j⟩
    · have hmore : (records { modules := modules, vms := rt.vms.set i { v with sys := sys } }).Perm
          (id :: rt.records) := by
        rw [hids, List.append_assoc, hmid] at hperm
        exact (List.perm_append_left_iff _).mp hperm
      obtain ⟨ms, hok, hmap, hacc⟩ := atModule_ok (fun _ => .ok m') (fun j => (id :: rt.records).count j) hc.counted
        hc.ids hm hmid rfl (hid'.trans hmid)
        (by rw [hcount, hc.counted m hm, hmid, List.count_cons_self, BitVec.ofNat_add]; rfl)
        fun j hj => List.count_cons_of_ne (Ne.symm hj)
      obtain rfl : ms = modules := Except.ok.inj (hok.symm.trans hat)
      refine ⟨by rw [hmap]; exact hc.ids, fun j hj => ?_, accounts_congr hacc fun j => hmore.count_eq j⟩
      rw [hmap]
      obtain rfl | hj := List.mem_cons.mp (hmore.mem_iff.mp hj)
      · exact List.mem_map.mpr ⟨m, hm, hmid⟩
      · exact hc.owned j hj
  · simp at h

/-! ### Runs -/

theorem rtStep_counted (h : RtStep pf rt rt') (hc : rt.Counted) (hfew : rt.Few) : rt'.Counted := by
  cases h with
  | moduleAdd hid h =>
    obtain hok | rfl := after_some h
    · obtain ⟨mod, rfl⟩ := moduleAdd_ok hok
      exact hc.moduleAdd hid
    · exact hc
  | moduleDrop h =>
    obtain hok | rfl := after_some h
    · exact hc.moduleDrop hfew hok
    · exact hc
  | vmNew _ h =>
    obtain hok | rfl := after_some h
    · exact hc.vmNew hok
    · exact hc
  | vmDrop h =>
    obtain hok | rfl := after_some h
    · exact hc.vmDrop hfew hok
    · exact hc
  | instantiate _ _ h =>
    obtain hok | rfl := after_some h
    · exact hc.instantiate hok
    · exact hc
  | @vm v s i hv h =>
    refine hc.of_perm ?_
    have hperm := records_set { v with sys := s } hv rt.modules
    rw [show ({ v with sys := s } : RtVm).sys.vm.modIds = v.sys.vm.modIds from sysStep_modIds h] at hperm
    exact (List.perm_append_left_iff _).mp hperm

theorem rtRun_counted (h : RtRun pf rt) : rt.Counted ∧ rt.Few := by
  refine Run.invariant (p := fun rt : Runtime => rt.Counted ∧ rt.Few) ?_ h ?_
  · intro a b hstep ha
    exact ⟨rtStep_counted hstep.1 ha.1 ha.2, hstep.2⟩
  · exact ⟨⟨List.nodup_nil, fun _ h => absurd h List.not_mem_nil, fun _ h => absurd h List.not_mem_nil⟩,
      by change 0 < 2 ^ 32; omega⟩

/-! ### The counts -/

theorem dropVms_ok (vms : List RtVm) {ms : List RtModule} (hc : Counted { modules := ms, vms := vms })
    (hfew : Few { modules := ms, vms := vms }) :
    ∃ ms', dropVms vms ms = .ok ms' ∧ ∀ m ∈ ms', m.refCount = 0 := by
  induction vms generalizing ms with
  | nil => exact ⟨ms, rfl, fun m hm => hc.counted m hm⟩
  | cons v vms ih =>
    have hperm : (v.sys.vm.modIds ++ records { modules := ms, vms := vms }).Perm
        (records { modules := ms, vms := v :: vms }) := .refl _
    obtain ⟨ms1, hok, hmap, hacc⟩ := hc.vmDrop_ok hfew hperm
    have hc1 : Counted { modules := ms1, vms := vms } :=
      ⟨by rw [hmap]; exact hc.ids, fun j hj => by rw [hmap]; exact hc.owned j (List.mem_append_right _ hj), hacc⟩
    have hfew1 : Few { modules := ms1, vms := vms } := by
      refine Nat.lt_of_le_of_lt ?_ hfew
      rw [records, records, List.flatMap_cons, List.length_append]
      exact Nat.le_add_left _ _
    obtain ⟨ms2, hok2, hzero⟩ := ih hc1 hfew1
    exact ⟨ms2, by rw [dropVms, hok]; exact hok2, hzero⟩

theorem dropModules_ok {ms : List RtModule} (h : ∀ m ∈ ms, m.refCount = 0) : dropModules ms = .ok () := by
  induction ms with
  | nil => rfl
  | cons m ms ih =>
    have hm := h m List.mem_cons_self
    rw [dropModules, if_neg (not_not.mpr hm), Silverfir.moduleDrop, if_neg (not_not.mpr hm)]
    exact ih fun x hx => h x (List.mem_cons_of_mem _ hx)

/-- `runtime_module_drop` gets past the check of the count. -/
theorem moduleDrop_ok_iff (hids : (rt.modules.map (·.id)).Nodup) {m : RtModule} (hm : m ∈ rt.modules) :
    (∃ rt', rt.moduleDrop m.id = .ok rt') ↔ m.refCount = 0 := by
  have hfind : rt.modules.find? (·.id == m.id) = some m := find_of_nodup hids hm
  rw [Runtime.moduleDrop, hfind]
  dsimp only
  rw [Silverfir.moduleDrop]
  split
  · next hne =>
    refine ⟨fun ⟨_, h⟩ => ?_, fun h => absurd h hne⟩
    simp [err] at h
  · next hz => exact ⟨fun _ => not_not.mp hz, fun _ => ⟨_, rfl⟩⟩

theorem vmDrop_ok_of (hc : rt.Counted) (hfew : rt.Few) {v : RtVm} (hv : v ∈ rt.vms) :
    ∃ rt', rt.vmDrop v.id = .ok rt' := by
  obtain ⟨w, hw⟩ := Option.isSome_iff_exists.mp
    (List.find?_isSome.mpr ⟨v, hv, beq_self_eq_true v.id⟩ : (rt.vms.find? (·.id == v.id)).isSome)
  obtain ⟨ms, hok, -⟩ := hc.vmDrop_ok hfew (records_erase hw [])
  rw [Runtime.vmDrop, hw]
  dsimp only
  rw [hok]
  exact ⟨_, rfl⟩

/-- Between `module_inst_new` and a failure of it the count is not zero. -/
theorem vmInstantiateModule_error (hc : rt.Counted) (hroom : rt.records.length + 1 < 2 ^ 32) {m : RtModule}
    (hm : m ∈ rt.modules) {alloc : Alloc} {left : Module} {vm : Vm} {f : Fault}
    (h : vmInstantiateModule pf alloc left vm m = .error f) :
    validateFuncs m.mod.funcs.length m.mod = .error f ∨ instantiateStep pf vm m.id m.mod = .error f := by
  rw [vmInstantiateModule] at h
  split at h
  · cases h
  · split at h
    · cases h
    · split at h
      · next what hval =>
        cases h
        exact .inl hval
      · cases h
      · next mod hval =>
        dsimp only at h
        have hcount : rt.records.count m.id + 1 < 2 ^ 32 :=
          Nat.lt_of_le_of_lt (Nat.add_le_add_right List.count_le_length 1) hroom
        have hrel := release_ok (m := { m with mod := mod }.retain) (n := rt.records.count m.id)
          (by rw [RtModule.retain, hc.counted m hm, BitVec.ofNat_add]; rfl) hcount
        split at h
        · rw [hrel] at h
          cases h
        · right
          cases hstep : instantiateStep pf vm m.id m.mod with
          | error f' =>
            rw [hstep] at h
            cases h
            rfl
          | ok s =>
            rw [hstep, ok_bind] at h
            split at h <;> cases h

/-- Reference counts of modules, for every history of the operations, whatever fails in them. The
last part says that an instantiation can only be undefined in the validator or after the instance
is in the list: the assertion that guards the count holds when a half-made instance is dropped. -/
theorem ref_counts (pf : Platform) {rt : Runtime} (h : RtRun pf rt) :
    (∀ m ∈ rt.modules, m.refCount.toNat = rt.records.count m.id) ∧
    (∀ m ∈ rt.modules, (∃ rt', rt.moduleDrop m.id = .ok rt') ↔
      ∀ v ∈ rt.vms, ∀ mi ∈ v.sys.vm.instances, mi.modId ≠ m.id) ∧
    rt.drop = .ok {} ∧
    (∀ v ∈ rt.vms, ∃ rt', rt.vmDrop v.id = .ok rt') ∧
    (rt.records.length + 1 < 2 ^ 32 → ∀ v ∈ rt.vms, ∀ m ∈ rt.modules, ∀ alloc left f,
      vmInstantiateModule pf alloc left v.sys.vm m = .error f →
        validateFuncs m.mod.funcs.length m.mod = .error f ∨ instantiateStep pf v.sys.vm m.id m.mod = .error f) := by
  obtain ⟨hc, hfew⟩ := rtRun_counted h
  refine ⟨fun m hm => hc.refCount_toNat hfew hm, fun m hm => ?_, ?_, fun v hv => vmDrop_ok_of hc hfew hv,
    fun hroom v _ m hm alloc left f => vmInstantiateModule_error hc hroom hm⟩
  · rw [moduleDrop_ok_iff hc.ids hm, hc.unused_iff hfew hm, records, List.mem_flatMap]
    constructor
    · intro hno v hv mi hmi heq
      exact hno ⟨v, hv, List.mem_map.mpr ⟨mi, hmi, heq⟩⟩
    · rintro hno ⟨v, hv, hid⟩
      obtain ⟨mi, hmi, heq⟩ := List.mem_map.mp hid
      exact hno v hv mi hmi heq
  · obtain ⟨ms, hok, hzero⟩ := dropVms_ok rt.vms hc hfew
    rw [drop, hok, ok_bind, dropModules_ok hzero]
    rfl

/-- A VM with an instance of the only module, which is empty. -/
def oneInstance : Runtime where
  modules := [{ id := 3, mod := { names := [[]], formatVersion := 1 }, refCount := 1 }]
  vms := [{ id := 5, sys := { vm := { instances :=
    [{ moduleInstNew 3 { names := [[]], formatVersion := 1 } with state := .ready }] } } }]

theorem run_oneInstance : RtRun idle oneInstance := by
  have hadd : ({} : Runtime).after (({} : Runtime).moduleAdd {} 3 [0x00, 0x61, 0x73, 0x6d, 1, 0, 0, 0] []) =
      some { modules := [{ id := 3, mod := { names := [[]], formatVersion := 1 } }] } := by decide +kernel
  have hvm : Runtime.after { modules := [{ id := 3, mod := { names := [[]], formatVersion := 1 } }] }
      (vmNew { modules := [{ id := 3, mod := { names := [[]], formatVersion := 1 } }] } {} 5) =
      some { modules := [{ id := 3, mod := { names := [[]], formatVersion := 1 } }], vms := [{ id := 5 }] } := by
    decide +kernel
  have hinst : Runtime.after
      { modules := [{ id := 3, mod := { names := [[]], formatVersion := 1 } }], vms := [{ id := 5 }] }
      (Runtime.instantiate idle
        { modules := [{ id := 3, mod := { names := [[]], formatVersion := 1 } }], vms := [{ id := 5 }] } {} {} 0 3) =
      some oneInstance := by decide +kernel
  refine .tail (.tail (.tail .refl ⟨.moduleAdd (by simp) hadd, ?_⟩) ⟨.vmNew (by simp) hvm, ?_⟩)
    ⟨.instantiate rfl rfl hinst, ?_⟩
  · change 0 < 2 ^ 32
    omega
  · change 0 < 2 ^ 32
    omega
  · change 1 < 2 ^ 32
    omega

theorem ref_counts_oneInstance :
    ∃ m ∈ oneInstance.modules, m.refCount.toNat = 1 ∧ oneInstance.records.count m.id = 1 := by
  have hcount := (ref_counts idle run_oneInstance).1 _ List.mem_cons_self
  exact ⟨_, List.mem_cons_self, rfl, hcount.symm⟩

end Runtime

end Silverfir
