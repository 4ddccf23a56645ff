import Silverfir.Immutable

/-! The entries of tables: which instructions and which element segments write one, and that nothing
else changes it. -/
namespace Silverfir

open InPlaceDt
open Relation (ReflTransGen)

/-- An entry of a table. -/
def Vm.entry (vm : Vm) (a : Addr) (j : ℕ) : Option ValueU := (vm.part (·.tables) a).bind (·.tdata[j]?)

/-- Entry `idx` of the table addresses of instance `k` leads to this table. -/
def Vm.TableAt (vm : Vm) (k idx : ℕ) (a : Addr) (t : TableInst) : Prop :=
  vm.addr (·.tAddrs) k idx = .ok a ∧ vm.table a = .ok t

section Entry
variable {vm vm' : Vm} {a b : Addr} {j : ℕ}

theorem entry_of_table {t : TableInst} (ht : vm.table a = .ok t) : vm.entry a j = t.tdata[j]? := by
  rw [Vm.entry, part_tables.mp ht]
  rfl

theorem entry_of_part (h : vm'.part (·.tables) b = vm.part (·.tables) b) : vm'.entry b j = vm.entry b j := by
  rw [Vm.entry, h]
  rfl

theorem entry_setTable {t : TableInst} {tdata : List ValueU} (ht : vm.table a = .ok t)
    (h : b = a → tdata[j]? = t.tdata[j]?) : (vm.setTable a tdata).entry b j = vm.entry b j := by
  rw [Vm.entry, tables_setTable, editAt]
  split
  · next hb =>
    subst hb
    rw [entry_of_table ht, ← h rfl, part_tables.mp ht]
    rfl
  · rfl

end Entry

/-! ### Writes -/

section Writes
variable (pf : Platform)

/-- When references are put into table `a` from entry `o` on, entry `j` gets one. -/
def PutsAt (a : Addr) (o : ℕ) (refs : List (Vm → R ValueU)) (vm : Vm) (j : ℕ) : Prop :=
  ∃ ref vm1, Eff.Comes (fun x => putRef a x.2 x.1) (refs.zipIdx o) vm (ref, j) vm1 ∧ (putRef a j ref vm1).1 = .ok ()

/-- The instruction writes entry `j` of table `b`, whatever the entry was. -/
def Instr.WritesEntry (vm : Vm) (k : ℕ) (i : Instr) (args : List ValueU) (b : Addr) (j : ℕ) : Prop :=
  match i, args with
  | .tableSet idx, [_, elemIdx] => vm.addr (·.tAddrs) k idx = .ok b ∧ lo32 elemIdx = j
  | .tableFill idx, [size, _, offset] =>
    let off := ((BitVec.setWidth 32 offset).signExtend 64).toNat
    ∃ t, vm.TableAt k idx b t ∧ off + lo32 size ≤ t.tdata.length ∧ off ≤ j ∧ j < off + lo32 size
  | .tableCopy dstIdx srcIdx, [size, src, dst] =>
    ∃ t a' t', vm.TableAt k dstIdx b t ∧ vm.TableAt k srcIdx a' t' ∧ lo32 src + lo32 size ≤ t'.tdata.length ∧
      lo32 dst + lo32 size ≤ t.tdata.length ∧ lo32 dst ≤ j ∧ j < lo32 dst + lo32 size
  | .tableInit elemIdx tableIdx, [size, src, dst] =>
    ∃ t mi elem refs, vm.TableAt k tableIdx b t ∧ vm.inst k = .ok mi ∧ mi.mod.elements[elemIdx]? = some elem ∧
      mi.droppedElements[elemIdx]? = some false ∧ lo32 src + lo32 size ≤ elem.dataLen ∧
      lo32 dst + lo32 size ≤ t.tdata.length ∧ elemRefs pf k true elem (lo32 src) (lo32 size) = .ok refs ∧
      PutsAt b (lo32 dst) refs vm j
  | _, _ => False

/-- The initialisation of an active segment writes entry `j` of table `b`. -/
def Element.WritesEntry (k : ℕ) (mod : Module) (elem : Element) (vm : Vm) (b : Addr) (j : ℕ) : Prop :=
  ∃ mi offset t refs, vm.inst k = .ok mi ∧ elem.tableidx < mi.tAddrs.length ∧ elem.tableidx < mod.tables.length ∧
    vm.TableAt k elem.tableidx b t ∧
    (if elem.offsetExpr = [] then .ok 0
      else offsetOf pf k "Incorrect element constexpr return type" elem.offsetExpr vm) = .ok offset ∧
    offset + elem.dataLen ≤ t.tdata.length ∧ elemRefs pf k false elem 0 elem.dataLen = .ok refs ∧
      PutsAt b offset refs vm j

/-- The instantiation comes to an active element segment that writes entry `j` of table `b`. -/
def InstantiationWrites (vm : Vm) (modId : ℕ) (mod : Module) (b : Addr) (j : ℕ) : Prop :=
  ∃ mod' vm1 vm2 x vm3, vm.instances.any (·.modId == modId) = false ∧ validateFuncs mod.funcs.length mod = .ok mod' ∧
    linkModuleInst vm.instances.length mod' (vm.push modId mod') = (.ok (), vm1) ∧
    Eff.each (initGlobal pf vm.instances.length mod') (indexed mod'.globals) vm1 = (.ok (), vm2) ∧
    Eff.Comes (initElem pf vm.instances.length mod') (indexed mod'.elements) vm2 x vm3 ∧ x.2.mode = .active ∧
    x.2.WritesEntry pf vm.instances.length mod' vm3 b j

end Writes

section Put
variable {vm : Vm} {a b : Addr} {j : ℕ}

theorem putRefs_eq (a : Addr) (refs : List (Vm → R ValueU)) (o : ℕ) :
    putRefs a o refs = Eff.each (fun x => putRef a x.2 x.1) (refs.zipIdx o) := by
  induction refs generalizing o with
  | nil => rfl
  | cons ref refs ih => rw [putRefs, ih, List.zipIdx_cons, Eff.each]

/-- A reference that is put into another entry. -/
theorem putRef_entry {i : ℕ} {ref : Vm → R ValueU} (h : (putRef a i ref vm).1 = .ok () → ¬(b = a ∧ i = j)) :
    (putRef a i ref vm).2.entry b j = vm.entry b j := by
  rw [putRef, Eff.bind_apply, Eff.read] at h ⊢
  cases href : ref vm with
  | error => rfl
  | ok v =>
    rw [href] at h
    simp only [Eff.bind_apply, Eff.read] at h ⊢
    cases ht : vm.table a with
    | error => rfl
    | ok t =>
      simp only [ht] at h ⊢
      by_cases hi : i < t.tdata.length
      · rw [if_pos hi] at h ⊢
        refine entry_setTable ht fun hb => ?_
        rw [List.getElem?_set_ne]
        exact fun hij => h rfl ⟨hb, hij⟩
      · rw [if_neg hi]
        rfl

theorem putRefs_entry {o : ℕ} {refs : List (Vm → R ValueU)} (h : b = a → ¬ PutsAt a o refs vm j) :
    (putRefs a o refs vm).2.entry b j = vm.entry b j := by
  rw [putRefs_eq]
  refine Eff.each_keeps (P := fun w : Vm => w.entry b j = vm.entry b j) ?_ rfl
  rintro ⟨ref, i⟩ vm1 hcomes hkept
  rw [putRef_entry, hkept]
  rintro hok ⟨hb, rfl⟩
  exact h hb ⟨ref, vm1, hcomes, hok⟩

end Put

section Instructions
variable {pf : Platform} {k : ℕ} {s : ExecState} {b : Addr} {j : ℕ} {v : ValueU}

/-- The table is there, or nothing happens. -/
theorem tabInst_bind {α : Type} (k idx : ℕ) (f : Addr × TableInst → Exec α) (s : ExecState) :
    (∃ a t, s.vm.TableAt k idx a t ∧ (tabInst k idx >>= f) s = f (a, t) s) ∨ ((tabInst k idx >>= f) s).2 = s := by
  cases ha : s.vm.addr (·.tAddrs) k idx with
  | error =>
    right
    simp only [tabInst, ofVm, Eff.bind_apply, Eff.read, ha]
  | ok a =>
    cases ht : s.vm.table a with
    | error =>
      right
      simp only [tabInst, ofVm, Eff.bind_apply, Eff.read, ha, ht]
    | ok t =>
      left
      refine ⟨a, t, ⟨ha, ht⟩, ?_⟩
      rw [Eff.bind_apply, tabInst_apply ha ht]

theorem tableSet_entry {idx : ℕ} {ref elemIdx : ValueU}
    (hq : ¬ (Instr.tableSet idx).WritesEntry pf s.vm k [ref, elemIdx] b j) :
    (tableSet k idx ref elemIdx s).2.vm.entry b j = s.vm.entry b j := by
  rw [tableSet]
  obtain ⟨a, t, ⟨ha, ht⟩, heq⟩ | hsame := tabInst_bind k idx (fun x => _) s
  · rw [heq]
    simp only
    split
    · rfl
    · refine entry_setTable ht fun hb => ?_
      rw [List.getElem?_set_ne]
      rintro rfl
      exact hq ⟨hb ▸ ha, rfl⟩
  · rw [hsame]

theorem tableFill_entry {idx : ℕ} {size ref offset : ValueU}
    (hq : ¬ (Instr.tableFill idx).WritesEntry pf s.vm k [size, ref, offset] b j) :
    (tableFill k idx size ref offset s).2.vm.entry b j = s.vm.entry b j := by
  rw [tableFill]
  obtain ⟨a, t, ⟨ha, ht⟩, heq⟩ | hsame := tabInst_bind k idx (fun x => _) s
  · rw [heq]
    simp only
    split
    · rfl
    · split
      · rfl
      · next hfits =>
        refine entry_setTable ht fun hb => ?_
        by_cases hsize : lo32 size = 0
        · rw [hsize, List.replicate_zero, overwrite_nil]
        · have hlen : (List.replicate (lo32 size) ref).length = lo32 size := List.length_replicate
          refine overwrite_outside (by omega) ?_
          rw [hlen]
          by_contra hin
          exact hq ⟨t, ⟨hb ▸ ha, hb ▸ ht⟩, by omega, by omega, by omega⟩
  · rw [hsame]

theorem tableCopy_entry {dstIdx srcIdx : ℕ} {size src dst : ValueU}
    (hq : ¬ (Instr.tableCopy dstIdx srcIdx).WritesEntry pf s.vm k [size, src, dst] b j) :
    (tableCopy k dstIdx srcIdx size src dst s).2.vm.entry b j = s.vm.entry b j := by
  rw [tableCopy]
  obtain ⟨a, t, ⟨ha, ht⟩, heq⟩ | hsame := tabInst_bind k dstIdx (fun x => _) s
  · rw [heq]
    simp only
    obtain ⟨a', t', hat', heq'⟩ | hsame := tabInst_bind k srcIdx (fun x => _) s
    · rw [heq']
      simp only
      split
      · rfl
      · next hfits =>
        refine entry_setTable ht fun hb => ?_
        have hlen : ((t'.tdata.drop (lo32 src)).take (lo32 size)).length = lo32 size := by
          rw [List.length_take, List.length_drop]
          omega
        refine overwrite_outside (by omega) ?_
        rw [hlen]
        by_contra hin
        exact hq ⟨t, a', t', ⟨hb ▸ ha, hb ▸ ht⟩, hat', by omega, by omega, by omega, by omega⟩
    · rw [hsame]
  · rw [hsame]

/-- A longer table has the entries it had. -/
theorem tableGrow_entry {idx : ℕ} {size ref : ValueU} (hs : s.vm.entry b j = some v) :
    (tableGrow k idx size ref s).2.vm.entry b j = some v := by
  rw [← hs, tableGrow]
  obtain ⟨a, t, ⟨ha, ht⟩, heq⟩ | hsame := tabInst_bind k idx (fun x => _) s
  · rw [heq]
    simp only
    split
    · rfl
    · refine entry_setTable ht fun hb => ?_
      subst hb
      rw [entry_of_table ht] at hs
      exact List.getElem?_append_left (List.getElem?_eq_some_iff.mp hs).1
  · rw [hsame]

theorem onVm_entry {α : Type} {x : VmM α} {f : α → Exec (List ValueU)} (hf : ∀ y s, (f y s).2 = s) :
    ((onVm x >>= f) s).2.vm.entry b j = (x s.vm).2.entry b j := by
  rw [Eff.bind_apply, onVm]
  cases x s.vm with
  | mk res vm =>
    cases res with
    | error => rfl
    | ok y => rw [hf]

theorem tableInit_entry {elemIdx tableIdx : ℕ} {size src dst : ValueU}
    (hq : ¬ (Instr.tableInit elemIdx tableIdx).WritesEntry pf s.vm k [size, src, dst] b j) :
    (tableInit pf k elemIdx tableIdx size src dst s).2.vm.entry b j = s.vm.entry b j := by
  rw [tableInit]
  obtain ⟨a, t, ⟨ha, ht⟩, heq⟩ | hsame := tabInst_bind k tableIdx (fun x => _) s
  · rw [heq]
    simp only [ofVm, Eff.bind_apply, Eff.read]
    cases hmi : s.vm.inst k with
    | error => rfl
    | ok mi =>
      cases helem : mi.mod.elements[elemIdx]? with
      | none =>
        simp only [helem]
        rfl
      | some elem =>
        cases hdropped : mi.droppedElements[elemIdx]? with
        | none =>
          simp only [helem, hdropped]
          rfl
        | some dropped =>
          simp only [helem, hdropped]
          split
          · rfl
          · next hfits =>
            split
            · rfl
            · split
              · rfl
              · next hkept =>
                rw [Eff.bind_apply, Eff.lift]
                cases hrefs : elemRefs pf k true elem (lo32 src) (lo32 size) with
                | error => rfl
                | ok refs =>
                  simp only
                  rw [onVm_entry fun _ _ => rfl]
                  refine putRefs_entry fun hb hputs => ?_
                  rw [Bool.eq_false_iff.mpr hkept] at hdropped
                  exact hq ⟨t, mi, elem, refs, ⟨hb ▸ ha, hb ▸ ht⟩, hmi, helem, hdropped, by omega, by omega, hrefs,
                    hb ▸ hputs⟩
  · rw [hsame]

/-- The other instructions do not write to tables at all. -/
theorem keptBy_tables {i : Instr} (hi : i.writesTable = false) (vm : Vm) :
    KeptBy (fun w => w.part (·.tables) = vm.part (·.tables)) i where
  global _ hs := (globalsOnly_setGlobal _ _).tables.trans hs
  table h _ _ _ := by
    rw [hi] at h
    cases h
  memory hs _ _ := (memoriesOnly_setMemory _ _).tables.trans hs
  dropData hs := by
    rw [← hs]
    exact part_modifyInst fun _ => rfl
  dropElem hs := by
    rw [← hs]
    exact part_modifyInst fun _ => rfl

/-- An instruction leaves the entries that it does not write, whether it succeeds or not. -/
theorem effect_entry {i : Instr} {args : List ValueU} (hq : ¬ i.WritesEntry pf s.vm k args b j)
    (hs : s.vm.entry b j = some v) : (effect pf k i args s).2.vm.entry b j = some v := by
  cases hi : i.writesTable with
  | false =>
    have htables := ((@effect_writes pf k _ i (keptBy_tables hi s.vm) args).conseq (fun _ hs => hs)
      fun _ _ hs => hs.2).after (s := s) rfl
    rw [← hs]
    exact entry_of_part (congrFun htables b)
  | true =>
    cases i with
    | tableSet idx =>
      match args with
      | [_, _] => exact (tableSet_entry hq).trans hs
      | [] | [_] | _ :: _ :: _ :: _ => exact hs
    | tableGrow idx =>
      match args with
      | [_, _] => exact tableGrow_entry hs
      | [] | [_] | _ :: _ :: _ :: _ => exact hs
    | tableFill idx =>
      match args with
      | [_, _, _] => exact (tableFill_entry hq).trans hs
      | [] | [_] | [_, _] | _ :: _ :: _ :: _ :: _ => exact hs
    | tableCopy dst src =>
      match args with
      | [_, _, _] => exact (tableCopy_entry hq).trans hs
      | [] | [_] | [_, _] | _ :: _ :: _ :: _ :: _ => exact hs
    | tableInit elemIdx tableIdx =>
      match args with
      | [_, _, _] => exact (tableInit_entry hq).trans hs
      | [] | [_] | [_, _] | _ :: _ :: _ :: _ :: _ => exact hs
    | _ => cases hi

end Instructions

/-! ### Instantiation -/

section Init
variable {pf : Platform} {k : ℕ} {mod : Module} {vm : Vm} {b : Addr} {j : ℕ}

theorem initElemActive_entry {elem : Element} (hq : ¬ elem.WritesEntry pf k mod vm b j) :
    (initElemActive pf k mod elem vm).2.entry b j = vm.entry b j := by
  rw [initElemActive, Eff.bind_apply, Eff.read]
  cases hmi : vm.inst k with
  | error => rfl
  | ok mi =>
    simp only
    split
    · rfl
    · next hidx =>
      rw [Eff.bind_apply, Eff.read]
      cases ha : vm.addr (·.tAddrs) k elem.tableidx with
      | error => rfl
      | ok a =>
        simp only
        split
        · rfl
        · next htables =>
          rw [Eff.bind_apply, Eff.read]
          cases hoffset : (if elem.offsetExpr = [] then .ok 0
            else offsetOf pf k "Incorrect element constexpr return type" elem.offsetExpr vm) with
          | error => rfl
          | ok offset =>
            simp only
            rw [Eff.bind_apply, Eff.read]
            cases ht : vm.table a with
            | error => rfl
            | ok t =>
              simp only
              split
              · rfl
              · next hfits =>
                rw [Eff.bind_apply, Eff.lift]
                cases hrefs : elemRefs pf k false elem 0 elem.dataLen with
                | error => rfl
                | ok refs =>
                  simp only
                  refine putRefs_entry fun hb hputs => hq ?_
                  exact ⟨mi, offset, t, refs, hmi, by omega, by omega, ⟨hb ▸ ha, hb ▸ ht⟩, hoffset, by omega, hrefs,
                    hb ▸ hputs⟩

theorem entry_modifyInst {f : ModuleInst → ModuleInst} {n : ℕ} (hf : ∀ mi, (f mi).tables = mi.tables) :
    (vm.modifyInst n f).entry b j = vm.entry b j := by
  refine entry_of_part (congrFun (part_modifyInst ?_) b)
  exact hf

theorem initElem_entry {x : ℕ × Element} (hq : x.2.mode = .active → ¬ x.2.WritesEntry pf k mod vm b j) :
    (initElem pf k mod x vm).2.entry b j = vm.entry b j := by
  have hdrop : ∀ w : Vm, ((if x.2.mode ≠ .passive then dropElem k x.1 else pure ()) w).2.entry b j = w.entry b j := by
    intro w
    split
    · exact entry_modifyInst fun _ => rfl
    · rfl
  rw [initElem]
  split
  · next hactive =>
    have hinit := initElemActive_entry (hq hactive)
    rw [Eff.bind_apply]
    cases hres : initElemActive pf k mod x.2 vm with
    | mk res w =>
      rw [hres] at hinit
      cases res with
      | error => exact hinit
      | ok => exact (hdrop w).trans hinit
  · exact hdrop vm

/-- The globals and the data are not in a table. -/
theorem initGlobals_entry (xs : List (ℕ × Global)) :
    (Eff.each (initGlobal pf k mod) xs vm).2.entry b j = vm.entry b j := by
  have hglobals : Eff.Triple (fun w => w.part (·.tables) = vm.part (·.tables)) (Eff.each (initGlobal pf k mod) xs)
      (fun _ w => w.part (·.tables) = vm.part (·.tables)) (fun w => w.part (·.tables) = vm.part (·.tables)) :=
    .each fun x _ => initGlobal_triple fun hw => (globalsOnly_setGlobal _ _).tables.trans hw
  exact entry_of_part (congrFun (hglobals.after rfl) b)

theorem initDatas_entry (xs : List (ℕ × Data)) : (Eff.each (initData pf k) xs vm).2.entry b j = vm.entry b j := by
  have hdata : Eff.Triple (fun w => w.part (·.tables) = vm.part (·.tables)) (Eff.each (initData pf k) xs)
      (fun _ w => w.part (·.tables) = vm.part (·.tables)) (fun w => w.part (·.tables) = vm.part (·.tables)) :=
    .each fun x _ => initData_triple x (fun hw _ _ => (memoriesOnly_setMemory _ _).tables.trans hw) fun hw => by
      rw [← hw]
      exact part_modifyInst fun _ => rfl
  exact entry_of_part (congrFun (hdata.after rfl) b)

/-- The initialisation of an instance leaves the entries that no segment writes. -/
theorem moduleInstInit_entry (hq : ∀ w x w', Eff.each (initGlobal pf k mod) (indexed mod.globals) vm = (.ok (), w) →
      Eff.Comes (initElem pf k mod) (indexed mod.elements) w x w' → x.2.mode = .active →
      ¬ x.2.WritesEntry pf k mod w' b j) :
    (moduleInstInit pf k mod vm).2.entry b j = vm.entry b j := by
  have hglobals := @initGlobals_entry pf k mod vm b j (indexed mod.globals)
  rw [moduleInstInit, Eff.bind_apply]
  cases hres : Eff.each (initGlobal pf k mod) (indexed mod.globals) vm with
  | mk res w =>
    rw [hres] at hglobals
    cases res with
    | error => exact hglobals
    | ok =>
      have helems : (Eff.each (initElem pf k mod) (indexed mod.elements) w).2.entry b j = w.entry b j := by
        refine Eff.each_keeps (P := fun v : Vm => v.entry b j = w.entry b j) (fun x w' hcomes hw' => ?_) rfl
        rw [initElem_entry (hq w x w' hres hcomes), hw']
      simp only
      rw [Eff.bind_apply]
      cases hres' : Eff.each (initElem pf k mod) (indexed mod.elements) w with
      | mk res' w' =>
        rw [hres'] at helems
        cases res' with
        | error => exact helems.trans hglobals
        | ok => exact ((initDatas_entry _).trans helems).trans hglobals

/-- An instantiation leaves the entries that it does not write, those of the new instance included:
they are as `module_inst_new` has made them. -/
theorem instantiate_entry {modId : ℕ} (hq : ¬ InstantiationWrites pf vm modId mod b j) :
    (instantiate pf modId mod vm).2.entry b j = vm.entry b j ∧ (instantiate pf modId mod vm).2.instances.length =
      vm.instances.length ∨ ∃ mod', validateFuncs mod.funcs.length mod = .ok mod' ∧
      (instantiate pf modId mod vm).2.entry b j = (vm.push modId mod').entry b j := by
  have hphases := instantiate_phases pf modId mod vm
  rw [InstantiationWrites] at hq
  generalize (instantiate pf modId mod vm).1 = res, (instantiate pf modId mod vm).2 = vm' at hphases ⊢
  cases hphases with
  | known | invalid => exact .inl ⟨rfl, rfl⟩
  | unlinked _ hval hlink =>
    exact .inr ⟨_, hval, entry_of_part (congrFun (linked_fresh hlink).tables b)⟩
  | @uninitialized mod' vm1 e vm' hk hval hlink hinit =>
    have hkept := @moduleInstInit_entry pf vm.instances.length mod' vm1 b j
      fun w x w' hglobals hcomes hactive hwrites => hq ⟨mod', vm1, w, x, w', hk, hval, hlink, hglobals, hcomes, hactive, hwrites⟩
    rw [hinit] at hkept
    exact .inr ⟨_, hval, hkept.trans (entry_of_part (congrFun (linked_fresh hlink).tables b))⟩
  | @done mod' vm1 vm' hk hval hlink hinit =>
    have hkept := @moduleInstInit_entry pf vm.instances.length mod' vm1 b j
      fun w x w' hglobals hcomes hactive hwrites => hq ⟨mod', vm1, w, x, w', hk, hval, hlink, hglobals, hcomes, hactive, hwrites⟩
    rw [hinit] at hkept
    exact .inr ⟨_, hval, hkept.trans (entry_of_part (congrFun (linked_fresh hlink).tables b))⟩

end Init

end Silverfir
