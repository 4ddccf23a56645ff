import Silverfir.Executed

/-! Immutable globals. `global.set` writes through the address that linking stored, whatever the
`mut` flag of the global says; the validator does not look at the flag either. -/
namespace Silverfir

open InPlaceDt
open Relation (ReflTransGen)

/-! ### Linking compares the flags -/

/-- A global is linked with one that has the same `mut` flag. -/
def SameMut (_ _ : ℕ) (_ : Addr) (d : Global) (t : GlobalInst) : Prop := d.mut_ = t.glob.mut_

structure Vm.MutLinked (vm : Vm) : Prop where
  own : ∀ mi ∈ vm.instances, mi.globals.map (·.glob) = mi.mod.globals
  links : LinksTo (·.gAddrs) (·.globals) Vm.global SameMut vm

section Link
variable {vm vm' : Vm} {modId : ℕ} {mod : Module}

theorem Vm.MutLinked.of_shape (h : vm.MutLinked) (hs : vm'.shape = vm.shape) : vm'.MutLinked where
  own mi' hmi' := by
    obtain ⟨k, hk⟩ := List.mem_iff_getElem?.mp hmi'
    obtain ⟨mi, hmi, he⟩ := inst_of_shape hs hk
    have hglob := congrArg (fun m : ModuleInst => m.globals.map (·.glob)) he
    simp only [ModuleInst.shape, List.map_map] at hglob
    rw [mod_of_shape he, ← h.own mi (List.mem_of_getElem? hmi)]
    exact hglob
  links := h.links.of_shape hs (fun _ => rfl) fun a g hg => by
    obtain ⟨g', hg', he⟩ := global_of_shape hs hg
    refine ⟨g', hg', fun j i d hsame => ?_⟩
    rw [SameMut, he]
    exact hsame

/-- The globals of the new instance are those of its module. -/
theorem global_newest {i : ℕ} {d : Global} (hd : mod.globals[i]? = some d) :
    (vm.push modId mod).global ⟨vm.instances.length, i⟩ = .ok { glob := d } := by
  refine Vm.global_ok.mpr ⟨_, push_newest vm modId mod, ?_⟩
  simp only [moduleInstNew, List.getElem?_map, hd, Option.map_some]

theorem global_pushed {a : Addr} {g : GlobalInst} (hg : vm.global a = .ok g) :
    (vm.push modId mod).global a = .ok g := by
  obtain ⟨mi, hmi, hget⟩ := Vm.global_ok.mp hg
  refine Vm.global_ok.mpr ⟨mi, ?_, hget⟩
  rw [Vm.push, List.getElem?_append_left (List.getElem?_eq_some_iff.mp hmi).1, hmi]

/-- The entries for the globals lead to globals with the declared flag. -/
def MutEntries (vm : Vm) (modId : ℕ) (mod : Module) (e : ExternalKind → List (Option Addr)) : Prop :=
  ∀ (i : ℕ) (a : Addr), (e .global)[i]? = some (some a) →
    ∃ d t, mod.globals[i]? = some d ∧ (vm.push modId mod).global a = .ok t ∧ d.mut_ = t.glob.mut_

theorem link_mutEntries {res : Except Fault Unit} {vm1 : Vm}
    (h : linkModuleInst vm.instances.length mod (vm.push modId mod) = (res, vm1)) :
    ∃ e, vm1 = (vm.push modId mod).relink vm.instances.length e ∧ MutEntries vm modId mod e := by
  have hlink : Eff.Triple
      (fun w => ∃ e, w = (vm.push modId mod).relink vm.instances.length e ∧ MutEntries vm modId mod e)
      (linkModuleInst vm.instances.length mod)
      (fun _ w => ∃ e, w = (vm.push modId mod).relink vm.instances.length e ∧ MutEntries vm modId mod e)
      (fun w => ∃ e, w = (vm.push modId mod).relink vm.instances.length e ∧ MutEntries vm modId mod e) := by
    rw [linkModuleInst_eq]
    refine .each fun ⟨kind, i⟩ hx => ?_
    refine Eff.Triple.bind
      (Q := fun a w => (∃ e, w = (vm.push modId mod).relink vm.instances.length e ∧ MutEntries vm modId mod e) ∧
        (kind = .global → ∃ d t, mod.globals[i]? = some d ∧ (vm.push modId mod).global a = .ok t ∧
          d.mut_ = t.glob.mut_)) (.read (fun w a hw ha => ⟨hw, fun hkind => ?_⟩) fun _ hw => hw) fun a =>
      .modify fun w hw => ?_
    · obtain ⟨e, rfl, -⟩ := hw
      subst hkind
      cases himp : mod.importPath .global i with
      | none =>
        have hi := mem_rounds.mp hx
        rw [linkAddr_own hi himp] at ha
        cases ha
        exact ⟨_, _, List.getElem?_eq_getElem hi, global_newest (List.getElem?_eq_getElem hi), rfl⟩
      | some path =>
        obtain ⟨-, -, -, -, d, t, hd, ht, hmut, -⟩ := (linkAddr_import himp).mp ha
        rw [global_relink] at ht
        exact ⟨d, t, hd, ht, hmut.symm⟩
    · obtain ⟨⟨e, rfl, he⟩, ha⟩ := hw
      refine ⟨_, put_relink kind i a, fun j b hb => ?_⟩
      rw [update_set] at hb
      split at hb
      · next hji =>
        split at hb
        · cases hb
          rw [hji.2]
          exact ha hji.1.symm
        · cases hb
      · exact he j b hb
  have hstart : MutEntries vm modId mod (moduleInstNew modId mod).addrs := fun i a ha => absurd ha addrs_null
  obtain ⟨hok, herr⟩ := hlink _ ⟨_, (relink_self (push_newest vm modId mod)).symm, hstart⟩
  cases res with
  | ok => exact hok _ _ h
  | error => exact herr _ _ h

/-- Linking keeps the flags equal, and a failure leaves them so. -/
theorem Vm.MutLinked.linked (h : vm.MutLinked) {res : Except Fault Unit} {vm1 : Vm}
    (hlink : linkModuleInst vm.instances.length mod (vm.push modId mod) = (res, vm1)) : vm1.MutLinked := by
  obtain ⟨e, rfl, he⟩ := link_mutEntries hlink
  constructor
  · intro mi' hmi'
    obtain ⟨j, hj⟩ := List.mem_iff_getElem?.mp hmi'
    obtain ⟨mi, hmi, rfl⟩ := Vm.inst_modifyInst hj
    have hown : mi.globals.map (·.glob) = mi.mod.globals := by
      obtain hold | hnew := List.mem_append.mp (List.mem_of_getElem? hmi)
      · exact h.own mi hold
      · rw [List.mem_singleton.mp hnew]
        simp only [moduleInstNew, List.map_map]
        exact List.map_id _
    split
    · exact hown
    · exact hown
  · intro j mi' i a hmi' ha
    by_cases hj : j = vm.instances.length
    · subst hj
      have haddr := addr_newest.mp (Vm.addr_ok.mpr ⟨mi', hmi', ha⟩ : Vm.addr (·.addrs .global) _ _ _ = .ok a)
      obtain ⟨d, t, hd, ht, hmut⟩ := he i a haddr
      obtain rfl := Option.some.inj (hmi'.symm.trans (Vm.inst_modifyInst_of (push_newest vm modId mod)))
      rw [if_pos rfl]
      exact ⟨d, t, hd, by rw [global_relink]; exact ht, hmut⟩
    · rw [inst_relink_ne hj] at hmi'
      have hlt := (List.getElem?_eq_some_iff.mp hmi').1
      rw [Vm.push, List.length_append, List.length_singleton] at hlt
      rw [Vm.push, List.getElem?_append_left (by omega)] at hmi'
      obtain ⟨d, t, hd, ht, hmut⟩ := h.links j mi' i a hmi' ha
      exact ⟨d, t, hd, by rw [global_relink]; exact global_pushed ht, hmut⟩

end Link

/-! ### Writes -/

section Writes
variable {pf : Platform} {vm : Vm} {k : ℕ}

/-- Instructions other than `global.set` do not change globals. -/
theorem keptBy_globals {i : Instr} (hi : ∀ idx, i ≠ .globalSet idx) (vm : Vm) :
    KeptBy (fun w => w.part (·.globals) = vm.part (·.globals)) i where
  global h hs := by
    obtain ⟨idx, h⟩ := h
    exact absurd h (hi idx)
  table _ hs _ _ := (tablesOnly_setTable _ _).globals.trans hs
  memory hs _ _ := (memoriesOnly_setMemory _ _).globals.trans hs
  dropData hs := by
    rw [← hs]
    exact part_modifyInst fun _ => rfl
  dropElem hs := by
    rw [← hs]
    exact part_modifyInst fun _ => rfl

/-- What an instruction does to the globals, whether it succeeds or not. -/
theorem effect_globals (pf : Platform) (k : ℕ) (i : Instr) (args : List ValueU) (s : ExecState) :
    (effect pf k i args s).2.vm.part (·.globals) = s.vm.part (·.globals) ∨
      ∃ idx a v, i = .globalSet idx ∧ s.vm.addr (·.gAddrs) k idx = .ok a ∧
        (effect pf k i args s).2.vm = s.vm.setGlobal a v := by
  by_cases hi : ∀ idx, i ≠ .globalSet idx
  · left
    exact ((effect_writes (keptBy_globals hi s.vm) args).conseq (fun _ hs => hs) fun _ _ hs => hs.2).after (s := s) rfl
  · obtain ⟨idx, hidx⟩ := not_forall.mp hi
    obtain rfl := not_not.mp hidx
    match args with
    | [] => exact .inl rfl
    | _ :: _ :: _ => exact .inl rfl
    | [v] =>
      simp only [effect, arg1, globalSet, ofVm, Eff.bind_apply, Eff.read]
      cases ha : s.vm.addr (·.gAddrs) k idx with
      | error e => exact .inl rfl
      | ok a =>
        cases hg : s.vm.global a with
        | error e =>
          left
          simp only [hg]
        | ok g =>
          simp only [hg]
          exact .inr ⟨idx, a, v, rfl, ha, rfl⟩

end Writes

/-! ### The initialisation -/

section Init
variable {pf : Platform} {vm vm' : Vm} {k : ℕ}

/-- The segments do not touch the globals. -/
theorem keptByInit_globals (vm : Vm) (a : Addr) (k : ℕ) :
    KeptByInit (fun w => w.part (·.globals) a = vm.part (·.globals) a) k where
  table hs _ _ := (congrFun (tablesOnly_setTable _ _).globals a).trans hs
  memory hs _ _ := (congrFun (memoriesOnly_setMemory _ _).globals a).trans hs
  dropElem hs := by
    rw [← hs]
    refine congrFun (part_modifyInst ?_) a
    exact fun _ => rfl
  dropData hs := by
    rw [← hs]
    refine congrFun (part_modifyInst ?_) a
    exact fun _ => rfl

theorem part_setGlobal_ne {a b : Addr} {v : ValueU} (h : b ≠ a) :
    (vm.setGlobal a v).part (·.globals) b = vm.part (·.globals) b := by
  rw [globals_setGlobal, editAt, if_neg h]

/-- The rest of the initialisation leaves a global alone whose turn is over, or that is another
instance's. -/
theorem initRest_global {mod : Module} {rest : List (ℕ × Global)} {a : Addr} {res : Except Fault Unit}
    (hrest : ∀ x ∈ rest, a ≠ ⟨k, x.1⟩)
    (h : (do
      Eff.each (initGlobal pf k mod) rest
      Eff.each (initElem pf k mod) (indexed mod.elements)
      Eff.each (initData pf k) (indexed mod.data)) vm = (res, vm')) :
    vm'.part (·.globals) a = vm.part (·.globals) a := by
  have hall : Eff.Triple (fun w => w.part (·.globals) a = vm.part (·.globals) a) (do
      Eff.each (initGlobal pf k mod) rest
      Eff.each (initElem pf k mod) (indexed mod.elements)
      Eff.each (initData pf k) (indexed mod.data)) (fun _ w => w.part (·.globals) a = vm.part (·.globals) a)
      (fun w => w.part (·.globals) a = vm.part (·.globals) a) :=
    .bind (.each fun x hx => initGlobal_triple fun hs => (part_setGlobal_ne (hrest x hx)).trans hs) fun _ =>
      initSegments_triple (keptByInit_globals vm a k) mod
  obtain ⟨hok, herr⟩ := hall vm rfl
  cases res with
  | ok => exact hok _ _ h
  | error => exact herr _ _ h

/-- In an instantiation in `vm`, `w` is the VM right after the round of `module_inst_init_global`
for global `i`. -/
def InitialisedTo (pf : Platform) (vm : Vm) (modId : ℕ) (mod : Module) (i : ℕ) (w : Vm) : Prop :=
  ∃ mod' vm1 done g rest, vm.instances.any (·.modId == modId) = false ∧
    validateFuncs mod.funcs.length mod = .ok mod' ∧
    linkModuleInst vm.instances.length mod' (vm.push modId mod') = (.ok (), vm1) ∧
    indexed mod'.globals = done ++ (i, g) :: rest ∧
    Eff.each (initGlobal pf vm.instances.length mod') (done ++ [(i, g)]) vm1 = (.ok (), w)

/-- After its round a global does not change any more during the instantiation. -/
theorem InitialisedTo.kept {modId i : ℕ} {mod : Module} {w : Vm} (h : InitialisedTo pf vm modId mod i w) :
    (instantiate pf modId mod vm).2.part (·.globals) ⟨vm.instances.length, i⟩ =
      w.part (·.globals) ⟨vm.instances.length, i⟩ := by
  obtain ⟨mod', vm1, done, g, rest, hk, hval, hlink, hsplit, hset⟩ := h
  have hother : ∀ x ∈ rest, (⟨vm.instances.length, i⟩ : Addr) ≠ ⟨vm.instances.length, x.1⟩ := by
    intro x hx heq
    have hnodup := indexed_nodup mod'.globals
    rw [hsplit, List.map_append, List.map_cons] at hnodup
    have hnot := (List.nodup_cons.mp (List.nodup_append.mp hnodup).2.1).1
    exact hnot (List.mem_map.mpr ⟨x, hx, (Addr.mk.inj heq).2.symm⟩)
  have hinit : moduleInstInit pf vm.instances.length mod' vm1 = (do
      Eff.each (initGlobal pf vm.instances.length mod') rest
      Eff.each (initElem pf vm.instances.length mod') (indexed mod'.elements)
      Eff.each (initData pf vm.instances.length) (indexed mod'.data)) w := by
    have hcut : indexed mod'.globals = (done ++ [(i, g)]) ++ rest := by
      rw [hsplit, List.append_assoc, List.singleton_append]
    rw [moduleInstInit, hcut, Eff.each_append, Eff.bind_assoc, Eff.bind_apply, hset]
  have hphases := instantiate_phases pf modId mod vm
  generalize (instantiate pf modId mod vm).1 = res, (instantiate pf modId mod vm).2 = vm' at hphases ⊢
  cases hphases with
  | known hk' => rw [hk] at hk'; cases hk'
  | invalid _ hval' => rw [hval] at hval'; cases hval'
  | unlinked _ hval' hlink' =>
    rw [hval] at hval'
    cases hval'
    rw [hlink] at hlink'
    cases hlink'
  | uninitialized _ hval' hlink' hinit' | done _ hval' hlink' hinit' =>
    rw [hval] at hval'
    cases hval'
    rw [hlink] at hlink'
    cases hlink'
    exact initRest_global hother (hinit.symm.trans hinit')

/-- An instantiation does not change the globals of the other instances. -/
theorem instantiate_globals {modId : ℕ} {mod : Module} {a : Addr} (ha : a.inst < vm.instances.length) :
    (instantiate pf modId mod vm).2.part (·.globals) a = vm.part (·.globals) a := by
  have hlinked : ∀ {mod' res vm1}, linkModuleInst vm.instances.length mod' (vm.push modId mod') = (res, vm1) →
      vm1.part (·.globals) a = vm.part (·.globals) a := by
    intro mod' res vm1 hlink
    rw [(linked_fresh hlink).globals, part_push, if_neg (Nat.ne_of_lt ha)]
  have hinited : ∀ {mod' res vm1 vm2}, moduleInstInit pf vm.instances.length mod' vm1 = (res, vm2) →
      vm2.part (·.globals) a = vm1.part (·.globals) a :=
    fun hinit => initRest_global (fun x _ heq => Nat.ne_of_lt ha (congrArg Addr.inst heq)) hinit
  have hphases := instantiate_phases pf modId mod vm
  generalize (instantiate pf modId mod vm).1 = res, (instantiate pf modId mod vm).2 = vm' at hphases ⊢
  cases hphases with
  | known | invalid => rfl
  | unlinked _ _ hlink => exact hlinked hlink
  | uninitialized _ _ hlink hinit | done _ _ hlink hinit => exact (hinited hinit).trans (hlinked hlink)

end Init

/-! ### Runs -/

/-- What the validator does not check: `global.set` names mutable globals only. -/
def Module.SetsMutable (mod : Module) : Prop :=
  ∀ fn ∈ mod.funcs, ∀ l ∈ instrs mod fn.code, ∀ idx g, l.instr = .globalSet idx → mod.globals[idx]? = some g →
    g.mut_ = true

instance (mod : Module) : Decidable mod.SetsMutable :=
  decidable_of_iff (mod.funcs.all (fun fn => (instrs mod fn.code).all fun l =>
    match l.instr with
    | .globalSet idx => mod.globals[idx]?.all (·.mut_)
    | _ => true) = true) (by
      simp only [List.all_eq_true, Module.SetsMutable]
      refine forall₂_congr fun fn _ => forall₂_congr fun l _ => ?_
      cases l.instr with
      | globalSet idx =>
        simp only [Option.all_eq_true, Instr.globalSet.injEq]
        exact ⟨fun h idx' g he hg => h g (he ▸ hg), fun h g hg => h idx g rfl hg⟩
      | _ => simp)

/-- A module whose jumps are safe and that sets mutable globals only. -/
structure Module.Guarded (mod : Module) : Prop where
  jumps : mod.JumpsSafe
  sets : mod.SetsMutable

/-- What is true of the system in every state. -/
structure System.Guarded (s : System) : Prop where
  placed : s.Placed
  mods : ∀ mod ∈ s.vm.mods, mod.Trusted ∧ mod.SetsMutable
  linked : s.vm.MutLinked

section Runs
variable {pf : Platform} {s s' : System} {vm : Vm}

theorem validated_sets {mod mod' : Module} (h : mod.SetsMutable)
    (hval : validateFuncs mod.funcs.length mod = .ok mod') : mod'.SetsMutable := by
  intro fn' hfn' l hl idx g hi hg
  obtain ⟨fn, hfn, heq⟩ := validated_instrs hval hfn'
  rw [heq] at hl
  rw [show mod'.globals = mod'.parsed.globals from rfl, (validateFuncs_ok hval).parsed] at hg
  exact h fn hfn l hl idx g hi hg

theorem sysStep_guarded (h : SysStep pf Module.Guarded s s') (hs : s.Guarded) : s'.Guarded where
  placed := sysStep_placed h hs.placed
  mods := sysStep_forall_mods
    (fun _ _ hm hval => ⟨hm.jumps.trusted hval, validated_sets hm.sets hval⟩) h hs.mods
  linked := sysStep_linked (fun _ _ hw hshape => hw.of_shape hshape) (fun _ _ _ _ _ _ hw _ _ hl => hw.linked hl) h
    hs.linked

theorem guarded_empty : System.Guarded {} where
  placed fr hfr := by cases hfr
  mods mod hm := by cases hm
  linked := by
    refine ⟨fun mi hmi => ?_, fun k mi i a hmi => ?_⟩
    · cases hmi
    · cases hmi

theorem run_guarded (h : ReflTransGen (SysStep pf Module.Guarded) {} s) : s.Guarded :=
  Run.invariant (p := System.Guarded) (fun _ _ hstep => sysStep_guarded hstep) h guarded_empty

theorem erase_globalSet {i : Instr} {idx : ℕ} (h : i.erase = .globalSet idx) : i = .globalSet idx := by
  cases i <;> first | exact h | cases h

/-- A pass of the loop writes mutable globals only. -/
theorem runStep_global {r : Running} (hs : System.Guarded ⟨vm, some r⟩) (h : runStep pf vm r = .ok s) {a : Addr}
    {g : GlobalInst} (hg : vm.part (·.globals) a = some g) (hmut : g.glob.mut_ = false) :
    s.vm.part (·.globals) a = some g := by
  obtain ⟨vm1, hwrote, hpassed⟩ := runStep_wrote h
  rw [hpassed.part fun _ _ => rfl, ← hg]
  cases hwrote with
  | nothing => rfl
  | host => exact congrFun (memoriesOnly_setMemory _ _).globals a
  | @plain fr i args hexec _ =>
    obtain hsame | ⟨idx, b, v, rfl, hb, heff⟩ := effect_globals pf fr.fAddr.inst i args ⟨vm, fr.locals⟩
    · exact congrFun hsame a
    · obtain ⟨mi, fn, l, hmi, hfn, hl, herase⟩ := hexec.instr hs.placed fun mod hm => (hs.mods mod hm).1
      obtain ⟨mi', hmi', haddr⟩ := Vm.addr_ok.mp hb
      obtain rfl : mi' = mi := Option.some.inj (hmi'.symm.trans hmi)
      obtain ⟨d, t, hd, ht, hsame⟩ := hs.linked.links _ mi' idx b hmi' haddr
      have hset : d.mut_ = true :=
        (hs.mods mi'.mod (List.mem_map.mpr ⟨mi', List.mem_of_getElem? hmi, rfl⟩)).2 fn hfn l hl.1 idx d
          (erase_globalSet herase) hd
      rw [heff, part_setGlobal_ne]
      rintro rfl
      obtain rfl : t = g := Option.some.inj ((part_globals.mp ht).symm.trans hg)
      rw [hsame, hmut] at hset
      cases hset

theorem sysStep_global (h : SysStep pf Module.Guarded s s') (hs : s.Guarded) {a : Addr} {g : GlobalInst}
    (hg : s.vm.part (·.globals) a = some g) (hmut : g.glob.mut_ = false) : s'.vm.part (·.globals) a = some g := by
  cases h with
  | run h => exact runStep_global hs h hg hmut
  | invoke => exact hg
  | reset => exact hg
  | instantiate hm h =>
    obtain ⟨mi, hmi, -⟩ := Option.bind_eq_some_iff.mp hg
    rw [instantiateStep_part (fun _ _ => rfl) h, instantiate_globals (List.getElem?_eq_some_iff.mp hmi).1]
    exact hg

theorem run_global (h : ReflTransGen (SysStep pf Module.Guarded) s s') (hs : s.Guarded) {a : Addr} {g : GlobalInst}
    (hg : s.vm.part (·.globals) a = some g) (hmut : g.glob.mut_ = false) : s'.vm.part (·.globals) a = some g := by
  have hinv : s'.Guarded ∧ s'.vm.part (·.globals) a = some g := by
    refine Run.invariant (p := fun x => x.Guarded ∧ x.vm.part (·.globals) a = some g) ?_ h ⟨hs, hg⟩
    rintro x y hstep ⟨hx, hgx⟩
    exact ⟨sysStep_guarded hstep hx, sysStep_global hstep hx hgx hmut⟩
  exact hinv.2

end Runs

/-- In every run of modules that set mutable globals only, an immutable global has the value that
`module_inst_init_global` has given it from then on. -/
theorem immutable_globals (pf : Platform) (s : System) (hrun : ReflTransGen (SysStep pf Module.Guarded) {} s) :
    (∀ s' a g, ReflTransGen (SysStep pf Module.Guarded) s s' → s.vm.global a = .ok g → g.glob.mut_ = false →
      s'.vm.global a = .ok g) ∧
    (∀ modId mod i w s1 s' g, s.running = none → mod.Guarded → InitialisedTo pf s.vm modId mod i w →
      instantiateStep pf s.vm modId mod = .ok s1 → ReflTransGen (SysStep pf Module.Guarded) s1 s' →
      w.global ⟨s.vm.instances.length, i⟩ = .ok g → g.glob.mut_ = false →
      s'.vm.global ⟨s.vm.instances.length, i⟩ = .ok g) := by
  have hs := run_guarded hrun
  refine ⟨fun s' a g hrun' hg hmut => ?_, fun modId mod i w s1 s' g hrest hm hinit hstep hrun' hg hmut => ?_⟩
  · exact part_globals.mpr (run_global hrun' hs (part_globals.mp hg) hmut)
  · obtain ⟨vm, running⟩ := s
    obtain rfl : running = none := hrest
    have hs1 := sysStep_guarded (.instantiate hm hstep) hs
    have hg1 : s1.vm.part (·.globals) ⟨vm.instances.length, i⟩ = some g := by
      rw [instantiateStep_part (fun _ _ => rfl) hstep, hinit.kept]
      exact part_globals.mp hg
    exact part_globals.mpr (run_global hrun' hs1 hg1 hmut)

/-- An immutable global with the value 7, a mutable one, and a start function that sets global `b`
to 2. -/
def setterModule (b : UInt8) : Module where
  names := [[]]
  formatVersion := 1
  funcTypes := [{}]
  funcs := [{ code := [0x41, 2, 0x24, b, 0x0b] }]
  globals := [{ valtype := .i32, mut_ := false, expr := [0x41, 7, 0x0b] },
    { valtype := .i32, mut_ := true, expr := [0x41, 0, 0x0b] }]
  startFuncidx := some 0

theorem loaded_setterModule (b : UInt8) : Loaded (setterModule b) := by
  have hmod : moduleInit [0x00, 0x61, 0x73, 0x6d, 1, 0, 0, 0, 1, 4, 1, 0x60, 0, 0, 3, 2, 1, 0,
      6, 11, 2, 0x7f, 0, 0x41, 7, 0x0b, 0x7f, 1, 0x41, 0, 0x0b, 8, 1, 0, 10, 8, 1, 6, 0, 0x41, 2, 0x24, b, 0x0b] [] =
      .ok (setterModule b) := by rfl
  exact .init hmod

theorem guarded_setterModule : (setterModule 1).Guarded := by
  refine ⟨⟨loaded_setterModule 1, fun fn hfn _ => ?_⟩, by decide +kernel⟩
  rw [List.mem_singleton.mp hfn]
  decide +kernel

theorem immutable_globals_setter : ∃ s s' g,
    startRun (setterModule 1) 0 = .ok s ∧ startRun (setterModule 1) 2 = .ok s' ∧
    s.vm.global ⟨0, 0⟩ = .ok g ∧ g.gvalue = 7 ∧ s'.vm.global ⟨0, 0⟩ = .ok g := by
  have hvals : (startRun (setterModule 1) 0 >>= fun s => s.vm.global ⟨0, 0⟩) = .ok
      { glob := { valtype := .i32, mut_ := false, expr := [0x41, 7, 0x0b] }, gvalue := 7 } ∧
      (startRun (setterModule 1) 2 >>= fun s => .ok s.running.isSome) = .ok true := by decide +kernel
  obtain ⟨⟨s, hs, hg⟩, s', hs', -⟩ := hvals.imp bind_eq_ok.mp bind_eq_ok.mp
  refine ⟨s, s', _, hs, hs', hg, rfl, ?_⟩
  have hkept := (immutable_globals idle s (startRun_run guarded_setterModule hs)).1
  exact hkept s' ⟨0, 0⟩ _ (startRun_later (Nat.zero_le _) hs hs') hg rfl

/-- The validator lets a function set an immutable global. -/
theorem setter_writes_immutable : ∃ s s' g g',
    startRun (setterModule 0) 0 = .ok s ∧ startRun (setterModule 0) 2 = .ok s' ∧
    ReflTransGen (SysStep idle Loaded) {} s ∧ ReflTransGen (SysStep idle Loaded) s s' ∧
    s.vm.global ⟨0, 0⟩ = .ok g ∧ g.glob.mut_ = false ∧ s'.vm.global ⟨0, 0⟩ = .ok g' ∧ g'.gvalue ≠ g.gvalue := by
  have hvals : (startRun (setterModule 0) 0 >>= fun s => s.vm.global ⟨0, 0⟩) = .ok
      { glob := { valtype := .i32, mut_ := false, expr := [0x41, 7, 0x0b] }, gvalue := 7 } ∧
    (startRun (setterModule 0) 2 >>= fun s => s.vm.global ⟨0, 0⟩) = .ok
      { glob := { valtype := .i32, mut_ := false, expr := [0x41, 7, 0x0b] }, gvalue := 2 } := by decide +kernel
  obtain ⟨⟨s, hs, hg⟩, s', hs', hg'⟩ := hvals.imp bind_eq_ok.mp bind_eq_ok.mp
  refine ⟨s, s', _, _, hs, hs', startRun_run (loaded_setterModule 0) hs, startRun_later (Nat.zero_le _) hs hs', hg, rfl,
    hg', by decide⟩

end Silverfir
