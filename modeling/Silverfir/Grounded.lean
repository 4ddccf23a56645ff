import Silverfir.Resolution
import Silverfir.MemoryPresence

/-! Where the entries of the address tables lead, in every run: an entry that is set leads to something
that some module defines, and of an instance that is ready all entries are set. -/
namespace Silverfir

open Relation (ReflTransGen)

/-- A definition of this kind is at the address, not an import. -/
def Vm.Declares (vm : Vm) (kind : ExternalKind) (a : Addr) : Prop :=
  ∃ mod, vm.mods[a.inst]? = some mod ∧ a.idx < mod.space kind ∧ mod.importPath kind a.idx = none

/-- What is true of the VM in every state. -/
structure Grounded (vm : Vm) : Prop where
  exports : ∀ mod ∈ vm.mods, ∀ exp ∈ mod.exports, exp.externalIdx < mod.space exp.externalKind
  declared : ∀ mi ∈ vm.instances, mi.Declared
  entries : ∀ (k : ℕ) (mi : ModuleInst) (kind : ExternalKind) (i : ℕ) (a : Addr), vm.instances[k]? = some mi →
    (mi.addrs kind)[i]? = some (some a) → vm.Declares kind a
  ready : ∀ k, vm.Ready k → vm.Linked k

/-- An instance whose start function runs is linked. -/
structure GroundedSystem (s : System) : Prop where
  vm : Grounded s.vm
  starting : ∀ r k, s.running = some r → r.cont = .start k →
    s.vm.states[k]? = some .uninitialized ∧ s.vm.Linked k

section Changes
variable {vm vm' : Vm}

theorem Vm.Declares.of_mods {kind : ExternalKind} {a : Addr} (h : vm.Declares kind a) (hs : vm'.mods = vm.mods) :
    vm'.Declares kind a := by
  rw [Vm.Declares, hs]
  exact h

/-- Contents change. -/
theorem Grounded.of_shape (h : Grounded vm) (hs : vm'.shape = vm.shape) (hready : ∀ k, vm'.Ready k → vm'.Linked k) :
    Grounded vm' where
  exports := by
    rw [Vm.mods_of_shape hs]
    exact h.exports
  declared mi' hmi' := by
    obtain ⟨k, hk⟩ := List.mem_iff_getElem?.mp hmi'
    obtain ⟨mi, hmi, he⟩ := inst_of_shape hs hk
    exact (h.declared mi (List.mem_of_getElem? hmi)).of_shape he
  entries k mi' kind i a hmi' ha := by
    obtain ⟨mi, hmi, he⟩ := inst_of_shape hs hmi'
    have haddrs : mi'.shape.addrs kind = mi.shape.addrs kind := by rw [he]
    exact (h.entries k mi kind i a hmi ((congrArg (·[i]?) haddrs).symm.trans ha)).of_mods (Vm.mods_of_shape hs)
  ready := hready

theorem Grounded.same_states (h : Grounded vm) (hs : vm'.shape = vm.shape) (hstates : vm'.states = vm.states) :
    Grounded vm' := by
  refine h.of_shape hs fun k hk => ?_
  rw [ready_iff, hstates, ← ready_iff] at hk
  exact (h.ready k hk).of_shape hs

theorem Grounded.withState (h : Grounded vm) {k : ℕ} {st st' : ModuleInstState} (hk : vm.states[k]? = some st)
    (hlinked : st' = .ready → vm.Linked k) : Grounded (vm.modifyInst k ({ · with state := st' })) := by
  refine h.of_shape (Vm.shape_withState vm k _) fun j hj => ?_
  rw [ready_withState hk] at hj
  split at hj
  · next heq =>
    rw [heq]
    exact (hlinked hj).of_shape (Vm.shape_withState vm k _)
  · exact (h.ready j hj).of_shape (Vm.shape_withState vm k _)

/-- A new instance, whose entries are not set. -/
theorem Grounded.push (h : Grounded vm) {modId : ℕ} {mod : Module}
    (hexp : ∀ exp ∈ mod.exports, exp.externalIdx < mod.space exp.externalKind) : Grounded (vm.push modId mod) := by
  have hmods : (vm.push modId mod).mods = vm.mods ++ [mod] := by
    rw [Vm.mods, Vm.push, List.map_append]
    rfl
  have hget : ∀ k mi, (vm.push modId mod).instances[k]? = some mi →
      vm.instances[k]? = some mi ∨ k = vm.instances.length ∧ mi = moduleInstNew modId mod := by
    intro k mi hmi
    rw [Vm.push, List.getElem?_append] at hmi
    split at hmi
    · exact Or.inl hmi
    · next hlt =>
      right
      obtain ⟨hone, heq⟩ := List.getElem?_eq_some_iff.mp hmi
      have hk : k - vm.instances.length = 0 := Nat.lt_one_iff.mp hone
      simp only [hk, List.getElem_cons_zero] at heq
      exact ⟨by omega, heq.symm⟩
  have hnone : ∀ kind (i : ℕ) (a : Addr), ((moduleInstNew modId mod).addrs kind)[i]? ≠ some (some a) := by
    intro kind i a ha
    have hmem := List.mem_of_getElem? ha
    cases kind <;> cases List.eq_of_mem_replicate hmem
  refine ⟨?_, declared_pushed h.declared modId mod, fun k mi kind i a hmi ha => ?_, fun k hk => ?_⟩
  · intro m hm
    rw [hmods] at hm
    rcases List.mem_append.mp hm with hm | hm
    · exact h.exports m hm
    · rw [List.mem_singleton.mp hm]
      exact hexp
  · rcases hget k mi hmi with hmi | ⟨-, rfl⟩
    · obtain ⟨target, htarget, hlt⟩ := h.entries k mi kind i a hmi ha
      refine ⟨target, ?_, hlt⟩
      rw [hmods, List.getElem?_append_left (List.getElem?_eq_some_iff.mp htarget).1]
      exact htarget
    · exact absurd ha (hnone kind i a)
  · obtain ⟨mi, hmi, hready⟩ := hk
    rcases hget k mi hmi with hmi | ⟨-, rfl⟩
    · intro mi' hmi' kind i hi
      have hold := (List.getElem?_eq_some_iff.mp hmi).1
      rw [Vm.push, List.getElem?_append_left hold] at hmi'
      exact h.ready k ⟨mi, hmi, hready⟩ mi' hmi' kind i hi
    · cases hready

end Changes

/-! ### Linking -/

section Linking
variable {vm vm' : Vm} {k : ℕ} {mod : Module}

theorem addrs_put (kind : ExternalKind) (i : ℕ) (a : Addr) (mi : ModuleInst) :
    (putAddr (kind, i) a mi).addrs = Function.update mi.addrs kind ((mi.addrs kind).set i (some a)) := by
  have hput := putAddr_relink (e := mi.addrs) kind i a mi
  rw [relink_addrs] at hput
  rw [hput, addrs_relink]

/-- Entries that are set stay set. -/
theorem put_set {kind kind' : ExternalKind} {i j : ℕ} {a b : Addr} {mi : ModuleInst}
    (h : (mi.addrs kind')[j]? = some (some b)) : ∃ c, ((putAddr (kind, i) a mi).addrs kind')[j]? = some (some c) := by
  rw [addrs_put, update_set]
  split
  · next heq =>
    obtain ⟨rfl, rfl⟩ := heq
    rw [if_pos (List.getElem?_eq_some_iff.mp h).1]
    exact ⟨a, rfl⟩
  · exact ⟨b, h⟩

theorem Vm.Linked.put (h : vm.Linked k) (j : ℕ) (kind : ExternalKind) (i : ℕ) (a : Addr) :
    (vm.modifyInst j (putAddr (kind, i) a)).Linked k := by
  intro mi' hmi' kind' i' hi'
  obtain ⟨mi, hmi, rfl⟩ := Vm.inst_modifyInst hmi'
  have hmod : ∀ x, (putAddr x a mi).mod = mi.mod := by
    rintro ⟨kind, i⟩
    cases kind <;> rfl
  split
  · rw [if_pos ‹_›, hmod] at hi'
    obtain ⟨b, hb⟩ := h mi hmi kind' i' hi'
    exact put_set hb
  · rw [if_neg ‹_›] at hi'
    exact h mi hmi kind' i' hi'

theorem Grounded.put (h : Grounded vm) {kind : ExternalKind} {a : Addr} (ha : vm.Declares kind a) (j i : ℕ) :
    Grounded (vm.modifyInst j (putAddr (kind, i) a)) := by
  have hmod : ∀ mi, (putAddr (kind, i) a mi).mod = mi.mod := fun mi => by cases kind <;> rfl
  have hmods := Vm.mods_modifyInst hmod j vm
  have hstates : (vm.modifyInst j (putAddr (kind, i) a)).states = vm.states :=
    Vm.states_modifyInst (fun mi => by cases kind <;> rfl) j vm
  refine ⟨?_, fun mi' hmi' => ?_, fun k mi' kind' i' b hmi' hb => ?_, fun k hk => ?_⟩
  · rw [hmods]
    exact h.exports
  · obtain ⟨k, hk⟩ := List.mem_iff_getElem?.mp hmi'
    obtain ⟨mi, hmi, rfl⟩ := Vm.inst_modifyInst hk
    have hd := h.declared mi (List.mem_of_getElem? hmi)
    split
    · have hlen : ∀ kind', ((putAddr (kind, i) a mi).addrs kind').length = mi.mod.space kind' := by
        intro kind'
        rw [addrs_put, ← hd.addrs kind']
        by_cases hkind : kind' = kind
        · rw [hkind, Function.update_self, List.length_set]
        · rw [Function.update_of_ne hkind]
      cases kind <;> exact ⟨hd.tables, hd.memories, hd.globals, hlen⟩
    · exact hd
  · refine Vm.Declares.of_mods ?_ hmods
    obtain ⟨mi, hmi, rfl⟩ := Vm.inst_modifyInst hmi'
    split at hb
    · rw [addrs_put, update_set] at hb
      split at hb
      · next heq =>
        split at hb
        · cases hb
          rw [heq.1]
          exact ha
        · cases hb
      · exact h.entries k mi kind' i' b hmi hb
    · exact h.entries k mi kind' i' b hmi hb
  · rw [ready_iff, hstates, ← ready_iff] at hk
    exact (h.ready k hk).put j kind i a

/-- The address that is found for an entry is that of something declared. -/
theorem Grounded.linkAddr (h : Grounded vm) (hk : vm.mods[k]? = some mod) {kind : ExternalKind} {i : ℕ} {a : Addr}
    (hi : i < mod.space kind) (haddr : linkAddr k mod (kind, i) vm = .ok a) : vm.Declares kind a := by
  cases hpath : mod.importPath kind i with
  | none =>
    rw [linkAddr_own hi hpath] at haddr
    cases haddr
    exact ⟨mod, hk, hi, hpath⟩
  | some path =>
    obtain ⟨t, idx, -, hentry, -⟩ := (linkAddr_import hpath).mp haddr
    obtain ⟨mi, hmi, ha⟩ := Vm.addr_ok.mp hentry
    exact h.entries t mi kind idx a hmi ha

theorem linkRound_grounded {x : ExternalKind × ℕ} (hx : x.2 < mod.space x.1) :
    Eff.Triple (fun w => Grounded w ∧ w.mods[k]? = some mod) (linkRound k mod x)
      (fun _ w => Grounded w ∧ w.mods[k]? = some mod) (fun w => Grounded w ∧ w.mods[k]? = some mod) := by
  obtain ⟨kind, i⟩ := x
  refine .bind (Q := fun a w => (Grounded w ∧ w.mods[k]? = some mod) ∧ w.Declares kind a)
    (.read (fun a w hw ha => ⟨hw, hw.1.linkAddr hw.2 hx ha⟩) fun _ hw => hw) fun a => .modify fun w hw => ?_
  obtain ⟨⟨hground, hmod⟩, hdeclares⟩ := hw
  refine ⟨hground.put hdeclares k i, ?_⟩
  rw [Vm.mods_modifyInst (fun mi => by cases kind <;> rfl)]
  exact hmod

theorem linkModuleInst_grounded :
    Eff.Triple (fun w => Grounded w ∧ w.mods[k]? = some mod) (linkModuleInst k mod)
      (fun _ w => Grounded w ∧ w.mods[k]? = some mod) (fun w => Grounded w ∧ w.mods[k]? = some mod) := by
  rw [linkModuleInst_eq]
  exact .each fun x hx => linkRound_grounded (mem_rounds.mp hx)

/-- The rounds that are over have set their entries. -/
theorem rounds_set {rounds : List (ExternalKind × ℕ)} (hlink : Eff.each (linkRound k mod) rounds vm = (.ok (), vm'))
    {mi : ModuleInst} (hmi : vm.instances[k]? = some mi) :
    ∃ mi', vm'.instances[k]? = some mi' ∧ mi'.mod = mi.mod ∧
      (∀ (kind : ExternalKind) (j : ℕ) (b : Addr), (mi.addrs kind)[j]? = some (some b) →
        ∃ c, (mi'.addrs kind)[j]? = some (some c)) ∧
      ∀ kind i, (kind, i) ∈ rounds → i < (mi.addrs kind).length → ∃ c, (mi'.addrs kind)[i]? = some (some c) := by
  induction rounds generalizing vm mi with
  | nil =>
    cases hlink
    exact ⟨mi, hmi, rfl, fun _ _ b hb => ⟨b, hb⟩, fun _ _ hmem => absurd hmem List.not_mem_nil⟩
  | cons x rounds ih =>
    obtain ⟨kind, i⟩ := x
    obtain ⟨⟨⟩, vm1, hround, hrest⟩ := Eff.bind_ok.mp hlink
    obtain ⟨a, vm2, hread, hmodify⟩ := Eff.bind_ok.mp hround
    obtain ⟨-, hsame⟩ := Eff.read_ok hread
    simp only [Eff.modify, Prod.mk.injEq, true_and] at hmodify
    subst hmodify
    rw [hsame] at hrest
    have hmi1 : (vm.modifyInst k (putAddr (kind, i) a)).instances[k]? = some (putAddr (kind, i) a mi) := by
      rw [Vm.inst_modifyInst_of hmi, if_pos rfl]
    obtain ⟨mi', hmi', hmod, hkept, hset⟩ := ih hrest hmi1
    have hlen : ∀ kind', ((putAddr (kind, i) a mi).addrs kind').length = (mi.addrs kind').length := by
      intro kind'
      rw [addrs_put]
      by_cases hkind : kind' = kind
      · rw [hkind, Function.update_self, List.length_set]
      · rw [Function.update_of_ne hkind]
    refine ⟨mi', hmi', hmod.trans (by cases kind <;> rfl), fun kind' j b hb => ?_, fun kind' j hmem hj => ?_⟩
    · obtain ⟨c, hc⟩ : ∃ c, ((putAddr (kind, i) a mi).addrs kind')[j]? = some (some c) := put_set hb
      exact hkept kind' j c hc
    · rcases List.mem_cons.mp hmem with heq | hmem
      · cases heq
        refine hkept kind i a ?_
        rw [addrs_put, Function.update_self, List.getElem?_set_self hj]
      · exact hset kind' j hmem (hlen kind' ▸ hj)

theorem linkModuleInst_linked (hlink : linkModuleInst k mod vm = (.ok (), vm')) {mi : ModuleInst}
    (hmi : vm.instances[k]? = some mi) (hmod : mi.mod = mod) (hlen : ∀ kind, (mi.addrs kind).length = mod.space kind) :
    vm'.Linked k := by
  rw [linkModuleInst_eq] at hlink
  obtain ⟨mi', hmi', hmod', -, hset⟩ := rounds_set hlink hmi
  intro mi2 hmi2 kind i hi
  obtain rfl : mi' = mi2 := Option.some.inj (hmi'.symm.trans hmi2)
  rw [hmod', hmod] at hi
  exact hset kind i (mem_rounds.mpr hi) (by rw [hlen]; exact hi)

end Linking

/-! ### Runs -/

section Step
variable {pf : Platform} {vm vm' : Vm} {modId : ℕ} {mod : Module}

theorem Grounded.stores (h : Grounded vm) (hs : ReflTransGen (StoreStep pf) vm vm') : Grounded vm' :=
  h.same_states (stores_shape hs) (stores_states hs)

theorem Grounded.failLast (h : Grounded vm) {n : ℕ} (hn : vm.instances.length = n ∨ ∃ st, vm.states[n]? = some st) :
    Grounded (failLast n vm) := by
  rw [Silverfir.failLast]
  split
  · exact h
  · next hne =>
    obtain ⟨st, hst⟩ := hn.resolve_left hne
    exact h.withState hst fun hready => by cases hready

theorem mods_push (vm : Vm) (modId : ℕ) (mod : Module) :
    (vm.push modId mod).mods[vm.instances.length]? = some mod := by
  rw [Vm.mods, List.getElem?_map, push_newest]
  rfl

/-- Whatever comes of an instantiation, up to the start function. -/
theorem instantiate_grounded {res : Except Fault (Option (ℕ × Option ℕ))} (hm : mod.OfHost) (h : Grounded vm)
    (hinst : instantiate pf modId mod vm = (res, vm')) :
    (∀ e, res = .error e → Grounded (failLast vm.instances.length vm')) ∧
    ∀ k start, res = .ok (some (k, start)) →
      Grounded vm' ∧ vm'.states[k]? = some .uninitialized ∧ vm'.Linked k := by
  have hphases := instantiate_phases pf modId mod vm
  rw [hinst] at hphases
  have hpushed : ∀ {mod'}, validateFuncs mod.funcs.length mod = .ok mod' → Grounded (vm.push modId mod') ∧
      (vm.push modId mod').mods[vm.instances.length]? = some mod' := by
    intro mod' hval
    have hof := hm.validated (validateFuncs_ok hval).parsed
    exact ⟨h.push hof.exports, mods_push vm modId mod'⟩
  cases hphases with
  | known => exact ⟨fun e he => (by cases he), fun k start he => (by cases he)⟩
  | invalid => exact ⟨fun e _ => h.failLast (Or.inl rfl), fun k start he => (by cases he)⟩
  | unlinked hk hval hlink =>
    refine ⟨fun e _ => ?_, fun k start he => (by cases he)⟩
    have hground := (linkModuleInst_grounded _ (hpushed hval)).2 _ _ hlink
    obtain ⟨e, rfl⟩ := linkModuleInst_relinks (push_newest vm modId _) hlink
    exact hground.1.failLast (Or.inr ⟨_, state_newest⟩)
  | uninitialized hk hval hlink hinit =>
    refine ⟨fun e _ => ?_, fun k start he => (by cases he)⟩
    have hground := (linkModuleInst_grounded _ (hpushed hval)).1 _ _ hlink
    have hstores := (moduleInstInit_stores _ _ .refl).2 _ _ hinit
    obtain ⟨e, rfl⟩ := linkModuleInst_relinks (push_newest vm modId _) hlink
    refine (hground.1.stores hstores).failLast (Or.inr ⟨.uninitialized, ?_⟩)
    rw [stores_states hstores]
    exact state_newest
  | done hk hval hlink hinit =>
    refine ⟨fun e he => (by cases he), fun k start he => ?_⟩
    cases he
    have hground := (linkModuleInst_grounded _ (hpushed hval)).1 _ _ hlink
    have hlinked := linkModuleInst_linked hlink (push_newest vm modId _) rfl (addrs_new modId _)
    have hstores := (moduleInstInit_stores _ _ .refl).1 _ _ hinit
    obtain ⟨e, rfl⟩ := linkModuleInst_relinks (push_newest vm modId _) hlink
    refine ⟨hground.1.stores hstores, ?_, hlinked.of_shape (stores_shape hstores)⟩
    rw [stores_states hstores]
    exact state_newest

theorem instantiateStep_grounded {s : System} (hm : mod.OfHost) (h : Grounded vm)
    (hstep : instantiateStep pf vm modId mod = .ok s) : GroundedSystem s := by
  rw [instantiateStep] at hstep
  split at hstep
  · simp at hstep
  · next hinst =>
    cases hstep
    exact ⟨(instantiate_grounded hm h hinst).1 _ rfl, by simp⟩
  · next hinst =>
    cases hstep
    obtain ⟨-, rfl⟩ := instantiate_known hinst
    exact ⟨h, by simp⟩
  · next hinst =>
    cases hstep
    obtain ⟨hground, hstate, hlinked⟩ := (instantiate_grounded hm h hinst).2 _ _ rfl
    exact ⟨hground.withState hstate fun _ => hlinked, by simp⟩
  · next k idx vm1 hinst =>
    obtain ⟨hground, hstate, hlinked⟩ := (instantiate_grounded hm h hinst).2 _ _ rfl
    obtain ⟨fAddr, -, hstep⟩ := bind_eq_ok.mp hstep
    split at hstep
    · simp at hstep
    · cases hstep
      exact ⟨hground.withState hstate fun hready => (by cases hready), by simp⟩
    · next r hcall =>
      cases hstep
      obtain ⟨-, hcont⟩ := callInThread_cont hcall
      refine ⟨hground, fun r' k' hr hc => ?_⟩
      cases hr
      rw [hcont] at hc
      cases hc
      exact ⟨hstate, hlinked⟩

theorem passed_grounded {r : Running} {done : Bool} {s : System} (h : Passed vm r done s)
    (hi : GroundedSystem ⟨vm, some r⟩) : GroundedSystem s := by
  have hthread : ∀ t : Thread, Grounded { vm with thread := t } := fun t => hi.vm.same_states rfl rfl
  cases h with
  | next hc => exact ⟨hi.vm, fun r' k hr hcont => hi.starting r k rfl (by cases hr; exact hc ▸ hcont)⟩
  | abort =>
    rw [abort]
    split
    · exact ⟨hthread _, by simp⟩
    · next k hk => exact ⟨hi.vm.withState (hi.starting r k rfl hk).1 fun hready => (by cases hready), by simp⟩
  | finish hc h =>
    rw [finish, hc] at h
    split at h
    · obtain ⟨vals, -, h⟩ := bind_eq_ok.mp h
      cases h
      exact ⟨hthread _, by simp⟩
    · next k hk =>
      cases h
      obtain ⟨hstate, hlinked⟩ := hi.starting r k rfl hk
      exact ⟨hi.vm.withState hstate fun _ => hlinked, by simp⟩

theorem sysStep_grounded {s s' : System} (h : SysStep pf Module.OfHost s s') (hi : GroundedSystem s) :
    GroundedSystem s' := by
  cases h with
  | run h =>
    obtain ⟨vm1, hstores, hpassed⟩ := runStep_passed h
    refine passed_grounded hpassed ⟨hi.vm.stores hstores, fun r' k hr hc => ?_⟩
    obtain ⟨hstate, hlinked⟩ := hi.starting r' k hr hc
    exact ⟨by rw [stores_states hstores]; exact hstate, hlinked.of_shape (stores_shape hstores)⟩
  | invoke hf h =>
    obtain ⟨ft, hcont⟩ := callInThread_cont h
    refine ⟨hi.vm, fun r k hr hc => ?_⟩
    cases hr
    rw [hcont] at hc
    cases hc
  | reset => exact ⟨hi.vm.same_states rfl rfl, by simp⟩
  | instantiate hm h => exact instantiateStep_grounded hm hi.vm h

theorem grounded_empty : GroundedSystem {} := by
  refine ⟨⟨by simp [Vm.mods], by simp, fun k mi kind i a hmi => by simp at hmi, fun k hk => ?_⟩, by simp⟩
  obtain ⟨mi, hmi, -⟩ := hk
  cases hmi

/-- In every state of every run. -/
theorem run_grounded {s : System} (hrun : ReflTransGen (SysStep pf Module.OfHost) {} s) : Grounded s.vm :=
  (Run.invariant (p := GroundedSystem) (fun _ _ hstep hi => sysStep_grounded hstep hi) hrun grounded_empty).vm

end Step

end Silverfir
