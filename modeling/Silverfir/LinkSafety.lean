import Silverfir.Calls

/-! What linking reads and stores. An instance that is ready has all its address tables filled, with
addresses of instances that are ready; one that is not may have null in them. -/
namespace Silverfir

open Relation (ReflTransGen)

/-- The instance is ready. -/
def Vm.Ready (vm : Vm) (k : ℕ) : Prop := ∃ mi, vm.instances[k]? = some mi ∧ mi.state = .ready

/-- In every round that is reached for an import, the entry of the target is set when it is read, and
what is stored is the address of something in an instance that is ready. -/
def LinkSafe (k : ℕ) (mod : Module) (vm : Vm) : Prop :=
  ∀ done kind i rest vm1 path, mod.rounds = done ++ (kind, i) :: rest →
    Eff.each (linkRound k mod) done vm = (.ok (), vm1) → mod.importPath kind i = some path →
      (∀ t idx, vm1.linkTarget kind path = some (t, idx) → ∃ a, vm1.addr (·.addrs kind) t idx = .ok a) ∧
      ∀ vm2, linkRound k mod (kind, i) vm1 = (.ok (), vm2) →
        ∃ a, vm2.addr (·.addrs kind) k i = .ok a ∧ vm2.Ready a.inst

/-- The imports of the module that lead anywhere lead to instances that are ready. The new instance
is found by name as well. -/
def ImportsReady (vm : Vm) (mod : Module) : Prop :=
  ∀ kind i path t idx, mod.importPath kind i = some path →
    (vm.push 0 mod).linkTarget kind path = some (t, idx) → vm.Ready t

/-! ### Instances that are linked -/

/-- All entries of the address tables are set, and lead to the instance itself or to one that is
ready. -/
def Complete (vm : Vm) (k : ℕ) : Prop :=
  ∀ mi, vm.instances[k]? = some mi → ∀ kind i, i < mi.mod.space kind →
    ∃ a, (mi.addrs kind)[i]? = some (some a) ∧ (a.inst = k ∨ vm.Ready a.inst)

/-- What holds of the instances of a VM. -/
structure Settled (vm : Vm) : Prop where
  exports : ∀ mod ∈ vm.mods, ∀ exp ∈ mod.exports, exp.externalIdx < mod.space exp.externalKind
  ready : ∀ k, vm.Ready k → Complete vm k

/-- An instance whose start function runs is linked and waits to become ready. -/
structure LinkInv (s : System) : Prop where
  settled : Settled s.vm
  starting : ∀ r k, s.running = some r → r.cont = .start k →
    s.vm.states[k]? = some .uninitialized ∧ Complete s.vm k

theorem ready_iff {vm : Vm} {k : ℕ} : vm.Ready k ↔ vm.states[k]? = some .ready := by
  rw [Vm.states, List.getElem?_map, Option.map_eq_some_iff]
  rfl

section Changes
variable {vm vm' : Vm}

theorem Complete.of_shape {k : ℕ} (h : Complete vm k) (hs : vm'.shape = vm.shape)
    (hready : ∀ j, vm.Ready j → vm'.Ready j) : Complete vm' k := by
  intro mi' hmi' kind i hi
  have hpair := Vm.map_eq_of_shape (g := fun mi => (mi.mod, mi.addrs)) (fun _ => rfl) hs k
  rw [hmi', Option.map_some] at hpair
  obtain ⟨mi, hmi, heq⟩ := Option.map_eq_some_iff.mp hpair.symm
  obtain ⟨hmod, haddrs⟩ := Prod.mk.injEq .. ▸ heq
  obtain ⟨a, ha, hinst⟩ := h mi hmi kind i (by rw [hmod]; exact hi)
  exact ⟨a, by rw [← haddrs]; exact ha, hinst.imp_right (hready a.inst)⟩

/-- Contents change, and no instance becomes ready or stops to be. -/
theorem Settled.of_shape (h : Settled vm) (hs : vm'.shape = vm.shape) (hready : ∀ j, vm'.Ready j ↔ vm.Ready j) :
    Settled vm' where
  exports := by
    rw [Vm.mods_of_shape hs]
    exact h.exports
  ready k hk := (h.ready k ((hready k).mp hk)).of_shape hs fun j => (hready j).mpr

theorem ready_withState {k : ℕ} {st st' : ModuleInstState} (hk : vm.states[k]? = some st) (j : ℕ) :
    (vm.modifyInst k ({ · with state := st' })).Ready j ↔ if j = k then st' = .ready else vm.Ready j := by
  have hstates : (vm.modifyInst k ({ · with state := st' })).states[j]? =
      if j = k then some st' else vm.states[j]? := by
    rw [Vm.states, Vm.modifyInst, List.getElem?_map, List.getElem?_modify]
    rw [Vm.states, List.getElem?_map] at hk
    obtain ⟨mi, hmi, -⟩ := Option.map_eq_some_iff.mp hk
    by_cases hjk : j = k
    · subst hjk
      simp [hmi]
    · simp [hjk, Ne.symm hjk, Vm.states]
  rw [ready_iff, hstates]
  split
  · exact ⟨fun h => Option.some.inj h, fun h => congrArg some h⟩
  · exact ready_iff.symm

/-- The instance fails: nothing that is ready has led to it. -/
theorem Settled.failed (h : Settled vm) {k : ℕ} (hk : vm.states[k]? = some .uninitialized) :
    Settled (vm.modifyInst k ({ · with state := .initFailed })) := by
  refine h.of_shape (Vm.shape_withState vm k _) fun j => ?_
  rw [ready_withState hk]
  split
  · next hjk =>
    subst hjk
    rw [ready_iff, hk]
    simp
  · rfl

/-- The instance is linked and becomes ready. -/
theorem Settled.finished (h : Settled vm) {k : ℕ} (hk : vm.states[k]? = some .uninitialized) (hc : Complete vm k) :
    Settled (vm.modifyInst k ({ · with state := .ready })) := by
  have hready : ∀ j, vm.Ready j → (vm.modifyInst k ({ · with state := .ready })).Ready j := by
    intro j hj
    rw [ready_withState hk]
    split
    · rfl
    · exact hj
  refine ⟨?_, fun j hj => ?_⟩
  · rw [Vm.mods_of_shape (Vm.shape_withState vm k _)]
    exact h.exports
  · rw [ready_withState hk] at hj
    split at hj
    · next hjk =>
      subst hjk
      exact hc.of_shape (Vm.shape_withState vm j _) hready
    · exact (h.ready j hj).of_shape (Vm.shape_withState vm k _) hready

end Changes

/-! ### The new instance -/

section New
variable {vm : Vm} {modId : ℕ} {mod mod' : Module} {e : ExternalKind → List (Option Addr)}

theorem states_pushed : ((vm.push modId mod').relink vm.instances.length e).states = vm.states ++ [.uninitialized] := by
  have hrelink : ((vm.push modId mod').relink vm.instances.length e).states = (vm.push modId mod').states := by
    refine Vm.states_modifyInst ?_ _ _
    intro mi
    rfl
  rw [hrelink, Vm.states, Vm.push, List.map_append]
  rfl

theorem state_newest :
    ((vm.push modId mod').relink vm.instances.length e).states[vm.instances.length]? = some .uninitialized := by
  rw [states_pushed, show vm.instances.length = vm.states.length from (List.length_map ..).symm,
    List.getElem?_concat_length]

theorem ready_pushed (j : ℕ) : ((vm.push modId mod').relink vm.instances.length e).Ready j ↔ vm.Ready j := by
  rw [ready_iff, ready_iff, states_pushed, List.getElem?_append]
  split
  · rfl
  · next hj =>
    rw [List.getElem?_eq_none (Nat.not_lt.mp hj)]
    cases h : j - vm.states.length <;> simp

theorem ready_lt {j : ℕ} (h : vm.Ready j) : j < vm.instances.length := by
  obtain ⟨mi, hmi, -⟩ := h
  exact (List.getElem?_eq_some_iff.mp hmi).1

theorem inst_pushed {j : ℕ} (hj : j < vm.instances.length) :
    ((vm.push modId mod').relink vm.instances.length e).instances[j]? = vm.instances[j]? := by
  rw [inst_relink_ne (Nat.ne_of_lt hj), Vm.push, List.getElem?_append_left hj]

theorem Settled.pushed (h : Settled vm) (hexp : ∀ exp ∈ mod'.exports, exp.externalIdx < mod'.space exp.externalKind) :
    Settled ((vm.push modId mod').relink vm.instances.length e) where
  exports := by
    intro m hm
    rw [mods_relink, Vm.mods, Vm.push, List.map_append] at hm
    obtain hm | hm := List.mem_append.mp hm
    · exact h.exports m hm
    · rw [List.mem_singleton.mp hm]
      exact hexp
  ready j hj := by
    have hold := (ready_pushed j).mp hj
    intro mi hmi kind i hi
    rw [inst_pushed (ready_lt hold)] at hmi
    obtain ⟨a, ha, hinst⟩ := h.ready j hold mi hmi kind i hi
    exact ⟨a, ha, hinst.imp_right (ready_pushed a.inst).mpr⟩

/-- A module as it was parsed says where its imports lead. -/
theorem ImportsReady.target (h : ImportsReady vm mod) (hp : mod'.parsed = mod.parsed) {kind : ExternalKind} {i : ℕ}
    {path : ImportPath} (himp : mod'.importPath kind i = some path) {t idx : ℕ}
    (ht : (vm.push modId mod').linkTarget kind path = some (t, idx)) : vm.Ready t := by
  refine h kind i path t idx ?_ ?_
  · rw [← importPath_parsed, ← hp, importPath_parsed]
    exact himp
  · rw [← ht]
    refine Vm.linkTarget_of_parsed ?_ kind path
    simp only [Vm.mods, Vm.push, List.map_append, List.map_singleton]
    rw [show (moduleInstNew 0 mod).mod = mod from rfl, show (moduleInstNew modId mod').mod = mod' from rfl, hp]

theorem ImportsReady.away (h : ImportsReady vm mod) (hp : mod'.parsed = mod.parsed) (kind : ExternalKind) (i : ℕ) :
    LeadsAway vm.instances.length mod' (vm.push modId mod') kind i := by
  intro path t idx himp ht
  exact Nat.ne_of_lt (ready_lt (h.target hp himp ht))

theorem addrs_new (modId : ℕ) (mod : Module) (kind : ExternalKind) :
    ((moduleInstNew modId mod).addrs kind).length = mod.space kind := by
  cases kind <;> exact List.length_replicate

/-- The entry of a target that is ready. -/
theorem Settled.entry (h : Settled vm) {kind : ExternalKind} {path : ImportPath} {t idx : ℕ}
    (ht : (vm.push modId mod').linkTarget kind path = some (t, idx)) (hready : vm.Ready t) :
    ∃ a, ((vm.push modId mod').relink vm.instances.length e).addr (·.addrs kind) t idx = .ok a ∧ vm.Ready a.inst := by
  obtain ⟨mi, exp, hmi, -, hidx, hexp⟩ := Vm.linkTarget_ok ht
  have hlt := ready_lt hready
  have hmi' : vm.instances[t]? = some mi := by
    rw [← hmi, Vm.push, List.getElem?_append_left hlt]
  have hkind : exp.externalKind = kind := by
    have := List.find?_some hexp
    simp only [Bool.and_eq_true, beq_iff_eq] at this
    exact this.1
  have hmem : mi.mod ∈ vm.mods := List.mem_map.mpr ⟨mi, List.mem_of_getElem? hmi', rfl⟩
  have hrange := h.exports mi.mod hmem exp (List.mem_of_find?_eq_some hexp)
  rw [hkind, hidx] at hrange
  obtain ⟨a, ha, hinst⟩ := h.ready t hready mi hmi' kind idx hrange
  refine ⟨a, Vm.addr_ok.mpr ⟨mi, ?_, ha⟩, ?_⟩
  · rw [inst_pushed hlt]
    exact hmi'
  · obtain hself | hready' := hinst
    · rw [hself]
      exact hready
    · exact hready'

/-- Linking reads entries that are set, and stores addresses of ready instances. -/
theorem Settled.linkSafe (h : Settled vm) (hready : ImportsReady vm mod) (hp : mod'.parsed = mod.parsed) :
    LinkSafe vm.instances.length mod' (vm.push modId mod') := by
  intro done kind i rest vm1 path hrounds hdone himp
  have hmem : ∀ kind j, (kind, j) ∈ done → (kind, j) ∈ mod'.rounds := by
    intro kind j hj
    rw [hrounds]
    exact List.mem_append_left _ hj
  rw [← relink_self (push_newest vm modId mod')] at hdone
  obtain ⟨e, rfl, hlinked⟩ := each_linkRound
    (fun kind j hj => ⟨mem_rounds.mp (hmem kind j hj), hready.away hp kind j⟩) hdone
  have hlen : (e kind).length = mod'.space kind := (hlinked.length kind).trans (addrs_new modId mod' kind)
  have htarget := Vm.linkTarget_of_mods (@mods_relink vm.instances.length (vm.push modId mod') e) kind path
  refine ⟨fun t idx ht => ?_, fun vm2 hround => ?_⟩
  · rw [htarget] at ht
    obtain ⟨a, ha, -⟩ := h.entry (e := e) ht (hready.target hp himp ht)
    exact ⟨a, ha⟩
  · obtain ⟨a, vm3, hread, hmodify⟩ := Eff.bind_ok.mp hround
    obtain ⟨haddr, rfl⟩ := Eff.read_ok hread
    simp only [Eff.modify, Prod.mk.injEq, true_and] at hmodify
    rw [put_relink] at hmodify
    subst hmodify
    obtain ⟨t, idx, ht, ha, -⟩ := (linkAddr_import himp).mp haddr
    rw [htarget] at ht
    obtain ⟨a', ha', hinst⟩ := h.entry (e := e) ht (hready.target hp himp ht)
    obtain rfl : a' = a := Except.ok.inj (ha'.symm.trans ha)
    have hi : i < mod'.space kind := by
      refine mem_rounds.mp ?_
      rw [hrounds]
      exact List.mem_append_right _ List.mem_cons_self
    refine ⟨a', Vm.addr_ok.mpr ⟨_, Vm.inst_modifyInst_of (push_newest vm modId mod'), ?_⟩, ?_⟩
    · rw [if_pos rfl, addrs_relink, update_set, if_pos ⟨rfl, rfl⟩, hlen, if_pos hi]
    · exact (ready_pushed a'.inst).mpr hinst

/-- After linking, the new instance is linked with ready ones. -/
theorem Settled.linked {vm1 : Vm} (h : Settled vm) (hready : ImportsReady vm mod) (hp : mod'.parsed = mod.parsed)
    (hlink : linkModuleInst vm.instances.length mod' (vm.push modId mod') = (.ok (), vm1)) :
    Complete vm1 vm.instances.length := by
  obtain ⟨e, rfl, -, hentries⟩ := linkModuleInst_spec (push_newest vm modId mod') (addrs_new modId mod')
    (hready.away hp) hlink
  intro mi hmi kind i hi
  obtain rfl := Option.some.inj (hmi.symm.trans (Vm.inst_modifyInst_of (push_newest vm modId mod')))
  rw [if_pos rfl] at hi ⊢
  have hi' : i < mod'.space kind := hi
  obtain ⟨a, ha, haddr⟩ := hentries kind i hi'
  refine ⟨a, by rw [addrs_relink]; exact ha, ?_⟩
  cases himp : mod'.importPath kind i with
  | none =>
    rw [linkAddr_own hi' himp] at haddr
    cases haddr
    exact .inl rfl
  | some path =>
    obtain ⟨t, idx, ht, hat, -⟩ := (linkAddr_import himp).mp haddr
    obtain ⟨a', ha', hinst⟩ := h.entry (e := (moduleInstNew modId mod').addrs) ht (hready.target hp himp ht)
    rw [relink_self (push_newest vm modId mod')] at ha'
    obtain rfl : a' = a := Except.ok.inj (ha'.symm.trans hat)
    exact .inr ((ready_pushed a'.inst).mpr hinst)

end New

/-! ### Runs -/

/-- What the host may instantiate now: a parsed module whose imports lead to ready instances. -/
def LinkableModule (vm : Vm) (mod : Module) : Prop := mod.OfHost ∧ ImportsReady vm mod

theorem Module.OfHost.exports {mod : Module} (h : mod.OfHost) :
    ∀ exp ∈ mod.exports, exp.externalIdx < mod.space exp.externalKind := by
  obtain ⟨m, hm, heq⟩ := h
  intro exp hexp
  have hmem : exp ∈ m.exports := by
    rw [show m.exports = m.parsed.exports from rfl, ← heq]
    exact hexp
  rw [← space_parsed, heq, space_parsed]
  exact hm.indexed.exports exp hmem

theorem Module.OfHost.validated {mod mod' : Module} (h : mod.OfHost) (hp : mod'.parsed = mod.parsed) : mod'.OfHost := by
  obtain ⟨m, hm, heq⟩ := h
  exact ⟨m, hm, hp.trans heq⟩

section Step
variable {pf : Platform} {vm vm' : Vm}

theorem Settled.stores (h : Settled vm) (hs : ReflTransGen (StoreStep pf) vm vm') : Settled vm' := by
  refine h.of_shape (stores_shape hs) fun j => ?_
  rw [ready_iff, ready_iff, stores_states hs]

theorem LinkInv.stores {r : Running} (h : LinkInv ⟨vm, some r⟩) (hs : ReflTransGen (StoreStep pf) vm vm') :
    LinkInv ⟨vm', some r⟩ := by
  refine ⟨h.settled.stores hs, fun r' k hr hc => ?_⟩
  obtain ⟨hstate, hcomplete⟩ := h.starting r' k hr hc
  refine ⟨by rw [stores_states hs]; exact hstate, hcomplete.of_shape (stores_shape hs) fun j => ?_⟩
  rw [ready_iff, ready_iff, stores_states hs]
  exact id

/-- Only the thread of the VM changes. -/
theorem Settled.thread (h : Settled vm) (t : Thread) : Settled { vm with thread := t } :=
  h.of_shape rfl fun _ => Iff.rfl

theorem passed_linkInv {r : Running} {done : Bool} {s : System} (h : Passed vm r done s) (hi : LinkInv ⟨vm, some r⟩) :
    LinkInv s := by
  cases h with
  | next hc => exact ⟨hi.settled, fun r' k hr hcont => hi.starting r k rfl (by cases hr; exact hc ▸ hcont)⟩
  | abort =>
    rw [abort]
    split
    · exact ⟨hi.settled.thread _, by simp⟩
    · next k hk => exact ⟨hi.settled.failed (hi.starting r k rfl hk).1, by simp⟩
  | finish hc h =>
    rw [finish, hc] at h
    split at h
    · obtain ⟨vals, -, h⟩ := bind_eq_ok.mp h
      cases h
      exact ⟨hi.settled.thread _, by simp⟩
    · next k hk =>
      cases h
      obtain ⟨hstate, hcomplete⟩ := hi.starting r k rfl hk
      exact ⟨hi.settled.finished hstate hcomplete, by simp⟩

theorem Settled.failLast (h : Settled vm) {n : ℕ}
    (hn : vm.instances.length = n ∨ vm.states[n]? = some .uninitialized) : Settled (failLast n vm) := by
  rw [Silverfir.failLast]
  split
  · exact h
  · next hne => exact h.failed (hn.resolve_left hne)

section Instantiate
variable {modId : ℕ} {mod : Module}

/-- A failed instantiation leaves no instance, or one that is not ready. -/
theorem instantiate_error_settled {e : Fault} (hm : LinkableModule vm mod) (h : Settled vm)
    (hinst : instantiate pf modId mod vm = (.error e, vm')) : Settled (failLast vm.instances.length vm') := by
  have hphases := instantiate_phases pf modId mod vm
  rw [hinst] at hphases
  cases hphases with
  | invalid => exact h.failLast (.inl rfl)
  | unlinked hk hval hlink =>
    have hof := hm.1.validated (validateFuncs_ok hval).parsed
    obtain ⟨e, rfl⟩ := linkModuleInst_relinks (push_newest vm modId _) hlink
    exact (h.pushed hof.exports).failLast (.inr state_newest)
  | uninitialized hk hval hlink hinit =>
    have hof := hm.1.validated (validateFuncs_ok hval).parsed
    obtain ⟨e, rfl⟩ := linkModuleInst_relinks (push_newest vm modId _) hlink
    have hstores := (moduleInstInit_stores _ _ .refl).2 _ _ hinit
    refine ((h.pushed hof.exports).stores hstores).failLast (.inr ?_)
    rw [stores_states hstores]
    exact state_newest

/-- Up to the start function, the new instance is linked, and waits to become ready. -/
theorem instantiate_done_settled {k : ℕ} {start : Option ℕ} (hm : LinkableModule vm mod) (h : Settled vm)
    (hinst : instantiate pf modId mod vm = (.ok (some (k, start)), vm')) :
    Settled vm' ∧ vm'.states[k]? = some .uninitialized ∧ Complete vm' k := by
  have hphases := instantiate_phases pf modId mod vm
  rw [hinst] at hphases
  cases hphases with
  | done hk hval hlink hinit =>
    have hp := (validateFuncs_ok hval).parsed
    have hcomplete := h.linked hm.2 hp hlink
    obtain ⟨e, rfl⟩ := linkModuleInst_relinks (push_newest vm modId _) hlink
    have hstores := (moduleInstInit_stores _ _ .refl).1 _ _ hinit
    refine ⟨(h.pushed (hm.1.validated hp).exports).stores hstores, ?_, ?_⟩
    · rw [stores_states hstores]
      exact state_newest
    · refine hcomplete.of_shape (stores_shape hstores) fun j => ?_
      rw [ready_iff, ready_iff, stores_states hstores]
      exact id

theorem instantiateStep_linkInv {s : System} (hm : LinkableModule vm mod) (h : Settled vm)
    (hstep : instantiateStep pf vm modId mod = .ok s) : LinkInv s := by
  rw [instantiateStep] at hstep
  split at hstep
  · simp at hstep
  · next hinst =>
    cases hstep
    exact ⟨instantiate_error_settled hm h hinst, by simp⟩
  · next hinst =>
    cases hstep
    obtain ⟨-, rfl⟩ := instantiate_known hinst
    exact ⟨h, by simp⟩
  · next hinst =>
    cases hstep
    obtain ⟨hsettled, hstate, hcomplete⟩ := instantiate_done_settled hm h hinst
    exact ⟨hsettled.finished hstate hcomplete, by simp⟩
  · next k idx vm1 hinst =>
    obtain ⟨hsettled, hstate, hcomplete⟩ := instantiate_done_settled hm h hinst
    obtain ⟨fAddr, -, hstep⟩ := bind_eq_ok.mp hstep
    split at hstep
    · simp at hstep
    · cases hstep
      exact ⟨hsettled.failed hstate, by simp⟩
    · next r hcall =>
      cases hstep
      obtain ⟨-, hcont⟩ := callInThread_cont hcall
      refine ⟨hsettled, fun r' k' hr hc => ?_⟩
      cases hr
      rw [hcont] at hc
      cases hc
      exact ⟨hstate, hcomplete⟩

end Instantiate

/-- A step in which, if it is an instantiation, the imports of the module lead to ready instances. -/
def LinkableStep (pf : Platform) (s s' : System) : Prop := SysStep pf (LinkableModule s.vm) s s'

theorem sysStep_linkInv {s s' : System} (h : LinkableStep pf s s') (hi : LinkInv s) : LinkInv s' := by
  cases h with
  | run h =>
    obtain ⟨vm1, hstores, hpassed⟩ := runStep_passed h
    exact passed_linkInv hpassed (hi.stores hstores)
  | invoke hf h =>
    obtain ⟨ft, hcont⟩ := callInThread_cont h
    refine ⟨hi.settled, fun r k hr hc => ?_⟩
    cases hr
    rw [hcont] at hc
    cases hc
  | reset => exact ⟨hi.settled.thread _, by simp⟩
  | instantiate hm h => exact instantiateStep_linkInv hm hi.settled h

theorem linkInv_empty : LinkInv {} := by
  refine ⟨⟨by simp [Vm.mods], fun k hk => ?_⟩, by simp⟩
  obtain ⟨mi, hmi, -⟩ := hk
  cases hmi

end Step

/-- However the VM came to its state, if every module was instantiated when its imports led to ready
instances only, then in the next instantiation of this kind linking reads entries that are set and
stores addresses of ready instances. -/
theorem run_linkSafe (pf : Platform) (s : System) (hrun : ReflTransGen (LinkableStep pf) {} s)
    (modId : ℕ) (mod mod' : Module) (hmod : LinkableModule s.vm mod)
    (hval : validateFuncs mod.funcs.length mod = .ok mod') :
    LinkSafe s.vm.instances.length mod' (s.vm.push modId mod') := by
  have hinv := Run.invariant (fun _ _ hstep hi => sysStep_linkInv hstep hi) hrun linkInv_empty
  exact hinv.settled.linkSafe hmod.2 (validateFuncs_ok hval).parsed

/-- A module `a` with a memory, exported as `b`. -/
def exporterModule : Module where
  names := [[0x61]]
  formatVersion := 1
  memories := [{ lim := ⟨0, wasmMemMaxPages⟩, linkage := { exported := true } }]
  exports := [⟨[0x62], .memory, 0⟩]

theorem loaded_exporterModule : Loaded exporterModule := by
  have hmod : moduleInit [0x00, 0x61, 0x73, 0x6d, 1, 0, 0, 0, 5, 3, 1, 0, 0, 7, 5, 1, 1, 0x62, 2, 0] [0x61] =
      .ok exporterModule := by rfl
  exact .init hmod

/-- A module that imports the memory `b` of `a`. -/
def importerModule : Module where
  names := [[]]
  formatVersion := 1
  memories := [{ lim := ⟨0, wasmMemMaxPages⟩, linkage := { imported := true }, path := ⟨[0x61], [0x62]⟩ }]
  importedMemCount := 1

theorem loaded_importerModule : Loaded importerModule := by
  have hmod : moduleInit [0x00, 0x61, 0x73, 0x6d, 1, 0, 0, 0, 2, 8, 1, 1, 0x61, 1, 0x62, 2, 0, 0] [] =
      .ok importerModule := by rfl
  exact .init hmod

theorem importPath_importer {kind : ExternalKind} {i : ℕ} {path : ImportPath}
    (h : importerModule.importPath kind i = some path) : kind = .memory ∧ path = ⟨[0x61], [0x62]⟩ := by
  cases kind with
  | memory =>
    cases i with
    | zero =>
      cases h
      exact ⟨rfl, rfl⟩
    | succ => cases h
  | func | table | global => cases h

theorem run_linkSafe_memory : ∃ s, ReflTransGen (LinkableStep idle) {} s ∧
    LinkSafe 1 importerModule (s.vm.push 1 importerModule) := by
  have hexporter : LinkableModule {} exporterModule := by
    refine ⟨⟨_, loaded_exporterModule, rfl⟩, fun kind i path t idx himp => ?_⟩
    cases kind with
    | memory => cases i <;> cases himp
    | func | table | global => cases himp
  have hinst : instantiateStep idle {} 0 exporterModule = .ok { vm := { instances := [
      { moduleInstNew 0 exporterModule with state := .ready, mAddrs := [some ⟨0, 0⟩] }] } } := by rfl
  have hstep : LinkableStep idle {} _ := .instantiate hexporter hinst
  refine ⟨_, .single hstep, run_linkSafe idle _ (.single hstep) 1 importerModule importerModule ?_ rfl⟩
  refine ⟨⟨_, loaded_importerModule, rfl⟩, fun kind i path t idx himp ht => ?_⟩
  obtain ⟨rfl, rfl⟩ := importPath_importer himp
  have htarget : t = 0 := by
    cases ht
    rfl
  subst htarget
  exact ⟨_, rfl, rfl⟩

/-- A module `a` that imports the function `b` of `a`, which it exports. -/
def selfModule : Module where
  names := [[0x61]]
  formatVersion := 1
  funcTypes := [{}]
  funcs := [{ linkage := { imported := true, exported := true }, path := ⟨[0x61], [0x62]⟩ }]
  importedFuncCount := 1
  exports := [⟨[0x62], .func, 0⟩]

theorem loaded_selfModule : Loaded selfModule := by
  have hmod : moduleInit [0x00, 0x61, 0x73, 0x6d, 1, 0, 0, 0, 1, 4, 1, 0x60, 0, 0, 2, 7, 1, 1, 0x61, 1, 0x62, 0, 0,
      7, 5, 1, 1, 0x62, 0, 0] [0x61] = .ok selfModule := by rfl
  exact .init hmod

/-- The instance finds itself by name, and reads an entry that is still null. -/
theorem self_not_linkSafe : Loaded selfModule ∧ validateFuncs selfModule.funcs.length selfModule = .ok selfModule ∧
    ¬ LinkSafe 0 selfModule (Vm.push {} 0 selfModule) := by
  refine ⟨loaded_selfModule, rfl, fun hsafe => ?_⟩
  have hread := (hsafe [] .func 0 [] _ ⟨[0x61], [0x62]⟩ rfl rfl rfl).1
  obtain ⟨a, ha⟩ := hread 0 0 rfl
  cases ha

end Silverfir
