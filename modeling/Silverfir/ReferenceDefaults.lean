import Silverfir.TableEntries

/-! What references are before anything is written to them. `module_inst_new` fills tables with
`nullref`; `in_place_dt_call` clears the declared locals with zero bytes, and zero is not `nullref`. -/
namespace Silverfir

open InPlaceDt
open Relation (ReflTransGen)

/-! ### Tables -/

/-- A step that does not write entry `j` of table `b`. -/
inductive QuietStep (pf : Platform) (mods : Module → Prop) (b : Addr) (j : ℕ) : System → System → Prop
  | run {vm r s} (h : runStep pf vm r = .ok s)
      (hq : ∀ fr i args, System.ExecutesOn ⟨vm, some r⟩ fr i args → ¬ i.WritesEntry pf vm fr.fAddr.inst args b j) :
      QuietStep pf mods b j ⟨vm, some r⟩ s
  | host {vm s} (h : SysStep pf mods ⟨vm, none⟩ s) (hq : ∀ modId mod, instantiateStep pf vm modId mod = .ok s →
      ¬ InstantiationWrites pf vm modId mod b j) : QuietStep pf mods b j ⟨vm, none⟩ s

section Tables
variable {pf : Platform} {mods : Module → Prop} {b : Addr} {j : ℕ} {v : ValueU} {vm : Vm} {s s' : System}

theorem entry_push {modId : ℕ} {mod : Module} (hv : vm.entry b j = some v) :
    (vm.push modId mod).entry b j = some v := by
  rw [← hv]
  refine entry_of_part ?_
  rw [part_push, if_neg]
  intro hb
  rw [Vm.entry, Vm.part, hb, List.getElem?_eq_none (Nat.le_refl _)] at hv
  cases hv

/-- A pass of the loop leaves an entry that it does not write. -/
theorem runStep_entry {r : Running} (h : runStep pf vm r = .ok s)
    (hq : ∀ fr i args, System.ExecutesOn ⟨vm, some r⟩ fr i args → ¬ i.WritesEntry pf vm fr.fAddr.inst args b j)
    (hv : vm.entry b j = some v) : s.vm.entry b j = some v := by
  obtain ⟨vm1, hwrote, hpassed⟩ := runStep_wrote h
  rw [entry_of_part (congrFun (hpassed.part fun _ _ => rfl) b)]
  cases hwrote with
  | nothing => exact hv
  | host => exact (entry_of_part (congrFun (memoriesOnly_setMemory _ _).tables b)).trans hv
  | plain _ hon => exact effect_entry (hq _ _ _ hon) hv

theorem instantiateStep_entry {modId : ℕ} {mod : Module} (h : instantiateStep pf vm modId mod = .ok s)
    (hq : ¬ InstantiationWrites pf vm modId mod b j) (hv : vm.entry b j = some v) : s.vm.entry b j = some v := by
  rw [entry_of_part (congrFun (instantiateStep_part (fun _ _ => rfl) h) b)]
  obtain ⟨hsame, -⟩ | ⟨mod', -, hpushed⟩ := instantiate_entry hq
  · exact hsame.trans hv
  · exact hpushed.trans (entry_push hv)

theorem quietStep_entry (h : QuietStep pf mods b j s s') (hv : s.vm.entry b j = some v) : s'.vm.entry b j = some v := by
  cases h with
  | run h hq => exact runStep_entry h hq hv
  | host h hq =>
    cases h with
    | invoke | reset => exact hv
    | instantiate hm h => exact instantiateStep_entry h (hq _ _ h) hv

theorem run_entry (h : ReflTransGen (QuietStep pf mods b j) s s') (hv : s.vm.entry b j = some v) :
    s'.vm.entry b j = some v :=
  Run.invariant (p := fun x : System => x.vm.entry b j = some v) (fun _ _ hstep => quietStep_entry hstep) h hv

/-- An entry of a table that the new instance does not import. -/
theorem instantiateStep_null {modId i : ℕ} {mod : Module} {tab : Table} (h : instantiateStep pf vm modId mod = .ok s)
    (hmade : vm.instances.length < s.vm.instances.length) (htab : mod.tables[i]? = some tab)
    (hown : mod.importedTableCount ≤ i) (hj : j < tab.lim.min)
    (hq : ¬ InstantiationWrites pf vm modId mod ⟨vm.instances.length, i⟩ j) :
    s.vm.entry ⟨vm.instances.length, i⟩ j = some nullref := by
  rw [entry_of_part (congrFun (instantiateStep_part (fun _ _ => rfl) h) _)]
  obtain ⟨-, hlen⟩ | ⟨mod', hval, hpushed⟩ := instantiate_entry hq
  · have hsame := congrArg List.length (instantiateStep_shape h)
    simp only [Vm.shape, List.length_map] at hsame
    omega
  · have hparsed := (validateFuncs_ok hval).parsed
    have htables : mod'.tables = mod.tables := by
      change mod'.parsed.tables = mod.parsed.tables
      rw [hparsed]
    have hcount : mod'.importedTableCount = mod.importedTableCount := by
      change mod'.parsed.importedTableCount = mod.parsed.importedTableCount
      rw [hparsed]
    rw [hpushed, Vm.entry, part_push, if_pos rfl]
    simp only [moduleInstNew, List.getElem?_mapIdx, htables, htab, Option.map_some, Option.bind_some, newTable, hcount,
      if_pos hown, List.getElem?_replicate, if_pos hj]

end Tables

/-- A value that `ref.is_null` takes for null. -/
def ReadsNull (pf : Platform) (v : ValueU) : Prop :=
  v = nullref ∧ ∀ k s, ∃ w, effect pf k .refIsNull [v] s = (.ok [w], s) ∧ lo32 w = 1

theorem readsNull_nullref (pf : Platform) : ReadsNull pf nullref :=
  ⟨rfl, fun k s => ⟨setLo32 nullref 1, rfl, by decide⟩⟩

/-- An entry that reads as null, and that cannot be called. -/
structure EntryNull (pf : Platform) (vm : Vm) (b : Addr) (j : ℕ) : Prop where
  get : ∀ k idx elemIdx locals, vm.addr (·.tAddrs) k idx = .ok b → lo32 elemIdx = j →
    ∃ v, effect pf k (.tableGet idx) [elemIdx] ⟨vm, locals⟩ = (.ok [v], ⟨vm, locals⟩) ∧ ReadsNull pf v
  call : ∀ k mi typeIdx type tableIdx, vm.instances[k]? = some mi → mi.mod.funcTypes[typeIdx]? = some type →
    vm.addr (·.tAddrs) k tableIdx = .ok b →
    indirectCallee pf vm k typeIdx tableIdx j = err .general "call_indirect: element is ref.null"

theorem entryNull_of_entry {pf : Platform} {vm : Vm} {b : Addr} {j : ℕ} (h : vm.entry b j = some nullref) :
    EntryNull pf vm b j := by
  obtain ⟨t, ht, hj⟩ := Option.bind_eq_some_iff.mp h
  have htable := part_tables.mpr ht
  constructor
  · intro k idx elemIdx locals ha hidx
    refine ⟨nullref, ?_, readsNull_nullref pf⟩
    subst hidx
    simp only [effect, arg1, tableGet, Eff.bind_apply, @tabInst_apply k ⟨vm, locals⟩ b idx t ha htable, hj]
    rfl
  · intro k mi typeIdx type tableIdx hmi htype ha
    simp only [indirectCallee, Vm.inst, hmi, ok_bind, htype, ha, htable, hj, if_true]

/-! ### Locals -/

/-- A step that starts a call. -/
structure Enters (pf : Platform) (mods : Module → Prop) (s s' : System) (fr : Frame) (rest : List Frame) (fn : Func) :
    Prop where
  step : SysStep pf mods s s'
  frames : s'.frames = fr :: rest
  pushed : s.frames.length ≤ rest.length
  func : s'.vm.func fr.fAddr = .ok fn

/-- A step in which the call at height `h` goes on and does not write its local `idx`. -/
structure LeavesLocal (pf : Platform) (mods : Module → Prop) (h idx : ℕ) (s s' : System) : Prop where
  step : SysStep pf mods s s'
  active : h < s'.frames.length
  quiet : s.frames.length = h + 1 → ∀ fr i, s.Executes fr i → i ≠ .localSet idx ∧ i ≠ .localTee idx

/-- A local of the call at height `h`. -/
def System.localAt (s : System) (h idx : ℕ) : Option ValueU := s.frames.reverse[h]?.bind (·.locals[idx]?)

section Locals
variable {pf : Platform} {mods : Module → Prop} {s s' : System} {fr : Frame} {rest : List Frame} {fn : Func}

/-- The locals a call starts with. -/
def StartsWith (fn : Func) (locals : List ValueU) : Prop :=
  ∃ params, params.length = fn.fnType.paramCount ∧
    locals = params ++ List.replicate (fn.localCount - fn.fnType.paramCount) 0

theorem startsWith_enter {vm : Vm} {t t' : Thread} {fAddr : Addr} {params : List ValueU} {args : ℕ}
    (h : enter vm t fAddr params args = .ok (fr, t')) (hfn : vm.func fAddr = .ok fn)
    (hparams : params.length = fn.fnType.paramCount) : fr.fAddr = fAddr ∧ StartsWith fn fr.locals := by
  obtain ⟨-, -, fn', hfn', -, rfl, -⟩ := enter_ok h
  obtain rfl : fn' = fn := Except.ok.inj (hfn'.symm.trans hfn)
  exact ⟨rfl, params, hparams, rfl⟩

theorem startsWith_callInThread {vm : Vm} {t : Thread} {fAddr : Addr} {argv : List TypedValue} {cont : FuncType → Cont}
    {r : Running} (h : callInThread vm t fAddr argv cont = .ok r) (hframes : r.frames = fr :: rest)
    (hfn : vm.func fr.fAddr = .ok fn) : StartsWith fn fr.locals := by
  obtain ⟨-, fn', fr', t', hfn', hcount, -, hent, rfl⟩ := callInThread_ok h
  cases hframes
  obtain ⟨haddr, hstart⟩ := startsWith_enter hent hfn' (by rw [List.length_map, hcount])
  rw [haddr, hfn'] at hfn
  cases hfn
  exact hstart

theorem runStep_starts {vm : Vm} {r : Running} (h : runStep pf vm r = .ok s) (hframes : s.frames = fr :: rest)
    (hpushed : r.frames.length ≤ rest.length) (hfn : s.vm.func fr.fAddr = .ok fn) : StartsWith fn fr.locals := by
  obtain ⟨fr0, rest0, fn0, hr, -, hmoved⟩ := runStep_moved h
  rw [hr, List.length_cons] at hpushed
  cases hmoved with
  | stay =>
    cases hframes
    omega
  | call _ hcallee _ hent hparams =>
    cases hframes
    obtain ⟨haddr, hstart⟩ := startsWith_enter hent hcallee hparams
    rw [haddr, hcallee] at hfn
    cases hfn
    exact hstart
  | ret hrest =>
    cases hframes
    rw [hrest, List.length_cons] at hpushed
    omega
  | abort =>
    rw [frames_abort] at hframes
    cases hframes
  | finish _ h =>
    rw [frames_finish h] at hframes
    cases hframes

/-- Whoever makes the call, the declared locals start out as zero. -/
theorem Enters.starts (h : Enters pf mods s s' fr rest fn) : StartsWith fn fr.locals := by
  obtain ⟨hstep, hframes, hpushed, hfn⟩ := h
  cases hstep with
  | run h => exact runStep_starts h hframes hpushed hfn
  | invoke _ h => exact startsWith_callInThread h hframes hfn
  | reset => cases hframes
  | instantiate _ h =>
    obtain ⟨-, hstart⟩ := instantiateStep_ok h
    obtain ⟨r, hr⟩ := running_of_active (s := s') (by rw [hframes]; exact List.cons_ne_nil _ _)
    obtain ⟨k, fAddr, hcall⟩ := hstart r hr
    rw [frames_of_running hr] at hframes
    exact startsWith_callInThread hcall hframes hfn

/-- A declared local of a call that has just started is not null. -/
theorem Enters.local_ne (h : Enters pf mods s s' fr rest fn) (j : ℕ) :
    s'.localAt rest.length (fn.fnType.paramCount + j) ≠ some nullref := by
  obtain ⟨params, hlen, hlocals⟩ := h.starts
  have hfr : s'.frames.reverse[rest.length]? = some fr := by
    rw [h.frames, List.reverse_cons, List.getElem?_append_right (by rw [List.length_reverse]), List.length_reverse,
      Nat.sub_self]
    rfl
  rw [System.localAt, hfr, Option.bind_some, hlocals, List.getElem?_append_right (by omega), List.getElem?_replicate]
  split
  · decide
  · exact (Option.some_ne_none _).symm

end Locals

/-- A declared local of a reference type reads as null until it is written in the calls of functions
that declare none. An entry that `module_inst_new` makes reads as null until it is written. -/
theorem reference_defaults (pf : Platform) (mods : Module → Prop) :
    (∀ s s' fr rest fn, Enters pf mods s s' fr rest fn →
      ((∀ j t s'', fn.localTypes[j]? = some t → t.isRef = true →
        ReflTransGen (LeavesLocal pf mods rest.length (fn.fnType.paramCount + j)) s' s'' →
        ∃ v, s''.localAt rest.length (fn.fnType.paramCount + j) = some v ∧ ReadsNull pf v) ↔
      ∀ t ∈ fn.localTypes, t.isRef = false)) ∧
    (∀ vm modId mod s s' i tab j, mods mod → instantiateStep pf vm modId mod = .ok s →
      vm.instances.length < s.vm.instances.length → mod.tables[i]? = some tab → mod.importedTableCount ≤ i →
      j < tab.lim.min → ¬ InstantiationWrites pf vm modId mod ⟨vm.instances.length, i⟩ j →
      ReflTransGen (QuietStep pf mods ⟨vm.instances.length, i⟩ j) s s' →
      EntryNull pf s'.vm ⟨vm.instances.length, i⟩ j) := by
  constructor
  · intro s s' fr rest fn henter
    constructor
    · intro h t ht
      obtain ⟨j, hj⟩ := List.mem_iff_getElem?.mp ht
      by_contra href
      obtain ⟨v, hv, rfl, -⟩ := h j t s' hj (by simpa using href) .refl
      exact henter.local_ne j hv
    · intro h j t s'' hj href _
      rw [h t (List.mem_of_getElem? hj)] at href
      cases href
  · intro vm modId mod s s' i tab j _ hstep hmade htab hown hj hq hrun
    exact entryNull_of_entry (run_entry hrun (instantiateStep_null hstep hmade htab hown hj hq))

/-- A table of one entry, and a start function that asks whether its local is null. -/
def localNullModule : Module where
  names := [[]]
  formatVersion := 1
  funcTypes := [{}]
  funcs := [{ localCount := 1, localTypes := [.funcref], code := [0x20, 0, 0xd1, 0x1a, 0x0b] }]
  tables := [{ valtype := .funcref, lim := ⟨1, u32Max⟩ }]
  startFuncidx := some 0

theorem loaded_localNullModule : Loaded localNullModule := by
  have hmod : moduleInit [0x00, 0x61, 0x73, 0x6d, 1, 0, 0, 0, 1, 4, 1, 0x60, 0, 0, 3, 2, 1, 0, 4, 4, 1, 0x70, 0, 1,
      8, 1, 0, 10, 10, 1, 8, 1, 1, 0x70, 0x20, 0, 0xd1, 0x1a, 0x0b] [] = .ok localNullModule := by rfl
  exact .init hmod

theorem elements_of_writes {pf : Platform} {vm : Vm} {modId j : ℕ} {mod : Module} {b : Addr}
    (h : InstantiationWrites pf vm modId mod b j) : mod.elements ≠ [] := by
  obtain ⟨mod', vm1, vm2, x, vm3, -, hval, -, -, ⟨done, rest, hsplit, -⟩, -⟩ := h
  have helems : mod'.parsed.elements = mod.parsed.elements := by rw [(validateFuncs_ok hval).parsed]
  intro hnil
  rw [show mod'.elements = mod.elements from helems, hnil] at hsplit
  exact List.append_ne_nil_of_right_ne_nil _ (List.cons_ne_nil _ _) hsplit.symm

theorem localNull_enters : ∃ s fr fn, startRun localNullModule 0 = .ok s ∧ Enters idle Loaded {} s fr [] fn ∧
    fn.localTypes = [.funcref] ∧ fn.fnType.paramCount = 0 ∧ s.vm.instances.length = 1 := by
  have hvals : (startRun localNullModule 0 >>= fun s => .ok (s.frames.length, s.vm.instances.length)) = .ok (1, 1) ∧
      (startRun localNullModule 0 >>= fun s => match s.frames with
        | fr :: _ => s.vm.func fr.fAddr >>= fun fn => .ok (fn.localTypes, fn.fnType.paramCount)
        | [] => undef "frame") = .ok ([.funcref], 0) := by decide +kernel
  obtain ⟨⟨s, hs, hlen⟩, s', hs', hfr⟩ := hvals.imp bind_eq_ok.mp bind_eq_ok.mp
  obtain rfl := Except.ok.inj (hs'.symm.trans hs)
  have hlen' := Prod.mk.inj (Except.ok.inj hlen)
  obtain ⟨fr, hframes⟩ := List.length_eq_one_iff.mp hlen'.1
  rw [hframes] at hfr
  obtain ⟨fn, hfn, hdecl⟩ := bind_eq_ok.mp hfr
  have hdecl' := Prod.mk.inj (Except.ok.inj hdecl)
  exact ⟨s', fr, fn, hs, ⟨.instantiate loaded_localNullModule hs, hframes, Nat.le_refl 0, hfn⟩, hdecl'.1, hdecl'.2,
    hlen'.2⟩

theorem reference_defaults_localNull : ∃ s fr fn, Enters idle Loaded {} s fr [] fn ∧ fn.localTypes = [.funcref] ∧
    ¬(∀ j t s'', fn.localTypes[j]? = some t → t.isRef = true →
      ReflTransGen (LeavesLocal idle Loaded 0 (fn.fnType.paramCount + j)) s s'' →
      ∃ v, s''.localAt 0 (fn.fnType.paramCount + j) = some v ∧ ReadsNull idle v) ∧ EntryNull idle s.vm ⟨0, 0⟩ 0 := by
  obtain ⟨s, fr, fn, hs, henter, htypes, -, hlen⟩ := localNull_enters
  obtain ⟨hlocals, htables⟩ := reference_defaults idle Loaded
  refine ⟨s, fr, fn, henter, htypes, fun h => ?_, ?_⟩
  · have hnone := (hlocals {} s fr [] fn henter).mp h .funcref (by rw [htypes]; exact List.mem_singleton_self _)
    cases hnone
  · exact htables {} 0 localNullModule s s 0 _ 0 loaded_localNullModule hs (by rw [hlen]; decide) rfl (Nat.le_refl 0)
      (by decide) (fun hwrites => elements_of_writes hwrites rfl) .refl

/-- The local is zero, `ref.is_null` says that it is not null, and nothing has been written to it. -/
theorem unwritten_local_not_null : ∃ s s' fr fn, ReflTransGen (SysStep idle Loaded) {} s ∧
    Enters idle Loaded {} s fr [] fn ∧ fn.localTypes = [.funcref] ∧ fn.fnType.paramCount = 0 ∧
    s.localAt 0 0 = some 0 ∧ ¬ ReadsNull idle 0 ∧ startRun localNullModule 2 = .ok s' ∧
    s'.frames.map (fun fr => fr.act.stack.map lo32) = [[0]] := by
  obtain ⟨s, fr, fn, hs, henter, htypes, hcount, -⟩ := localNull_enters
  have hvals : (startRun localNullModule 0 >>= fun s => .ok (s.localAt 0 0)) = .ok (some 0) ∧
      (startRun localNullModule 2 >>= fun s => .ok (s.frames.map fun fr => fr.act.stack.map lo32)) = .ok [[0]] := by
    decide +kernel
  obtain ⟨⟨s0, hs0, hlocal⟩, s', hs', hstack⟩ := hvals.imp bind_eq_ok.mp bind_eq_ok.mp
  obtain rfl := Except.ok.inj (hs0.symm.trans hs)
  refine ⟨s0, s', fr, fn, startRun_run loaded_localNullModule hs, henter, htypes, hcount, Except.ok.inj hlocal, ?_, hs',
    Except.ok.inj hstack⟩
  rintro ⟨hnull, -⟩
  exact absurd hnull (by decide)

end Silverfir
