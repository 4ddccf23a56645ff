import Silverfir.TableEntries
import Silverfir.Agreement

/-! Dropped segments. The flag of a segment that has been dropped stays set, and `memory.init` and
`table.init` compare with the original length of the segment before they look at the flag. -/
namespace Silverfir

open InPlaceDt
open Relation (ReflTransGen)

inductive SegmentKind where
  | data | elem
  deriving DecidableEq, Repr

namespace SegmentKind

/-- `dropped_data` and `dropped_elements`. -/
def flags : SegmentKind → ModuleInst → List Bool
  | .data, mi => mi.droppedData
  | .elem, mi => mi.droppedElements

/-- The lengths of the segments of a module. -/
def lengths : SegmentKind → Module → List ℕ
  | .data, mod => mod.data.map (·.bytes.length)
  | .elem, mod => mod.elements.map (·.dataLen)

/-- The segments that are active or declarative. -/
def usedUp : SegmentKind → Module → List Bool
  | .data, mod => mod.data.map (·.isActive)
  | .elem, mod => mod.elements.map fun elem => decide (elem.mode ≠ .passive)

/-- The flag of a segment is set. -/
def drop : SegmentKind → ℕ → ModuleInst → ModuleInst
  | .data, idx, mi => { mi with droppedData := mi.droppedData.set idx true }
  | .elem, idx, mi => { mi with droppedElements := mi.droppedElements.set idx true }

/-- `data.drop` and `elem.drop` -/
def dropInstr : SegmentKind → ℕ → Instr
  | .data, idx => .dataDrop idx
  | .elem, idx => .elemDrop idx

/-- `memory.init` and `table.init`; there is only one memory to write to. -/
def initInstr : SegmentKind → ℕ → ℕ → Instr
  | .data, idx, _ => .memoryInit idx
  | .elem, idx, tableIdx => .tableInit idx tableIdx

/-- The size of what `initInstr` writes to. -/
def DestSize (kind : SegmentKind) (vm : Vm) (k tableIdx n : ℕ) : Prop :=
  match kind with
  | .data => ∃ a m, vm.addr (·.mAddrs) k 0 = .ok a ∧ vm.memory a = .ok m ∧ m.mdata.length = n
  | .elem => ∃ a t, vm.TableAt k tableIdx a t ∧ t.tdata.length = n

end SegmentKind

/-! ### Flags -/

/-- No flag is cleared, and there are as many flags and segments as before. -/
structure FlagsKept (vm vm' : Vm) : Prop where
  lengths : ∀ kind : SegmentKind, vm'.part (fun mi => kind.lengths mi.mod) = vm.part (fun mi => kind.lengths mi.mod)
  known : ∀ (kind : SegmentKind) (a : Addr), (vm'.part kind.flags a).isSome = (vm.part kind.flags a).isSome
  dropped : ∀ (kind : SegmentKind) (a : Addr), vm.part kind.flags a = some true → vm'.part kind.flags a = some true

/-- Every segment has a flag. -/
def Vm.Flagged (vm : Vm) : Prop :=
  ∀ (kind : SegmentKind) (a : Addr), (vm.part kind.flags a).isSome = (vm.part (fun mi => kind.lengths mi.mod) a).isSome

section Flags
variable {pf : Platform} {vm vm' vm'' : Vm} {k idx : ℕ}

theorem FlagsKept.refl (vm : Vm) : FlagsKept vm vm := ⟨fun _ => rfl, fun _ _ => rfl, fun _ _ h => h⟩

theorem FlagsKept.trans (h : FlagsKept vm vm') (h' : FlagsKept vm' vm'') : FlagsKept vm vm'' where
  lengths kind := (h'.lengths kind).trans (h.lengths kind)
  known kind a := (h'.known kind a).trans (h.known kind a)
  dropped kind a hd := h'.dropped kind a (h.dropped kind a hd)

theorem FlagsKept.of_parts (hlengths : ∀ kind : SegmentKind,
      vm'.part (fun mi => kind.lengths mi.mod) = vm.part (fun mi => kind.lengths mi.mod))
    (hflags : ∀ kind : SegmentKind, vm'.part kind.flags = vm.part kind.flags) : FlagsKept vm vm' where
  lengths := hlengths
  known kind a := by rw [hflags]
  dropped kind a hd := by
    rw [hflags]
    exact hd

/-- A change of the instances that leaves modules and flags alone. -/
theorem FlagsKept.modifyInst {f : ModuleInst → ModuleInst} (hmod : ∀ mi, (f mi).mod = mi.mod)
    (hflags : ∀ (kind : SegmentKind) mi, kind.flags (f mi) = kind.flags mi) : FlagsKept vm (vm.modifyInst k f) := by
  apply FlagsKept.of_parts
  · intro kind
    exact part_modifyInst fun mi => by rw [hmod]
  · intro kind
    exact part_modifyInst (hflags kind)

theorem flags_drop (kind kind' : SegmentKind) (mi : ModuleInst) :
    kind'.flags (kind.drop idx mi) = if kind' = kind then (kind'.flags mi).set idx true else kind'.flags mi := by
  cases kind <;> cases kind' <;> rfl

theorem part_drop (kind kind' : SegmentKind) (vm : Vm) (k idx : ℕ) :
    (vm.modifyInst k (kind.drop idx)).part kind'.flags =
      if kind' = kind then editAt (vm.part kind'.flags) ⟨k, idx⟩ fun _ => true else vm.part kind'.flags := by
  by_cases hk : kind' = kind
  · rw [if_pos hk]
    apply part_modifyInst_edit
    intro mi
    rw [flags_drop, if_pos hk, List.set_eq_modify]
  · rw [if_neg hk]
    apply part_modifyInst
    intro mi
    rw [flags_drop, if_neg hk]

theorem flagsKept_drop (kind : SegmentKind) : FlagsKept vm (vm.modifyInst k (kind.drop idx)) where
  lengths kind' := by
    apply part_modifyInst
    intro mi
    cases kind <;> rfl
  known kind' a := by
    rw [part_drop]
    split
    · rw [editAt]
      split
      · exact Option.isSome_map
      · rfl
    · rfl
  dropped kind' a hd := by
    rw [part_drop]
    split
    · rw [editAt, hd]
      split <;> rfl
    · exact hd

theorem flagsKept_setGlobal (a : Addr) (v : ValueU) : FlagsKept vm (vm.setGlobal a v) := by
  apply FlagsKept.modifyInst
  · intro mi
    rfl
  · intro kind mi
    cases kind <;> rfl

theorem flagsKept_setTable (a : Addr) (tdata : List ValueU) : FlagsKept vm (vm.setTable a tdata) := by
  apply FlagsKept.modifyInst
  · intro mi
    rfl
  · intro kind mi
    cases kind <;> rfl

theorem flagsKept_setMemory (a : Addr) (mdata : List UInt8) : FlagsKept vm (vm.setMemory a mdata) := by
  apply FlagsKept.modifyInst
  · intro mi
    rfl
  · intro kind mi
    cases kind <;> rfl

theorem keptBy_flags (vm : Vm) (i : Instr) : KeptBy (FlagsKept vm) i where
  global _ hs := hs.trans (flagsKept_setGlobal _ _)
  table _ hs _ _ := hs.trans (flagsKept_setTable _ _)
  memory hs _ _ := hs.trans (flagsKept_setMemory _ _)
  dropData hs := hs.trans (flagsKept_drop .data)
  dropElem hs := hs.trans (flagsKept_drop .elem)

theorem keptByInit_flags (vm : Vm) (k : ℕ) : KeptByInit (FlagsKept vm) k where
  table hs _ _ := hs.trans (flagsKept_setTable _ _)
  memory hs _ _ := hs.trans (flagsKept_setMemory _ _)
  dropElem hs := hs.trans (flagsKept_drop .elem)
  dropData hs := hs.trans (flagsKept_drop .data)

end Flags

/-! ### Runs -/

section Steps
variable {pf : Platform} {vm : Vm} {s s' : System}

theorem runStep_flags {r : Running} (h : runStep pf vm r = .ok s) : FlagsKept vm s.vm := by
  obtain ⟨vm1, hwrote, hpassed⟩ := runStep_wrote h
  have hwritten : FlagsKept vm vm1 := by
    cases hwrote with
    | nothing => exact .refl vm
    | host => exact flagsKept_setMemory _ _
    | @plain fr i args hexec hon =>
      have hkept := @effect_writes pf fr.fAddr.inst _ i (keptBy_flags vm i) args
      exact (hkept.conseq (fun _ hs => hs) fun _ _ hs => hs.2).after (s := ⟨vm, fr.locals⟩) (.refl vm)
  apply hwritten.trans
  apply FlagsKept.of_parts
  · intro kind
    exact hpassed.part fun _ _ => rfl
  · intro kind
    exact hpassed.part fun _ _ => by cases kind <;> rfl

/-- An instantiation makes at most one instance, with a flag for each segment. -/
theorem instantiate_flags (pf : Platform) (modId : ℕ) (mod : Module) (vm : Vm) :
    (instantiate pf modId mod vm).2 = vm ∨
      ∃ mod', FlagsKept (vm.push modId mod') (instantiate pf modId mod vm).2 := by
  have hlinked : ∀ {mod' res vm1}, linkModuleInst vm.instances.length mod' (vm.push modId mod') = (res, vm1) →
      FlagsKept (vm.push modId mod') vm1 := by
    intro mod' res vm1 hlink
    obtain ⟨e, rfl⟩ := linkModuleInst_relinks (push_newest vm modId mod') hlink
    apply FlagsKept.modifyInst
    · intro mi
      rfl
    · intro kind mi
      cases kind <;> rfl
  have hinited : ∀ {mod' res vm1 vm2}, moduleInstInit pf vm.instances.length mod' vm1 = (res, vm2) →
      FlagsKept vm1 vm2 := by
    intro mod' res vm1 vm2 hinit
    have hkept := (@moduleInstInit_triple pf _ _ (keptByInit_flags vm1 vm.instances.length) mod'
      fun hs => hs.trans (flagsKept_setGlobal _ _)).after (s := vm1) (.refl vm1)
    rw [hinit] at hkept
    exact hkept
  have hphases := instantiate_phases pf modId mod vm
  generalize (instantiate pf modId mod vm).1 = res, (instantiate pf modId mod vm).2 = vm' at hphases ⊢
  cases hphases with
  | known | invalid => exact Or.inl rfl
  | unlinked _ _ hlink => exact Or.inr ⟨_, hlinked hlink⟩
  | uninitialized _ _ hlink hinit | done _ _ hlink hinit => exact Or.inr ⟨_, (hlinked hlink).trans (hinited hinit)⟩

theorem Vm.Flagged.keep {vm' : Vm} (h : vm.Flagged) (hk : FlagsKept vm vm') : vm'.Flagged := by
  intro kind a
  rw [hk.known, hk.lengths]
  exact h kind a

theorem Vm.Flagged.push (h : vm.Flagged) (modId : ℕ) (mod : Module) : (vm.push modId mod).Flagged := by
  intro kind a
  rw [part_push, part_push]
  split
  · have hlen : (kind.flags (moduleInstNew modId mod)).length = (kind.lengths mod).length := by
      cases kind <;> simp [SegmentKind.flags, SegmentKind.lengths, moduleInstNew]
    have hsome : ∀ {α : Type} (xs : List α), xs[a.idx]?.isSome = decide (a.idx < xs.length) := by
      intro α xs
      by_cases hi : a.idx < xs.length
      · rw [List.getElem?_eq_getElem hi, decide_eq_true hi]
        rfl
      · rw [List.getElem?_eq_none (Nat.not_lt.mp hi), decide_eq_false hi]
        rfl
    change (kind.flags (moduleInstNew modId mod))[a.idx]?.isSome = (kind.lengths mod)[a.idx]?.isSome
    rw [hsome, hsome, hlen]
  · exact h kind a

theorem part_pushed {β : Type} {g : ModuleInst → List β} {a : Addr} {x : β} (h : vm.part g a = some x)
    {modId : ℕ} {mod : Module} : (vm.push modId mod).part g a = vm.part g a := by
  obtain ⟨mi, hmi, -⟩ := Option.bind_eq_some_iff.mp h
  have hlt := (List.getElem?_eq_some_iff.mp hmi).1
  rw [part_push, if_neg (Nat.ne_of_lt hlt)]

/-- What a step of the system does to the flags: they are kept, or there is a new instance first. -/
theorem sysStep_flags {mods : Module → Prop} (h : SysStep pf mods s s') :
    FlagsKept s.vm s'.vm ∨ ∃ modId mod, FlagsKept (s.vm.push modId mod) s'.vm := by
  cases h with
  | run h => exact Or.inl (runStep_flags h)
  | invoke | reset => exact Or.inl (.of_parts (fun _ => rfl) fun _ => rfl)
  | @instantiate vm modId mod _ hm h =>
    have hlast : FlagsKept (instantiate pf modId mod vm).2 s'.vm := by
      apply FlagsKept.of_parts
      · intro kind
        exact instantiateStep_part (fun _ _ => rfl) h
      · intro kind
        exact instantiateStep_part (fun _ _ => by cases kind <;> rfl) h
    rcases instantiate_flags pf modId mod vm with hsame | ⟨mod', hkept⟩
    · rw [hsame] at hlast
      exact Or.inl hlast
    · exact Or.inr ⟨modId, mod', hkept.trans hlast⟩

theorem run_flagged {mods : Module → Prop} (h : ReflTransGen (SysStep pf mods) {} s) : s.vm.Flagged := by
  apply Run.invariant (p := fun x : System => x.vm.Flagged) _ h
  · intro kind a
    rfl
  · intro x y hstep hx
    rcases sysStep_flags hstep with hkept | ⟨modId, mod, hkept⟩
    · exact hx.keep hkept
    · exact (hx.push modId mod).keep hkept

/-- What has been dropped stays so. -/
theorem run_dropped {mods : Module → Prop} (h : ReflTransGen (SysStep pf mods) s s') {kind : SegmentKind} {a : Addr}
    (hd : s.vm.part kind.flags a = some true) : s'.vm.part kind.flags a = some true := by
  apply Run.invariant (p := fun x : System => x.vm.part kind.flags a = some true) _ h hd
  intro x y hstep hx
  rcases sysStep_flags hstep with hkept | ⟨modId, mod, hkept⟩
  · exact hkept.dropped kind a hx
  · apply hkept.dropped kind a
    rw [part_pushed hx]
    exact hx

/-- Nor does the length of a segment change. -/
theorem run_lengths {mods : Module → Prop} (h : ReflTransGen (SysStep pf mods) s s') {kind : SegmentKind} {a : Addr}
    {len : ℕ} (hlen : s.vm.part (fun mi => kind.lengths mi.mod) a = some len) :
    s'.vm.part (fun mi => kind.lengths mi.mod) a = some len := by
  apply Run.invariant (p := fun x : System => x.vm.part (fun mi => kind.lengths mi.mod) a = some len) _ h hlen
  intro x y hstep hx
  rcases sysStep_flags hstep with hkept | ⟨modId, mod, hkept⟩
  · rw [hkept.lengths]
    exact hx
  · rw [hkept.lengths, part_pushed hx]
    exact hx

end Steps

/-! ### The ways of dropping a segment -/

section Drops
variable {pf : Platform} {mods : Module → Prop} {kind : SegmentKind} {k idx : ℕ} {s s' : System}

/-- In this step segment `idx` of instance `k` is dropped: by an instruction, or because it has been used
up when the instance is initialised. -/
inductive Drops (pf : Platform) (mods : Module → Prop) (kind : SegmentKind) (k idx : ℕ) : System → System → Prop
  | instr {vm r s fr} (h : runStep pf vm r = .ok s) (hexec : System.Executes ⟨vm, some r⟩ fr (kind.dropInstr idx))
      (hk : fr.fAddr.inst = k) : Drops pf mods kind k idx ⟨vm, some r⟩ s
  | instantiated {vm vm' modId mod start s} (hm : mods mod) (h : instantiateStep pf vm modId mod = .ok s)
      (hinit : instantiate pf modId mod vm = (.ok (some (k, start)), vm'))
      (hused : (kind.usedUp mod)[idx]? = some true) : Drops pf mods kind k idx ⟨vm, none⟩ s

theorem Drops.step (h : Drops pf mods kind k idx s s') : SysStep pf mods s s' := by
  cases h with
  | instr h => exact .run h
  | instantiated hm h => exact .instantiate hm h

theorem runStep_dropInstr {vm : Vm} {r : Running} {fr : Frame}
    (hexec : System.Executes ⟨vm, some r⟩ fr (kind.dropInstr idx)) (h : runStep pf vm r = .ok s) :
    s.vm = vm.modifyInst fr.fAddr.inst (kind.drop idx) := by
  obtain ⟨r', rest, fn, a, hr, hframes, hfn, hact⟩ := hexec
  obtain rfl : r = r' := Option.some.inj hr
  unfold runStep at h
  rw [hframes] at h
  dsimp only at h hfn
  rw [hfn, ok_bind, hact, ok_bind] at h
  cases kind <;> (cases h; rfl)

/-- The loops over the segments set the flags of those that are used up. -/
theorem moduleInstInit_drops {mod : Module} {w w' : Vm} (hused : (kind.usedUp mod)[idx]? = some true)
    (hknown : (w.part kind.flags ⟨k, idx⟩).isSome = true) (h : moduleInstInit pf k mod w = (.ok (), w')) :
    w'.part kind.flags ⟨k, idx⟩ = some true := by
  obtain ⟨⟨⟩, w1, hglobals, hrest⟩ := Eff.bind_ok.mp h
  obtain ⟨⟨⟩, w2, helements, hdata⟩ := Eff.bind_ok.mp hrest
  have hkept : FlagsKept w w1 := by
    have htriple : Eff.Triple (FlagsKept w) (Eff.each (initGlobal pf k mod) (indexed mod.globals))
        (fun _ => FlagsKept w) (FlagsKept w) :=
      .each fun x _ => initGlobal_triple fun hs => hs.trans (flagsKept_setGlobal _ _)
    have hafter := htriple.after (s := w) (.refl w)
    rw [hglobals] at hafter
    exact hafter
  rw [← hkept.known] at hknown
  obtain ⟨esegs, -, honly2, -, helems⟩ := initElems_effect helements
  obtain ⟨dsegs, -, honly3, -, hdatas⟩ := initDatas_effect hdata
  cases kind with
  | data =>
    obtain ⟨d, hd, hactive⟩ := Option.map_eq_some_iff.mp (List.getElem?_map.symm.trans hused)
    obtain ⟨b, hb⟩ := Option.isSome_iff_exists.mp hknown
    have hflag := hdatas ⟨k, idx⟩
    rw [if_pos ⟨rfl, (exists_indexed (p := fun d => d.isActive = true) hd).mpr hactive⟩, honly2.droppedData] at hflag
    change w1.part (·.droppedData) ⟨k, idx⟩ = some b at hb
    rw [hb] at hflag
    exact hflag
  | elem =>
    obtain ⟨elem, helem, hmode⟩ := Option.map_eq_some_iff.mp (List.getElem?_map.symm.trans hused)
    obtain ⟨b, hb⟩ := Option.isSome_iff_exists.mp hknown
    have hflag := helems ⟨k, idx⟩
    have hpassive : elem.mode ≠ .passive := of_decide_eq_true hmode
    rw [if_pos ⟨rfl, (exists_indexed (p := fun elem => elem.mode ≠ .passive) helem).mpr hpassive⟩] at hflag
    change w1.part (·.droppedElements) ⟨k, idx⟩ = some b at hb
    rw [hb] at hflag
    change w'.part (·.droppedElements) ⟨k, idx⟩ = some true
    rw [honly3.droppedElements]
    exact hflag

/-- A segment that is dropped has its flag set. -/
theorem Drops.dropped (h : Drops pf mods kind k idx s s') (hs : s.vm.Flagged)
    (hseg : (s'.vm.part (fun mi => kind.lengths mi.mod) ⟨k, idx⟩).isSome = true) :
    s'.vm.part kind.flags ⟨k, idx⟩ = some true := by
  cases h with
  | @instr vm r _ fr h hexec hk =>
    subst hk
    have hvm := runStep_dropInstr hexec h
    rw [(runStep_flags h).lengths, ← hs kind] at hseg
    obtain ⟨b, hb⟩ := Option.isSome_iff_exists.mp hseg
    rw [hvm, part_drop, if_pos rfl, editAt, if_pos rfl, hb]
    rfl
  | @instantiated vm vm' modId mod start _ hm h hinit hused =>
    have hflags : s'.vm.part kind.flags = vm'.part kind.flags := by
      have hpart := instantiateStep_part (g := kind.flags) (fun _ _ => by cases kind <;> rfl) h
      rw [hinit] at hpart
      exact hpart
    rw [hflags]
    have hphases := instantiate_phases pf modId mod vm
    rw [hinit] at hphases
    cases hphases with
    | @done mod' vm1 _ hk hval hlink hrest =>
      have hparsed := (validateFuncs_ok hval).parsed
      have hsame : kind.usedUp mod' = kind.usedUp mod := by
        have hdata : mod'.parsed.data = mod.parsed.data := congrArg Module.data hparsed
        have helements : mod'.parsed.elements = mod.parsed.elements := congrArg Module.elements hparsed
        change mod'.data = mod.data at hdata
        change mod'.elements = mod.elements at helements
        cases kind with
        | data => rw [SegmentKind.usedUp, SegmentKind.usedUp, hdata]
        | elem => rw [SegmentKind.usedUp, SegmentKind.usedUp, helements]
      have hpushed : (vm.push modId mod').Flagged := hs.push modId mod'
      obtain ⟨e, rfl⟩ := linkModuleInst_relinks (push_newest vm modId mod') hlink
      have hlinked : FlagsKept (vm.push modId mod') ((vm.push modId mod').relink vm.instances.length e) := by
        apply FlagsKept.modifyInst
        · intro mi
          rfl
        · intro kind mi
          cases kind <;> rfl
      apply moduleInstInit_drops (by rw [hsame]; exact hused) _ hrest
      rw [hlinked.known, hpushed kind, part_push, if_pos rfl]
      have hlen : (kind.usedUp mod').length = (kind.lengths mod').length := by
        cases kind <;> simp [SegmentKind.usedUp, SegmentKind.lengths]
      rw [← hsame] at hused
      have hlt := (List.getElem?_eq_some_iff.mp hused).1
      rw [hlen] at hlt
      change (kind.lengths mod')[idx]?.isSome = true
      rw [List.getElem?_eq_getElem hlt]
      rfl

end Drops

/-! ### The handlers -/

/-- What happens on a segment of length 0, when there is room for `n` values where it goes. -/
def ActsEmpty (n size src dst : ℕ) (s : ExecState) (out : Except Fault (List ValueU) × ExecState) : Prop :=
  (0 < src + size ∨ n < dst + size → ∃ t msg, out = (.error (.err t msg), s)) ∧
    (src + size = 0 ∧ dst + size ≤ n → out = (.ok [], s))

section Handlers
variable (pf : Platform) {kind : SegmentKind} {k idx tableIdx len n : ℕ} {s : ExecState} (size src dst : ValueU)

theorem part_inst {β : Type} {g : ModuleInst → List β} {vm : Vm} {x : β} (h : vm.part g ⟨k, idx⟩ = some x) :
    ∃ mi, vm.inst k = .ok mi ∧ (g mi)[idx]? = some x := by
  obtain ⟨mi, hmi, hx⟩ := Option.bind_eq_some_iff.mp h
  refine ⟨mi, ?_, hx⟩
  unfold Vm.inst
  rw [hmi]

/-- The length is compared first, and the flag is looked at when there is something to copy. -/
theorem init_dropped (hlen : s.vm.part (fun mi => kind.lengths mi.mod) ⟨k, idx⟩ = some len)
    (hd : s.vm.part kind.flags ⟨k, idx⟩ = some true) (hn : kind.DestSize s.vm k tableIdx n) :
    ∃ msg msg', effect pf k (kind.initInstr idx tableIdx) [size, src, dst] s =
      (if lo32 src + lo32 size > len ∨ lo32 dst + lo32 size > n then trap msg
      else if lo32 size = 0 then pure [] else trap msg') s := by
  obtain ⟨mi, hmi, hsegment⟩ := part_inst hlen
  obtain ⟨mi', hmi', hflag⟩ := part_inst hd
  obtain rfl : mi = mi' := Except.ok.inj (hmi.symm.trans hmi')
  cases kind with
  | data =>
    obtain ⟨a, m, ha, hm, rfl⟩ := hn
    obtain ⟨d, hdata, rfl⟩ := Option.map_eq_some_iff.mp (List.getElem?_map.symm.trans hsegment)
    change mi.droppedData[idx]? = some true at hflag
    refine ⟨"Invalid data access", "Data has been dropped", ?_⟩
    simp only [SegmentKind.initInstr, effect, arg3, memoryInit, Eff.bind_apply, mem0_apply ha hm, ofVm, Eff.read, hmi,
      hdata, hflag, if_true]
  | elem =>
    obtain ⟨a, t, ⟨ha, ht⟩, rfl⟩ := hn
    obtain ⟨elem, helem, rfl⟩ := Option.map_eq_some_iff.mp (List.getElem?_map.symm.trans hsegment)
    change mi.droppedElements[idx]? = some true at hflag
    refine ⟨"Invalid table access", "Element has been dropped", ?_⟩
    simp only [SegmentKind.initInstr, effect, arg3, tableInit, Eff.bind_apply, tabInst_apply ha ht, ofVm, Eff.read, hmi,
      helem, hflag, if_true]

theorem actsEmpty_iff (msg msg' : String) (size src dst : ℕ) :
    ActsEmpty n size src dst s ((if src + size > len ∨ dst + size > n then trap msg
      else if size = 0 then pure [] else trap msg') s) ↔ ¬ (size = 0 ∧ 0 < src ∧ src ≤ len ∧ dst ≤ n) := by
  by_cases hout : src + size > len ∨ dst + size > n
  · rw [if_pos hout]
    apply iff_of_true
    · refine ⟨fun _ => ⟨.general, msg, rfl⟩, ?_⟩
      rintro ⟨hzero, hfits⟩
      omega
    · omega
  · rw [if_neg hout]
    by_cases hsize : size = 0
    · rw [if_pos hsize]
      constructor
      · rintro ⟨htrap, -⟩ ⟨-, hsrc, -, -⟩
        obtain ⟨t, m, h⟩ := htrap (Or.inl (by omega))
        cases h
      · intro hnot
        refine ⟨fun h => ?_, fun _ => rfl⟩
        omega
    · rw [if_neg hsize]
      apply iff_of_true
      · refine ⟨fun _ => ⟨.general, msg', rfl⟩, ?_⟩
        rintro ⟨hzero, -⟩
        omega
      · omega

end Handlers

/-- However a segment has been dropped, and whatever has run since, it acts as an empty one, unless the
size is 0 and the source is behind the start and not behind the original end. -/
theorem dropped_segments (pf : Platform) (mods : Module → Prop) (kind : SegmentKind) (k idx len tableIdx n : ℕ)
    (s0 s1 s2 : System) (hrun : ReflTransGen (SysStep pf mods) {} s0) (hdrops : Drops pf mods kind k idx s0 s1)
    (hlater : ReflTransGen (SysStep pf mods) s1 s2)
    (hlen : s1.vm.part (fun mi => kind.lengths mi.mod) ⟨k, idx⟩ = some len) (hn : kind.DestSize s2.vm k tableIdx n)
    (locals : List ValueU) (size src dst : ValueU) :
    ActsEmpty n (lo32 size) (lo32 src) (lo32 dst) ⟨s2.vm, locals⟩
        (effect pf k (kind.initInstr idx tableIdx) [size, src, dst] ⟨s2.vm, locals⟩) ↔
      ¬ (lo32 size = 0 ∧ 0 < lo32 src ∧ lo32 src ≤ len ∧ lo32 dst ≤ n) := by
  have hdropped : s1.vm.part kind.flags ⟨k, idx⟩ = some true := by
    apply hdrops.dropped (run_flagged hrun)
    rw [hlen]
    rfl
  have hstays := run_dropped hlater hdropped
  have hlen2 := run_lengths hlater hlen
  obtain ⟨msg, msg', heff⟩ := init_dropped pf size src dst (s := ⟨s2.vm, locals⟩) hlen2 hstays hn
  rw [heff]
  exact actsEmpty_iff msg msg' _ _ _

/-! ### The segment of `growModule` -/

theorem drops_grow : Drops idle Loaded .elem 0 0 {} { vm := growVm [] } := by
  have hfirst : (instantiate idle 0 growModule {}).1 = .ok (some (0, none)) := by decide +kernel
  have hinit : instantiate idle 0 growModule {} = (.ok (some (0, none)), (instantiate idle 0 growModule {}).2) := by
    rw [← hfirst]
  exact .instantiated loaded_growModule instantiate_growModule hinit rfl

theorem dropped_segments_grow : ActsEmpty 1 0 0 0 ⟨growVm [], []⟩
    (effect idle 0 (.tableInit 0 0) [0, 0, 0] ⟨growVm [], []⟩) := by
  have hdest : SegmentKind.elem.DestSize (growVm []) 0 0 1 := ⟨⟨0, 0⟩, _, ⟨rfl, rfl⟩, rfl⟩
  exact (dropped_segments idle Loaded .elem 0 0 1 0 1 {} _ _ .refl drops_grow .refl rfl hdest [] 0 0 0).mpr (by decide)

/-- Nothing is copied from behind the start of the dropped segment, and there is no trap. -/
theorem source_of_dropped_ignored : Drops idle Loaded .elem 0 0 {} { vm := growVm [] } ∧
    SegmentKind.elem.DestSize (growVm []) 0 0 1 ∧
    ¬ ActsEmpty 1 (lo32 0) (lo32 1) (lo32 0) ⟨growVm [], []⟩
      (effect idle 0 (.tableInit 0 0) [0, 1, 0] ⟨growVm [], []⟩) := by
  refine ⟨drops_grow, ⟨⟨0, 0⟩, _, ⟨rfl, rfl⟩, rfl⟩, ?_⟩
  rintro ⟨htrap, -⟩
  obtain ⟨t, msg, h⟩ := htrap (Or.inl (by decide))
  have hok : (effect idle 0 (.tableInit 0 0) [0, 1, 0] ⟨growVm [], []⟩).1 = .ok [] := by decide +kernel
  rw [h] at hok
  cases hok

end Silverfir
