import Silverfir.InPlaceTco
import Silverfir.Parts
import Silverfir.Sizes
import Silverfir.Lib.Lockstep

/-! The two interpreters side by side. They take the same steps as long as what a call of
`in_place_tco.c` has cached about its memory 0 is what the memory is like. -/
namespace Silverfir

open Lockstep (Both steps)
open InPlaceDt (Act Outcome Exec ExecState effect lo32 opcodeAt operandCount resultCount)
open InPlaceTco (CallCtx Mem0 takeMem0)

/-- An error is returned, and the behaviour is not undefined. -/
def Fault.isErr : Fault → Bool
  | .err _ _ => true
  | .undefined _ => false

/-- Failures that are both errors, with whatever message, or both undefined. -/
def Alike (e e' : Fault) : Prop := e.isErr = e'.isErr

theorem alike_refl (e : Fault) : Alike e e := rfl

/-! ### The sizes of the memories -/

def Vm.memSizes (vm : Vm) (a : Addr) : Option ℕ := (vm.part (·.memories) a).map (·.mdata.length)

/-- Sizes and limits are 32-bit numbers of pages. -/
def Vm.FewPages (vm : Vm) : Prop :=
  ∀ a m, vm.memory a = .ok m → m.mdata.length / wasmPageSize < 2 ^ 32 ∧ m.mem.lim.max < 2 ^ 32

section Sizes
variable {vm vm' : Vm} {k : ℕ} {c : Mem0}

theorem memSizes_ok {a : Addr} {m : MemoryInst} (hm : vm.memory a = .ok m) :
    vm.memSizes a = some m.mdata.length := by
  rw [Vm.memSizes, part_memories.mp hm]
  rfl

theorem memSizes_setMemory {a : Addr} {m : MemoryInst} {mdata : List UInt8} (hm : vm.memory a = .ok m)
    (hlen : mdata.length = m.mdata.length) : (vm.setMemory a mdata).memSizes = vm.memSizes := by
  funext b
  rw [Vm.memSizes, Vm.memSizes, memories_setMemory, editAt]
  split
  · next hb =>
    rw [hb, part_memories.mp hm]
    simp [hlen]
  · rfl

theorem fewPages_setMemory {a : Addr} {m : MemoryInst} {mdata : List UInt8} (hf : vm.FewPages)
    (hm : vm.memory a = .ok m)
    (hlen : mdata.length / wasmPageSize < 2 ^ 32) : (vm.setMemory a mdata).FewPages := by
  intro b m' hm'
  rw [part_memories, memories_setMemory, editAt] at hm'
  split at hm'
  · next hb =>
    rw [hb, part_memories.mp hm] at hm'
    obtain rfl := Option.some.inj hm'
    exact ⟨hlen, (hf a m hm).2⟩
  · exact hf b m' (part_memories.mpr hm')

theorem memory_of_part (h : vm'.part (·.memories) = vm.part (·.memories)) {a : Addr} {m : MemoryInst}
    (hm : vm'.memory a = .ok m) : vm.memory a = .ok m := by
  rw [part_memories] at hm ⊢
  rw [← h]
  exact hm

theorem memSizes_of_part (h : vm'.part (·.memories) = vm.part (·.memories)) : vm'.memSizes = vm.memSizes := by
  funext a
  rw [Vm.memSizes, Vm.memSizes, h]

theorem FewPages.of_part (hf : vm.FewPages) (h : vm'.part (·.memories) = vm.part (·.memories)) : vm'.FewPages :=
  fun a m hm => hf a m (memory_of_part h hm)

/-- What an instruction leaves of the sizes: all of them, unless it is `memory.grow`. -/
structure SizesKept (vm : Vm) (i : Instr) (vm' : Vm) : Prop where
  shape : vm'.shape = vm.shape
  fewPages : vm'.FewPages
  memSizes : i ≠ .memoryGrow → vm'.memSizes = vm.memSizes

theorem keptBy_sizes (vm : Vm) (i : Instr) : KeptBy (SizesKept vm i) i where
  global {vm' a v} _ hs := by
    have hpart := (@globalsOnly_setGlobal vm' a v).memories
    exact ⟨(Vm.shape_setGlobal a v vm').trans hs.shape, FewPages.of_part hs.fewPages hpart,
      fun hi => (memSizes_of_part hpart).trans (hs.memSizes hi)⟩
  table {vm' a t tdata} _ hs _ _ := by
    have hpart := (@tablesOnly_setTable vm' a tdata).memories
    exact ⟨(Vm.shape_setTable a tdata vm').trans hs.shape, FewPages.of_part hs.fewPages hpart,
      fun hi => (memSizes_of_part hpart).trans (hs.memSizes hi)⟩
  memory {vm' a m mdata} hs hm hlen := by
    refine ⟨(Vm.shape_setMemory a mdata vm').trans hs.shape, ?_, fun hi => ?_⟩
    · obtain hlen | ⟨-, pages, hpages, -, hmax⟩ := hlen
      · refine fewPages_setMemory hs.fewPages hm ?_
        rw [hlen]
        exact (hs.fewPages a m hm).1
      · refine fewPages_setMemory hs.fewPages hm ?_
        rw [hpages, Nat.mul_div_cancel _ (by decide)]
        exact Nat.lt_of_le_of_lt hmax (hs.fewPages a m hm).2
    · obtain hlen | ⟨hgrow, -⟩ := hlen
      · exact (memSizes_setMemory hm hlen).trans (hs.memSizes hi)
      · exact absurd hgrow hi
  dropData {vm' k idx} hs := by
    have hpart : (vm'.modifyInst k fun mi => { mi with droppedData := mi.droppedData.set idx true }).part (·.memories) =
        vm'.part (·.memories) := part_modifyInst fun _ => rfl
    refine ⟨(Vm.shape_modifyInst ?_ k vm').trans hs.shape, FewPages.of_part hs.fewPages hpart,
      fun hi => (memSizes_of_part hpart).trans (hs.memSizes hi)⟩
    intro mi
    rfl
  dropElem {vm' k idx} hs := by
    have hpart : (vm'.modifyInst k fun mi => { mi with droppedElements := mi.droppedElements.set idx true }).part
        (·.memories) = vm'.part (·.memories) := part_modifyInst fun _ => rfl
    refine ⟨(Vm.shape_modifyInst ?_ k vm').trans hs.shape, FewPages.of_part hs.fewPages hpart,
      fun hi => (memSizes_of_part hpart).trans (hs.memSizes hi)⟩
    intro mi
    rfl

/-- The state of the VM after an instruction, whether it succeeds or not. -/
theorem effect_sizes (pf : Platform) (k : ℕ) (i : Instr) (args : List ValueU) {s : ExecState} (hf : s.vm.FewPages) :
    SizesKept s.vm i (effect pf k i args s).2.vm := by
  obtain ⟨hok, herr⟩ := @effect_writes pf k _ i (keptBy_sizes s.vm i) args s ⟨rfl, hf, fun _ => rfl⟩
  cases h : effect pf k i args s with
  | mk r s' =>
    cases r with
    | ok results => exact (hok results s' h).2
    | error e => exact herr e s' h

/-! ### What is cached -/

theorem Vm.inst_ok {mi : ModuleInst} : vm.inst k = .ok mi ↔ vm.instances[k]? = some mi := by
  unfold inst
  cases vm.instances[k]? <;> simp

theorem takeMem0_ok : takeMem0 vm k = .ok c ↔
    (∃ mi, vm.instances[k]? = some mi ∧ mi.mAddrs.length = 0 ∧ c = {}) ∨
    (∃ mi a m, vm.instances[k]? = some mi ∧ mi.mAddrs.length ≠ 0 ∧ vm.addr (·.mAddrs) k 0 = .ok a ∧
      vm.memory a = .ok m ∧ c = { size := m.mdata.length }) := by
  rw [takeMem0, bind_eq_ok]
  constructor
  · rintro ⟨mi, hmi, h⟩
    have hmi := Vm.inst_ok.mp hmi
    split at h
    · next hlen =>
      cases h
      exact .inl ⟨mi, hmi, hlen, rfl⟩
    · next hlen =>
      obtain ⟨a, ha, h⟩ := bind_eq_ok.mp h
      obtain ⟨m, hm, h⟩ := bind_eq_ok.mp h
      cases h
      exact .inr ⟨mi, a, m, hmi, hlen, ha, hm, rfl⟩
  · rintro (⟨mi, hmi, hlen, rfl⟩ | ⟨mi, a, m, hmi, hlen, ha, hm, rfl⟩)
    · exact ⟨mi, Vm.inst_ok.mpr hmi, if_pos hlen⟩
    · refine ⟨mi, Vm.inst_ok.mpr hmi, ?_⟩
      rw [if_neg hlen, ha, ok_bind, hm, ok_bind]

theorem memory_of_shape (hshape : vm'.shape = vm.shape) {a : Addr} {m : MemoryInst} (hm : vm.memory a = .ok m) :
    ∃ m', vm'.memory a = .ok m' ∧ m'.mem = m.mem := by
  obtain ⟨mi, hmi, hidx⟩ := Vm.memory_ok.mp hm
  have hmap := Vm.map_eq_of_shape (g := fun mi => mi.memories.map (·.mem)) (fun mi => by simp [ModuleInst.shape])
    hshape a.inst
  rw [hmi, Option.map_some] at hmap
  obtain ⟨mi', hmi', hmems⟩ := Option.map_eq_some_iff.mp hmap
  have hm' := congrArg (·[a.idx]?) hmems
  simp only [List.getElem?_map, hidx, Option.map_some] at hm'
  obtain ⟨m', hidx', hmem⟩ := Option.map_eq_some_iff.mp hm'
  exact ⟨m', Vm.memory_ok.mpr ⟨mi', hmi', hidx'⟩, hmem⟩

theorem mAddrs_of_shape (hshape : vm'.shape = vm.shape) {mi : ModuleInst} (hmi : vm.instances[k]? = some mi) :
    ∃ mi', vm'.instances[k]? = some mi' ∧ mi'.mAddrs = mi.mAddrs := by
  have hmap := Vm.map_eq_of_shape (g := (·.mAddrs)) (fun _ => rfl) hshape k
  rw [hmi, Option.map_some] at hmap
  exact Option.map_eq_some_iff.mp hmap

theorem mAddr_of_shape (hshape : vm'.shape = vm.shape) : vm'.addr (·.mAddrs) k 0 = vm.addr (·.mAddrs) k 0 :=
  Vm.addr_eq_of_shape (fun _ => rfl) hshape k 0

/-- Whatever has been written, the prologue would find a memory again. -/
theorem takeMem0_of_shape (hshape : vm'.shape = vm.shape) (h : takeMem0 vm k = .ok c) :
    ∃ c', takeMem0 vm' k = .ok c' := by
  obtain ⟨mi, hmi, hlen, -⟩ | ⟨mi, a, m, hmi, hlen, ha, hm, -⟩ := takeMem0_ok.mp h
  · obtain ⟨mi', hmi', heq⟩ := mAddrs_of_shape hshape hmi
    exact ⟨{}, takeMem0_ok.mpr (.inl ⟨mi', hmi', heq ▸ hlen, rfl⟩)⟩
  · obtain ⟨mi', hmi', heq⟩ := mAddrs_of_shape hshape hmi
    obtain ⟨m', hm', -⟩ := memory_of_shape hshape hm
    have ha' := (mAddr_of_shape hshape).trans ha
    exact ⟨_, takeMem0_ok.mpr (.inr ⟨mi', a, m', hmi', heq ▸ hlen, ha', hm', rfl⟩)⟩

theorem takeMem0_of_sizes (hshape : vm'.shape = vm.shape) (hsizes : vm'.memSizes = vm.memSizes)
    (h : takeMem0 vm k = .ok c) : takeMem0 vm' k = .ok c := by
  obtain ⟨mi, hmi, hlen, rfl⟩ | ⟨mi, a, m, hmi, hlen, ha, hm, rfl⟩ := takeMem0_ok.mp h
  · obtain ⟨mi', hmi', heq⟩ := mAddrs_of_shape hshape hmi
    exact takeMem0_ok.mpr (.inl ⟨mi', hmi', heq ▸ hlen, rfl⟩)
  · obtain ⟨mi', hmi', heq⟩ := mAddrs_of_shape hshape hmi
    obtain ⟨m', hm', -⟩ := memory_of_shape hshape hm
    have ha' := (mAddr_of_shape hshape).trans ha
    have hlen' : m'.mdata.length = m.mdata.length := by
      have := congrFun hsizes a
      rw [memSizes_ok hm, memSizes_ok hm'] at this
      exact Option.some.inj this
    exact takeMem0_ok.mpr (.inr ⟨mi', a, m', hmi', heq ▸ hlen, ha', hm', by rw [hlen']⟩)

end Sizes

/-! ### Plain instructions -/

/-- Instructions that look at memory 0, except `memory.grow`. -/
def Instr.usesMem0 : Instr → Bool
  | .memoryLoadStore _ _ _ | .memorySize | .memoryInit _ | .memoryCopy | .memoryFill => true
  | _ => false

/-- The handlers of one instruction do the same, and the cache is right afterwards. -/
def Matches (k : ℕ) (s : ExecState) (x : Exec (List ValueU)) (y : Exec (List ValueU × Mem0)) : Prop :=
  (y s).2 = (x s).2 ∧ Both Alike (fun results r => r.1 = results ∧ takeMem0 (x s).2.vm k = .ok r.2) (x s).1 (y s).1

section Effects
variable {pf : Platform} {k : ℕ} {c : Mem0} {s : ExecState}

theorem arg1_congr {α : Type} {args : List ValueU} {f g : ValueU → Exec α} (h : ∀ v, f v s = g v s) :
    InPlaceDt.arg1 args f s = InPlaceDt.arg1 args g s := by
  unfold InPlaceDt.arg1
  split
  · exact h _
  · rfl

theorem arg2_congr {α : Type} {args : List ValueU} {f g : ValueU → ValueU → Exec α} (h : ∀ v w, f v w s = g v w s) :
    InPlaceDt.arg2 args f s = InPlaceDt.arg2 args g s := by
  unfold InPlaceDt.arg2
  split
  · exact h _ _
  · rfl

theorem arg3_congr {α : Type} {args : List ValueU} {f g : ValueU → ValueU → ValueU → Exec α}
    (h : ∀ v w x, f v w x s = g v w x s) : InPlaceDt.arg3 args f s = InPlaceDt.arg3 args g s := by
  unfold InPlaceDt.arg3
  split
  · exact h _ _ _
  · rfl

theorem matches_keep {x y : Exec (List ValueU)} (hs : (y s).2 = (x s).2) (hr : Both Alike Eq (x s).1 (y s).1)
    (hc : takeMem0 (x s).2.vm k = .ok c) : Matches k s x (InPlaceTco.keep c y) := by
  rw [Matches, InPlaceTco.keep, Eff.bind_apply]
  cases hx : x s with
  | mk r s1 =>
    cases hy : y s with
    | mk r' s1' =>
      rw [hx, hy] at hs hr
      rw [hx] at hc
      simp only at hs hr hc
      cases hr with
      | ok h => exact ⟨hs, .ok ⟨h.symm, hc⟩⟩
      | error h => exact ⟨hs, .error h⟩

section Memory
variable {a : Addr} {m : MemoryInst} (ha : s.vm.addr (·.mAddrs) k 0 = .ok a) (hm : s.vm.memory a = .ok m)
include ha hm

theorem readMem0_apply {p n : ℕ} (h : p + n ≤ m.mdata.length) :
    InPlaceTco.readMem0 k { size := m.mdata.length } p n s = (.ok ((m.mdata.drop p).take n), s) := by
  simp only [InPlaceTco.readMem0, InPlaceTco.deref, if_true, Eff.bind_apply, InPlaceDt.mem0_apply ha hm,
    if_neg (Nat.not_lt.mpr h)]
  rfl

theorem writeMem0_apply {p : ℕ} {bytes : List UInt8} (h : p + bytes.length ≤ m.mdata.length) :
    InPlaceTco.writeMem0 k { size := m.mdata.length } p bytes s =
      (.ok [], { s with vm := s.vm.setMemory a (InPlaceDt.overwrite m.mdata p bytes) }) := by
  simp only [InPlaceTco.writeMem0, InPlaceTco.deref, if_true, Eff.bind_apply, InPlaceDt.mem0_apply ha hm,
    if_neg (Nat.not_lt.mpr h)]
  rfl

theorem memLoad_same (op : WasmOpcode) (offset : ℕ) (base : ValueU) :
    InPlaceTco.memLoad k { size := m.mdata.length } op offset base s = InPlaceDt.memLoad k op offset base s := by
  simp only [InPlaceTco.memLoad, InPlaceDt.memLoad, Eff.bind_apply, InPlaceDt.mem0_apply ha hm]
  split
  · rfl
  · next h =>
    rw [Eff.bind_apply, readMem0_apply ha hm (Nat.not_lt.mp h)]

theorem memStore_same (op : WasmOpcode) (offset : ℕ) (val base : ValueU) :
    InPlaceTco.memStore k { size := m.mdata.length } op offset val base s =
      InPlaceDt.memStore k op offset val base s := by
  simp only [InPlaceTco.memStore, InPlaceDt.memStore, Eff.bind_apply, InPlaceDt.mem0_apply ha hm]
  split
  · rfl
  · next h =>
    rw [writeMem0_apply ha hm]
    · rfl
    · rw [storeBytes_length]
      exact Nat.not_lt.mp h

theorem memorySize_same : InPlaceTco.memorySize { size := m.mdata.length } s = InPlaceDt.memorySize k s := by
  simp only [InPlaceTco.memorySize, InPlaceDt.memorySize, Eff.bind_apply, InPlaceDt.mem0_apply ha hm]

theorem memoryInit_same (dataIdx : ℕ) (size src dst : ValueU) :
    InPlaceTco.memoryInit k { size := m.mdata.length } dataIdx size src dst s =
      InPlaceDt.memoryInit k dataIdx size src dst s := by
  simp only [InPlaceTco.memoryInit, InPlaceDt.memoryInit, Eff.bind_apply, InPlaceDt.mem0_apply ha hm]
  cases hmi : InPlaceDt.ofVm (·.inst k) s with
  | mk r s1 =>
    cases r with
    | error e => rfl
    | ok mi =>
      obtain rfl : s1 = s := (Eff.read_ok hmi).2
      cases hd : mi.mod.data[dataIdx]? with
      | none => simp only [hd]
      | some d =>
        cases hdrop : mi.droppedData[dataIdx]? with
        | none => simp only [hd, hdrop]
        | some dropped =>
          simp only [hd, hdrop]
          split
          · rfl
          · split
            · rfl
            · split
              · rfl
              · rw [writeMem0_apply ha hm]
                · rfl
                · rw [List.length_take, List.length_drop]
                  omega

theorem memoryCopy_same (size src dst : ValueU) :
    InPlaceTco.memoryCopy k { size := m.mdata.length } size src dst s = InPlaceDt.memoryCopy k size src dst s := by
  simp only [InPlaceTco.memoryCopy, InPlaceDt.memoryCopy, Eff.bind_apply, InPlaceDt.mem0_apply ha hm]
  split
  · rfl
  · next h =>
    split
    · next hz =>
      rw [hz, List.take_zero, InPlaceDt.overwrite_nil]
      exact (congrArg (fun vm => (Except.ok [], { s with vm := vm })) (InPlaceDt.setMemory_self hm)).symm
    · rw [Eff.bind_apply, readMem0_apply ha hm (by omega)]
      simp only
      rw [writeMem0_apply ha hm]
      · rfl
      · rw [List.length_take, List.length_drop]
        omega

theorem memoryFill_same (size val dst : ValueU) :
    InPlaceTco.memoryFill k { size := m.mdata.length } size val dst s = InPlaceDt.memoryFill k size val dst s := by
  simp only [InPlaceTco.memoryFill, InPlaceDt.memoryFill, Eff.bind_apply, InPlaceDt.mem0_apply ha hm]
  split
  · rfl
  · next h =>
    split
    · next hz =>
      rw [hz, List.replicate_zero, InPlaceDt.overwrite_nil]
      exact (congrArg (fun vm => (Except.ok [], { s with vm := vm })) (InPlaceDt.setMemory_self hm)).symm
    · rw [writeMem0_apply ha hm]
      · rfl
      · rw [List.length_replicate]
        exact Nat.not_lt.mp h

/-- The handlers of an instruction that looks at memory 0. -/
theorem usesMem0_same {i : Instr} (hi : i.usesMem0) (args : List ValueU) :
    InPlaceTco.effect pf k { size := m.mdata.length } i args s =
      InPlaceTco.keep { size := m.mdata.length } (effect pf k i args) s := by
  have hkeep : ∀ {x y : Exec (List ValueU)}, x s = y s → InPlaceTco.keep { size := m.mdata.length } x s =
      InPlaceTco.keep { size := m.mdata.length } y s := by
    intro x y h
    rw [InPlaceTco.keep, InPlaceTco.keep, Eff.bind_apply, Eff.bind_apply, h]
  cases i with
  | memoryLoadStore op align offset =>
    refine hkeep ?_
    simp only [effect]
    split
    · exact arg1_congr fun v => memLoad_same ha hm op offset v
    · exact arg2_congr fun v w => memStore_same ha hm op offset v w
  | memorySize => exact hkeep (memorySize_same ha hm)
  | memoryInit dataIdx => exact hkeep (arg3_congr fun v w x => memoryInit_same ha hm dataIdx v w x)
  | memoryCopy => exact hkeep (arg3_congr fun v w x => memoryCopy_same ha hm v w x)
  | memoryFill => exact hkeep (arg3_congr fun v w x => memoryFill_same ha hm v w x)
  | _ => cases hi

end Memory

theorem tableSet_matches (idx : ℕ) (ref elemIdx : ValueU) :
    (InPlaceTco.tableSet k idx ref elemIdx s).2 = (InPlaceDt.tableSet k idx ref elemIdx s).2 ∧
      Both Alike Eq (InPlaceDt.tableSet k idx ref elemIdx s).1 (InPlaceTco.tableSet k idx ref elemIdx s).1 := by
  simp only [InPlaceTco.tableSet, InPlaceDt.tableSet, Eff.bind_apply]
  cases InPlaceDt.tabInst k idx s with
  | mk r s1 =>
    cases r with
    | error e => exact ⟨rfl, .error rfl⟩
    | ok x =>
      simp only
      split
      · exact ⟨rfl, .error rfl⟩
      · exact ⟨rfl, .ok rfl⟩

/-- What must not happen for an instruction to do the same in both: that it looks at a memory that is
not there, and that `memory.grow` leaves a memory empty. -/
def Instr.Benign (vm : Vm) (k : ℕ) (i : Instr) (args : List ValueU) : Prop :=
  (i.usesMem0 → ∃ a, vm.addr (·.mAddrs) k 0 = .ok a) ∧
  ∀ a m v, i = .memoryGrow → args = [v] → vm.addr (·.mAddrs) k 0 = .ok a → vm.memory a = .ok m →
    ¬ (m.mdata.length / wasmPageSize = 0 ∧ lo32 v = 0)

theorem mem0_error {e : Fault} (ha : s.vm.addr (·.mAddrs) k 0 = .error e) : InPlaceDt.mem0 k s = (.error e, s) := by
  simp only [InPlaceDt.mem0, InPlaceDt.ofVm, Eff.bind_apply, Eff.read, ha]

theorem memoryGrow_matches (hf : s.vm.FewPages) (hc : takeMem0 s.vm k = .ok c) (v : ValueU)
    (hv : ∀ a m, s.vm.addr (·.mAddrs) k 0 = .ok a → s.vm.memory a = .ok m →
      ¬ (m.mdata.length / wasmPageSize = 0 ∧ lo32 v = 0)) :
    Matches k s (InPlaceDt.memoryGrow k v) (InPlaceTco.memoryGrow k c v) := by
  rw [Matches, InPlaceDt.memoryGrow, InPlaceTco.memoryGrow, Eff.bind_apply, Eff.bind_apply]
  obtain ⟨mi, hmi, hlen, rfl⟩ | ⟨mi, a, m, hmi, hlen, ha, hm, rfl⟩ := takeMem0_ok.mp hc
  · have ha : s.vm.addr (·.mAddrs) k 0 = undef "address table" := by
      rw [Vm.addr, hmi, Option.bind_some, List.getElem?_eq_none_iff.mpr (Nat.le_of_eq hlen)]
    rw [mem0_error ha]
    exact ⟨rfl, .error rfl⟩
  · have hpages := (hf a m hm).1
    have hgrows := hv a m ha hm
    rw [InPlaceDt.mem0_apply ha hm]
    simp only [Nat.mod_eq_of_lt hpages]
    split
    · have hsize : (m.mdata.length / wasmPageSize + lo32 v) * wasmPageSize ≠ 0 :=
        Nat.mul_ne_zero (fun h => hgrows (Nat.add_eq_zero_iff.mp h)) (by decide)
      generalize (m.mdata.length / wasmPageSize + lo32 v) * wasmPageSize = size at hsize ⊢
      simp only [Eff.bind_apply, InPlaceDt.modifyVm, Eff.modify, if_neg hsize]
      refine ⟨rfl, .ok ⟨rfl, ?_⟩⟩
      have hgrown : (m.mdata.take size ++ List.replicate (size - m.mdata.length) 0).length = size := by
        rw [List.length_append, List.length_take, List.length_replicate]
        omega
      generalize m.mdata.take size ++ List.replicate (size - m.mdata.length) 0 = mdata at hgrown ⊢
      have hshape := Vm.shape_setMemory a mdata s.vm
      obtain ⟨mi', hmi', heq⟩ := mAddrs_of_shape hshape hmi
      have ha' := (mAddr_of_shape hshape).trans ha
      exact takeMem0_ok.mpr (.inr ⟨mi', a, _, hmi', heq ▸ hlen, ha', memory_setMemory hm mdata, by rw [hgrown]⟩)
    · exact ⟨rfl, .ok ⟨rfl, hc⟩⟩

/-- A plain instruction does the same in both interpreters. -/
theorem effect_matches (pf : Platform) {i : Instr} {args : List ValueU} (hf : s.vm.FewPages)
    (hc : takeMem0 s.vm k = .ok c)
    (hi : i.Benign s.vm k args) : Matches k s (effect pf k i args) (InPlaceTco.effect pf k c i args) := by
  have hkept : i ≠ .memoryGrow → takeMem0 (effect pf k i args s).2.vm k = .ok c := by
    intro hgrow
    have hsizes := effect_sizes pf k i args hf
    exact takeMem0_of_sizes hsizes.shape (hsizes.memSizes hgrow) hc
  have hsame : i ≠ .memoryGrow → Matches k s (effect pf k i args) (InPlaceTco.keep c (effect pf k i args)) :=
    fun hgrow => matches_keep rfl (.refl alike_refl _) (hkept hgrow)
  by_cases huses : i.usesMem0 = true
  · have hgrow : i ≠ .memoryGrow := by
      rintro rfl
      cases huses
    obtain ⟨a, ha⟩ := hi.1 huses
    obtain ⟨mi, hmi, hlen, -⟩ | ⟨mi, a', m, hmi, hlen, ha', hm, rfl⟩ := takeMem0_ok.mp hc
    · rw [Vm.addr, hmi, Option.bind_some, List.getElem?_eq_none_iff.mpr (Nat.le_of_eq hlen)] at ha
      cases ha
    · have := hsame hgrow
      rw [Matches, ← usesMem0_same ha' hm huses args] at this
      exact this
  · cases i with
    | memoryLoadStore | memorySize | memoryInit | memoryCopy | memoryFill => exact absurd rfl huses
    | memoryGrow =>
      simp only [effect, InPlaceTco.effect]
      cases args with
      | nil => exact ⟨rfl, .error rfl⟩
      | cons v args =>
        cases args with
        | nil => exact memoryGrow_matches hf hc v fun a m ha hm => hi.2 a m v rfl rfl ha hm
        | cons => exact ⟨rfl, .error rfl⟩
    | tableSet idx =>
      have hput : (InPlaceDt.arg2 args (InPlaceTco.tableSet k idx) s).2 = (effect pf k (.tableSet idx) args s).2 ∧
          Both Alike Eq (effect pf k (.tableSet idx) args s).1
            (InPlaceDt.arg2 args (InPlaceTco.tableSet k idx) s).1 := by
        simp only [effect, InPlaceDt.arg2]
        split
        · exact tableSet_matches idx _ _
        · exact ⟨rfl, .error rfl⟩
      exact matches_keep hput.1 hput.2 (hkept fun hi => by cases hi)
    | _ => exact hsame fun hi => by cases hi

end Effects

/-! ### Calls -/

/-- A running call without the caches. -/
def InPlaceTco.Running.forget (t : InPlaceTco.Running) : Silverfir.Running where
  frames := t.ctxs.map (·.toFrame)
  thread := t.thread
  cont := t.cont

/-- The innermost call has cached what memory 0 is like, and the others can find theirs. -/
structure Tracks (vm : Vm) (t : InPlaceTco.Running) : Prop where
  fewPages : vm.FewPages
  linked : ∀ ctx ∈ t.ctxs, ∃ c, takeMem0 vm ctx.fAddr.inst = .ok c
  current : ∀ ctx ∈ t.ctxs.head?, takeMem0 vm ctx.fAddr.inst = .ok ctx.mem0

/-- The same state. When the run is over, the stores and the results are the same; the counters of a
thread that has trapped are not. -/
inductive Same : System → InPlaceTco.System → Prop
  | running {vm t} (h : Tracks vm t) : Same ⟨vm, some t.forget⟩ ⟨vm, some t⟩
  | ended {vm vm'} (hi : vm'.instances = vm.instances) (ht : vm'.thread.trapped = vm.thread.trapped)
      (hr : vm'.thread.results = vm.thread.results) : Same ⟨vm, none⟩ ⟨vm', none⟩

/-- The function that a call instruction leads to. -/
def callTarget (pf : Platform) (vm : Vm) (k : ℕ) (i : Instr) (stack : List ValueU) : R Addr :=
  match i, stack with
  | .call idx, _ => vm.addr (·.fAddrs) k idx
  | .callIndirect typeIdx tableIdx, v :: _ => indirectCallee pf vm k typeIdx tableIdx (indirectIndex v)
  | _, _ => undef "not a call"

/-- What must not happen at an instruction of the innermost call. A function that is entered has a
memory 0, if its module declares one; a caller that has waited in `OP(call_indirect)` finds its
memory 0 as it left it. -/
def Passable (pf : Platform) (vm : Vm) (ctx : CallCtx) (rest : List CallCtx) : Outcome ValueU → Prop
  | .plain i a => i.Benign vm ctx.fAddr.inst (a.stack.take (operandCount i)) ∧
    ∀ callee fn, callTarget pf vm ctx.fAddr.inst i a.stack = .ok callee → vm.func callee = .ok fn →
      fn.hostFunc = none → ∃ c, takeMem0 vm callee.inst = .ok c
  | .finish _ => ∀ caller ∈ rest.head?, caller.inCall = false → takeMem0 vm caller.fAddr.inst = .ok caller.mem0
  | _ => True

/-- The condition on a state of `in_place_tco.c` before a handler. -/
structure Clear (pf : Platform) (vm : Vm) (t : InPlaceTco.Running) : Prop where
  noFd : ∀ ctx rest fn, t.ctxs = ctx :: rest → vm.func ctx.fAddr = .ok fn →
    opcodeAt fn.code ctx.act.regs.pc ≠ .ok .prefixFd
  passable : ∀ ctx rest fn out, t.ctxs = ctx :: rest → vm.func ctx.fAddr = .ok fn →
    InPlaceDt.actStep fn lo32 ctx.act = .ok out → Passable pf vm ctx rest out

section Calls
variable {pf : Platform} {vm : Vm} {t : InPlaceTco.Running} {ctx : CallCtx} {rest : List CallCtx} {a : Act ValueU}

theorem leave_results (t : Thread) (fn : Func) : (t.leave fn).results = t.results := by
  cases t
  rfl

theorem leaveAll_results (vm : Vm) (ctxs : List CallCtx) (t : Thread) :
    (InPlaceTco.leaveAll vm ctxs t).results = t.results := by
  induction ctxs generalizing t with
  | nil => rfl
  | cons ctx ctxs ih =>
    rw [InPlaceTco.leaveAll, ih]
    cases vm.func ctx.fAddr with
    | ok fn => exact leave_results t fn
    | error e => rfl

theorem abort_same (vm : Vm) (t : InPlaceTco.Running) : Same (abort vm t.forget) (InPlaceTco.abort vm t) := by
  obtain ⟨ctxs, thread, cont⟩ := t
  cases cont with
  | invoke type => exact .ended rfl rfl (leaveAll_results vm ctxs thread)
  | start k => exact .ended rfl rfl rfl

/-- An error ends both runs. -/
theorem checked_both {α β : Type} {T : α → β → Prop} {x : R α} {y : R β} {next : α → R System}
    {next' : β → R InPlaceTco.System} (hxy : Both Alike T x y)
    (h : ∀ a b, x = .ok a → T a b → Both Alike Same (next a) (next' b)) :
    Both Alike Same (checked vm t.forget x next) (InPlaceTco.checked vm t y next') := by
  cases hxy with
  | ok hab => exact h _ _ rfl hab
  | @error e e' he =>
    cases e with
    | err type msg =>
      cases e' with
      | err type' msg' => exact .ok (abort_same vm t)
      | undefined what' => cases he
    | undefined what =>
      cases e' with
      | err type' msg' => cases he
      | undefined what' => exact .error rfl

theorem finish_both (vm : Vm) (t : InPlaceTco.Running) (results : List ValueU) :
    Both Alike Same (finish vm t.forget results) (InPlaceTco.finish vm t results) := by
  obtain ⟨ctxs, thread, cont⟩ := t
  cases cont with
  | invoke type =>
    simp only [InPlaceTco.finish, finish, InPlaceTco.Running.forget]
    cases typedResults type.resultCount (.from_ type.results) results with
    | error e => exact .error rfl
    | ok vals => exact .ok (.ended rfl rfl rfl)
  | start k => exact .ok (.ended rfl rfl rfl)

/-- The prologues. -/
theorem enter_both {fAddr : Addr} (hlinked : ∃ c, takeMem0 vm fAddr.inst = .ok c) (t : Thread) (params : List ValueU)
    (args : ℕ) :
    Both Alike (fun (x : Frame × Thread) (y : CallCtx × Thread) => y.1.toFrame = x.1 ∧ y.2 = x.2 ∧
        takeMem0 vm y.1.fAddr.inst = .ok y.1.mem0)
      (enter vm t fAddr params args) (InPlaceTco.enter vm t fAddr params args) := by
  obtain ⟨c, hc⟩ := hlinked
  unfold enter InPlaceTco.enter
  split
  · exact .error rfl
  · split
    · exact .error rfl
    · refine (Both.refl alike_refl (vm.func fAddr)).bind fun fn fn' hfn _ heq => ?_
      subst heq
      split
      · exact .error rfl
      · rw [hc]
        exact .ok ⟨rfl, rfl, hc⟩

/-! ### One pass -/

/-- The innermost call goes on, and nothing is known of the callers but that their memories are
linked. -/
theorem Tracks.top (h : Tracks vm t) (hctxs : t.ctxs = ctx :: rest) {vm' : Vm} (hshape : vm'.shape = vm.shape)
    (hfew : vm'.FewPages) {ctx' : CallCtx} {rest' : List CallCtx} (hfAddr : ctx'.fAddr = ctx.fAddr)
    (hrest : rest'.map (·.toFrame) = rest.map (·.toFrame)) (hcur : takeMem0 vm' ctx.fAddr.inst = .ok ctx'.mem0)
    {thread : Thread} {cont : Cont} : Tracks vm' ⟨ctx' :: rest', thread, cont⟩ := by
  have hlinked : ∀ c ∈ t.ctxs, ∃ m, takeMem0 vm' c.fAddr.inst = .ok m := by
    intro c hc
    obtain ⟨m, hm⟩ := h.linked c hc
    exact takeMem0_of_shape hshape hm
  rw [hctxs] at hlinked
  refine ⟨hfew, fun c hc => ?_, fun c hc => ?_⟩
  · obtain rfl | hc := List.mem_cons.mp hc
    · exact ⟨_, hfAddr ▸ hcur⟩
    · have hfr : c.toFrame ∈ rest.map (·.toFrame) := hrest ▸ List.mem_map_of_mem hc
      obtain ⟨c0, hc0, heq⟩ := List.mem_map.mp hfr
      obtain ⟨m, hm⟩ := hlinked c0 (List.mem_cons_of_mem _ hc0)
      exact ⟨m, by rwa [← heq]⟩
  · obtain rfl := Option.mem_some_iff.mp hc
    rw [hfAddr]
    exact hcur

theorem moved_toFrame (vm vm' : Vm) (ctxs : List CallCtx) :
    (ctxs.map (CallCtx.moved vm vm')).map (·.toFrame) = ctxs.map (·.toFrame) := by
  rw [List.map_map]
  rfl

theorem mem0Length_eq (vm : Vm) (fr : Frame) :
    InPlaceTco.mem0Length vm fr = ((mem0Of vm fr).bind vm.memSizes).getD 0 := by
  rw [InPlaceTco.mem0Length]
  cases mem0Of vm fr with
  | none => rfl
  | some a =>
    rw [Option.map_some, Option.bind_some]
    cases hm : vm.memory a with
    | ok m => rw [memSizes_ok hm, Option.getD_some]
    | error e =>
      have hnone : vm.part (·.memories) a = none := by
        cases hp : vm.part (·.memories) a with
        | none => rfl
        | some m =>
          rw [part_memories.mpr hp] at hm
          cases hm
      rw [Vm.memSizes, hnone]
      rfl

theorem mem0Of_of_shape {vm' : Vm} (hshape : vm'.shape = vm.shape) (fr : Frame) : mem0Of vm' fr = mem0Of vm fr := by
  have hmap := Vm.map_eq_of_shape (g := (·.mAddrs)) (fun _ => rfl) hshape fr.fAddr.inst
  have heq : ∀ w : Vm, mem0Of w fr = (w.instances[fr.fAddr.inst]?.map (·.mAddrs)).bind fun xs => xs[0]?.join := by
    intro w
    rw [mem0Of]
    cases w.instances[fr.fAddr.inst]? <;> rfl
  rw [heq, heq, hmap]

/-- Memories that keep their size do not move. -/
theorem moved_self {vm' : Vm} (hshape : vm'.shape = vm.shape) (hsizes : vm'.memSizes = vm.memSizes) (ctx : CallCtx) :
    ctx.moved vm vm' = ctx := by
  have hlen : InPlaceTco.mem0Length vm' ctx.toFrame = InPlaceTco.mem0Length vm ctx.toFrame := by
    rw [mem0Length_eq, mem0Length_eq, mem0Of_of_shape hshape, hsizes]
  rw [CallCtx.moved, hlen]
  simp

/-- A host function leaves the sizes as they are. -/
theorem host_sizes (hhost : HostKeeps pf) (hf : vm.FewPages) {mem : Option Addr} {id : ℕ} {params results : List ValueU}
    {bytes : Option (List UInt8)} {vm' : Vm}
    (hvm' : vm' = match mem, bytes with
      | some m, some b => vm.setMemory m b
      | _, _ => vm)
    (h : pf.host id params (mem.bind fun m => (vm.memory m).toOption.map (·.mdata)) = .ok (results, bytes)) :
    vm'.shape = vm.shape ∧ vm'.memSizes = vm.memSizes ∧ vm'.FewPages := by
  have hlen := hhost _ _ _ _ _ h
  cases mem with
  | none =>
    subst hvm'
    exact ⟨rfl, rfl, hf⟩
  | some a =>
    cases bytes with
    | none =>
      subst hvm'
      exact ⟨rfl, rfl, hf⟩
    | some b =>
      subst hvm'
      change (vm.setMemory a b).shape = vm.shape ∧ (vm.setMemory a b).memSizes = vm.memSizes ∧
        (vm.setMemory a b).FewPages
      cases hm : vm.memory a with
      | error e =>
        rw [setMemory_missing hm]
        exact ⟨rfl, rfl, hf⟩
      | ok m =>
        simp only [hm, Except.toOption, Option.bind_some, Option.map_some, Option.some.injEq] at hlen
        refine ⟨Vm.shape_setMemory a b vm, memSizes_setMemory hm hlen, fewPages_setMemory hf hm ?_⟩
        rw [hlen]
        exact (hf a m hm).1

/-- The innermost call goes on in both runs. -/
theorem same_top (h : Tracks vm t) (hctxs : t.ctxs = ctx :: rest) {vm' : Vm} (hshape : vm'.shape = vm.shape)
    (hfew : vm'.FewPages) {fr : Frame} {ctx' : CallCtx} {rest' : List CallCtx} (hfr : ctx'.toFrame = fr)
    (hfAddr : fr.fAddr = ctx.fAddr) (hrest : rest'.map (·.toFrame) = rest.map (·.toFrame))
    (hcur : takeMem0 vm' ctx.fAddr.inst = .ok ctx'.mem0) {thread : Thread} {cont : Cont} :
    Same ⟨vm', some ⟨fr :: rest.map (·.toFrame), thread, cont⟩⟩ ⟨vm', some ⟨ctx' :: rest', thread, cont⟩⟩ := by
  subst hfr
  have htop : Tracks vm' ⟨ctx' :: rest', thread, cont⟩ := h.top hctxs hshape hfew hfAddr hrest hcur
  have hsame := Same.running htop
  rw [InPlaceTco.Running.forget, List.map_cons, hrest] at hsame
  exact hsame

theorem hostCall_both (hhost : HostKeeps pf) (h : Tracks vm t) (hctxs : t.ctxs = ctx :: rest) (callee : Func) (id : ℕ)
    (params : List ValueU) :
    Both Alike Same (hostCall pf vm t.forget ctx.toFrame (rest.map (·.toFrame)) a callee id params)
      (InPlaceTco.hostCall pf vm t ctx rest a callee id params) := by
  refine checked_both (.refl alike_refl _) ?_
  rintro ⟨results, bytes⟩ _ hx rfl
  have hcur : takeMem0 vm ctx.fAddr.inst = .ok ctx.mem0 := h.current ctx (by rw [hctxs]; rfl)
  have hshape := (host_sizes hhost h.fewPages rfl hx).1
  have hsizes := (host_sizes hhost h.fewPages rfl hx).2.1
  have hmoved := fun ctx' : CallCtx => congrArg (fun c => (.ok c.mem0 : R Mem0)) (moved_self hshape hsizes ctx').symm
  refine .ok (same_top h hctxs ?_ ?_ ?_ ?_ (moved_toFrame _ _ rest) ?_)
  · exact hshape
  · exact (host_sizes hhost h.fewPages rfl hx).2.2
  · rfl
  · rfl
  · exact (takeMem0_of_sizes hshape hsizes hcur).trans (hmoved { ctx with act := _ })

theorem callFunc_both (hhost : HostKeeps pf) (h : Tracks vm t) (hctxs : t.ctxs = ctx :: rest) {callee : Addr}
    {fn : Func}
    (hlinked : fn.hostFunc = none → ∃ c, takeMem0 vm callee.inst = .ok c) (inCall : Bool) (params : List ValueU)
    (args : ℕ) :
    Both Alike Same (callFunc pf vm t.forget ctx.toFrame (rest.map (·.toFrame)) a callee fn params args)
      (InPlaceTco.callFunc pf vm t ctx rest a inCall callee fn params args) := by
  rw [callFunc, InPlaceTco.callFunc]
  cases hhostFunc : fn.hostFunc with
  | some id => exact hostCall_both hhost h hctxs fn id params
  | none =>
    refine checked_both (enter_both (hlinked hhostFunc) t.thread params args) ?_
    rintro ⟨fr, th⟩ ⟨ctx', th'⟩ - ⟨rfl, rfl, hmem0⟩
    have hin : Tracks vm { t with ctxs := ctx' :: { ctx with act := a, inCall := inCall } :: rest, thread := th' } := by
      refine ⟨h.fewPages, fun c hc => ?_, fun c hc => ?_⟩
      · obtain rfl | hc := List.mem_cons.mp hc
        · exact ⟨_, hmem0⟩
        · obtain rfl | hc := List.mem_cons.mp hc
          · exact h.linked ctx (hctxs ▸ List.mem_cons_self)
          · exact h.linked c (hctxs ▸ List.mem_cons_of_mem _ hc)
      · obtain rfl := Option.mem_some_iff.mp hc
        exact hmem0
    exact .ok (.running hin)

theorem opCall_both (hhost : HostKeeps pf) (h : Tracks vm t) (hctxs : t.ctxs = ctx :: rest) (fn : Func) {idx : ℕ}
    (hc : Passable pf vm ctx rest (.plain (.call idx) a)) :
    Both Alike Same (opCall pf vm t.forget ctx.toFrame (rest.map (·.toFrame)) fn a idx)
      (InPlaceTco.opCall pf vm t ctx rest fn a idx) := by
  refine (Both.refl alike_refl _).bind fun callee _ hcallee _ heq => ?_
  subst heq
  refine (Both.refl alike_refl _).bind fun calleeFn _ hcalleeFn _ heq => ?_
  subst heq
  refine (Both.refl alike_refl _).bind ?_
  rintro ⟨params, a'⟩ _ - - rfl
  exact callFunc_both hhost h hctxs (hc.2 callee calleeFn hcallee hcalleeFn) true params _

theorem opCallIndirect_both (hhost : HostKeeps pf) (h : Tracks vm t) (hctxs : t.ctxs = ctx :: rest) (fn : Func)
    {typeIdx tableIdx : ℕ} (hc : Passable pf vm ctx rest (.plain (.callIndirect typeIdx tableIdx) a)) :
    Both Alike Same (opCallIndirect pf vm t.forget ctx.toFrame (rest.map (·.toFrame)) fn a typeIdx tableIdx)
      (InPlaceTco.opCallIndirect pf vm t ctx rest fn a typeIdx tableIdx) := by
  unfold opCallIndirect InPlaceTco.opCallIndirect
  cases hstack : a.stack with
  | nil => exact .error rfl
  | cons v stack =>
    refine checked_both (.refl alike_refl _) ?_
    rintro callee _ hcallee rfl
    refine (Both.refl alike_refl _).bind fun calleeFn _ hcalleeFn _ heq => ?_
    subst heq
    refine (Both.refl alike_refl _).bind ?_
    rintro ⟨params, a'⟩ _ - - rfl
    refine callFunc_both hhost h hctxs (hc.2 callee calleeFn ?_ hcalleeFn) false params _
    rw [hstack]
    exact hcallee

theorem opPlain_both (h : Tracks vm t) (hctxs : t.ctxs = ctx :: rest) {i : Instr}
    (hc : Passable pf vm ctx rest (.plain i a)) :
    Both Alike Same (opPlain pf vm t.forget ctx.toFrame (rest.map (·.toFrame)) i a)
      (InPlaceTco.opPlain pf vm t ctx rest i a) := by
  have hcur : takeMem0 vm ctx.fAddr.inst = .ok ctx.mem0 := h.current ctx (by rw [hctxs]; rfl)
  unfold opPlain InPlaceTco.opPlain
  simp only
  split
  · exact .error rfl
  · have hmatches : Matches ctx.fAddr.inst ⟨vm, ctx.locals⟩ (effect pf ctx.fAddr.inst i (a.stack.take (operandCount i)))
        (InPlaceTco.effect pf ctx.fAddr.inst ctx.mem0 i (a.stack.take (operandCount i))) :=
      effect_matches pf h.fewPages hcur hc.1
    obtain ⟨hstate, hboth⟩ := hmatches
    have hsizes := @effect_sizes pf ctx.fAddr.inst i (a.stack.take (operandCount i)) ⟨vm, ctx.locals⟩ h.fewPages
    generalize effect pf ctx.fAddr.inst i (a.stack.take (operandCount i)) ⟨vm, ctx.locals⟩ = x at hstate hboth hsizes ⊢
    generalize InPlaceTco.effect pf ctx.fAddr.inst ctx.mem0 i _ _ = y at hstate hboth ⊢
    obtain ⟨r, s⟩ := x
    obtain ⟨r', s'⟩ := y
    obtain rfl : s' = s := hstate
    simp only at hboth hsizes
    cases hboth with
    | @ok results rc hrc =>
      obtain ⟨results', c⟩ := rc
      obtain ⟨rfl, hc'⟩ := hrc
      refine .ok (same_top h hctxs hsizes.shape hsizes.fewPages ?_ ?_ (moved_toFrame _ _ rest) ?_)
      · rfl
      · rfl
      · exact hc'
    | @error e e' he =>
      cases e with
      | err type msg =>
        cases e' with
        | err type' msg' => exact .ok (abort_same s'.vm t)
        | undefined what' => cases he
      | undefined what =>
        cases e' with
        | err type' msg' => cases he
        | undefined what' => exact .error rfl

theorem opFinish_both (h : Tracks vm t) (hctxs : t.ctxs = ctx :: rest) (fn : Func) {stack : List ValueU}
    (hc : Passable pf vm ctx rest (.finish stack)) :
    Both Alike Same (opFinish vm t.forget (rest.map (·.toFrame)) fn stack)
      (InPlaceTco.opFinish vm t rest fn stack) := by
  unfold opFinish InPlaceTco.opFinish
  simp only
  split
  · exact .error rfl
  · cases rest with
    | nil => exact finish_both vm { t with thread := t.thread.leave fn } _
    | cons caller rest =>
      obtain ⟨m, hm⟩ := h.linked caller (hctxs ▸ List.mem_cons_of_mem _ List.mem_cons_self)
      have hback : ∃ mem0, InPlaceTco.backInCaller vm caller = .ok { caller with mem0 := mem0 } ∧
          takeMem0 vm caller.fAddr.inst = .ok mem0 := by
        rw [InPlaceTco.backInCaller]
        by_cases hin : caller.inCall = true
        · rw [if_pos hin, hm]
          exact ⟨m, rfl, rfl⟩
        · rw [if_neg hin]
          exact ⟨caller.mem0, rfl, hc caller rfl (Bool.not_eq_true _ ▸ hin)⟩
      obtain ⟨mem0, hcaller, hcur⟩ := hback
      have hin : Tracks vm ⟨{ caller with mem0 := mem0 } :: rest, t.thread, t.cont⟩ := by
        refine ⟨h.fewPages, fun c hc => ?_, fun c hc => ?_⟩
        · obtain rfl | hc := List.mem_cons.mp hc
          · exact ⟨mem0, hcur⟩
          · exact h.linked c (hctxs ▸ List.mem_cons_of_mem _ (List.mem_cons_of_mem _ hc))
        · obtain rfl := Option.mem_some_iff.mp hc
          exact hcur
      simp only [hcaller, ok_bind, List.map_cons]
      refine .ok (same_top hin rfl rfl h.fewPages ?_ ?_ rfl ?_)
      · rfl
      · rfl
      · exact hcur

/-- One pass of the loop, and one handler. -/
theorem runStep_both (hhost : HostKeeps pf) (h : Tracks vm t) (hc : Clear pf vm t) :
    Both Alike Same (runStep pf vm t.forget) (InPlaceTco.runStep pf vm t) := by
  unfold runStep InPlaceTco.runStep
  cases hctxs : t.ctxs with
  | nil =>
    simp only [InPlaceTco.Running.forget, hctxs, List.map_nil]
    exact .error rfl
  | cons ctx rest =>
    have hframes : t.forget.frames = ctx.toFrame :: rest.map (·.toFrame) := by
      rw [InPlaceTco.Running.forget, hctxs, List.map_cons]
    rw [hframes]
    refine (Both.refl alike_refl (vm.func ctx.fAddr)).bind fun fn _ hfn _ heq => ?_
    subst heq
    have hact : InPlaceTco.actStep fn ctx.act = InPlaceDt.actStep fn lo32 ctx.act := by
      rw [InPlaceTco.actStep, InPlaceDt.actStep]
      cases hop : opcodeAt fn.code ctx.act.regs.pc with
      | error e => rfl
      | ok op =>
        have hne : op ≠ .prefixFd := by
          rintro rfl
          exact hc.noFd ctx rest fn hctxs hfn hop
        simp only [ok_bind, if_neg hne]
    rw [hact]
    refine (Both.refl alike_refl _).bind fun out _ hout _ heq => ?_
    subst heq
    have hpass := hc.passable ctx rest fn out hctxs hfn hout
    have hcur : takeMem0 vm ctx.fAddr.inst = .ok ctx.mem0 := h.current ctx (by rw [hctxs]; rfl)
    cases out with
    | trap => exact .ok (abort_same vm t)
    | next a =>
      refine .ok (same_top h hctxs rfl h.fewPages ?_ ?_ rfl ?_)
      · rfl
      · rfl
      · exact hcur
    | finish stack => exact opFinish_both h hctxs fn hpass
    | plain i a =>
      cases i with
      | call idx => exact opCall_both hhost h hctxs fn hpass
      | callIndirect typeIdx tableIdx => exact opCallIndirect_both hhost h hctxs fn hpass
      | _ => exact opPlain_both h hctxs hpass

theorem callInThread_both (hfew : vm.FewPages) (th : Thread) {fAddr : Addr}
    (hlinked : ∃ c, takeMem0 vm fAddr.inst = .ok c) (argv : List TypedValue) (cont : FuncType → Cont) :
    Both Alike (fun r t => t.forget = r ∧ Tracks vm t) (callInThread vm th fAddr argv cont)
      (InPlaceTco.callInThread vm th fAddr argv cont) := by
  unfold callInThread InPlaceTco.callInThread
  split
  · exact .error rfl
  · refine (Both.refl alike_refl _).bind fun fn _ hfn _ heq => ?_
    subst heq
    simp only
    split
    · exact .error rfl
    · refine (Both.refl alike_refl _).bind fun ok _ _ _ heq => ?_
      subst heq
      split
      · exact .error rfl
      · refine (enter_both hlinked th _ _).bind ?_
        rintro ⟨fr, th⟩ ⟨ctx, th'⟩ - - ⟨rfl, rfl, hmem0⟩
        refine .ok ⟨rfl, hfew, fun c hc => ?_, fun c hc => ?_⟩
        · rw [List.mem_singleton.mp hc]
          exact ⟨_, hmem0⟩
        · obtain rfl := Option.mem_some_iff.mp hc
          exact hmem0

end Calls

/-! ### Whole calls -/

/-- One pass, if something runs. -/
def System.pass (pf : Platform) (s : System) : R System :=
  match s.running with
  | none => .ok s
  | some r => runStep pf s.vm r

def InPlaceTco.System.pass (pf : Platform) (s : InPlaceTco.System) : R InPlaceTco.System :=
  match s.running with
  | none => .ok s
  | some t => InPlaceTco.runStep pf s.vm t

def InPlaceTco.System.Clear (pf : Platform) (s : InPlaceTco.System) : Prop :=
  ∀ t, s.running = some t → Silverfir.Clear pf s.vm t

/-- A call in a thread, after `n` passes. -/
def callFor (pf : Platform) (vm : Vm) (th : Thread) (fAddr : Addr) (argv : List TypedValue) (cont : FuncType → Cont)
    (n : ℕ) : R System := do
  let r ← callInThread vm th fAddr argv cont
  steps (System.pass pf) n { vm := vm, running := some r }

def InPlaceTco.callFor (pf : Platform) (vm : Vm) (th : Thread) (fAddr : Addr) (argv : List TypedValue)
    (cont : FuncType → Cont) (n : ℕ) : R InPlaceTco.System := do
  let t ← InPlaceTco.callInThread vm th fAddr argv cont
  steps (InPlaceTco.System.pass pf) n { vm := vm, running := some t }

theorem pass_both {pf : Platform} (hhost : HostKeeps pf) {s : System} {t : InPlaceTco.System} (h : Same s t)
    (hc : t.Clear pf) : Both Alike Same (s.pass pf) (t.pass pf) := by
  cases h with
  | running h => exact runStep_both hhost h (hc _ rfl)
  | ended hi ht hr => exact .ok (.ended hi ht hr)

theorem clear_of {pf : Platform} {vm : Vm} {t : InPlaceTco.Running} {ctx : CallCtx} {rest : List CallCtx} {fn : Func}
    (op : WasmOpcode) (out : Outcome ValueU) (hctxs : t.ctxs = ctx :: rest) (hfn : vm.func ctx.fAddr = .ok fn)
    (hop : opcodeAt fn.code ctx.act.regs.pc = .ok op) (hne : op ≠ .prefixFd)
    (hout : InPlaceDt.actStep fn lo32 ctx.act = .ok out) (hpass : Passable pf vm ctx rest out) : Clear pf vm t := by
  refine ⟨fun ctx' rest' fn' h hfn' => ?_, fun ctx' rest' fn' out' h hfn' hout' => ?_⟩
  · obtain ⟨rfl, rfl⟩ := List.cons.inj (hctxs.symm.trans h)
    obtain rfl := Except.ok.inj (hfn.symm.trans hfn')
    rw [hop]
    exact fun heq => hne (Except.ok.inj heq)
  · obtain ⟨rfl, rfl⟩ := List.cons.inj (hctxs.symm.trans h)
    obtain rfl := Except.ok.inj (hfn.symm.trans hfn')
    obtain rfl := Except.ok.inj (hout.symm.trans hout')
    exact hpass

/-! ### A callee that grows the memory -/

/-- A function that grows the memory by a page, and a function `f` that calls it through the table
and returns the size of the memory. -/
def growModule : Module where
  names := [[]]
  formatVersion := 1
  funcTypes := [{}, { resultCount := 1, results := [0x7f] }]
  funcs := [
    { code := [0x41, 1, 0x40, 0, 0x1a, 0x0b] },
    { fnType := { resultCount := 1, results := [0x7f] }
      linkage := { exported := true }
      code := [0x41, 0, 0x11, 0, 0, 0x3f, 0, 0x0b] }]
  tables := [{ valtype := .funcref, lim := ⟨1, u32Max⟩ }]
  memories := [{ lim := ⟨0, wasmMemMaxPages⟩ }]
  exports := [{ name := [0x66], externalKind := .func, externalIdx := 1 }]
  elements := [{ mode := .active, offsetExpr := [0x41, 0, 0x0b], valtype := .funcref, dataLen := 1, vFuncidx := [0] }]

theorem loaded_growModule : Loaded growModule := by
  have hmod : moduleInit [0x00, 0x61, 0x73, 0x6d, 1, 0, 0, 0, 1, 8, 2, 0x60, 0, 0, 0x60, 0, 1, 0x7f, 3, 3, 2, 0, 1,
      4, 4, 1, 0x70, 0, 1, 5, 3, 1, 0, 0, 7, 5, 1, 1, 0x66, 0, 1, 9, 7, 1, 0, 0x41, 0, 0x0b, 1, 0,
      10, 0x13, 2, 7, 0, 0x41, 1, 0x40, 0, 0x1a, 0x0b, 9, 0, 0x41, 0, 0x11, 0, 0, 0x3f, 0, 0x0b] [] =
      .ok growModule := by rfl
  exact .init hmod

/-- The instance of the module, with these bytes in its memory. -/
def growVm (mdata : List UInt8) : Vm where
  instances := [{ moduleInstNew 0 { growModule with funcs := growModule.funcs.map ({ · with stackSizeMax := 1 }) } with
    state := .ready
    tables := [{ tab := { valtype := .funcref, lim := ⟨1, u32Max⟩ }, tdata := [0] }]
    droppedElements := [true]
    memories := [{ mem := { lim := ⟨0, wasmMemMaxPages⟩ }, mdata := mdata }]
    fAddrs := [some ⟨0, 0⟩, some ⟨0, 1⟩]
    mAddrs := [some ⟨0, 0⟩]
    tAddrs := [some ⟨0, 0⟩] }]

theorem instantiate_growModule : instantiateStep idle {} 0 growModule = .ok { vm := growVm [] } := by decide +kernel

theorem fewPages_growVm : (growVm []).FewPages := by
  intro a m hm
  obtain ⟨mi, hmi, hidx⟩ := Vm.memory_ok.mp hm
  obtain rfl := List.mem_singleton.mp (List.mem_of_getElem? hmi)
  obtain rfl := List.mem_singleton.mp (List.mem_of_getElem? hidx)
  exact ⟨by decide, by decide⟩

/-- The states of the call of `f` in `in_place_dt.c`. -/
def growRunning (frames : List Frame) : Running where
  frames := frames
  thread := { frameDepth := frames.length, stackSize := frames.length }
  cont := .invoke { resultCount := 1, results := [0x7f] }

def growFrame (idx : ℕ) (pc : ℤ) (stack : List ValueU) : Frame := ⟨⟨0, idx⟩, ⟨⟨pc, 0⟩, stack⟩, [], 1⟩

theorem pass_grow : ∃ mdata, mdata.length = wasmPageSize ∧
    System.pass idle ⟨growVm [], some (growRunning [growFrame 0 2 [1], growFrame 1 5 []])⟩ =
      .ok ⟨growVm mdata, some (growRunning [growFrame 0 4 [0], growFrame 1 5 []])⟩ := by
  refine ⟨List.take ((0 / wasmPageSize + 1) * wasmPageSize) [] ++
    List.replicate ((0 / wasmPageSize + 1) * wasmPageSize - 0) 0, ?_, ?_⟩
  · rw [List.length_append, List.length_take, List.length_replicate, List.length_nil]
    rfl
  · rfl

theorem steps_grown {mdata : List UInt8} (hlen : mdata.length = wasmPageSize) :
    steps (System.pass idle) 4 ⟨growVm mdata, some (growRunning [growFrame 0 4 [0], growFrame 1 5 []])⟩ =
      .ok ⟨{ growVm mdata with thread := { results := [⟨.i32, 1⟩] } }, none⟩ := by
  have hdrop : System.pass idle ⟨growVm mdata, some (growRunning [growFrame 0 4 [0], growFrame 1 5 []])⟩ =
      .ok ⟨growVm mdata, some (growRunning [growFrame 0 5 [], growFrame 1 5 []])⟩ := by rfl
  have hend : System.pass idle ⟨growVm mdata, some (growRunning [growFrame 0 5 [], growFrame 1 5 []])⟩ =
      .ok ⟨growVm mdata, some (growRunning [growFrame 1 5 []])⟩ := by rfl
  have hsize : System.pass idle ⟨growVm mdata, some (growRunning [growFrame 1 5 []])⟩ = .ok ⟨growVm mdata,
      some (growRunning [growFrame 1 7 [InPlaceDt.ofU32 (mdata.length / wasmPageSize)]])⟩ := by rfl
  have hlast : System.pass idle ⟨growVm mdata, some (growRunning [growFrame 1 7 [1]])⟩ =
      .ok ⟨{ growVm mdata with thread := { results := [⟨.i32, 1⟩] } }, none⟩ := by rfl
  have hone : InPlaceDt.ofU32 (mdata.length / wasmPageSize) = 1 := by
    rw [hlen]
    decide
  simp only [steps, hdrop, hend, hsize, hone, hlast, ok_bind]

end Silverfir
