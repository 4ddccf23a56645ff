import Silverfir.Links

/-! The parts of the instances of a VM by address: what a write changes, and what it leaves. -/
namespace Silverfir

/-- The part at an address: `g` picks the globals, tables, memories or dropped flags. -/
def Vm.part {β : Type} (g : ModuleInst → List β) (vm : Vm) (a : Addr) : Option β :=
  vm.instances[a.inst]?.bind fun mi => (g mi)[a.idx]?

/-- One entry changes. -/
def editAt {β : Type} (m : Addr → Option β) (a : Addr) (f : β → β) (b : Addr) : Option β :=
  if b = a then (m b).map f else m b

theorem editAt_editAt {β : Type} (m : Addr → Option β) (a : Addr) (f g : β → β) :
    editAt (editAt m a f) a g = editAt m a (g ∘ f) := by
  funext b
  rw [editAt, editAt, editAt]
  split
  · exact Option.map_map g f (m b)
  · rfl

section Parts
variable {β : Type} {g : ModuleInst → List β} {f : ModuleInst → ModuleInst} {vm : Vm} {k : ℕ} {a : Addr}

theorem part_modifyInst (hg : ∀ mi, g (f mi) = g mi) : (vm.modifyInst k f).part g = vm.part g := by
  funext b
  rw [Vm.part, Vm.part, Vm.modifyInst, List.getElem?_modify]
  cases vm.instances[b.inst]? with
  | none => rfl
  | some mi =>
    simp only [Option.map_eq_map, Option.map_some, Option.bind_some]
    split
    · rw [hg]
    · rfl

theorem part_modifyInst_edit {i : ℕ} {h : β → β} (hg : ∀ mi, g (f mi) = (g mi).modify i h) :
    (vm.modifyInst k f).part g = editAt (vm.part g) ⟨k, i⟩ h := by
  funext ⟨j, l⟩
  simp only [Vm.part, editAt, Vm.modifyInst, List.getElem?_modify, Addr.mk.injEq]
  cases vm.instances[j]? with
  | none => simp
  | some mi =>
    by_cases hk : k = j
    · subst hk
      by_cases hi : i = l
      · subst hi
        simp [hg]
      · simp [hg, hi, Ne.symm hi]
    · simp [hk, Ne.symm hk]

theorem part_tables {t : TableInst} : vm.table a = .ok t ↔ vm.part (·.tables) a = some t := by
  rw [Vm.table_ok, Vm.part, Option.bind_eq_some_iff]

theorem part_memories {m : MemoryInst} : vm.memory a = .ok m ↔ vm.part (·.memories) a = some m := by
  rw [Vm.memory_ok, Vm.part, Option.bind_eq_some_iff]

theorem part_globals {g : GlobalInst} : vm.global a = .ok g ↔ vm.part (·.globals) a = some g := by
  rw [Vm.global_ok, Vm.part, Option.bind_eq_some_iff]

end Parts

/-! ### Writes -/

section Writes
variable {vm : Vm} {a : Addr}

theorem tables_setTable (tdata : List ValueU) :
    (vm.setTable a tdata).part (·.tables) = editAt (vm.part (·.tables)) a ({ · with tdata := tdata }) :=
  part_modifyInst_edit fun _ => rfl

theorem memories_setMemory (mdata : List UInt8) :
    (vm.setMemory a mdata).part (·.memories) = editAt (vm.part (·.memories)) a ({ · with mdata := mdata }) :=
  part_modifyInst_edit fun _ => rfl

theorem globals_setGlobal (gvalue : ValueU) :
    (vm.setGlobal a gvalue).part (·.globals) = editAt (vm.part (·.globals)) a ({ · with gvalue := gvalue }) :=
  part_modifyInst_edit fun _ => rfl

theorem memory_setMemory {m : MemoryInst} (hm : vm.memory a = .ok m) (mdata : List UInt8) :
    (vm.setMemory a mdata).memory a = .ok { m with mdata := mdata } := by
  rw [part_memories, memories_setMemory, editAt, if_pos rfl, part_memories.mp hm]
  rfl

end Writes

/-- Everything but some parts is as before. -/
structure KeepsAll (vm vm' : Vm) : Prop where
  shape : vm'.shape = vm.shape
  states : vm'.states = vm.states

/-- Only globals are written. -/
structure GlobalsOnly (vm vm' : Vm) : Prop extends KeepsAll vm vm' where
  tables : vm'.part (·.tables) = vm.part (·.tables)
  memories : vm'.part (·.memories) = vm.part (·.memories)
  droppedElements : vm'.part (·.droppedElements) = vm.part (·.droppedElements)
  droppedData : vm'.part (·.droppedData) = vm.part (·.droppedData)

/-- Only tables are written, and elements dropped. -/
structure TablesOnly (vm vm' : Vm) : Prop extends KeepsAll vm vm' where
  globals : vm'.part (·.globals) = vm.part (·.globals)
  memories : vm'.part (·.memories) = vm.part (·.memories)
  droppedData : vm'.part (·.droppedData) = vm.part (·.droppedData)

/-- Only memories are written, and data dropped. -/
structure MemoriesOnly (vm vm' : Vm) : Prop extends KeepsAll vm vm' where
  globals : vm'.part (·.globals) = vm.part (·.globals)
  tables : vm'.part (·.tables) = vm.part (·.tables)
  droppedElements : vm'.part (·.droppedElements) = vm.part (·.droppedElements)

section Only
variable {vm vm' vm'' : Vm}

theorem KeepsAll.refl (vm : Vm) : KeepsAll vm vm := ⟨rfl, rfl⟩

theorem KeepsAll.trans (h : KeepsAll vm vm') (h' : KeepsAll vm' vm'') : KeepsAll vm vm'' :=
  ⟨h'.shape.trans h.shape, h'.states.trans h.states⟩

theorem GlobalsOnly.refl (vm : Vm) : GlobalsOnly vm vm := ⟨.refl vm, rfl, rfl, rfl, rfl⟩

theorem GlobalsOnly.trans (h : GlobalsOnly vm vm') (h' : GlobalsOnly vm' vm'') : GlobalsOnly vm vm'' :=
  ⟨h.toKeepsAll.trans h'.toKeepsAll, h'.tables.trans h.tables, h'.memories.trans h.memories,
    h'.droppedElements.trans h.droppedElements, h'.droppedData.trans h.droppedData⟩

theorem TablesOnly.refl (vm : Vm) : TablesOnly vm vm := ⟨.refl vm, rfl, rfl, rfl⟩

theorem TablesOnly.trans (h : TablesOnly vm vm') (h' : TablesOnly vm' vm'') : TablesOnly vm vm'' :=
  ⟨h.toKeepsAll.trans h'.toKeepsAll, h'.globals.trans h.globals, h'.memories.trans h.memories,
    h'.droppedData.trans h.droppedData⟩

theorem MemoriesOnly.refl (vm : Vm) : MemoriesOnly vm vm := ⟨.refl vm, rfl, rfl, rfl⟩

theorem MemoriesOnly.trans (h : MemoriesOnly vm vm') (h' : MemoriesOnly vm' vm'') : MemoriesOnly vm vm'' :=
  ⟨h.toKeepsAll.trans h'.toKeepsAll, h'.globals.trans h.globals, h'.tables.trans h.tables,
    h'.droppedElements.trans h.droppedElements⟩

theorem globalsOnly_setGlobal (a : Addr) (v : ValueU) : GlobalsOnly vm (vm.setGlobal a v) := by
  refine ⟨⟨Vm.shape_setGlobal a v vm, Vm.states_modifyInst ?_ _ vm⟩, part_modifyInst ?_, part_modifyInst ?_,
    part_modifyInst ?_, part_modifyInst ?_⟩ <;> intro mi <;> rfl

theorem tablesOnly_setTable (a : Addr) (tdata : List ValueU) : TablesOnly vm (vm.setTable a tdata) := by
  refine ⟨⟨Vm.shape_setTable a tdata vm, Vm.states_modifyInst ?_ _ vm⟩, part_modifyInst ?_, part_modifyInst ?_,
    part_modifyInst ?_⟩ <;> intro mi <;> rfl

theorem memoriesOnly_setMemory (a : Addr) (mdata : List UInt8) : MemoriesOnly vm (vm.setMemory a mdata) := by
  refine ⟨⟨Vm.shape_setMemory a mdata vm, Vm.states_modifyInst ?_ _ vm⟩, part_modifyInst ?_, part_modifyInst ?_,
    part_modifyInst ?_⟩ <;> intro mi <;> rfl

end Only

end Silverfir
