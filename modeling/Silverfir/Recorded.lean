import Silverfir.Words

/-! What the parser records of an abstract module, and how that grows with the entries of a section. -/
namespace Silverfir

def Func.marked (f : Func) : Func := { f with linkage := f.linkage.markExported }

def Table.marked (t : Table) : Table := { t with linkage := t.linkage.markExported }

def Memory.marked (m : Memory) : Memory := { m with linkage := m.linkage.markExported }

def Global.marked (g : Global) : Global := { g with linkage := g.linkage.markExported }

namespace Binary

/-! ### Entries -/

def Import.path (i : Import) : ImportPath := ⟨i.module.utf8, i.field.utf8⟩

def TableType.recorded (t : TableType) : Silverfir.Table where
  valtype := t.type.typeId
  lim := t.limits.recorded u32Max

def Limits.recordedMemory (l : Limits) : Silverfir.Memory where
  lim := l.recorded wasmMemMaxPages

def GlobalType.recorded (t : GlobalType) : Silverfir.Global where
  valtype := t.type.typeId
  mut_ := t.isMut

def Global.recorded (g : Global) : Silverfir.Global := { g.type.recorded with expr := g.init.code }

def Export.recorded (e : Export) : Silverfir.Export := ⟨e.name.utf8, e.kind, e.idx⟩

/-- A segment that is not active names no table and no offset; table 0 and no code stand there. -/
def Elem.recorded (e : Elem) : Silverfir.Element where
  mode := match e.mode with
    | .active _ _ => .active
    | .passive => .passive
    | .declarative => .declarative
  tableidx := match e.mode with
    | .active table _ => table
    | _ => 0
  offsetExpr := match e.mode with
    | .active _ offset => offset.code
    | _ => []
  valtype := e.type.typeId
  dataLen := match e.init with
    | .funcs idxs => idxs.length
    | .exprs exprs => exprs.length
  vFuncidx := match e.init with
    | .funcs idxs => idxs
    | .exprs _ => []
  vExpr := match e.init with
    | .funcs _ => []
    | .exprs exprs => exprs.map (·.code)

def Data.recorded (d : Data) : Silverfir.Data :=
  match d.mode with
  | .active memory offset => ⟨true, memory, offset.code, d.init⟩
  | .passive => ⟨false, 0, [], d.init⟩

/-- All locals of the groups. -/
def localTypes (groups : List Locals) : List TypeId := groups.flatMap fun g => List.replicate g.count g.type.typeId

def addLocals (groups : List Locals) (fn : Silverfir.Func) : Silverfir.Func :=
  { fn with
    localTypes := fn.localTypes ++ localTypes groups
    localCount := u32 (fn.localCount + (localTypes groups).length) }

/-! ### Modules -/

def isExported (exports : List Export) (kind : ExternalKind) (i : ℕ) : Bool :=
  exports.any fun e => e.kind = kind ∧ e.idx = i

/-- The entries that are exported are marked. -/
def marks {α : Type} (exports : List Export) (kind : ExternalKind) (f : α → α) (l : List α) : List α :=
  l.mapIdx fun i x => if isExported exports kind i then f x else x

namespace Module
variable (m : Module)

def funcType (typeidx : ℕ) : Silverfir.FuncType := (m.types.map FuncType.recorded)[typeidx]?.getD {}

def importedFuncs : List Silverfir.Func := m.imports.filterMap fun i => i.func?.map fun typeidx =>
  { fnType := m.funcType typeidx, linkage := { imported := true }, path := i.path }

def importedTables : List Silverfir.Table := m.imports.filterMap fun i => i.table?.map fun t =>
  { t.recorded with linkage := { imported := true }, path := i.path }

def importedMemories : List Silverfir.Memory := m.imports.filterMap fun i => i.memory?.map fun l =>
  { l.recordedMemory with linkage := { imported := true }, path := i.path }

def importedGlobals : List Silverfir.Global := m.imports.filterMap fun i => i.global?.map fun t =>
  { t.recorded with linkage := { imported := true }, path := i.path }

/-- A function of the module: parameters are locals too. -/
def definedFunc (typeidx : ℕ) (code : Option Code) : Silverfir.Func :=
  let fn : Silverfir.Func := { fnType := m.funcType typeidx, localCount := (m.funcType typeidx).paramCount }
  match code with
  | none => fn
  | some c => { addLocals c.locals fn with code := c.body }

def definedFuncs : List Silverfir.Func := m.funcs.mapIdx fun j typeidx => m.definedFunc typeidx m.codes[j]?

def recorded : Silverfir.Module where
  formatVersion := 1
  funcTypes := m.types.map FuncType.recorded
  importedFuncCount := m.importedFuncs.length
  funcs := marks m.exports .func Silverfir.Func.marked (m.importedFuncs ++ m.definedFuncs)
  importedTableCount := m.importedTables.length
  tables := marks m.exports .table Silverfir.Table.marked (m.importedTables ++ m.tables.map TableType.recorded)
  importedMemCount := m.importedMemories.length
  memories := marks m.exports .memory Silverfir.Memory.marked
    (m.importedMemories ++ m.memories.map Limits.recordedMemory)
  importedGlobalCount := m.importedGlobals.length
  globals := marks m.exports .global Silverfir.Global.marked (m.importedGlobals ++ m.globals.map Global.recorded)
  exports := m.exports.map Export.recorded
  startFuncidx := m.start
  elements := m.elems.map Elem.recorded
  dataCount := m.dataCount
  data := m.datas.map Data.recorded

/-- The module of the first `k` sections. -/
def upTo : ℕ → Module
  | 0 => {}
  | 1 => { types := m.types }
  | 2 => { types := m.types, imports := m.imports }
  | 3 => { types := m.types, imports := m.imports, funcs := m.funcs }
  | 4 => { types := m.types, imports := m.imports, funcs := m.funcs, tables := m.tables }
  | 5 => { types := m.types, imports := m.imports, funcs := m.funcs, tables := m.tables, memories := m.memories }
  | 6 => { m with exports := [], start := none, elems := [], dataCount := none, codes := [], datas := [] }
  | 7 => { m with start := none, elems := [], dataCount := none, codes := [], datas := [] }
  | 8 => { m with elems := [], dataCount := none, codes := [], datas := [] }
  | 9 => { m with dataCount := none, codes := [], datas := [] }
  | 10 => { m with codes := [], datas := [] }
  | 11 => { m with datas := [] }
  | _ => m

end Module

/-! ### One entry more -/

section Marks
variable {α : Type} {exports : List Export} {kind : ExternalKind} {f : α → α} {l : List α}

theorem isExported_snoc (e : Export) (i : ℕ) :
    isExported (exports ++ [e]) kind i = (isExported exports kind i || decide (e.kind = kind ∧ e.idx = i)) := by
  unfold isExported
  rw [List.any_append, List.any_cons, List.any_nil, Bool.or_false]

theorem length_marks : (marks exports kind f l).length = l.length := by
  unfold marks
  rw [List.length_mapIdx]

theorem getElem?_marks (i : ℕ) :
    (marks exports kind f l)[i]? = l[i]?.map fun x => if isExported exports kind i then f x else x := by
  unfold marks
  rw [List.getElem?_mapIdx]

theorem marks_nil : marks [] kind f l = l := by
  apply List.ext_getElem?
  intro i
  rw [getElem?_marks]
  exact Option.map_id'

/-- An entry that is exported twice is marked once. -/
theorem marks_snoc (hf : ∀ x, f (f x) = f x) (e : Export) :
    marks (exports ++ [e]) kind f l =
      if e.kind = kind then (marks exports kind f l).modify e.idx f else marks exports kind f l := by
  apply List.ext_getElem?
  intro i
  rw [getElem?_marks, isExported_snoc]
  by_cases hkind : e.kind = kind
  · rw [if_pos hkind, List.getElem?_modify, getElem?_marks]
    cases l[i]? with
    | none => rfl
    | some x => by_cases hi : e.idx = i <;> cases isExported exports kind i <;> simp [hkind, hi, hf]
  · rw [if_neg hkind, getElem?_marks]
    simp [hkind]

end Marks

end Binary

end Silverfir
