import Silverfir.Recorded

/-! The section parsers on the content of their section. Before a round of a loop the module that is
recorded is that of the entries read so far. -/
namespace Silverfir

open Grammar

theorem reserve_of {v : VecId} {ps : ParseState} (h : v ∉ ps.fixed) :
    ps.reserve v = .ok { ps with fixed := v :: ps.fixed } := if_neg h

theorem atEnd_of {msg : String} {st : Stream} (h : Cursor.left st = []) : atEnd msg st = .ok () := by
  have hremaining : st.remaining = 0 := by
    unfold Stream.remaining
    rw [← List.length_drop, ← left_eq, h, List.length_nil]
  unfold atEnd
  rw [hremaining]
  rfl

section Entries
variable {β : Type} {E : β → Str → Prop} {f : Module × Stream → R (Module × Stream)} {M : List β → Module}
  {xs : List β} {w : Str} {ps : ParseState}

theorem eachEntry_reads
    (hf : ∀ pre x post w, xs = pre ++ x :: post → E x w →
      Reads (fun st => f (M pre, st)) (fun st => (M (pre ++ [x]), st)) w)
    (h : Items E xs w) : Reads (fun st => eachEntry f xs.length (M []) st) (fun st => (M xs, st)) w :=
  Reads.rounds (f := f) (g := fun mod st => (mod, st)) hf h

/-- A section that is one vector. -/
theorem entries_finish {v : VecId} {msg : String}
    (hf : ∀ pre x post w, xs = pre ++ x :: post → E x w →
      Reads (fun st => f (M pre, st)) (fun st => (M (pre ++ [x]), st)) w)
    (h : Binary.Vector E xs w) (hmod : ps.mod = M []) (hv : v ∉ ps.fixed) :
    Finishes (fun st : Stream => do
      let (count, st) ← st.readVu32
      let ps ← ps.reserve v
      let (mod, st) ← eachEntry f count ps.mod st
      atEnd msg st
      .ok (ps.setMod mod)) { ps with mod := M xs, fixed := v :: ps.fixed } w := by
  cases h with
  | mk count items =>
    refine (readVu32_reads count).finishes ?_
    simp only [reserve_of hv, ok_bind, hmod]
    refine (eachEntry_reads hf items).last fun st hleft => ?_
    dsimp only
    rw [atEnd_of hleft]
    rfl

end Entries

namespace Binary.Module

/-! ### Types, imports and definitions -/

theorem typeSection {ts : List FuncType} {w : Str} {ps : ParseState} (h : Vector FuncType.Encodes ts w)
    (hts : ∀ t ∈ ts, t.params.length ≤ resultTypeCountMax ∧ t.results.length ≤ resultTypeCountMax)
    (hmod : ps.mod = ({} : Module).recorded) (hv : VecId.funcTypes ∉ ps.fixed) :
    Finishes (parseSectionType ps)
      { ps with mod := ({ types := ts } : Module).recorded, fixed := VecId.funcTypes :: ps.fixed } w := by
  refine entries_finish (M := fun pre => ({ types := pre } : Module).recorded)
    (fun pre t post w hsplit ht => ?_) h hmod hv
  have hmem : t ∈ ts := by
    rw [hsplit]
    exact List.mem_append_right _ List.mem_cons_self
  refine (parseFuncType_reads ht (hts t hmem).1 (hts t hmem).2).result fun st => ?_
  dsimp only
  have hnext : ({ types := pre ++ [t] } : Module).recorded =
      { ({ types := pre } : Module).recorded with funcTypes := pre.map FuncType.recorded ++ [t.recorded] } := by
    unfold recorded
    rw [List.map_append]
    rfl
  rw [hnext]
  rfl

theorem parseTypeidx_reads (m : Module) {idx : ℕ} {w : Str} (h : U32 idx w) (hidx : idx < m.types.length) :
    ReadsValue (parseTypeidx (m.types.map FuncType.recorded)) (m.funcType idx) w := by
  unfold parseTypeidx
  refine (readVu32_reads h).result fun st => ?_
  have hget : (m.types.map FuncType.recorded)[idx]? = some (m.funcType idx) := by
    unfold funcType
    rw [List.getElem?_map, List.getElem?_eq_getElem hidx]
    rfl
  dsimp only
  rw [hget]

section Imports
variable {ts : List FuncType} {pre : List Import} {module field : Name}

theorem recorded_import_func (typeidx : ℕ) :
    ({ types := ts, imports := pre ++ [⟨module, field, .func typeidx⟩] } : Module).recorded =
      let mod := ({ types := ts, imports := pre } : Module).recorded
      { mod with
        funcs := mod.funcs ++ [{
          fnType := ({ types := ts } : Module).funcType typeidx
          linkage := { imported := true }
          path := ⟨module.utf8, field.utf8⟩ }]
        importedFuncCount := mod.importedFuncCount + 1 } := by
  simp [recorded, marks_nil, importedFuncs, importedTables, importedMemories, importedGlobals, definedFuncs,
    Import.func?, Import.table?, Import.memory?, Import.global?, Import.path, funcType]

theorem recorded_import_table (t : TableType) :
    ({ types := ts, imports := pre ++ [⟨module, field, .table t⟩] } : Module).recorded =
      let mod := ({ types := ts, imports := pre } : Module).recorded
      { mod with
        tables := mod.tables ++ [{
          valtype := t.type.typeId
          lim := t.limits.recorded u32Max
          linkage := { imported := true }
          path := ⟨module.utf8, field.utf8⟩ }]
        importedTableCount := mod.importedTableCount + 1 } := by
  simp [recorded, marks_nil, importedFuncs, importedTables, importedMemories, importedGlobals, definedFuncs,
    Import.func?, Import.table?, Import.memory?, Import.global?, Import.path, funcType, TableType.recorded]

theorem recorded_import_memory (l : Limits) :
    ({ types := ts, imports := pre ++ [⟨module, field, .memory l⟩] } : Module).recorded =
      let mod := ({ types := ts, imports := pre } : Module).recorded
      { mod with
        memories := mod.memories ++ [{
          lim := l.recorded wasmMemMaxPages
          linkage := { imported := true }
          path := ⟨module.utf8, field.utf8⟩ }]
        importedMemCount := mod.importedMemCount + 1 } := by
  simp [recorded, marks_nil, importedFuncs, importedTables, importedMemories, importedGlobals, definedFuncs,
    Import.func?, Import.table?, Import.memory?, Import.global?, Import.path, funcType, Limits.recordedMemory]

theorem recorded_import_global (t : GlobalType) :
    ({ types := ts, imports := pre ++ [⟨module, field, .global t⟩] } : Module).recorded =
      let mod := ({ types := ts, imports := pre } : Module).recorded
      { mod with
        globals := mod.globals ++ [{
          valtype := t.type.typeId
          mut_ := t.isMut
          linkage := { imported := true }
          path := ⟨module.utf8, field.utf8⟩ }]
        importedGlobalCount := mod.importedGlobalCount + 1 } := by
  simp [recorded, marks_nil, importedFuncs, importedTables, importedMemories, importedGlobals, definedFuncs,
    Import.func?, Import.table?, Import.memory?, Import.global?, Import.path, funcType, GlobalType.recorded]

end Imports

theorem importSection {ts : List FuncType} {is : List Import} {w : Str} {ps : ParseState}
    (h : Vector Import.Encodes is w) (htypes : ∀ idx ∈ is.filterMap Import.func?, idx < ts.length)
    (hlimits : ∀ i ∈ is, i.LimitsOk) (hmod : ps.mod = ({ types := ts } : Module).recorded) :
    Finishes (parseSectionImport ps)
      { ps with mod := ({ types := ts, imports := is } : Module).recorded } w := by
  cases h with
  | @mk l ws count items =>
    unfold parseSectionImport
    refine (readVu32_reads count).finishes ?_
    have hloop : Reads (fun st => eachEntry (fun (mod, st) => parseImport mod st) is.length ps.mod st)
        (fun st => (({ types := ts, imports := is } : Module).recorded, st)) ws := by
      rw [hmod]
      refine eachEntry_reads (M := fun pre => ({ types := ts, imports := pre } : Module).recorded)
        (fun pre i post w hsplit hi => ?_) items
      have hmem : i ∈ is := by
        rw [hsplit]
        exact List.mem_append_right _ List.mem_cons_self
      cases hi with
      | @mk module field desc u v w hmodule hfield hdesc =>
        unfold parseImport
        refine (parseName_reads hmodule).bind ?_
        refine (parseName_reads hfield).bind ?_
        cases hdesc with
        | @func typeidx w hidx =>
          have hlt : typeidx < ts.length := htypes typeidx (List.mem_filterMap.mpr ⟨_, hmem, rfl⟩)
          refine (readU8_reads 0x00).bind ?_
          refine (parseTypeidx_reads { types := ts } hidx hlt).result fun st => ?_
          rw [recorded_import_func]
        | @table t w ht =>
          refine (readU8_reads 0x01).bind ?_
          refine (parseTableType_reads _ ht ((hlimits _ hmem).1 t rfl)).result fun st => ?_
          rw [recorded_import_table]
        | @memory limits w hl =>
          refine (readU8_reads 0x02).bind ?_
          refine (parseLimits_reads hl ((hlimits _ hmem).2 limits rfl)).result fun st => ?_
          rw [recorded_import_memory]
        | @global t w ht =>
          refine (readU8_reads 0x03).bind ?_
          refine (parseGlobalType_reads _ _ ht).result fun st => ?_
          rw [recorded_import_global]
    refine hloop.last fun st hleft => ?_
    dsimp only
    rw [atEnd_of hleft]
    rfl

section Definitions
variable {s : Module}

theorem recorded_func (hexports : s.exports = []) (hcodes : s.codes = []) (pre : List ℕ) (typeidx : ℕ) :
    ({ s with funcs := pre ++ [typeidx] } : Module).recorded =
      let mod := ({ s with funcs := pre } : Module).recorded
      { mod with
        funcs := mod.funcs ++ [{ fnType := s.funcType typeidx, localCount := (s.funcType typeidx).paramCount }] } := by
  simp [recorded, hexports, hcodes, marks_nil, importedFuncs, importedTables, importedMemories, importedGlobals,
    definedFuncs, definedFunc, funcType]

theorem recorded_table (hexports : s.exports = []) (pre : List TableType) (t : TableType) :
    ({ s with tables := pre ++ [t] } : Module).recorded =
      let mod := ({ s with tables := pre } : Module).recorded
      { mod with tables := mod.tables ++ [t.recorded] } := by
  simp [recorded, hexports, marks_nil, importedFuncs, importedTables, importedMemories, importedGlobals,
    definedFuncs, definedFunc, funcType]

theorem recorded_memory (hexports : s.exports = []) (pre : List Limits) (l : Limits) :
    ({ s with memories := pre ++ [l] } : Module).recorded =
      let mod := ({ s with memories := pre } : Module).recorded
      { mod with memories := mod.memories ++ [l.recordedMemory] } := by
  simp [recorded, hexports, marks_nil, importedFuncs, importedTables, importedMemories, importedGlobals,
    definedFuncs, definedFunc, funcType]

theorem recorded_global (hexports : s.exports = []) (pre : List Global) (g : Global) :
    ({ s with globals := pre ++ [g] } : Module).recorded =
      let mod := ({ s with globals := pre } : Module).recorded
      { mod with globals := mod.globals ++ [g.recorded] } := by
  simp [recorded, hexports, marks_nil, importedFuncs, importedTables, importedMemories, importedGlobals,
    definedFuncs, definedFunc, funcType]

variable {w : Str} {ps : ParseState}

theorem functionSection {fs : List ℕ} (h : Vector U32 fs w) (hexports : s.exports = []) (hcodes : s.codes = [])
    (htypes : ∀ idx ∈ fs, idx < s.types.length) (hmod : ps.mod = ({ s with funcs := [] } : Module).recorded)
    (hv : VecId.funcs ∉ ps.fixed) :
    Finishes (parseSectionFunction ps)
      { ps with mod := ({ s with funcs := fs } : Module).recorded, fixed := VecId.funcs :: ps.fixed } w := by
  refine entries_finish (M := fun pre => ({ s with funcs := pre } : Module).recorded)
    (fun pre idx post w hsplit hidx => ?_) h hmod hv
  have hmem : idx ∈ fs := by
    rw [hsplit]
    exact List.mem_append_right _ List.mem_cons_self
  refine (parseTypeidx_reads s hidx (htypes idx hmem)).result fun st => ?_
  rw [recorded_func hexports hcodes]

theorem tableSection {ts : List TableType} (h : Vector TableType.Encodes ts w) (hexports : s.exports = [])
    (hlimits : ∀ t ∈ ts, t.limits.Within u32Max) (hmod : ps.mod = ({ s with tables := [] } : Module).recorded)
    (hv : VecId.tables ∉ ps.fixed) :
    Finishes (parseSectionTable ps)
      { ps with mod := ({ s with tables := ts } : Module).recorded, fixed := VecId.tables :: ps.fixed } w := by
  refine entries_finish (M := fun pre => ({ s with tables := pre } : Module).recorded)
    (fun pre t post w hsplit ht => ?_) h hmod hv
  have hmem : t ∈ ts := by
    rw [hsplit]
    exact List.mem_append_right _ List.mem_cons_self
  refine (parseTableType_reads _ ht (hlimits t hmem)).result fun st => ?_
  rw [recorded_table hexports]
  rfl

theorem memorySection {ls : List Limits} (h : Vector Limits.Encodes ls w) (hexports : s.exports = [])
    (hlimits : ∀ l ∈ ls, l.Within wasmMemMaxPages) (hmod : ps.mod = ({ s with memories := [] } : Module).recorded)
    (hv : VecId.memories ∉ ps.fixed) :
    Finishes (parseSectionMemory ps)
      { ps with mod := ({ s with memories := ls } : Module).recorded, fixed := VecId.memories :: ps.fixed } w := by
  refine entries_finish (M := fun pre => ({ s with memories := pre } : Module).recorded)
    (fun pre l post w hsplit hl => ?_) h hmod hv
  have hmem : l ∈ ls := by
    rw [hsplit]
    exact List.mem_append_right _ List.mem_cons_self
  refine (parseLimits_reads hl (hlimits l hmem)).result fun st => ?_
  rw [recorded_memory hexports]
  rfl

theorem globalSection {gs : List Global} (h : Vector Global.Encodes gs w) (hexports : s.exports = [])
    (hmod : ps.mod = ({ s with globals := [] } : Module).recorded) (hv : VecId.globals ∉ ps.fixed) :
    Finishes (parseSectionGlobal ps)
      { ps with mod := ({ s with globals := gs } : Module).recorded, fixed := VecId.globals :: ps.fixed } w := by
  refine entries_finish (M := fun pre => ({ s with globals := pre } : Module).recorded)
    (fun pre g post w hsplit hg => ?_) h hmod hv
  cases hg with
  | @mk type init v htype =>
    refine (parseGlobalType_reads _ _ htype).bind ?_
    refine (parseConstExpr_reads init).result fun st => ?_
    rw [recorded_global hexports]
    rfl

/-! ### Exports and the start function -/

theorem length_imported {α β : Type} (p : Import → Option α) (g : Import → α → β) :
    (s.imports.filterMap fun i => (p i).map (g i)).length = (s.imports.filterMap p).length := by
  induction s.imports with
  | nil => rfl
  | cons i is ih =>
    rw [List.filterMap_cons, List.filterMap_cons]
    cases p i with
    | none => exact ih
    | some x => exact congrArg (· + 1) ih

theorem length_typeidxs : s.typeidxs.length = s.importedFuncs.length + s.funcs.length := by
  unfold importedFuncs typeidxs
  rw [length_imported, List.length_append]

theorem length_recorded (kind : ExternalKind) :
    s.count kind = match kind with
      | .func => s.recorded.funcs.length
      | .table => s.recorded.tables.length
      | .memory => s.recorded.memories.length
      | .global => s.recorded.globals.length := by
  cases kind <;> dsimp only [recorded, count] <;> rw [length_marks, List.length_append]
  · unfold definedFuncs
    rw [length_typeidxs, List.length_mapIdx]
  · unfold importedTables
    rw [length_imported, List.length_map]
  · unfold importedMemories
    rw [length_imported, List.length_map]
  · unfold importedGlobals
    rw [length_imported, List.length_map]

/-- An export marks its entry. -/
theorem recorded_export (pre : List Export) (e : Export) (hidx : e.idx < s.count e.kind) :
    ∃ mod, markExport e.kind e.idx ({ s with exports := pre } : Module).recorded = .ok mod ∧
      ({ s with exports := pre ++ [e] } : Module).recorded = { mod with exports := mod.exports ++ [e.recorded] } := by
  have hcount : e.idx < ({ s with exports := pre } : Module).count e.kind := hidx
  rw [length_recorded] at hcount
  cases hkind : e.kind <;> rw [hkind] at hcount <;> refine ⟨_, if_neg (Nat.not_le.mpr hcount), ?_⟩
  all_goals
    simp only [recorded, List.map_append, List.map_cons, List.map_nil]
    rw [marks_snoc fun f : Silverfir.Func => (rfl : f.marked.marked = f.marked),
      marks_snoc fun t : Silverfir.Table => (rfl : t.marked.marked = t.marked),
      marks_snoc fun m : Silverfir.Memory => (rfl : m.marked.marked = m.marked),
      marks_snoc fun g : Silverfir.Global => (rfl : g.marked.marked = g.marked), hkind]
    rfl

theorem kindByte_ofByte? (kind : ExternalKind) : ExternalKind.ofByte? (kindByte kind).toNat = some kind := by
  cases kind <;> rfl

theorem exportSection {es : List Export} (h : Vector Export.Encodes es w) (hidx : ∀ e ∈ es, e.idx < s.count e.kind)
    (hmod : ps.mod = ({ s with exports := [] } : Module).recorded) (hv : VecId.exports ∉ ps.fixed) :
    Finishes (parseSectionExport ps)
      { ps with mod := ({ s with exports := es } : Module).recorded, fixed := VecId.exports :: ps.fixed } w := by
  refine entries_finish (M := fun pre => ({ s with exports := pre } : Module).recorded)
    (fun pre e post w hsplit he => ?_) h hmod hv
  have hmem : e ∈ es := by
    rw [hsplit]
    exact List.mem_append_right _ List.mem_cons_self
  cases he with
  | @mk name kind idx v w hname hw =>
    obtain ⟨mod, hmark, hnext⟩ := recorded_export (s := s) pre ⟨name, kind, idx⟩ (hidx _ hmem)
    unfold parseExport
    refine (parseName_reads hname).bind ?_
    refine (readU8_reads (kindByte kind)).bind ?_
    dsimp only
    rw [kindByte_ofByte?]
    refine (readVu32_reads hw).result fun st => ?_
    dsimp only
    rw [hmark, ok_bind, hnext]
    rfl

theorem funcs_fnType (s : Module) : s.recorded.funcs.map (·.fnType) = s.typeidxs.map s.funcType := by
  have himported : s.importedFuncs.map (·.fnType) = (s.imports.filterMap Import.func?).map s.funcType := by
    unfold importedFuncs
    rw [List.map_filterMap, List.map_filterMap]
    apply List.filterMap_congr
    intro i _
    cases i.func? <;> rfl
  have hdefined : s.definedFuncs.map (·.fnType) = s.funcs.map s.funcType := by
    apply List.ext_getElem?
    intro j
    unfold definedFuncs
    rw [List.getElem?_map, List.getElem?_mapIdx, List.getElem?_map, Option.map_map]
    cases s.funcs[j]? with
    | none => rfl
    | some typeidx => cases s.codes[j]? <;> rfl
  apply List.ext_getElem?
  intro i
  have happend : (s.importedFuncs ++ s.definedFuncs).map (·.fnType) = s.typeidxs.map s.funcType := by
    unfold typeidxs
    rw [List.map_append, List.map_append, himported, hdefined]
  rw [← happend, List.getElem?_map, List.getElem?_map]
  dsimp only [recorded]
  rw [getElem?_marks, Option.map_map]
  congr 1
  funext f
  dsimp only [Function.comp]
  split_ifs <;> rfl

theorem startSection {idx typeidx : ℕ} (h : U32 idx w) (hidx : s.typeidxs[idx]? = some typeidx)
    (htype : s.types[typeidx]? = some ⟨[], []⟩) (hmod : ps.mod = ({ s with start := none } : Module).recorded) :
    Finishes (parseSectionStart ps) { ps with mod := ({ s with start := some idx } : Module).recorded } w := by
  have hfnType : (ps.mod.funcs[idx]?).map (·.fnType) = some ⟨0, 0, [], []⟩ := by
    have hall := funcs_fnType { s with start := none }
    rw [← hmod] at hall
    have hcalled : s.funcType typeidx = ⟨0, 0, [], []⟩ := by
      unfold funcType
      rw [List.getElem?_map, htype]
      rfl
    rw [← List.getElem?_map, hall, List.getElem?_map]
    change (s.typeidxs[idx]?).map s.funcType = _
    rw [hidx, Option.map_some, hcalled]
  obtain ⟨startFn, hget, hempty⟩ := Option.map_eq_some_iff.mp hfnType
  unfold parseSectionStart
  refine (readVu32_reads h).last fun st hleft => ?_
  dsimp only
  rw [hget]
  dsimp only
  rw [hempty, if_neg (by decide), atEnd_of hleft, ok_bind, hmod]
  rfl

end Definitions

end Binary.Module

end Silverfir
