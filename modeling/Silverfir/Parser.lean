import Silverfir.Lib.Loop
import Silverfir.Validator

/-! The parser of the binary format, `parser.c`. -/
namespace Silverfir

/-! ### Names -/

/-- `s_utf8_length`, by the first byte. -/
def utf8Length (c : ℕ) : ℕ :=
  if c < 0x80 then 1 else if c < 0xc2 then 0 else if c < 0xe0 then 2 else if c < 0xf0 then 3
  else if c < 0xf5 then 4 else 0

def isCont (c : UInt8) : Bool := c &&& 0xc0 == 0x80

def isValidUtf8 : Str → Bool
  | [] => true
  | cu0 :: rest =>
    match utf8Length cu0.toNat, rest with
    | 1, rest => isValidUtf8 rest
    | 2, cu1 :: rest => isCont cu1 && isValidUtf8 rest
    | 3, cu1 :: cu2 :: rest =>
      !(!(isCont cu1 && isCont cu2) || (cu0 == 0xe0 && cu1 < 0xa0) || (cu0 == 0xed && cu1 ≥ 0xa0)) &&
        isValidUtf8 rest
    | 4, cu1 :: cu2 :: cu3 :: rest =>
      !(!(isCont cu1 && isCont cu2 && isCont cu3) || (cu0 == 0xf0 && cu1 < 0x90) || (cu0 == 0xf4 && cu1 ≥ 0x90)) &&
        isValidUtf8 rest
    | _, _ => false

def parseName (st : Stream) : R (Str × Stream) := do
  let (nameLen, st) ← st.readVu32
  if nameLen = 0 then .ok ([], st)
  else do
    let (name, st) ← st.slice nameLen
    if !isValidUtf8 name.s then err .malformed "Invalid utf8 name" else .ok (name.s, st)

/-! ### Limits and constant expressions -/

/-- The maximum, if the flag says there is one. -/
def parseMax (maxCap flag : ℕ) (st : Stream) : R (ℕ × Stream) :=
  if flag = 0x1 then do
    let (m, st) ← st.readVu32
    if m ≤ maxCap then .ok (m, st) else err .invalid "Invalid limits max"
  else .ok (maxCap, st)

def parseLimits (maxCap : ℕ) (st : Stream) : R (Limits × Stream) := do
  let (flag, st) ← st.readU8
  if flag ≠ 0x0 ∧ flag ≠ 0x1 then err .malformed "Invalid limits"
  else do
    let (min, st) ← st.readVu32
    let (max, st) ← parseMax maxCap flag st
    if min > max then err .invalid "Invalid limits min" else .ok (⟨min, max⟩, st)

/-- The immediate of an instruction of a constant expression. Any other byte is passed over; it is
found when the expression is evaluated. -/
def skipImm (op : WasmOpcode) (st : Stream) : R Stream :=
  match op with
  | .i32Const => st.readVi32.map (·.2)
  | .i64Const => st.readVi64.map (·.2)
  | .f32Const => st.readF32.map (·.2)
  | .f64Const => st.readF64.map (·.2)
  | .refNull => st.readVi7.map (·.2)
  | .refFunc | .globalGet => st.readVu32.map (·.2)
  | _ => .ok st

/-- The bytes up to `end`. Every round reads a byte, so what is left bounds the number of rounds. -/
def skipConstExpr : ℕ → Stream → R Stream
  | 0, _ => Stream.notEnough
  | n + 1, st => do
    let (opcode, st) ← st.readU8
    match WasmOpcode.ofByte? opcode with
    | some .end_ => .ok st
    | some op => do
      let st ← skipImm op st
      skipConstExpr n st
    | none => skipConstExpr n st

def parseConstExpr (st : Stream) : R (Str × Stream) := do
  let st' ← skipConstExpr (st.remaining + 1) st
  .ok ((st.s.drop st.p).take (st'.p - st.p), st')

/-! ### The state of the parser -/

/-- The vectors that are set to be fixed. -/
inductive VecId where
  | funcTypes | funcs | tables | memories | globals | exports | elements | data
  | localTypes (func : ℕ)
  | vFuncidx (elem : ℕ)
  | vExpr (elem : ℕ)
  deriving DecidableEq, Repr

/-- The module so far, which of its vectors are fixed, and the capacity of `elements`. -/
structure ParseState where
  mod : Module := {}
  fixed : List VecId := []
  elemCapacity : ℕ := 0
  deriving DecidableEq, Repr

namespace ParseState

/-- `vec_reserve` and `vec_set_fixed`; allocation is taken to succeed. A vector that is fixed
cannot be reserved again, whatever its capacity. -/
def reserve (v : VecId) (ps : ParseState) : R ParseState :=
  if v ∈ ps.fixed then err .general "vector is fixed" else .ok { ps with fixed := v :: ps.fixed }

def setMod (ps : ParseState) (mod : Module) : ParseState := { ps with mod := mod }

end ParseState

/-- `if (stream_remaining(&st)) return err(...)` -/
def atEnd (msg : String) (st : Stream) : R Unit := if st.remaining ≠ 0 then err .malformed msg else .ok ()

/-- `count` rounds that read the stream and extend the module. -/
def eachEntry (f : Module × Stream → R (Module × Stream)) (count : ℕ) (mod : Module) (st : Stream) :
    R (Module × Stream) :=
  Loop.times f count (mod, st)

/-! ### Types -/

/-- The loops over the parameter and result types only check them. -/
def checkTypes : ℕ → Stream → R Stream
  | 0, st => .ok st
  | n + 1, st => do
    let (_, st) ← readType TypeId.isValueType "Invalid value type" st
    checkTypes n st

/-- A count, and the slice with that many types. -/
def parseResultType (msg : String) (st : Stream) : R (ℕ × Str × Stream) := do
  let (count, st) ← st.readVu32
  if count > resultTypeCountMax then err .invalid msg
  else do
    let st' ← checkTypes count st
    .ok (count, (st.s.drop st.p).take count, st')

def parseFuncType (st : Stream) : R (FuncType × Stream) := do
  let (form, st) ← st.readVu7
  if form ≠ 0x60 then err .invalid "Unsupported function form (should be 0x60)"
  else do
    let (paramCount, params, st) ← parseResultType "Function argument count exceeds limit" st
    let (resultCount, results, st) ← parseResultType "Result count exceeds limit" st
    .ok (⟨paramCount, resultCount, params, results⟩, st)

def parseSectionType (ps : ParseState) (st : Stream) : R ParseState := do
  let (count, st) ← st.readVu32
  let ps ← ps.reserve .funcTypes
  let (mod, st) ← eachEntry (fun (mod, st) => do
    let (ft, st) ← parseFuncType st
    .ok ({ mod with funcTypes := mod.funcTypes ++ [ft] }, st)) count ps.mod st
  atEnd "Malformed function type section" st
  .ok (ps.setMod mod)

/-! ### Imports -/

/-- `external_kind` -/
def ExternalKind.ofByte? : ℕ → Option ExternalKind
  | 0 => some .func
  | 1 => some .table
  | 2 => some .memory
  | 3 => some .global
  | _ => none

def parseTypeidx (funcTypes : List FuncType) (st : Stream) : R (FuncType × Stream) := do
  let (typeidx, st) ← st.readVu32
  match funcTypes[typeidx]? with
  | none => err .invalid "Invalid function type index"
  | some ft => .ok (ft, st)

def parseTableType (msg : String) (st : Stream) : R (TypeId × Limits × Stream) := do
  let (valtype, st) ← readType TypeId.isRef msg st
  let (lim, st) ← parseLimits u32Max st
  .ok (valtype, lim, st)

def parseGlobalType (msg mutMsg : String) (st : Stream) : R (TypeId × Bool × Stream) := do
  let (valtype, st) ← readType TypeId.isValueType msg st
  let (mut_, st) ← st.readU8
  if mut_ ≠ 0 ∧ mut_ ≠ 1 then err .malformed mutMsg else .ok (valtype, mut_ ≠ 0, st)

def parseImport (mod : Module) (st : Stream) : R (Module × Stream) := do
  let (module, st) ← parseName st
  let (field, st) ← parseName st
  let path : ImportPath := ⟨module, field⟩
  let linkage : Linkage := { imported := true }
  let (kind, st) ← st.readU8
  match ExternalKind.ofByte? kind with
  | some .func => do
    let (ft, st) ← parseTypeidx mod.funcTypes st
    .ok ({ mod with
      funcs := mod.funcs ++ [{ fnType := ft, linkage := linkage, path := path }]
      importedFuncCount := mod.importedFuncCount + 1 }, st)
  | some .table => do
    let (valtype, lim, st) ← parseTableType "Invalid ref in the imported table" st
    .ok ({ mod with
      tables := mod.tables ++ [{ valtype := valtype, lim := lim, linkage := linkage, path := path }]
      importedTableCount := mod.importedTableCount + 1 }, st)
  | some .memory => do
    let (lim, st) ← parseLimits wasmMemMaxPages st
    .ok ({ mod with
      memories := mod.memories ++ [{ lim := lim, linkage := linkage, path := path }]
      importedMemCount := mod.importedMemCount + 1 }, st)
  | some .global => do
    let (valtype, mut_, st) ← parseGlobalType "Invalid value type in the imported global" "Invalid mut value" st
    .ok ({ mod with
      globals := mod.globals ++ [{ valtype := valtype, mut_ := mut_, linkage := linkage, path := path }]
      importedGlobalCount := mod.importedGlobalCount + 1 }, st)
  | none => err .malformed "Malformed import kind"

def parseSectionImport (ps : ParseState) (st : Stream) : R ParseState := do
  let (count, st) ← st.readVu32
  let (mod, st) ← eachEntry (fun (mod, st) => parseImport mod st) count ps.mod st
  atEnd "Malformed import section" st
  .ok (ps.setMod mod)

/-! ### Definitions -/

def parseSectionFunction (ps : ParseState) (st : Stream) : R ParseState := do
  let (count, st) ← st.readVu32
  let ps ← ps.reserve .funcs
  let (mod, st) ← eachEntry (fun (mod, st) => do
    let (ft, st) ← parseTypeidx mod.funcTypes st
    .ok ({ mod with funcs := mod.funcs ++ [{ fnType := ft, localCount := ft.paramCount }] }, st)) count ps.mod st
  atEnd "Malformed function section" st
  .ok (ps.setMod mod)

def parseSectionTable (ps : ParseState) (st : Stream) : R ParseState := do
  let (count, st) ← st.readVu32
  let ps ← ps.reserve .tables
  let (mod, st) ← eachEntry (fun (mod, st) => do
    let (valtype, lim, st) ← parseTableType "Invalid ref in the table section" st
    .ok ({ mod with tables := mod.tables ++ [{ valtype := valtype, lim := lim }] }, st)) count ps.mod st
  atEnd "Malformed table section" st
  .ok (ps.setMod mod)

def parseSectionMemory (ps : ParseState) (st : Stream) : R ParseState := do
  let (count, st) ← st.readVu32
  let ps ← ps.reserve .memories
  let (mod, st) ← eachEntry (fun (mod, st) => do
    let (lim, st) ← parseLimits wasmMemMaxPages st
    .ok ({ mod with memories := mod.memories ++ [{ lim := lim }] }, st)) count ps.mod st
  atEnd "Malformed memory section" st
  .ok (ps.setMod mod)

def parseSectionGlobal (ps : ParseState) (st : Stream) : R ParseState := do
  let (count, st) ← st.readVu32
  let ps ← ps.reserve .globals
  let (mod, st) ← eachEntry (fun (mod, st) => do
    let (valtype, mut_, st) ← parseGlobalType "Invalid value type in the global section"
      "Invalid encoding of the 'mut' flag of global values" st
    let (expr, st) ← parseConstExpr st
    .ok ({ mod with globals := mod.globals ++ [{ valtype := valtype, mut_ := mut_, expr := expr }] }, st))
    count ps.mod st
  atEnd "Malformed global section" st
  .ok (ps.setMod mod)

/-! ### Exports and the start function -/

def Linkage.markExported (l : Linkage) : Linkage := { l with exported := true }

/-- The exported entry is marked. -/
def markExport (kind : ExternalKind) (idx : ℕ) (mod : Module) : R Module :=
  match kind with
  | .func =>
    if idx ≥ mod.funcs.length then err .invalid "Invalid function index"
    else .ok { mod with funcs := mod.funcs.modify idx fun f => { f with linkage := f.linkage.markExported } }
  | .table =>
    if idx ≥ mod.tables.length then err .invalid "Invalid table index"
    else .ok { mod with tables := mod.tables.modify idx fun t => { t with linkage := t.linkage.markExported } }
  | .memory =>
    if idx ≥ mod.memories.length then err .invalid "Invalid memory index"
    else .ok { mod with memories := mod.memories.modify idx fun m => { m with linkage := m.linkage.markExported } }
  | .global =>
    if idx ≥ mod.globals.length then err .invalid "Invalid global index"
    else .ok { mod with globals := mod.globals.modify idx fun g => { g with linkage := g.linkage.markExported } }

def parseExport (mod : Module) (st : Stream) : R (Module × Stream) := do
  let (name, st) ← parseName st
  let (kind, st) ← st.readU8
  match ExternalKind.ofByte? kind with
  | none => err .invalid "Invalid external kind"
  | some kind => do
    let (idx, st) ← st.readVu32
    let mod ← markExport kind idx mod
    .ok ({ mod with exports := mod.exports ++ [⟨name, kind, idx⟩] }, st)

def parseSectionExport (ps : ParseState) (st : Stream) : R ParseState := do
  let (count, st) ← st.readVu32
  let ps ← ps.reserve .exports
  let (mod, st) ← eachEntry (fun (mod, st) => parseExport mod st) count ps.mod st
  atEnd "Malformed export section" st
  .ok (ps.setMod mod)

def parseSectionStart (ps : ParseState) (st : Stream) : R ParseState := do
  let (startFuncidx, st) ← st.readVu32
  match ps.mod.funcs[startFuncidx]? with
  | none => err .invalid "Invalid function index of the start function"
  | some startFn =>
    if startFn.fnType.paramCount ≠ 0 ∨ startFn.fnType.resultCount ≠ 0 then
      err .invalid "The start function should have no parameter and return value"
    else do
      atEnd "Malformed start section" st
      .ok (ps.setMod { ps.mod with startFuncidx := some startFuncidx })

/-! ### Element segments -/

/-- The flags of an element segment: bit 0 is `elem_kind_passive`, bit 1 `elem_kind_table_idx`, bit 2
`elem_kind_expr`; the first two together are `elem_kind_declarative`. -/
structure ElemKind where
  passive : Bool
  tableIdx : Bool
  expr : Bool
  deriving DecidableEq, Repr

def ElemKind.ofByte (kind : ℕ) : ElemKind := ⟨kind.testBit 0, kind.testBit 1, kind.testBit 2⟩

def ElemKind.mode (kind : ElemKind) : ElemMode :=
  if !kind.passive then .active else if kind.tableIdx then .declarative else .passive

/-- The capacity of `elements` when it has to hold `count` of them. -/
def growElements (count : ℕ) (ps : ParseState) : R ℕ :=
  if count > ps.elemCapacity then
    if VecId.elements ∈ ps.fixed then err .general "vector is fixed" else .ok count
  else .ok ps.elemCapacity

/-- `vec_resize` of `elements`: new entries are zero, also where there was an entry before. -/
def resizeElements (count : ℕ) (ps : ParseState) : R ParseState :=
  let size := ps.mod.elements.length
  if count ≤ size then .ok (ps.setMod { ps.mod with elements := ps.mod.elements.take count })
  else do
    let capacity ← growElements count ps
    .ok
      { mod := { ps.mod with elements := ps.mod.elements ++ List.replicate (count - size) {} }
        fixed := ps.fixed.filter fun v =>
          match v with
          | .vFuncidx i | .vExpr i => i < size
          | _ => true
        elemCapacity := capacity }

def parseElemTableidx (kind : ElemKind) (st : Stream) : R (ℕ × Stream) :=
  if !kind.passive && kind.tableIdx then st.readVu32 else .ok (0, st)

/-- The table and the offset of an active segment. -/
def parseElemOffset (kind : ElemKind) (elem : Element) (st : Stream) : R (Element × Stream) := do
  let (tableidx, st) ← parseElemTableidx kind st
  let elem := { elem with mode := kind.mode, tableidx := tableidx }
  if !kind.passive then do
    let (expr, st) ← parseConstExpr st
    .ok ({ elem with offsetExpr := expr }, st)
  else .ok (elem, st)

/-- The reference type of a segment, or its element kind. -/
def parseElemType (kind : ElemKind) (st : Stream) : R (TypeId × Stream) :=
  if kind.passive || kind.tableIdx then
    if kind.expr then do
      let (t, st) ← st.readVi7
      match TypeId.ofI8? t with
      | none => err .malformed "Invalid ref"
      | some t => if !t.isRef then err .malformed "Invalid ref" else .ok (t, st)
    else do
      let (externalKind, st) ← st.readU8
      if externalKind ≠ 0 then err .invalid "Invalid element external kind" else .ok (.funcref, st)
  else .ok (.funcref, st)

def parseExprs (count : ℕ) (st : Stream) : R (List Str × Stream) :=
  Loop.times (fun (exprs, st) => do
    let (expr, st) ← parseConstExpr st
    .ok (exprs ++ [expr], st)) count ([], st)

def parseFuncidxs (funcCount count : ℕ) (st : Stream) : R (List ℕ × Stream) :=
  Loop.times (fun (idxs, st) => do
    let (funcidx, st) ← st.readVu32
    if funcidx ≥ funcCount then err .invalid "Invalid function index" else .ok (idxs ++ [funcidx], st)) count ([], st)

/-- The items go behind those of an earlier section. -/
def parseElemItems (i : ℕ) (kind : ElemKind) (elem : Element) (ps : ParseState) (st : Stream) :
    R (ParseState × Element × Stream) := do
  let (idxCount, st) ← st.readVu32
  let elem := { elem with dataLen := idxCount }
  if kind.expr then do
    let ps ← ps.reserve (.vExpr i)
    let (exprs, st) ← parseExprs idxCount st
    .ok (ps, { elem with vExpr := elem.vExpr ++ exprs }, st)
  else do
    let ps ← ps.reserve (.vFuncidx i)
    let (idxs, st) ← parseFuncidxs ps.mod.funcs.length idxCount st
    .ok (ps, { elem with vFuncidx := elem.vFuncidx ++ idxs }, st)

def parseElement (i : ℕ) (ps : ParseState) (st : Stream) : R (ParseState × Stream) := do
  let (kind, st) ← st.readU8
  if kind > 7 then err .malformed "Invalid element flag"
  else
    match ps.mod.elements[i]? with
    | none => undef "elements"
    | some elem => do
      let kind := ElemKind.ofByte kind
      let (elem, st) ← parseElemOffset kind elem st
      let (valtype, st) ← parseElemType kind st
      let (ps, elem, st) ← parseElemItems i kind { elem with valtype := valtype } ps st
      .ok (ps.setMod { ps.mod with elements := ps.mod.elements.set i elem }, st)

def parseSectionElement (ps : ParseState) (st : Stream) : R ParseState := do
  let (count, st) ← st.readVu32
  let ps ← resizeElements count ps
  let ps := { ps with fixed := VecId.elements :: ps.fixed }
  let (_, ps, st) ← Loop.times (fun (i, ps, st) => do
    let (ps, st) ← parseElement i ps st
    .ok (i + 1, ps, st)) count (0, ps, st)
  atEnd "Malformed element section" st
  .ok ps

/-! ### Code -/

/-- The first pass over the locals only counts them. -/
def countLocals (groups : ℕ) (code : Stream) : R (ℕ × Stream) :=
  Loop.times (fun (total, code) => do
    let (localCount, code) ← code.readVu32
    let (_, code) ← code.readVi7
    if total + localCount > u32Max then err .malformed "Too many locals" else .ok (total + localCount, code))
    groups (0, code)

/-- The second pass. A vector of locals that is fixed has no room. -/
def parseLocals (isFixed : Bool) (groups : ℕ) (fn : Func) (code : Stream) : R (Func × Stream) :=
  Loop.times (fun (fn, code) => do
    let (localCount, code) ← code.readVu32
    let (valtype, code) ← readType TypeId.isValueType "Invalid value type" code
    if isFixed ∧ localCount ≠ 0 then err .general "vector is fixed"
    else
      .ok ({ fn with
        localTypes := fn.localTypes ++ List.replicate localCount valtype
        localCount := u32 (fn.localCount + localCount) }, code)) groups (fn, code)

/-- `vec_shrink_to_fit` refuses a vector that is fixed. -/
def parseCode (i : ℕ) (ps : ParseState) (st : Stream) : R (ParseState × Stream) :=
  match ps.mod.funcs[i]? with
  | none => undef "funcs"
  | some fn => do
    let (codeSize, st) ← st.readVu32
    let (code, st) ← st.slice codeSize
    let (groups, code) ← code.readVu32
    let _ ← countLocals groups code
    let (fn, code) ← parseLocals (decide (VecId.localTypes i ∈ ps.fixed)) groups fn code
    if code.remaining = 0 then err .invalid "Function body is empty"
    else do
      let ps ← ps.reserve (.localTypes i)
      .ok (ps.setMod { ps.mod with funcs := ps.mod.funcs.set i { fn with code := code.s.drop code.p } }, st)

def parseSectionCode (ps : ParseState) (st : Stream) : R ParseState := do
  let (count, st) ← st.readVu32
  if u32 (count + ps.mod.importedFuncCount) ≠ ps.mod.funcs.length then
    err .malformed "Function number mismatch between code and function sections"
  else do
    let (_, ps, st) ← Loop.times (fun (i, ps, st) => do
      let (ps, st) ← parseCode i ps st
      .ok (i + 1, ps, st)) count (ps.mod.importedFuncCount, ps, st)
    atEnd "Malformed code section" st
    .ok ps

/-! ### Data segments -/

/-- Only memory 0 can be named. -/
def parseMemidx (dataKind : ℕ) (st : Stream) : R (ℕ × Stream) :=
  if dataKind.testBit 1 then do
    let (idx, st) ← st.readVu32
    if idx ≠ 0 then err .invalid "Invalid memory index" else .ok (idx, st)
  else .ok (0, st)

def parseDataOffset (isActive : Bool) (st : Stream) : R (Str × Stream) :=
  if isActive then parseConstExpr st else .ok ([], st)

def parseBytes (st : Stream) : R (Str × Stream) := do
  let (byteLen, st) ← st.readVu32
  if byteLen = 0 then .ok ([], st)
  else do
    let (b, st) ← st.slice byteLen
    .ok (b.s, st)

def parseData (st : Stream) : R (Data × Stream) := do
  let (dataKind, st) ← st.readVu32
  if dataKind > 2 then err .malformed "Invalid data kind"
  else do
    let isActive := !dataKind.testBit 0
    let (memidx, st) ← parseMemidx dataKind st
    let (offsetExpr, st) ← parseDataOffset isActive st
    let (bytes, st) ← parseBytes st
    .ok (⟨isActive, memidx, offsetExpr, bytes⟩, st)

def parseSectionData (ps : ParseState) (st : Stream) : R ParseState := do
  let (count, st) ← st.readVu32
  if ps.mod.dataCount.any (· ≠ count) then err .malformed "Data and data count section doesn't match"
  else do
    let ps ← ps.reserve .data
    let (mod, st) ← eachEntry (fun (mod, st) => do
      let (d, st) ← parseData st
      .ok ({ mod with data := mod.data ++ [d] }, st)) count { ps.mod with dataCount := some count } st
    atEnd "Malformed data section" st
    .ok (ps.setMod mod)

def parseSectionDataCount (ps : ParseState) (st : Stream) : R ParseState := do
  let (dataCount, st) ← st.readVu32
  atEnd "Malformed data_count section" st
  .ok (ps.setMod { ps.mod with dataCount := some dataCount })

/-! ### Modules -/

/-- `FOR_EACH_WASM_SECTION` -/
inductive SectionId where
  | custom | type | import_ | function | table | memory | global | export_ | start | element | dataCount | code | data
  deriving DecidableEq, Repr

namespace SectionId

def id : SectionId → ℕ
  | .custom => 0
  | .type => 1
  | .import_ => 2
  | .function => 3
  | .table => 4
  | .memory => 5
  | .global => 6
  | .export_ => 7
  | .start => 8
  | .element => 9
  | .dataCount => 12
  | .code => 10
  | .data => 11

/-- The order in which the sections appear. -/
def order : List SectionId :=
  [custom, type, import_, function, table, memory, global, export_, start, element, dataCount, code, data]

/-- `order[current_order_idx] != id` while it is not past the end. -/
def find (current id : ℕ) : Option (ℕ × SectionId) :=
  (order.drop current).findIdx? (·.id == id) |>.bind fun i => (order[current + i]?).map (current + i, ·)

end SectionId

def parseSection : SectionId → ParseState → Stream → R ParseState
  | .custom => fun ps _ => .ok ps
  | .type => parseSectionType
  | .import_ => parseSectionImport
  | .function => parseSectionFunction
  | .table => parseSectionTable
  | .memory => parseSectionMemory
  | .global => parseSectionGlobal
  | .export_ => parseSectionExport
  | .start => parseSectionStart
  | .element => parseSectionElement
  | .dataCount => parseSectionDataCount
  | .code => parseSectionCode
  | .data => parseSectionData

/-- The loop over the sections. Every round reads a byte. Custom sections may be anywhere. -/
def parseSections : ℕ → ℕ → ParseState → Stream → R ParseState
  | 0, _, ps, _ => .ok ps
  | n + 1, current, ps, st =>
    if st.remaining = 0 then .ok ps
    else do
      let (id, st) ← st.readVu7
      let (payloadLen, st) ← st.readVu32
      match if id = 0 then some (current, SectionId.custom) else SectionId.find current id with
      | none => err .malformed "Incorrect section order"
      | some (current, sec) =>
        if payloadLen = 0 then parseSections n current ps st
        else do
          let (content, st) ← st.slice payloadLen
          let ps ← parseSection sec ps content
          parseSections n current ps st

def parseModule (bin : Str) : R Module := do
  if bin = [] then err .malformed "Missing wasm binary"
  else do
    let st := Stream.from_ bin
    let (magic, st) ← st.readU32
    if magic ≠ 0x6D736100 then err .malformed "Invalid magic number"
    else do
      let (version, st) ← st.readU32
      if version ≠ 1 then err .malformed "Unsupported WebAssembly binary format version"
      else do
        let ps ← parseSections (st.remaining + 1) 0 { mod := { formatVersion := version } } st
        .ok ps.mod

/-! ### Modules of the host -/

/-- `module_init` -/
def moduleInit (bin name : Str) : R Module := do
  let mod ← parseModule bin
  .ok { mod with names := [name] }

def moduleRegisterName (mod : Module) (name : Str) : Module := { mod with names := mod.names ++ [name] }

/-- A function that is exported is bound to the host function of that name. -/
def injectHostFunction (info : Str → Option ℕ) (mod : Module) (exp : Export) : R Module :=
  if exp.externalKind = .func then
    match mod.funcs[exp.externalIdx]? with
    | none => undef "funcs"
    | some f =>
      if f.linkage.imported then err .general "Host functions should not be marked as imported"
      else
        match info exp.name with
        | none => err .general "Missing hosted function implementation"
        | some host => .ok { mod with funcs := mod.funcs.set exp.externalIdx { f with hostFunc := some host } }
  else .ok mod

/-- `inject_host_functions`; `info` finds the host function of a name. -/
def injectHostFunctions (info : Str → Option ℕ) (mod : Module) : R Module :=
  mod.exports.foldlM (injectHostFunction info) mod

end Silverfir
