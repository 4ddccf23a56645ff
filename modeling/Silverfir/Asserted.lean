import Silverfir.Parser
import Silverfir.Vectors
import Mathlib.Logic.Function.Basic

/-! The parser again, with every assertion that it and the functions of `stream.h`, `str.h` and `vec.h` make on the
way, and with allocations that can fail. Pointers to streams and to the module are never null. -/
namespace Silverfir

/-- `stream_is_valid`: the buffer is not empty, and `p` is not past its end. -/
structure Stream.Valid (st : Stream) : Prop where
  nonempty : st.s ≠ []
  le : st.p ≤ st.s.length

instance (st : Stream) : Decidable st.Valid := decidable_of_iff (st.s ≠ [] ∧ st.p ≤ st.s.length)
  ⟨fun h => ⟨h.1, h.2⟩, fun h => ⟨h.nonempty, h.le⟩⟩

namespace Asserted

/-! ### Streams -/

/-- `assert(stream_is_valid(st))` in front of a function. -/
def checked {α : Type} (f : Stream → R α) (st : Stream) : R α :=
  if st.Valid then f st else undef "assert(stream_is_valid(st))"

def readU8 : Stream → R (ℕ × Stream) := checked Stream.readU8
def readU32 : Stream → R (ℕ × Stream) := checked Stream.readU32
def readF32 : Stream → R (ℕ × Stream) := checked Stream.readF32
def readF64 : Stream → R (ℕ × Stream) := checked Stream.readF64
def readVu7 : Stream → R (ℕ × Stream) := checked Stream.readVu7
def readVi7 : Stream → R (ℤ × Stream) := checked Stream.readVi7
def readVu32 : Stream → R (ℕ × Stream) := checked Stream.readVu32
def readVi32 : Stream → R (ℕ × Stream) := checked Stream.readVi32
def readVi64 : Stream → R (ℕ × Stream) := checked Stream.readVi64
def remaining : Stream → R ℕ := checked fun st => .ok st.remaining
def slice (size : ℕ) : Stream → R (Stream × Stream) := checked (·.slice size)

/-- `stream_read_vi7`, and the check of the type. -/
def readType (ok : TypeId → Bool) (msg : String) : Stream → R (TypeId × Stream) := checked (Silverfir.readType ok msg)

def atEnd (msg : String) (st : Stream) : R Unit := do
  let left ← remaining st
  if left ≠ 0 then err .malformed msg else .ok ()

/-- `str_from` at the cursor. -/
def strFrom (st : Stream) (len : ℕ) : R Str :=
  if st.Valid then .ok ((st.s.drop st.p).take len) else undef "str_from: assert(p)"

def parseName (st : Stream) : R (Str × Stream) := do
  let (nameLen, st) ← readVu32 st
  if nameLen = 0 then .ok ([], st)
  else do
    let (name, st) ← slice nameLen st
    if !isValidUtf8 name.s then err .malformed "Invalid utf8 name" else .ok (name.s, st)

def parseMax (maxCap flag : ℕ) (st : Stream) : R (ℕ × Stream) :=
  if flag = 0x1 then do
    let (m, st) ← readVu32 st
    if m ≤ maxCap then .ok (m, st) else err .invalid "Invalid limits max"
  else .ok (maxCap, st)

def parseLimits (maxCap : ℕ) (st : Stream) : R (Limits × Stream) :=
  if maxCap = 0 then undef "parse_limits: assert(max_cap)"
  else do
    let (flag, st) ← readU8 st
    if flag ≠ 0x0 ∧ flag ≠ 0x1 then err .malformed "Invalid limits"
    else do
      let (min, st) ← readVu32 st
      let (max, st) ← parseMax maxCap flag st
      if min > max then err .invalid "Invalid limits min" else .ok (⟨min, max⟩, st)

def skipImm (op : WasmOpcode) (st : Stream) : R Stream :=
  match op with
  | .i32Const => (readVi32 st).map (·.2)
  | .i64Const => (readVi64 st).map (·.2)
  | .f32Const => (readF32 st).map (·.2)
  | .f64Const => (readF64 st).map (·.2)
  | .refNull => (readVi7 st).map (·.2)
  | .refFunc | .globalGet => (readVu32 st).map (·.2)
  | _ => .ok st

/-- The loop has no bound of its own. -/
def skipConstExpr : ℕ → Stream → R Stream
  | 0, _ => undef "while (true)"
  | n + 1, st => do
    let (opcode, st) ← readU8 st
    match WasmOpcode.ofByte? opcode with
    | some .end_ => .ok st
    | some op => do
      let st ← skipImm op st
      skipConstExpr n st
    | none => skipConstExpr n st

def parseConstExpr (st : Stream) : R (Str × Stream) := do
  let st' ← skipConstExpr (st.remaining + 1) st
  .ok ((st.s.drop st.p).take (st'.p - st.p), st')

def checkTypes : ℕ → Stream → R Stream
  | 0, st => .ok st
  | n + 1, st => do
    let (_, st) ← readType TypeId.isValueType "Invalid value type" st
    checkTypes n st

/-- There is no string where there are no types. -/
def typesFrom (count : ℕ) (st : Stream) : R Str := if count = 0 then .ok [] else strFrom st count

def parseResultType (msg : String) (st : Stream) : R (ℕ × Str × Stream) := do
  let (count, st) ← readVu32 st
  if count > resultTypeCountMax then err .invalid msg
  else do
    let types ← typesFrom count st
    let st ← checkTypes count st
    .ok (count, types, st)

def parseFuncType (st : Stream) : R (FuncType × Stream) := do
  let (form, st) ← readVu7 st
  if form ≠ 0x60 then err .invalid "Unsupported function form (should be 0x60)"
  else do
    let (paramCount, params, st) ← parseResultType "Function argument count exceeds limit" st
    let (resultCount, results, st) ← parseResultType "Result count exceeds limit" st
    .ok (⟨paramCount, resultCount, params, results⟩, st)

def parseTypeidx (funcTypes : List FuncType) (st : Stream) : R (FuncType × Stream) := do
  let (typeidx, st) ← readVu32 st
  if typeidx ≥ funcTypes.length then err .invalid "Invalid function type index"
  else do
    let ft ← VecHeader.at_ funcTypes typeidx
    .ok (ft, st)

def parseTableType (msg : String) (st : Stream) : R (TypeId × Limits × Stream) := do
  let (valtype, st) ← readType TypeId.isRef msg st
  let (lim, st) ← parseLimits u32Max st
  .ok (valtype, lim, st)

def parseGlobalType (msg mutMsg : String) (st : Stream) : R (TypeId × Bool × Stream) := do
  let (valtype, st) ← readType TypeId.isValueType msg st
  let (mut_, st) ← readU8 st
  if mut_ ≠ 0 ∧ mut_ ≠ 1 then err .malformed mutMsg else .ok (valtype, mut_ ≠ 0, st)

/-! ### The vectors of the module -/

/-- The module so far, its vectors, and the number of the allocations so far. -/
structure Arena where
  mod : Module := {}
  vecs : VecId → VecHeader := fun _ => {}
  allocs : ℕ := 0

/-- `_size` -/
def sizeOf (mod : Module) : VecId → ℕ
  | .funcTypes => mod.funcTypes.length
  | .funcs => mod.funcs.length
  | .tables => mod.tables.length
  | .memories => mod.memories.length
  | .globals => mod.globals.length
  | .exports => mod.exports.length
  | .elements => mod.elements.length
  | .data => mod.data.length
  | .localTypes i => (mod.funcs[i]?.map fun f => f.localTypes.length).getD 0
  | .vFuncidx i => (mod.elements[i]?.map fun e => e.vFuncidx.length).getD 0
  | .vExpr i => (mod.elements[i]?.map fun e => e.vExpr.length).getD 0

namespace Arena

def setVec (v : VecId) (x : VecHeader × ℕ) (a : Arena) : Arena :=
  { a with vecs := Function.update a.vecs v x.1, allocs := x.2 }

def setMod (a : Arena) (mod : Module) : Arena := { a with mod := mod }

/-- `vec_reserve`, and `vec_set_fixed` behind it. -/
def reserve (mem : Allocator) (v : VecId) (n : ℕ) (a : Arena) : R Arena := do
  let (vec, k) ← (a.vecs v).reserve mem (sizeOf a.mod v) n a.allocs
  .ok (a.setVec v ({ vec with fixed := true }, k))

/-- `vec_push`; `mod` is the module with the element. -/
def push (mem : Allocator) (v : VecId) (mod : Module) (a : Arena) : R Arena := do
  let x ← (a.vecs v).push mem (sizeOf a.mod v) a.allocs
  .ok ((a.setVec v x).setMod mod)

end Arena

section Sections
variable (mem : Allocator)

/-! ### Types and imports -/

def parseSectionType (a : Arena) (st : Stream) : R Arena := do
  let (count, st) ← readVu32 st
  let a ← a.reserve mem .funcTypes count
  let (a, st) ← Loop.times (fun (a, st) => do
    let (ft, st) ← parseFuncType st
    let a ← a.push mem .funcTypes { a.mod with funcTypes := a.mod.funcTypes ++ [ft] }
    .ok (a, st)) count (a, st)
  atEnd "Malformed function type section" st
  .ok a

def parseImport (a : Arena) (st : Stream) : R (Arena × Stream) := do
  let (module, st) ← parseName st
  let (field, st) ← parseName st
  let path : ImportPath := ⟨module, field⟩
  let linkage : Linkage := { imported := true }
  let (kind, st) ← readU8 st
  match ExternalKind.ofByte? kind with
  | some .func => do
    let (ft, st) ← parseTypeidx a.mod.funcTypes st
    let a ← a.push mem .funcs { a.mod with
      funcs := a.mod.funcs ++ [{ fnType := ft, linkage := linkage, path := path }]
      importedFuncCount := a.mod.importedFuncCount + 1 }
    .ok (a, st)
  | some .table => do
    let (valtype, lim, st) ← parseTableType "Invalid ref in the imported table" st
    let a ← a.push mem .tables { a.mod with
      tables := a.mod.tables ++ [{ valtype := valtype, lim := lim, linkage := linkage, path := path }]
      importedTableCount := a.mod.importedTableCount + 1 }
    .ok (a, st)
  | some .memory => do
    let (lim, st) ← parseLimits wasmMemMaxPages st
    let a ← a.push mem .memories { a.mod with
      memories := a.mod.memories ++ [{ lim := lim, linkage := linkage, path := path }]
      importedMemCount := a.mod.importedMemCount + 1 }
    .ok (a, st)
  | some .global => do
    let (valtype, mut_, st) ← parseGlobalType "Invalid value type in the imported global" "Invalid mut value" st
    let a ← a.push mem .globals { a.mod with
      globals := a.mod.globals ++ [{ valtype := valtype, mut_ := mut_, linkage := linkage, path := path }]
      importedGlobalCount := a.mod.importedGlobalCount + 1 }
    .ok (a, st)
  | none => err .malformed "Malformed import kind"

def parseSectionImport (a : Arena) (st : Stream) : R Arena := do
  let (count, st) ← readVu32 st
  let (a, st) ← Loop.times (fun (a, st) => parseImport mem a st) count (a, st)
  atEnd "Malformed import section" st
  .ok a

/-! ### Definitions -/

def parseSectionFunction (a : Arena) (st : Stream) : R Arena := do
  let (count, st) ← readVu32 st
  let a ← a.reserve mem .funcs (count + a.mod.funcs.length)
  let (a, st) ← Loop.times (fun (a, st) => do
    let (ft, st) ← parseTypeidx a.mod.funcTypes st
    let a ← a.push mem .funcs { a.mod with funcs := a.mod.funcs ++ [{ fnType := ft, localCount := ft.paramCount }] }
    .ok (a, st)) count (a, st)
  atEnd "Malformed function section" st
  .ok a

def parseSectionTable (a : Arena) (st : Stream) : R Arena := do
  let (count, st) ← readVu32 st
  let a ← a.reserve mem .tables (count + a.mod.tables.length)
  let (a, st) ← Loop.times (fun (a, st) => do
    let (valtype, lim, st) ← parseTableType "Invalid ref in the table section" st
    let a ← a.push mem .tables { a.mod with tables := a.mod.tables ++ [{ valtype := valtype, lim := lim }] }
    .ok (a, st)) count (a, st)
  atEnd "Malformed table section" st
  .ok a

def parseSectionMemory (a : Arena) (st : Stream) : R Arena := do
  let (count, st) ← readVu32 st
  let a ← a.reserve mem .memories (count + a.mod.memories.length)
  let (a, st) ← Loop.times (fun (a, st) => do
    let (lim, st) ← parseLimits wasmMemMaxPages st
    let a ← a.push mem .memories { a.mod with memories := a.mod.memories ++ [{ lim := lim }] }
    .ok (a, st)) count (a, st)
  atEnd "Malformed memory section" st
  .ok a

def parseSectionGlobal (a : Arena) (st : Stream) : R Arena := do
  let (count, st) ← readVu32 st
  let a ← a.reserve mem .globals (count + a.mod.globals.length)
  let (a, st) ← Loop.times (fun (a, st) => do
    let (valtype, mut_, st) ← parseGlobalType "Invalid value type in the global section"
      "Invalid encoding of the 'mut' flag of global values" st
    let (expr, st) ← parseConstExpr st
    let a ← a.push mem .globals { a.mod with
      globals := a.mod.globals ++ [{ valtype := valtype, mut_ := mut_, expr := expr }] }
    .ok (a, st)) count (a, st)
  atEnd "Malformed global section" st
  .ok a

/-! ### Exports and the start function -/

/-- `vec_at` gives the entry that is marked. -/
def markExport (kind : ExternalKind) (idx : ℕ) (mod : Module) : R Module := do
  let mod' ← Silverfir.markExport kind idx mod
  match kind with
  | .func => do
    let _ ← VecHeader.at_ mod.funcs idx
    .ok mod'
  | .table => do
    let _ ← VecHeader.at_ mod.tables idx
    .ok mod'
  | .memory => do
    let _ ← VecHeader.at_ mod.memories idx
    .ok mod'
  | .global => do
    let _ ← VecHeader.at_ mod.globals idx
    .ok mod'

def parseExport (a : Arena) (st : Stream) : R (Arena × Stream) := do
  let (name, st) ← parseName st
  let (kind, st) ← readU8 st
  match ExternalKind.ofByte? kind with
  | none => err .invalid "Invalid external kind"
  | some kind => do
    let (idx, st) ← readVu32 st
    let mod ← markExport kind idx a.mod
    let a ← (a.setMod mod).push mem .exports { mod with exports := mod.exports ++ [⟨name, kind, idx⟩] }
    .ok (a, st)

def parseSectionExport (a : Arena) (st : Stream) : R Arena := do
  let (count, st) ← readVu32 st
  let a ← a.reserve mem .exports count
  let (a, st) ← Loop.times (fun (a, st) => parseExport mem a st) count (a, st)
  atEnd "Malformed export section" st
  .ok a

def parseSectionStart (a : Arena) (st : Stream) : R Arena := do
  let (startFuncidx, st) ← readVu32 st
  if startFuncidx ≥ a.mod.funcs.length then err .invalid "Invalid function index of the start function"
  else do
    let startFn ← VecHeader.at_ a.mod.funcs startFuncidx
    if startFn.fnType.paramCount ≠ 0 ∨ startFn.fnType.resultCount ≠ 0 then
      err .invalid "The start function should have no parameter and return value"
    else do
      atEnd "Malformed start section" st
      .ok (a.setMod { a.mod with startFuncidx := some startFuncidx })

/-! ### Element segments -/

/-- The vectors of new entries are empty. -/
def resizeElements (count : ℕ) (a : Arena) : R Arena := do
  let size := a.mod.elements.length
  let (vec, k) ← (a.vecs .elements).resize mem size count a.allocs
  let vecs := Function.update a.vecs .elements { vec with fixed := true }
  if count ≤ size then .ok ⟨{ a.mod with elements := a.mod.elements.take count }, vecs, k⟩
  else
    .ok
      { mod := { a.mod with elements := a.mod.elements ++ List.replicate (count - size) {} }
        vecs := fun v =>
          match v with
          | .vFuncidx i | .vExpr i => if i < size then vecs v else {}
          | _ => vecs v
        allocs := k }

def parseElemTableidx (kind : ElemKind) (st : Stream) : R (ℕ × Stream) :=
  if !kind.passive && kind.tableIdx then readVu32 st else .ok (0, st)

def parseElemOffset (kind : ElemKind) (elem : Element) (st : Stream) : R (Element × Stream) := do
  let (tableidx, st) ← parseElemTableidx kind st
  let elem := { elem with mode := kind.mode, tableidx := tableidx }
  if !kind.passive then do
    let (expr, st) ← parseConstExpr st
    .ok ({ elem with offsetExpr := expr }, st)
  else .ok (elem, st)

def parseElemType (kind : ElemKind) (st : Stream) : R (TypeId × Stream) :=
  if kind.passive || kind.tableIdx then
    if kind.expr then do
      let (t, st) ← readVi7 st
      match TypeId.ofI8? t with
      | none => err .malformed "Invalid ref"
      | some t => if !t.isRef then err .malformed "Invalid ref" else .ok (t, st)
    else do
      let (externalKind, st) ← readU8 st
      if externalKind ≠ 0 then err .invalid "Invalid element external kind" else .ok (.funcref, st)
  else .ok (.funcref, st)

/-- `size` elements are there already. -/
def parseExprs (size count : ℕ) (vec : VecHeader) (k : ℕ) (st : Stream) : R (List Str × VecHeader × ℕ × Stream) :=
  Loop.times (fun (exprs, vec, k, st) => do
    let (expr, st) ← parseConstExpr st
    let (vec, k) ← vec.push mem (size + exprs.length) k
    .ok (exprs ++ [expr], vec, k, st)) count ([], vec, k, st)

/-- `vec_push_u32` whose result is not looked at. -/
def pushFuncidx (size funcidx : ℕ) (idxs : List ℕ) (vec : VecHeader) (k : ℕ) : R (List ℕ × VecHeader × ℕ) :=
  match vec.push mem (size + idxs.length) k with
  | .ok (vec, k) => .ok (idxs ++ [funcidx], vec, k)
  | .error (.err _ _) => .ok (idxs, vec, k)
  | .error (.undefined what) => undef what

def parseFuncidxs (size funcCount count : ℕ) (vec : VecHeader) (k : ℕ) (st : Stream) :
    R (List ℕ × VecHeader × ℕ × Stream) :=
  Loop.times (fun (idxs, vec, k, st) => do
    let (funcidx, st) ← readVu32 st
    if funcidx ≥ funcCount then err .invalid "Invalid function index"
    else do
      let (idxs, vec, k) ← pushFuncidx mem size funcidx idxs vec k
      .ok (idxs, vec, k, st)) count ([], vec, k, st)

def parseElemItems (i : ℕ) (kind : ElemKind) (elem : Element) (a : Arena) (st : Stream) :
    R (Arena × Element × Stream) := do
  let (idxCount, st) ← readVu32 st
  let elem := { elem with dataLen := idxCount }
  if kind.expr then do
    let a ← a.reserve mem (.vExpr i) idxCount
    let (exprs, vec, k, st) ← parseExprs mem elem.vExpr.length idxCount (a.vecs (.vExpr i)) a.allocs st
    .ok (a.setVec (.vExpr i) (vec, k), { elem with vExpr := elem.vExpr ++ exprs }, st)
  else do
    let a ← a.reserve mem (.vFuncidx i) idxCount
    let (idxs, vec, k, st) ←
      parseFuncidxs mem elem.vFuncidx.length a.mod.funcs.length idxCount (a.vecs (.vFuncidx i)) a.allocs st
    .ok (a.setVec (.vFuncidx i) (vec, k), { elem with vFuncidx := elem.vFuncidx ++ idxs }, st)

def parseElement (i : ℕ) (a : Arena) (st : Stream) : R (Arena × Stream) := do
  let (kind, st) ← readU8 st
  if kind > 7 then err .malformed "Invalid element flag"
  else
    match a.mod.elements[i]? with
    | none => undef "elements"
    | some elem => do
      let kind := ElemKind.ofByte kind
      let (elem, st) ← parseElemOffset kind elem st
      let (valtype, st) ← parseElemType kind st
      let (a, elem, st) ← parseElemItems mem i kind { elem with valtype := valtype } a st
      .ok (a.setMod { a.mod with elements := a.mod.elements.set i elem }, st)

def parseSectionElement (a : Arena) (st : Stream) : R Arena := do
  let (count, st) ← readVu32 st
  let a ← resizeElements mem count a
  let (_, a, st) ← Loop.times (fun (i, a, st) => do
    let (a, st) ← parseElement mem i a st
    .ok (i + 1, a, st)) count (0, a, st)
  atEnd "Malformed element section" st
  .ok a

/-! ### Code and data -/

def countLocals (groups : ℕ) (code : Stream) : R (ℕ × Stream) :=
  Loop.times (fun (total, code) => do
    let (localCount, code) ← readVu32 code
    let (_, code) ← readVi7 code
    if total + localCount > u32Max then err .malformed "Too many locals" else .ok (total + localCount, code))
    groups (0, code)

/-- The locals of a group, one after the other. -/
def pushLocals : ℕ → ℕ → VecHeader → ℕ → R (VecHeader × ℕ)
  | 0, _, vec, k => .ok (vec, k)
  | n + 1, size, vec, k => do
    let (vec, k) ← vec.push mem size k
    pushLocals n (size + 1) vec k

def parseLocals (groups : ℕ) (fn : Func) (vec : VecHeader) (k : ℕ) (code : Stream) :
    R (Func × VecHeader × ℕ × Stream) :=
  Loop.times (fun (fn, vec, k, code) => do
    let (localCount, code) ← readVu32 code
    let (valtype, code) ← readType TypeId.isValueType "Invalid value type" code
    let (vec, k) ← pushLocals mem localCount fn.localTypes.length vec k
    .ok ({ fn with
      localTypes := fn.localTypes ++ List.replicate localCount valtype
      localCount := u32 (fn.localCount + localCount) }, vec, k, code)) groups (fn, vec, k, code)

def parseCode (i : ℕ) (a : Arena) (st : Stream) : R (Arena × Stream) := do
  let fn ← VecHeader.at_ a.mod.funcs i
  let (codeSize, st) ← readVu32 st
  let (code, st) ← slice codeSize st
  let (groups, code) ← readVu32 code
  let _ ← countLocals groups code
  let (fn, vec, k, code) ← parseLocals mem groups fn (a.vecs (.localTypes i)) a.allocs code
  let left ← remaining code
  if left = 0 then err .invalid "Function body is empty"
  else do
    let (vec, k) ← vec.shrinkToFit mem fn.localTypes.length k
    let a := a.setVec (.localTypes i) ({ vec with fixed := true }, k)
    .ok (a.setMod { a.mod with funcs := a.mod.funcs.set i { fn with code := code.s.drop code.p } }, st)

def parseSectionCode (a : Arena) (st : Stream) : R Arena := do
  let (count, st) ← readVu32 st
  if u32 (count + a.mod.importedFuncCount) ≠ a.mod.funcs.length then
    err .malformed "Function number mismatch between code and function sections"
  else do
    let (_, a, st) ← Loop.times (fun (i, a, st) => do
      let (a, st) ← parseCode mem i a st
      .ok (i + 1, a, st)) count (a.mod.importedFuncCount, a, st)
    atEnd "Malformed code section" st
    .ok a

def parseMemidx (dataKind : ℕ) (st : Stream) : R (ℕ × Stream) :=
  if dataKind.testBit 1 then do
    let (idx, st) ← readVu32 st
    if idx ≠ 0 then err .invalid "Invalid memory index" else .ok (idx, st)
  else .ok (0, st)

def parseDataOffset (isActive : Bool) (st : Stream) : R (Str × Stream) :=
  if isActive then parseConstExpr st else .ok ([], st)

def parseBytes (st : Stream) : R (Str × Stream) := do
  let (byteLen, st) ← readVu32 st
  if byteLen = 0 then .ok ([], st)
  else do
    let (b, st) ← slice byteLen st
    .ok (b.s, st)

def parseData (st : Stream) : R (Data × Stream) := do
  let (dataKind, st) ← readVu32 st
  if dataKind > 2 then err .malformed "Invalid data kind"
  else do
    let isActive := !dataKind.testBit 0
    let (memidx, st) ← parseMemidx dataKind st
    let (offsetExpr, st) ← parseDataOffset isActive st
    let (bytes, st) ← parseBytes st
    .ok (⟨isActive, memidx, offsetExpr, bytes⟩, st)

def parseSectionData (a : Arena) (st : Stream) : R Arena := do
  let (count, st) ← readVu32 st
  if a.mod.dataCount.any (· ≠ count) then err .malformed "Data and data count section doesn't match"
  else do
    let a ← (a.setMod { a.mod with dataCount := some count }).reserve mem .data count
    let (a, st) ← Loop.times (fun (a, st) => do
      let (d, st) ← parseData st
      let a ← a.push mem .data { a.mod with data := a.mod.data ++ [d] }
      .ok (a, st)) count (a, st)
    atEnd "Malformed data section" st
    .ok a

def parseSectionDataCount (a : Arena) (st : Stream) : R Arena := do
  let (dataCount, st) ← readVu32 st
  atEnd "Malformed data_count section" st
  .ok (a.setMod { a.mod with dataCount := some dataCount })

/-! ### Modules -/

def parseSection : SectionId → Arena → Stream → R Arena
  | .custom => fun a _ => .ok a
  | .type => parseSectionType mem
  | .import_ => parseSectionImport mem
  | .function => parseSectionFunction mem
  | .table => parseSectionTable mem
  | .memory => parseSectionMemory mem
  | .global => parseSectionGlobal mem
  | .export_ => parseSectionExport mem
  | .start => parseSectionStart
  | .element => parseSectionElement mem
  | .dataCount => parseSectionDataCount
  | .code => parseSectionCode mem
  | .data => parseSectionData mem

def parseSections : ℕ → ℕ → Arena → Stream → R Arena
  | 0, _, _, _ => undef "while (true)"
  | n + 1, current, a, st => do
    let left ← remaining st
    if left = 0 then .ok a
    else do
      let (id, st) ← readVu7 st
      let (payloadLen, st) ← readVu32 st
      match if id = 0 then some (current, SectionId.custom) else SectionId.find current id with
      | none => err .malformed "Incorrect section order"
      | some (current, sec) =>
        if payloadLen = 0 then parseSections n current a st
        else do
          let (content, st) ← slice payloadLen st
          let a ← parseSection mem sec a content
          parseSections n current a st

def parseModule (bin : Str) : R Module := do
  if bin = [] then err .malformed "Missing wasm binary"
  else do
    let st := Stream.from_ bin
    let (magic, st) ← readU32 st
    if magic ≠ 0x6D736100 then err .malformed "Invalid magic number"
    else do
      let (version, st) ← readU32 st
      if version ≠ 1 then err .malformed "Unsupported WebAssembly binary format version"
      else do
        let a ← parseSections mem (st.remaining + 1) 0 { mod := { formatVersion := version } } st
        .ok a.mod

end Sections

end Asserted

end Silverfir
