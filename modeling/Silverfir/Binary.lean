import Silverfir.Lib.Grammar
import Silverfir.Lib.Leb128
import Silverfir.WasmFormat

/-! The binary format of WebAssembly 2.0 without SIMD: abstract modules, the checks on their indices
and limits, and the byte strings that encode them. All of it is taken from the format; the parser
is compared with it later. -/
namespace Silverfir.Binary

open Grammar

/-! ### Words -/

/-- A number, in any encoding it has. -/
def U32 (n : ℕ) (w : Str) : Prop := Leb128.Unsigned 32 n w

/-- The number of entries, then the entries. -/
inductive Vector {α : Type} (E : α → Str → Prop) (xs : List α) : Str → Prop
  | mk {l ws : Str} (count : U32 xs.length l) (items : Items E xs ws) : Vector E xs (l ++ ws)

inductive Bytes (bs : Str) : Str → Prop
  | mk {l : Str} (count : U32 bs.length l) : Bytes bs (l ++ bs)

/-- `n` bytes, little endian. -/
def Fixed (n v : ℕ) (w : Str) : Prop := w = (List.range n).map fun i => UInt8.ofNat (v / 256 ^ i)

/-- The code points of a name. -/
abbrev Name := List Char

def Name.utf8 (name : Name) : Str := name.flatMap String.utf8EncodeChar

/-! ### Types -/

inductive RefType where
  | funcref | externref
  deriving DecidableEq, Repr

inductive ValType where
  | i32 | i64 | f32 | f64 | v128
  | ref (t : RefType)
  deriving DecidableEq, Repr

def RefType.byte : RefType → UInt8
  | .funcref => 0x70
  | .externref => 0x6F

def ValType.byte : ValType → UInt8
  | .i32 => 0x7F
  | .i64 => 0x7E
  | .f32 => 0x7D
  | .f64 => 0x7C
  | .v128 => 0x7B
  | .ref t => t.byte

structure FuncType where
  params : List ValType
  results : List ValType
  deriving DecidableEq, Repr

inductive FuncType.Encodes : FuncType → Str → Prop
  | mk {params results : List ValType} {v w : Str} (hparams : Vector (fun t w => w = [t.byte]) params v)
      (hresults : Vector (fun t w => w = [t.byte]) results w) : Encodes ⟨params, results⟩ ([0x60] ++ (v ++ w))

structure Limits where
  min : ℕ
  max : Option ℕ
  deriving DecidableEq, Repr

inductive Limits.Encodes : Limits → Str → Prop
  | open_ {min : ℕ} {v : Str} (hmin : U32 min v) : Encodes ⟨min, none⟩ ([0x00] ++ v)
  | closed {min max : ℕ} {v w : Str} (hmin : U32 min v) (hmax : U32 max w) :
      Encodes ⟨min, some max⟩ ([0x01] ++ (v ++ w))

structure TableType where
  type : RefType
  limits : Limits
  deriving DecidableEq, Repr

inductive TableType.Encodes : TableType → Str → Prop
  | mk {type : RefType} {limits : Limits} {v : Str} (hlimits : limits.Encodes v) :
      Encodes ⟨type, limits⟩ ([type.byte] ++ v)

structure GlobalType where
  type : ValType
  isMut : Bool
  deriving DecidableEq, Repr

inductive GlobalType.Encodes : GlobalType → Str → Prop
  | const {type : ValType} : Encodes ⟨type, false⟩ ([type.byte] ++ [0x00])
  | var {type : ValType} : Encodes ⟨type, true⟩ ([type.byte] ++ [0x01])

/-! ### Constant expressions -/

inductive ConstInstr where
  | i32Const (v : ℤ)
  | i64Const (v : ℤ)
  | f32Const (bits : ℕ)
  | f64Const (bits : ℕ)
  | refNull (t : RefType)
  | refFunc (idx : ℕ)
  | globalGet (idx : ℕ)
  deriving DecidableEq, Repr

inductive ConstInstr.Encodes : ConstInstr → Str → Prop
  | i32Const {v : ℤ} {w : Str} (hv : Leb128.Signed 32 v w) : Encodes (.i32Const v) ([0x41] ++ w)
  | i64Const {v : ℤ} {w : Str} (hv : Leb128.Signed 64 v w) : Encodes (.i64Const v) ([0x42] ++ w)
  | f32Const {bits : ℕ} {w : Str} (hbits : Fixed 4 bits w) : Encodes (.f32Const bits) ([0x43] ++ w)
  | f64Const {bits : ℕ} {w : Str} (hbits : Fixed 8 bits w) : Encodes (.f64Const bits) ([0x44] ++ w)
  | refNull {t : RefType} : Encodes (.refNull t) ([0xD0] ++ [t.byte])
  | refFunc {idx : ℕ} {w : Str} (hidx : U32 idx w) : Encodes (.refFunc idx) ([0xD2] ++ w)
  | globalGet {idx : ℕ} {w : Str} (hidx : U32 idx w) : Encodes (.globalGet idx) ([0x23] ++ w)

/-- A constant expression together with its encoding. A module keeps the code of its expressions. -/
structure ConstExpr where
  instrs : List ConstInstr
  code : Str
  encodes : ∃ w, Items ConstInstr.Encodes instrs w ∧ code = w ++ [0x0B]

/-! ### Definitions of a module -/

inductive ImportDesc where
  | func (typeidx : ℕ)
  | table (t : TableType)
  | memory (limits : Limits)
  | global (t : GlobalType)
  deriving DecidableEq, Repr

inductive ImportDesc.Encodes : ImportDesc → Str → Prop
  | func {typeidx : ℕ} {w : Str} (h : U32 typeidx w) : Encodes (.func typeidx) ([0x00] ++ w)
  | table {t : TableType} {w : Str} (h : t.Encodes w) : Encodes (.table t) ([0x01] ++ w)
  | memory {limits : Limits} {w : Str} (h : limits.Encodes w) : Encodes (.memory limits) ([0x02] ++ w)
  | global {t : GlobalType} {w : Str} (h : t.Encodes w) : Encodes (.global t) ([0x03] ++ w)

structure Import where
  module : Name
  field : Name
  desc : ImportDesc
  deriving DecidableEq, Repr

inductive Import.Encodes : Import → Str → Prop
  | mk {module field : Name} {desc : ImportDesc} {u v w : Str} (hmodule : Bytes module.utf8 u)
      (hfield : Bytes field.utf8 v) (hdesc : desc.Encodes w) : Encodes ⟨module, field, desc⟩ (u ++ (v ++ w))

structure Global where
  type : GlobalType
  init : ConstExpr

inductive Global.Encodes : Global → Str → Prop
  | mk {type : GlobalType} {init : ConstExpr} {v : Str} (htype : type.Encodes v) : Encodes ⟨type, init⟩ (v ++ init.code)

def kindByte : ExternalKind → UInt8
  | .func => 0x00
  | .table => 0x01
  | .memory => 0x02
  | .global => 0x03

structure Export where
  name : Name
  kind : ExternalKind
  idx : ℕ
  deriving DecidableEq, Repr

inductive Export.Encodes : Export → Str → Prop
  | mk {name : Name} {kind : ExternalKind} {idx : ℕ} {v w : Str} (hname : Bytes name.utf8 v) (hidx : U32 idx w) :
      Encodes ⟨name, kind, idx⟩ (v ++ ([kindByte kind] ++ w))

inductive ElemInit where
  | funcs (idxs : List ℕ)
  | exprs (exprs : List ConstExpr)

inductive ElemMode where
  | active (table : ℕ) (offset : ConstExpr)
  | passive
  | declarative

structure Elem where
  type : RefType
  init : ElemInit
  mode : ElemMode

def ConstExpr.Encodes (e : ConstExpr) (w : Str) : Prop := w = e.code

/-- The eight forms. `elemkind` is the byte 0. -/
inductive Elem.Encodes : Elem → Str → Prop
  | activeFuncs {offset : ConstExpr} {idxs : List ℕ} {v : Str} (hinit : Vector U32 idxs v) :
      Encodes ⟨.funcref, .funcs idxs, .active 0 offset⟩ ([0x00] ++ (offset.code ++ v))
  | passiveFuncs {idxs : List ℕ} {v : Str} (hinit : Vector U32 idxs v) :
      Encodes ⟨.funcref, .funcs idxs, .passive⟩ ([0x01] ++ ([0x00] ++ v))
  | activeTableFuncs {table : ℕ} {offset : ConstExpr} {idxs : List ℕ} {u v : Str} (htable : U32 table u)
      (hinit : Vector U32 idxs v) :
      Encodes ⟨.funcref, .funcs idxs, .active table offset⟩ ([0x02] ++ (u ++ (offset.code ++ ([0x00] ++ v))))
  | declarativeFuncs {idxs : List ℕ} {v : Str} (hinit : Vector U32 idxs v) :
      Encodes ⟨.funcref, .funcs idxs, .declarative⟩ ([0x03] ++ ([0x00] ++ v))
  | activeExprs {offset : ConstExpr} {exprs : List ConstExpr} {v : Str} (hinit : Vector ConstExpr.Encodes exprs v) :
      Encodes ⟨.funcref, .exprs exprs, .active 0 offset⟩ ([0x04] ++ (offset.code ++ v))
  | passiveExprs {type : RefType} {exprs : List ConstExpr} {v : Str} (hinit : Vector ConstExpr.Encodes exprs v) :
      Encodes ⟨type, .exprs exprs, .passive⟩ ([0x05] ++ ([type.byte] ++ v))
  | activeTableExprs {type : RefType} {table : ℕ} {offset : ConstExpr} {exprs : List ConstExpr} {u v : Str}
      (htable : U32 table u) (hinit : Vector ConstExpr.Encodes exprs v) :
      Encodes ⟨type, .exprs exprs, .active table offset⟩ ([0x06] ++ (u ++ (offset.code ++ ([type.byte] ++ v))))
  | declarativeExprs {type : RefType} {exprs : List ConstExpr} {v : Str} (hinit : Vector ConstExpr.Encodes exprs v) :
      Encodes ⟨type, .exprs exprs, .declarative⟩ ([0x07] ++ ([type.byte] ++ v))

structure Locals where
  count : ℕ
  type : ValType
  deriving DecidableEq, Repr

inductive Locals.Encodes : Locals → Str → Prop
  | mk {count : ℕ} {type : ValType} {v : Str} (hcount : U32 count v) : Encodes ⟨count, type⟩ (v ++ [type.byte])

/-- The body is kept as it is encoded. Its instructions are not looked at; there is at least an `end`. -/
structure Code where
  locals : List Locals
  body : Str
  body_ne : body ≠ []

inductive Code.Encodes : Code → Str → Prop
  | mk {c : Code} {l v : Str} (hlocals : Vector Locals.Encodes c.locals v) (hsize : U32 (v ++ c.body).length l) :
      Encodes c (l ++ (v ++ c.body))

inductive DataMode where
  | active (memory : ℕ) (offset : ConstExpr)
  | passive

structure Data where
  init : Str
  mode : DataMode

inductive Data.Encodes : Data → Str → Prop
  | active {offset : ConstExpr} {init u v : Str} (hkind : U32 0 u) (hinit : Bytes init v) :
      Encodes ⟨init, .active 0 offset⟩ (u ++ (offset.code ++ v))
  | passive {init u v : Str} (hkind : U32 1 u) (hinit : Bytes init v) : Encodes ⟨init, .passive⟩ (u ++ v)
  | activeMemory {memory : ℕ} {offset : ConstExpr} {init t u v : Str} (hkind : U32 2 t) (hmemory : U32 memory u)
      (hinit : Bytes init v) : Encodes ⟨init, .active memory offset⟩ (t ++ (u ++ (offset.code ++ v)))

/-! ### Modules -/

/-- Functions are given by the indices of their types and, in the same order, by their code. -/
structure Module where
  types : List FuncType := []
  imports : List Import := []
  funcs : List ℕ := []
  tables : List TableType := []
  memories : List Limits := []
  globals : List Global := []
  exports : List Export := []
  start : Option ℕ := none
  elems : List Elem := []
  dataCount : Option ℕ := none
  codes : List Code := []
  datas : List Data := []

/-- The section with this number has this content. -/
def Module.Content (m : Module) : ℕ → Str → Prop
  | 1 => Vector FuncType.Encodes m.types
  | 2 => Vector Import.Encodes m.imports
  | 3 => Vector U32 m.funcs
  | 4 => Vector TableType.Encodes m.tables
  | 5 => Vector Limits.Encodes m.memories
  | 6 => Vector Global.Encodes m.globals
  | 7 => Vector Export.Encodes m.exports
  | 8 => fun w => ∃ idx, m.start = some idx ∧ U32 idx w
  | 9 => Vector Elem.Encodes m.elems
  | 12 => fun w => ∃ n, m.dataCount = some n ∧ U32 n w
  | 10 => Vector Code.Encodes m.codes
  | 11 => Vector Data.Encodes m.datas
  | _ => fun _ => False

/-- There is nothing to say in this section. -/
def Module.Omits (m : Module) : ℕ → Prop
  | 1 => m.types = []
  | 2 => m.imports = []
  | 3 => m.funcs = []
  | 4 => m.tables = []
  | 5 => m.memories = []
  | 6 => m.globals = []
  | 7 => m.exports = []
  | 8 => m.start = none
  | 9 => m.elems = []
  | 12 => m.dataCount = none
  | 10 => m.codes = []
  | 11 => m.datas = []
  | _ => False

def sectionIds : List ℕ := [1, 2, 3, 4, 5, 6, 7, 8, 9, 12, 10, 11]

inductive Section (id : ℕ) (content : Str) : Str → Prop
  | mk {l : Str} (size : U32 content.length l) : Section id content ([UInt8.ofNat id] ++ (l ++ content))

/-- The sections with these numbers, in this order. A custom section starts with a name. -/
inductive Module.Sections (m : Module) : List ℕ → Str → Prop
  | nil : Sections m [] []
  | custom {ids : List ℕ} {name : Name} {u bytes w ws : Str} (hname : Bytes name.utf8 u)
      (hsection : Section 0 (u ++ bytes) w) (rest : Sections m ids ws) : Sections m ids (w ++ ws)
  | omitted {id : ℕ} {ids : List ℕ} {ws : Str} (homits : m.Omits id) (rest : Sections m ids ws) :
      Sections m (id :: ids) ws
  | present {id : ℕ} {ids : List ℕ} {content w ws : Str} (hcontent : m.Content id content)
      (hsection : Section id content w) (rest : Sections m ids ws) : Sections m (id :: ids) (w ++ ws)

inductive Module.Encodes (m : Module) : Str → Prop
  | mk {ws : Str} (sections : m.Sections sectionIds ws) :
      Encodes m ([0x00, 0x61, 0x73, 0x6D] ++ ([0x01, 0x00, 0x00, 0x00] ++ ws))

/-! ### Checks -/

def Import.func? (i : Import) : Option ℕ :=
  match i.desc with
  | .func typeidx => some typeidx
  | _ => none

def Import.table? (i : Import) : Option TableType :=
  match i.desc with
  | .table t => some t
  | _ => none

def Import.memory? (i : Import) : Option Limits :=
  match i.desc with
  | .memory limits => some limits
  | _ => none

def Import.global? (i : Import) : Option GlobalType :=
  match i.desc with
  | .global t => some t
  | _ => none

namespace Module

/-- The type indices of all functions. -/
def typeidxs (m : Module) : List ℕ := m.imports.filterMap Import.func? ++ m.funcs

/-- How many definitions of a kind there are. -/
def count (m : Module) : ExternalKind → ℕ
  | .func => m.typeidxs.length
  | .table => (m.imports.filterMap Import.table?).length + m.tables.length
  | .memory => (m.imports.filterMap Import.memory?).length + m.memories.length
  | .global => (m.imports.filterMap Import.global?).length + m.globals.length

end Module

/-- The minimum is at most the maximum, and that is at most `cap`. -/
def Limits.Within (cap : ℕ) (l : Limits) : Prop := l.min ≤ l.max.getD cap ∧ l.max.getD cap ≤ cap

instance (cap : ℕ) (l : Limits) : Decidable (l.Within cap) := inferInstanceAs (Decidable (_ ∧ _))

/-- Numbers of table entries fit 32 bits, and memories have at most 65536 pages. -/
def Import.LimitsOk (i : Import) : Prop :=
  (∀ t ∈ i.table?, t.limits.Within u32Max) ∧ ∀ l ∈ i.memory?, l.Within wasmMemMaxPages

def ElemInit.Within (count : ℕ) : ElemInit → Prop
  | .funcs idxs => ∀ idx ∈ idxs, idx < count
  | .exprs _ => True

/-- The checks on indices and limits. -/
structure Module.Checked (m : Module) : Prop where
  types : ∀ t ∈ m.types, t.params.length ≤ resultTypeCountMax ∧ t.results.length ≤ resultTypeCountMax
  typeidxs : ∀ idx ∈ m.typeidxs, idx < m.types.length
  imports : ∀ i ∈ m.imports, i.LimitsOk
  tables : ∀ t ∈ m.tables, t.limits.Within u32Max
  memories : ∀ l ∈ m.memories, l.Within wasmMemMaxPages
  exports : ∀ e ∈ m.exports, e.idx < m.count e.kind
  start : ∀ idx ∈ m.start, ∃ t ∈ m.typeidxs[idx]?, m.types[t]? = some ⟨[], []⟩
  elems : ∀ e ∈ m.elems, e.init.Within (m.count .func)
  dataCount : ∀ n ∈ m.dataCount, n = m.datas.length
  codes : m.codes.length = m.funcs.length
  locals : ∀ c ∈ m.codes, (c.locals.map (·.count)).sum ≤ u32Max
  memidxs : ∀ d ∈ m.datas, ∀ memory offset, d.mode = .active memory offset → memory = 0

end Silverfir.Binary
