import Silverfir.Stream

/-! The parsed module of `module.h`. -/
namespace Silverfir

/-- `linkage` is a bit set: `linkage_imported` is bit 0, `linkage_exported` bit 1. -/
structure Linkage where
  imported : Bool := false
  exported : Bool := false
  deriving DecidableEq, Repr

structure FuncType where
  paramCount : ℕ := 0
  resultCount : ℕ := 0
  params : Str := []
  results : Str := []
  deriving DecidableEq, Repr

/-- `func_type_eq` compares the counts and the raw type bytes. -/
def funcTypeEq (a b : FuncType) : Bool :=
  a.paramCount == b.paramCount && a.resultCount == b.resultCount &&
    (a.params == b.params && a.results == b.results)

structure ImportPath where
  module : Str := []
  field : Str := []
  deriving DecidableEq, Repr

def jumpTableIdxInvalid : ℕ := 65535

/-- A slot of the jump table: `pc` is an offset into the code of the function. -/
structure JumpTable where
  pc : ℕ
  targetOffset : ℤ := 0
  stackOffset : ℕ
  arity : ℕ
  nextIdx : ℕ := jumpTableIdxInvalid
  deriving DecidableEq, Repr

/-- `tr` and `host_func` of the source are one field: the index of the host function. -/
structure Func where
  fnType : FuncType := {}
  linkage : Linkage := {}
  localCount : ℕ := 0
  localTypes : List TypeId := []
  code : Str := []
  path : ImportPath := {}
  jt : List JumpTable := []
  stackSizeMax : ℕ := 0
  hostFunc : Option ℕ := none
  deriving DecidableEq, Repr

structure Limits where
  min : ℕ
  max : ℕ
  deriving DecidableEq, Repr

structure Memory where
  lim : Limits
  linkage : Linkage := {}
  path : ImportPath := {}
  deriving DecidableEq, Repr

structure Table where
  valtype : TypeId
  lim : Limits
  linkage : Linkage := {}
  path : ImportPath := {}
  deriving DecidableEq, Repr

structure Global where
  valtype : TypeId
  mut_ : Bool
  expr : Str := []
  linkage : Linkage := {}
  path : ImportPath := {}
  deriving DecidableEq, Repr

structure Export where
  name : Str
  externalKind : ExternalKind
  externalIdx : ℕ
  deriving DecidableEq, Repr

structure Element where
  mode : ElemMode := .active
  tableidx : ℕ := 0
  offsetExpr : Str := []
  valtype : TypeId := .funcref
  dataLen : ℕ := 0
  vFuncidx : List ℕ := []
  vExpr : List Str := []
  deriving DecidableEq, Repr

structure Data where
  isActive : Bool
  memidx : ℕ
  offsetExpr : Str
  bytes : Str
  deriving DecidableEq, Repr

structure Module where
  names : List Str := []
  formatVersion : ℕ := 0
  funcTypes : List FuncType := []
  importedFuncCount : ℕ := 0
  funcs : List Func := []
  importedTableCount : ℕ := 0
  tables : List Table := []
  importedMemCount : ℕ := 0
  memories : List Memory := []
  importedGlobalCount : ℕ := 0
  globals : List Global := []
  exports : List Export := []
  startFuncidx : Option ℕ := none
  elements : List Element := []
  dataCount : Option ℕ := none
  data : List Data := []
  deriving DecidableEq, Repr

/-- `parse_types`: decode `count` value types from the raw bytes of a function type. -/
def parseTypesLoop : ℕ → Stream → R (List TypeId)
  | 0, _ => .ok []
  | count + 1, st => do
    let (t, st) ← st.readVi7
    match TypeId.ofI8? t with
    | none => err .invalid "Invalid value type"
    | some t =>
      if !t.isValueType then err .invalid "Invalid value type"
      else do
        let ts ← parseTypesLoop count st
        .ok (t :: ts)

def parseTypes (count : ℕ) (types : Str) : R (List TypeId) := parseTypesLoop count (.from_ types)

theorem parseTypesLoop_length {count : ℕ} {st : Stream} {ts : List TypeId}
    (h : parseTypesLoop count st = .ok ts) : ts.length = count := by
  induction count generalizing st ts with
  | zero => simp_all [parseTypesLoop]
  | succ n ih =>
    simp only [parseTypesLoop, bind_eq_ok] at h
    obtain ⟨⟨t, st'⟩, -, h⟩ := h
    split at h
    · simp at h
    · split at h
      · simp at h
      · obtain ⟨us, hus, hts⟩ := bind_eq_ok.mp h
        cases hts
        simp [ih hus]

theorem parseTypes_length {count : ℕ} {types : Str} {ts : List TypeId}
    (h : parseTypes count types = .ok ts) : ts.length = count := parseTypesLoop_length h

end Silverfir
