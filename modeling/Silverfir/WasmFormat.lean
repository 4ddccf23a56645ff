import Mathlib.Data.Nat.Notation
import Mathlib.Data.Int.Notation
import Mathlib.Algebra.Group.Nat.Defs

/-! Value types of `wasm_format.h`. The enumeration is shared by the binary format and by the
validator, whose two pseudo types `ref` and `unknown` have codes in it too. -/
namespace Silverfir

/-- A byte buffer (`str`), by contents. -/
abbrev Str := List UInt8

inductive TypeId where
  | i32 | i64 | f32 | f64 | v128 | funcref | externref | ref
  | func_ | struct_ | array_ | void_ | unknown
  deriving DecidableEq, Repr

namespace TypeId

/-- The `i8` code, `FOR_EACH_VALUE_TYPE`. -/
def code : TypeId → ℤ
  | .i32 => -0x01
  | .i64 => -0x02
  | .f32 => -0x03
  | .f64 => -0x04
  | .v128 => -0x05
  | .funcref => -0x10
  | .externref => -0x11
  | .ref => -0x15
  | .func_ => -0x20
  | .struct_ => -0x21
  | .array_ => -0x22
  | .void_ => -0x40
  | .unknown => -0x39

/-- The type an `i8` read from a module stands for. -/
def ofI8? (n : ℤ) : Option TypeId :=
  [i32, i64, f32, f64, v128, funcref, externref, ref, func_, struct_, array_, void_, unknown].find?
    (fun t => t.code == n)

def isNum : TypeId → Bool
  | .i32 | .i64 | .f32 | .f64 | .unknown => true
  | _ => false

def isVec (t : TypeId) : Bool := t == .v128 || t == .unknown

def isRef (t : TypeId) : Bool :=
  t == .funcref || t == .externref || t == .ref || t == .unknown

def isValueType (t : TypeId) : Bool := t.isNum || t.isVec || t.isRef

/-- The value types of the WebAssembly binary format. -/
def IsWasm : TypeId → Prop
  | .i32 | .i64 | .f32 | .f64 | .v128 | .funcref | .externref => True
  | _ => False

instance : DecidablePred IsWasm := fun t => by cases t <;> unfold IsWasm <;> infer_instance

theorem ofI8?_code (t : TypeId) : ofI8? t.code = some t := by cases t <;> rfl

theorem code_of_ofI8? {n : ℤ} {t : TypeId} (h : ofI8? n = some t) : t.code = n := by
  have := List.find?_some h
  simpa using this

theorem isValueType_iff (t : TypeId) :
    t.isValueType = true ↔ t.IsWasm ∨ t = .ref ∨ t = .unknown := by
  cases t <;> decide

theorem isRef_iff (t : TypeId) :
    t.isRef = true ↔ t = .funcref ∨ t = .externref ∨ t = .ref ∨ t = .unknown := by
  cases t <;> decide

end TypeId

/-- `external_kind`. -/
inductive ExternalKind where
  | func | table | memory | global
  deriving DecidableEq, Repr

inductive ElemMode where
  | active | passive | declarative
  deriving DecidableEq, Repr

def wasmPageSize : ℕ := 65536
def wasmMemMaxPages : ℕ := 65536
def resultTypeCountMax : ℕ := 65535
def u32Max : ℕ := 2 ^ 32 - 1

end Silverfir
