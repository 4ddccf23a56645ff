import Silverfir.VecImpl

/-! The strings of `vstr.c`: a view of bytes, in a static buffer or in the storage of a vector. Both are blocks of the
heap. -/
namespace Silverfir

/-- A `str`: where it begins, as a block and an offset in it, and its length. -/
structure StrView where
  ptr : Option (ℕ × ℕ) := none
  len : ℕ := 0
  deriving DecidableEq, Repr

/-- `str_is_valid` -/
def StrView.IsValid (s : StrView) : Prop := (s.ptr ≠ none ∧ s.len ≠ 0) ∨ (s.ptr = none ∧ s.len = 0)

instance StrView.decidableIsValid (s : StrView) : Decidable s.IsValid := by
  unfold StrView.IsValid
  infer_instance

/-- The bytes of a `str`, if they can be read. -/
def StrView.bytes (heap : Heap (List UInt8)) (s : StrView) : Option (List UInt8) :=
  match s.ptr with
  | none => if s.len = 0 then some [] else none
  | some (a, off) => heap.load a off s.len

structure Vstr where
  s : StrView := {}
  v : RawVec := {}
  deriving DecidableEq, Repr

structure VstrState where
  heap : Heap (List UInt8)
  vs : Vstr

abbrev VstrM (α : Type) := Eff Fault VstrState α

namespace VstrM

def get : VstrM Vstr := fun t => (.ok t.vs, t)

def setView (s : StrView) : VstrM Unit := Eff.modify fun t => { t with vs := { t.vs with s := s } }

/-- A function on `vs->v`. -/
def onVec (m : VecM UInt8 Unit) : VstrM Unit := fun t =>
  let (res, s) := m ⟨t.heap, t.vs.v⟩
  (res, ⟨s.heap, { t.vs with v := s.vec }⟩)

/-- `memcpy` to an offset of the block at `dst`. -/
def memcpy (dst : Option ℕ) (off : ℕ) (src : StrView) : VstrM Unit := fun t =>
  match src.bytes t.heap with
  | none => ( undef "outside the source", t)
  | some bytes =>
    match dst.bind fun a => Heap.store a off bytes t.heap with
    | none => ( undef "outside the destination", t)
    | some heap => (.ok (), { t with heap := heap })

end VstrM

namespace Vstr
open VstrM

/-- The branch for a vector without elements in `vstr_append`. -/
def copyStatic : VstrM Unit := do
  let vs ← get
  if vs.v.size = 0 then memcpy vs.v.data 0 vs.s else pure ()

/-- `vstr_append` of a `str` that is not null. -/
def appendBytes (g : Option (Heap.Grant UInt8)) (s : StrView) : VstrM Unit := do
  let vs ← get
  onVec (VecImpl.resize 1 0 g (sizeT (vs.s.len + s.len)))
  copyStatic
  let vs ← get
  memcpy vs.v.data vs.s.len s
  setView ⟨vs.v.data.map (·, 0), sizeT (vs.s.len + s.len)⟩

def append (g : Option (Heap.Grant UInt8)) (s : StrView) : VstrM Unit :=
  if s.IsValid then
    if s.len = 0 then pure () else appendBytes g s
  else Eff.fail (.undefined "assert(str_is_valid(s))")

def appendC (g : Option (Heap.Grant UInt8)) (c : UInt8) : VstrM Unit := do
  onVec (VecImpl.push 1 g [c])
  let vs ← get
  setView ⟨vs.v.data.map (·, 0), sizeT (vs.s.len + 1)⟩

end Vstr

/-- The string is in the storage of its vector. -/
def Vstr.InStep (vs : Vstr) : Prop := vs.s.ptr = vs.v.data.map (·, 0) ∧ vs.s.len = vs.v.size

instance Vstr.decidableInStep (vs : Vstr) : Decidable vs.InStep := by
  unfold Vstr.InStep
  infer_instance

end Silverfir
