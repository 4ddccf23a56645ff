import Silverfir.Result
import Silverfir.Lib.Eff
import Silverfir.Lib.Heap
import Mathlib.Algebra.Group.Nat.Defs

/-! The vectors of `vec.h` and `vec_impl.h` over a heap of bytes. An element is the bytes of one object of the
type; all sizes are `size_t`, of 64 bits. -/
namespace Silverfir

structure RawVec where
  size : ℕ := 0
  capacity : ℕ := 0
  data : Option ℕ := none
  fixed : Bool := false
  deriving DecidableEq, Repr

/-- `vec_is_valid` -/
def RawVec.IsValid (v : RawVec) : Prop :=
  if v.data.isSome then 0 < v.capacity ∧ v.size ≤ v.capacity else v.capacity = 0 ∧ v.size = 0

instance RawVec.decidableIsValid (v : RawVec) : Decidable v.IsValid := by
  unfold RawVec.IsValid
  infer_instance

/-- A vector, and the heap in which its storage is. -/
structure VecState (β : Type) where
  heap : Heap (List β)
  vec : RawVec

abbrev VecM (β α : Type) := Eff Fault (VecState β) α

/-- `(size_t)x` -/
def sizeT (n : ℕ) : ℕ := n % 2 ^ 64

/-- No object has more bytes. -/
def ptrdiffMax : ℕ := 2 ^ 63 - 1

/-- The `double` next to a natural number, the even one of two. -/
def toDouble (m : ℕ) : ℕ :=
  let e := m.log2 - 52
  let q := m / 2 ^ e
  (if 2 ^ e < 2 * (m % 2 ^ e) ∨ 2 * (m % 2 ^ e) = 2 ^ e ∧ q % 2 = 1 then q + 1 else q) * 2 ^ e

/-- `(size_t)((v)->_capacity * VEC_GROW_FACTOR) + 1`. The product is half of a product of integers. -/
def newCapacity (capacity : ℕ) : R ℕ :=
  let product := toDouble (3 * toDouble capacity) / 2
  if product < 2 ^ 64 then .ok (sizeT (product + 1)) else undef "conversion to size_t"

namespace VecImpl
variable {β : Type} (elemSize : ℕ)

def fail (msg : String) : VecM β Unit := Eff.fail (.err .general msg)

def get : VecM β RawVec := fun s => (.ok s.vec, s)

def setVec (v : RawVec) : VecM β Unit := Eff.modify ({ · with vec := v })

/-- `assert(vec_is_valid(v))` -/
def assertValid : VecM β RawVec := do
  let v ← get
  if v.IsValid then pure v else Eff.fail (.undefined "assert(vec_is_valid(v))")

/-- `array_alloc` -/
def arrayAlloc (g : Option (Heap.Grant β)) (count : ℕ) (msg : String) : VecM β ℕ := fun s =>
  match Heap.malloc ptrdiffMax g (sizeT (elemSize * count)) s.heap with
  | none => (err .general msg, s)
  | some (a, heap) => (.ok a, { s with heap := heap })

/-- `array_realloc`. What it does for no bytes is not defined. -/
def arrayRealloc (g : Option (Heap.Grant β)) (p : Option ℕ) (count : ℕ) (msg : String) :
    VecM β ℕ := fun s =>
  match p with
  | none => ( undef "realloc", s)
  | some a =>
    match s.heap a with
    | none => ( undef "realloc of a block that is not live", s)
    | some block =>
      if sizeT (count * elemSize) = 0 then ( undef "realloc to no bytes", s)
      else
        match Heap.realloc ptrdiffMax g a block (sizeT (count * elemSize)) s.heap with
        | none => (err .general msg, s)
        | some (a, heap) => (.ok a, { s with heap := heap })

/-- A write of `bytes` at an offset of the block at `p`. -/
def write (p : Option ℕ) (off : ℕ) (bytes : List β) : VecM β Unit := fun s =>
  match p.bind fun a => Heap.store a off bytes s.heap with
  | none => ( undef "outside the block", s)
  | some heap => (.ok (), { s with heap := heap })

/-- `(v)->_data[(v)->_size] = e; (v)->_size++` -/
def append (e : List β) : VecM β Unit := do
  let v ← get
  write v.data (v.size * elemSize) e
  setVec { v with size := v.size + 1 }

def push (g : Option (Heap.Grant β)) (e : List β) : VecM β Unit := do
  let v ← assertValid
  if v.capacity > v.size then append elemSize e
  else if v.data = none then
    if v.fixed then fail "vector is fixed"
    else do
      let data ← arrayAlloc elemSize g 10 "vector: out of memory"
      setVec { v with data := some data, capacity := 10 }
      append elemSize e
  else if v.size = v.capacity then
    if v.fixed then fail "vector is fixed"
    else do
      let capacity ← Eff.lift (newCapacity v.capacity)
      if capacity ≤ v.capacity then fail "vector: can't grow"
      else do
        let data ← arrayRealloc elemSize g v.data capacity "vector: out of memory"
        setVec { v with data := some data, capacity := capacity }
        append elemSize e
  else pure ()

def pop : VecM β Unit := do
  let v ← assertValid
  if v.size = 0 then Eff.fail (.undefined "assert((v)->_size)")
  else setVec { v with size := v.size - 1 }

def popall : VecM β Unit := do
  let v ← assertValid
  setVec { v with size := 0 }

def clear : VecM β Unit := do
  let v ← assertValid
  match v.data with
  | none => setVec {}
  | some a => do
    Eff.modify fun s => { s with heap := s.heap.free a }
    setVec {}

def shrinkToFit (g : Option (Heap.Grant β)) : VecM β Unit := do
  let v ← assertValid
  if v.fixed then fail "vector is fixed"
  else if v.data = none then pure ()
  else if v.size = v.capacity ∨ v.capacity = 1 then pure ()
  else do
    -- if the vector is empty, shrink to 1 element
    let capacity := if v.size ≠ 0 then v.size else 1
    let data ← arrayRealloc elemSize g v.data capacity "vector: realloc failed"
    setVec { v with data := some data, capacity := capacity }

def reserve (g : Option (Heap.Grant β)) (n : ℕ) : VecM β Unit := do
  let v ← assertValid
  if v.fixed then fail "vector is fixed"
  else if n ≤ v.capacity then pure ()
  else if v.data ≠ none then do
    let data ← arrayRealloc elemSize g v.data n "vector: realloc failed"
    setVec { v with data := some data, capacity := n }
  else do
    let data ← arrayAlloc elemSize g n "vector: out of memory"
    setVec { v with data := some data, capacity := n }

/-- The call of `vec_reserve` in `vec_resize`. -/
def reserveFor (g : Option (Heap.Grant β)) (n : ℕ) : VecM β Unit := do
  let v ← get
  if n > v.capacity then reserve elemSize g n else pure ()

def resize (zero : β) (g : Option (Heap.Grant β)) (n : ℕ) : VecM β Unit := do
  let v ← assertValid
  if n ≤ v.size then setVec { v with size := n }
  else do
    reserveFor elemSize g n
    let v ← get
    write v.data (v.size * elemSize) (List.replicate (sizeT ((n - v.size) * elemSize)) zero)
    setVec { v with size := n }

/-- `vec_dup` from another vector. -/
def dup (g : Option (Heap.Grant β)) (src : RawVec) : VecM β Unit := do
  let dst ← get
  if dst.capacity ≠ 0 ∨ dst.data ≠ none ∨ dst.size ≠ 0 then
    Eff.fail (.undefined "assert(!dst->_capacity && !dst->_data && !dst->_size)")
  else if src.size = 0 then pure ()
  else do
    let data ← arrayAlloc elemSize g src.size "vector: out of memory"
    let bytes ← Eff.read fun s =>
      match src.data.bind fun a => Heap.load a 0 (sizeT (src.size * elemSize)) s.heap with
      | none => undef "outside the block"
      | some bytes => .ok bytes
    write (some data) 0 bytes
    setVec { dst with data := some data, capacity := src.size, size := src.size }

def setFixed (fixed : Bool) : VecM β Unit := do
  let v ← get
  setVec { v with fixed := fixed }

end VecImpl

/-- Element `i`, if it is in the storage. -/
def VecState.elem {β : Type} (elemSize : ℕ) (s : VecState β) (i : ℕ) : Option (List β) :=
  if i < s.vec.size then s.vec.data.bind fun a => s.heap.load a (i * elemSize) elemSize else none

end Silverfir
