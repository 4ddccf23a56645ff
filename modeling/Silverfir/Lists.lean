import Silverfir.Result
import Silverfir.Lib.Eff
import Silverfir.Lib.Heap

/-! The doubly linked lists of `list_impl.h`. An iterator is the address of its item. -/
namespace Silverfir

open Heap (Node first last Linked Visits)

structure ListHeader where
  head : Option ℕ := none
  tail : Option ℕ := none
  size : ℕ := 0
  deriving DecidableEq, Repr

/-- A list, and the heap in which its items are. -/
structure ListState (α : Type) where
  heap : Heap (Node α)
  list : ListHeader := {}

abbrev ListM (α β : Type) := Eff Fault (ListState α) β

namespace ListM
variable {α : Type}

def header : ListM α ListHeader := fun s => (.ok s.list, s)

def setHeader (list : ListHeader) : ListM α Unit := Eff.modify ({ · with list := list })

/-- `*p` -/
def deref (p : Option ℕ) : ListM α (Node α) := Eff.read fun s =>
  match p.bind s.heap with
  | none => undef "no item there"
  | some n => .ok n

/-- A write to a member of `*p`. -/
def edit (p : Option ℕ) (f : Node α → Node α) : ListM α Unit := fun s =>
  match p with
  | none => ( undef "null pointer", s)
  | some a =>
    match s.heap a with
    | none => ( undef "no item there", s)
    | some n => (.ok (), { s with heap := s.heap.put a (f n) })

/-- `if (p) p->... = ...` -/
def editSome (p : Option ℕ) (f : Node α → Node α) : ListM α Unit := if p ≠ none then edit p f else pure ()

/-- `array_alloc`, which returns `grant`, and the first value of the item. -/
def newItem (grant : Option ℕ) (v : α) : ListM α ℕ := fun s =>
  match grant with
  | none => (err .general "list: out of memory", s)
  | some a => (.ok a, { s with heap := s.heap.put a { data := v } })

def freeItem (p : Option ℕ) : ListM α Unit := fun s =>
  match p with
  | none => (.ok (), s)
  | some a =>
    match s.heap a with
    | none => ( undef "no item there", s)
    | some _ => (.ok (), { s with heap := s.heap.free a })

end ListM

/-- `list_is_valid` -/
def ListHeader.IsValid (l : ListHeader) : Prop :=
  l.size ≠ 0 ∧ l.head ≠ none ∧ l.tail ≠ none ∨ l.size = 0 ∧ l.head = none ∧ l.tail = none

instance (l : ListHeader) : Decidable l.IsValid := by
  unfold ListHeader.IsValid
  infer_instance

namespace Lists
variable {α : Type}

open ListM

/-- `assert(list_is_valid(l))` -/
def assertValid : ListM α Unit := do
  let l ← header
  if l.IsValid then pure () else Eff.fail (.undefined "assert(list_is_valid(l))")

def push (grant : Option ℕ) (v : α) : ListM α Unit := do
  assertValid
  let item ← newItem grant v
  let l ← header
  if l.head = none then setHeader { l with head := some item, tail := some item, size := l.size + 1 }
  else do
    edit l.tail ({ · with next := some item })
    edit (some item) ({ · with prev := l.tail })
    setHeader { l with tail := some item, size := l.size + 1 }

def pop : ListM α Unit := do
  assertValid
  let l ← header
  if l.size = 1 then do
    freeItem l.tail
    setHeader {}
  else do
    let item ← deref l.tail
    let prev ← deref item.prev
    freeItem prev.next
    edit item.prev ({ · with next := none })
    setHeader { l with tail := item.prev, size := l.size - 1 }

def pushFront (grant : Option ℕ) (v : α) : ListM α Unit := do
  assertValid
  let item ← newItem grant v
  let l ← header
  if l.head = none then setHeader { l with head := some item, tail := some item, size := l.size + 1 }
  else do
    edit l.head ({ · with prev := some item })
    edit (some item) ({ · with next := l.head })
    setHeader { l with head := some item, size := l.size + 1 }

def popFront : ListM α Unit := do
  assertValid
  let l ← header
  if l.size = 1 then do
    freeItem l.head
    setHeader {}
  else do
    let item ← deref l.head
    let next ← deref item.next
    freeItem next.prev
    edit item.next ({ · with prev := none })
    setHeader { l with head := item.next, size := l.size - 1 }

/-- Returns the iterator of the new item. -/
def insert (i : ℕ) (grant : Option ℕ) (v : α) : ListM α ℕ := do
  let item ← newItem grant v
  let wrapper ← deref (some i)
  edit (some item) ({ · with next := some i, prev := wrapper.prev })
  editSome wrapper.prev ({ · with next := some item })
  edit (some i) ({ · with prev := some item })
  let l ← header
  setHeader { l with head := if l.head = some i then some item else l.head, size := l.size + 1 }
  pure item

/-- Returns the iterator of the next item. -/
def erase (i : ℕ) : ListM α (Option ℕ) := do
  let wrapper ← deref (some i)
  editSome wrapper.prev ({ · with next := wrapper.next })
  editSome wrapper.next ({ · with prev := wrapper.prev })
  let l ← header
  setHeader {
    head := if l.head = some i then wrapper.next else l.head
    tail := if l.tail = some i then wrapper.prev else l.tail
    size := l.size - 1 }
  freeItem (some i)
  pure wrapper.next

/-- The loop of `list_clear`, which ends when there is no head left. -/
def clearItems : ℕ → ListM α Unit
  | 0 => do
    let l ← header
    if l.head = none then pure () else Eff.fail (.undefined "more items than counted")
  | n + 1 => do
    let l ← header
    if l.head = none then pure ()
    else do
      let item ← deref l.head
      freeItem l.head
      setHeader { l with head := item.next }
      clearItems n

def clear : ListM α Unit := do
  let l ← header
  clearItems l.size
  setHeader {}

end Lists

end Silverfir
