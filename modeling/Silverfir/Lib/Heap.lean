import Mathlib.Data.List.Induction
import Mathlib.Data.List.Nodup
import Mathlib.Data.Nat.Notation
import Mathlib.Tactic.Common

/-! A heap of blocks, and chains of blocks that are linked in both directions. -/

/-- The live blocks by address. -/
def Heap (β : Type) : Type := ℕ → Option β

namespace Heap

section Blocks
variable {β : Type} {h : Heap β} {a a' : ℕ} {b : β}

def put (h : Heap β) (a : ℕ) (b : β) : Heap β := fun a' => if a' = a then some b else h a'

def free (h : Heap β) (a : ℕ) : Heap β := fun a' => if a' = a then none else h a'

@[simp] theorem put_self : h.put a b a = some b := if_pos rfl

theorem put_ne (hne : a' ≠ a) : h.put a b a' = h a' := if_neg hne

@[simp] theorem free_self : h.free a a = none := if_pos rfl

theorem free_ne (hne : a' ≠ a) : h.free a a' = h a' := if_neg hne

end Blocks

/-! ### Chains -/

/-- A block of a chain: the addresses of its neighbours and a value. -/
structure Node (α : Type) where
  prev : Option ℕ := none
  next : Option ℕ := none
  data : α
  deriving DecidableEq, Repr

section Chains
variable {α : Type}

def addrs (xs : List (ℕ × α)) : List ℕ := xs.map Prod.fst

@[simp] theorem addrs_nil : addrs ([] : List (ℕ × α)) = [] := rfl

@[simp] theorem addrs_cons (b : ℕ × α) (xs : List (ℕ × α)) : addrs (b :: xs) = b.1 :: addrs xs := rfl

@[simp] theorem addrs_append (xs ys : List (ℕ × α)) : addrs (xs ++ ys) = addrs xs ++ addrs ys := List.map_append

/-- The address of the first block, or what comes behind. -/
def first : List (ℕ × α) → Option ℕ → Option ℕ
  | [], q => q
  | (a, _) :: _, _ => some a

/-- The address of the last block, or what comes before. -/
def last : List (ℕ × α) → Option ℕ → Option ℕ
  | [], p => p
  | (a, _) :: rest, _ => last rest (some a)

/-- The blocks `xs` stand in the heap, linked with each other and with `p` and `q` around them. -/
def Linked (h : Heap (Node α)) : Option ℕ → List (ℕ × α) → Option ℕ → Prop
  | _, [], _ => True
  | p, (a, x) :: rest, q => h a = some ⟨p, first rest q, x⟩ ∧ Linked h (some a) rest q

/-- Following one of the two links from `p` visits the blocks at `addrs` and ends. -/
def Visits (h : Heap (Node α)) (link : Node α → Option ℕ) : Option ℕ → List ℕ → Prop
  | p, [] => p = none
  | p, a :: rest => p = some a ∧ ∃ n, h a = some n ∧ Visits h link (link n) rest

variable {h h' : Heap (Node α)} {p q q' : Option ℕ} {xs ys : List (ℕ × α)} {a : ℕ} {x : α}

theorem first_append : first (xs ++ ys) q = first xs (first ys q) := by
  cases xs <;> rfl

theorem last_append : last (xs ++ ys) p = last ys (last xs p) := by
  induction xs generalizing p with
  | nil => rfl
  | cons b rest ih => exact ih

theorem last_concat (xs : List (ℕ × α)) (b : ℕ × α) (p : Option ℕ) : last (xs ++ [b]) p = some b.1 := by
  rw [last_append]
  rfl

theorem mem_of_last (h : last xs p = some a) : a ∈ addrs xs ∨ p = some a := by
  induction xs generalizing p with
  | nil => exact Or.inr h
  | cons b rest ih =>
    left
    rcases ih h with hmem | heq
    · exact List.mem_cons_of_mem _ hmem
    · rw [← Option.some.inj heq]
      exact List.mem_cons_self

theorem linked_append :
    Linked h p (xs ++ ys) q ↔ Linked h p xs (first ys q) ∧ Linked h (last xs p) ys q := by
  induction xs generalizing p with
  | nil => exact ⟨fun hl => ⟨trivial, hl⟩, And.right⟩
  | cons b rest ih =>
    obtain ⟨a, x⟩ := b
    rw [List.cons_append, Linked, Linked, last, first_append, ih, and_assoc]

theorem linked_singleton : Linked h p [(a, x)] q ↔ h a = some ⟨p, q, x⟩ :=
  ⟨And.left, fun hself => ⟨hself, trivial⟩⟩

/-- A chain depends on its own blocks only. -/
theorem Linked.congr (hl : Linked h p xs q) (hsame : ∀ a ∈ addrs xs, h' a = h a) : Linked h' p xs q := by
  induction xs generalizing p with
  | nil => trivial
  | cons b rest ih =>
    obtain ⟨a, x⟩ := b
    obtain ⟨hself, hrest⟩ := hl
    refine ⟨(hsame a List.mem_cons_self).trans hself, ih hrest fun c hc => hsame c (List.mem_cons_of_mem _ hc)⟩

/-- The link behind the last block is set. -/
theorem Linked.setNext (hl : Linked h p (xs ++ [(a, x)]) q) (q' : Option ℕ)
    (hnodup : (addrs (xs ++ [(a, x)])).Nodup) :
    h a = some ⟨last xs p, q, x⟩ ∧ Linked (h.put a ⟨last xs p, q', x⟩) p (xs ++ [(a, x)]) q' := by
  rw [linked_append, linked_singleton] at hl
  obtain ⟨hxs, hself⟩ := hl
  refine ⟨hself, linked_append.mpr ⟨?_, linked_singleton.mpr put_self⟩⟩
  refine hxs.congr fun c hc => put_ne ?_
  rintro rfl
  rw [addrs_append, List.nodup_append] at hnodup
  exact hnodup.2.2 c hc c List.mem_cons_self rfl

/-- The link before the first block is set. -/
theorem Linked.setPrev (hl : Linked h p ((a, x) :: xs) q) (p' : Option ℕ)
    (hnodup : (addrs ((a, x) :: xs)).Nodup) :
    h a = some ⟨p, first xs q, x⟩ ∧ Linked (h.put a ⟨p', first xs q, x⟩) p' ((a, x) :: xs) q := by
  obtain ⟨hself, hrest⟩ := hl
  refine ⟨hself, put_self, hrest.congr fun c hc => put_ne ?_⟩
  rintro rfl
  rw [addrs_cons, List.nodup_cons] at hnodup
  exact hnodup.1 hc

/-- Following `next`. -/
theorem Linked.forward (hl : Linked h p xs none) : Visits h Node.next (first xs none) (addrs xs) := by
  induction xs generalizing p with
  | nil => rfl
  | cons b rest ih =>
    obtain ⟨a, x⟩ := b
    obtain ⟨hself, hrest⟩ := hl
    exact ⟨rfl, _, hself, ih hrest⟩

/-- Following `prev`. -/
theorem Linked.backward (hl : Linked h none xs q) :
    Visits h Node.prev (last xs none) (addrs xs).reverse := by
  induction xs using List.reverseRecOn generalizing q with
  | nil => rfl
  | append_singleton rest b ih =>
    obtain ⟨a, x⟩ := b
    rw [linked_append, linked_singleton] at hl
    rw [last_append, addrs_append, List.reverse_append]
    exact ⟨rfl, _, hl.2, ih hl.1⟩

end Chains

/-! ### Blocks of bytes -/

/-- What an allocator returns: an address, and what is found there in the bytes that nobody has written. -/
structure Grant (β : Type) where
  addr : ℕ
  junk : ℕ → β

section Bytes
variable {β : Type}

def fresh (g : Grant β) (n : ℕ) : List β := (List.range n).map g.junk

/-- `malloc` of `n` bytes. No block has more than `max` bytes, and none is where another is. -/
def malloc (max : ℕ) (g : Option (Grant β)) (n : ℕ) (h : Heap (List β)) : Option (ℕ × Heap (List β)) :=
  match g with
  | none => none
  | some g => if n ≤ max ∧ (h g.addr).isNone then some (g.addr, h.put g.addr (fresh g n)) else none

/-- `realloc` of the block at `a`, whose bytes are `block`: it grows or shrinks where it is, or moves. -/
def realloc (max : ℕ) (g : Option (Grant β)) (a : ℕ) (block : List β) (n : ℕ) (h : Heap (List β)) :
    Option (ℕ × Heap (List β)) :=
  match g with
  | none => none
  | some g =>
    if n ≤ max ∧ (g.addr = a ∨ (h g.addr).isNone) then
      some (g.addr, (h.free a).put g.addr ((block ++ fresh g (n - block.length)).take n))
    else none

/-- `n` bytes from the address `a` on. -/
def load (a off n : ℕ) (h : Heap (List β)) : Option (List β) :=
  (h a).bind fun block => if off + n ≤ block.length then some ((block.drop off).take n) else none

/-- `bytes` are written at an offset of the block at `a`. -/
def store (a off : ℕ) (bytes : List β) (h : Heap (List β)) : Option (Heap (List β)) :=
  (h a).bind fun block =>
    if off + bytes.length ≤ block.length then
      some (h.put a (block.take off ++ bytes ++ block.drop (off + bytes.length)))
    else none

variable {max n a a' off : ℕ} {g : Option (Grant β)} {h h' : Heap (List β)} {block bytes : List β}

@[simp] theorem length_fresh (g : Grant β) (n : ℕ) : (fresh g n).length = n := by
  rw [fresh, List.length_map, List.length_range]

theorem malloc_some (hm : malloc max g n h = some (a, h')) :
    n ≤ max ∧ h a = none ∧ ∃ new : List β, new.length = n ∧ h' = h.put a new := by
  cases g with
  | none => cases hm
  | some g =>
    rw [malloc] at hm
    split at hm
    · next hfits =>
      cases hm
      exact ⟨hfits.1, Option.isNone_iff_eq_none.mp hfits.2, fresh g n, length_fresh g n, rfl⟩
    · cases hm

theorem realloc_some (hm : realloc max g a block n h = some (a', h')) :
    n ≤ max ∧ (a' = a ∨ h a' = none) ∧
      ∃ new : List β, new.length = n ∧ new.take block.length = block.take n ∧ h' = (h.free a).put a' new := by
  cases g with
  | none => cases hm
  | some g =>
    rw [realloc] at hm
    split at hm
    · next hfits =>
      cases hm
      refine ⟨hfits.1, hfits.2.imp_right Option.isNone_iff_eq_none.mp, _, ?_, ?_, rfl⟩
      · rw [List.length_take, List.length_append, length_fresh]
        omega
      · rw [List.take_take, Nat.min_comm, ← List.take_take, List.take_left]
    · cases hm

theorem store_some (hb : h a = some block) (hfits : off + bytes.length ≤ block.length) :
    store a off bytes h = some (h.put a (block.take off ++ bytes ++ block.drop (off + bytes.length))) := by
  simp only [store, hb, Option.bind_some, if_pos hfits]

end Bytes

end Heap
