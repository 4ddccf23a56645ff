import Silverfir.Result
import Silverfir.Lib.Lockstep
import Mathlib.Data.Nat.Notation

/-! The vectors of `vec.h`: what is kept about a vector besides its elements, with the assertions of the functions.
An allocation can fail. -/
namespace Silverfir

/-- `_capacity`, whether `_data` is set, and `fixed`. The size is the number of the elements. -/
structure VecHeader where
  capacity : ℕ := 0
  data : Bool := false
  fixed : Bool := false
  deriving DecidableEq, Repr

/-- Which allocations of a run succeed. -/
abbrev Allocator := ℕ → Bool

def vecFixed {α : Type} : R α := err .general "vector is fixed"

/-- The `k`-th allocation of the run. -/
def allocate (mem : Allocator) (msg : String) (k : ℕ) : R ℕ := if mem k then .ok (k + 1) else err .general msg

def vecDefaultCapacity : ℕ := 10

/-- `(size_t)((v)->_capacity * VEC_GROW_FACTOR) + 1` -/
def vecGrow (capacity : ℕ) : ℕ := capacity * 3 / 2 + 1

namespace VecHeader
variable (mem : Allocator)

/-- `vec_is_valid` -/
def IsValid (v : VecHeader) (size : ℕ) : Prop :=
  if v.data then 0 < v.capacity ∧ size ≤ v.capacity else v.capacity = 0 ∧ size = 0

instance (v : VecHeader) (size : ℕ) : Decidable (v.IsValid size) := by
  unfold IsValid
  infer_instance

def invalid {α : Type} : R α := undef "assert(vec_is_valid(v))"

/-- A vector that is valid and has data is full where there is no room. -/
def push (size : ℕ) (v : VecHeader) (k : ℕ) : R (VecHeader × ℕ) :=
  if ¬ v.IsValid size then invalid
  else if size < v.capacity then .ok (v, k)
  else if v.fixed then vecFixed
  else if !v.data then do
    let k ← allocate mem "vector: out of memory" k
    .ok ({ v with capacity := vecDefaultCapacity, data := true }, k)
  else if vecGrow v.capacity ≤ v.capacity then err .general "vector: can't grow"
  else do
    let k ← allocate mem "vector: out of memory" k
    .ok ({ v with capacity := vecGrow v.capacity }, k)

def reserve (size n : ℕ) (v : VecHeader) (k : ℕ) : R (VecHeader × ℕ) :=
  if ¬ v.IsValid size then invalid
  else if v.fixed then vecFixed
  else if n ≤ v.capacity then .ok (v, k)
  else do
    let k ← allocate mem (if v.data then "vector: realloc failed" else "vector: out of memory") k
    .ok ({ v with capacity := n, data := true }, k)

def shrinkToFit (size : ℕ) (v : VecHeader) (k : ℕ) : R (VecHeader × ℕ) :=
  if ¬ v.IsValid size then invalid
  else if v.fixed then vecFixed
  else if !v.data then .ok (v, k)
  else if size = v.capacity ∨ v.capacity = 1 then .ok (v, k)
  else do
    let k ← allocate mem "vector: realloc failed" k
    .ok ({ v with capacity := if size ≠ 0 then size else 1 }, k)

def resize (size n : ℕ) (v : VecHeader) (k : ℕ) : R (VecHeader × ℕ) :=
  if ¬ v.IsValid size then invalid
  else if n ≤ size then .ok (v, k)
  else if n > v.capacity then v.reserve mem size n k
  else .ok (v, k)

/-- `vec_at` -/
def at_ {α : Type} (xs : List α) (idx : ℕ) : R α :=
  match xs[idx]? with
  | none => undef "vec_at: assert(idx < v->_size)"
  | some x => .ok x

end VecHeader

/-! ### What the functions do -/

/-- Both errors are the same, or no result is defined on either side. -/
def SameFault (e e' : Fault) : Prop := e = e' ∨ ∃ w w', e = .undefined w ∧ e' = .undefined w'

/-- An allocation has failed. -/
def Starved (mem : Allocator) (e : Fault) : Prop := (∃ k, mem k = false) ∧ ∃ msg, e = .err .general msg

namespace VecHeader

open Lockstep (Until)

section Facts
variable {mem : Allocator} {v : VecHeader} {size n k : ℕ}

theorem isValid_iff : v.IsValid size ↔ (v.data = true ↔ 0 < v.capacity) ∧ size ≤ v.capacity := by
  rw [IsValid]
  split
  · next hdata => simp only [hdata, true_iff]
  · next hdata =>
    simp only [hdata, Bool.false_eq_true, false_iff]
    omega

theorem allocate_until (mem : Allocator) (msg : String) (k : ℕ) :
    Until (Starved mem) SameFault (fun _ _ => True) (allocate mem msg k) (.ok ()) := by
  rw [allocate]
  split
  · exact .ok trivial
  · next hfail => exact .stop ⟨⟨k, by simpa using hfail⟩, msg, rfl⟩

/-- A push where there is room, or into a vector that may grow. -/
theorem push_until (hv : v.IsValid size) (hroom : size < v.capacity ∨ v.fixed = false) :
    Until (Starved mem) SameFault
      (fun x _ => x.1.IsValid (size + 1) ∧ x.1.fixed = v.fixed ∧ (size < v.capacity → x.1 = v))
      (v.push mem size k) (.ok ()) := by
  have hvalid := isValid_iff.mp hv
  rw [push, if_neg (not_not.mpr hv)]
  by_cases hlt : size < v.capacity
  · rw [if_pos hlt]
    exact .ok ⟨isValid_iff.mpr ⟨hvalid.1, hlt⟩, rfl, fun _ => rfl⟩
  · have hfixed := hroom.resolve_left hlt
    rw [if_neg hlt, hfixed, if_neg (by decide)]
    cases hdata : v.data with
    | false =>
      rw [Bool.not_false, if_pos rfl]
      refine (allocate_until mem _ k).left fun k' _ _ => .ok ⟨?_, rfl, fun h => absurd h hlt⟩
      have hempty : v.capacity = 0 := by
        by_contra hne
        have hpos := hvalid.1.mpr (Nat.pos_of_ne_zero hne)
        rw [hdata] at hpos
        cases hpos
      refine isValid_iff.mpr ⟨by simp [vecDefaultCapacity], ?_⟩
      simp only [vecDefaultCapacity]
      omega
    | true =>
      have hgrow : v.capacity < vecGrow v.capacity := by
        rw [vecGrow]
        omega
      rw [Bool.not_true, if_neg (by decide), if_neg (by omega)]
      refine (allocate_until mem _ k).left fun k' _ _ => .ok ⟨?_, rfl, fun h => absurd h hlt⟩
      refine isValid_iff.mpr ⟨?_, ?_⟩
      · simp only [true_iff]
        omega
      · simp only
        omega

/-- A fixed vector has no room beyond its capacity. -/
theorem push_full (hv : v.IsValid size) (hfixed : v.fixed = true) (hfull : v.capacity ≤ size) :
    v.push mem size k = vecFixed := by
  rw [push, if_neg (not_not.mpr hv), if_neg (by omega), hfixed, if_pos rfl]

theorem reserve_fixed (hv : v.IsValid size) (hfixed : v.fixed = true) : v.reserve mem size n k = vecFixed := by
  rw [reserve, if_neg (not_not.mpr hv), hfixed, if_pos rfl]

theorem reserve_until (hv : v.IsValid size) (hfixed : v.fixed = false) :
    Until (Starved mem) SameFault
      (fun x _ => x.1.IsValid size ∧ x.1.fixed = false ∧ n ≤ x.1.capacity ∧
        (x.1.capacity = v.capacity ∨ x.1.capacity = n))
      (v.reserve mem size n k) (.ok ()) := by
  have hvalid := isValid_iff.mp hv
  rw [reserve, if_neg (not_not.mpr hv), hfixed, if_neg (by decide)]
  by_cases hle : n ≤ v.capacity
  · rw [if_pos hle]
    exact .ok ⟨hv, hfixed, hle, Or.inl rfl⟩
  · rw [if_neg hle]
    refine (allocate_until mem _ k).left fun k' _ _ => .ok ⟨?_, rfl, Nat.le_refl _, Or.inr rfl⟩
    refine isValid_iff.mpr ⟨?_, ?_⟩
    · simp only [true_iff]
      omega
    · simp only
      omega

theorem shrinkToFit_fixed (hv : v.IsValid size) (hfixed : v.fixed = true) :
    v.shrinkToFit mem size k = vecFixed := by
  rw [shrinkToFit, if_neg (not_not.mpr hv), hfixed, if_pos rfl]

/-- A vector that has been pushed into has no room left, and neither has one without data. -/
theorem shrinkToFit_until (hv : v.IsValid size) (hfixed : v.fixed = false) (hpos : v.data = true → 0 < size) :
    Until (Starved mem) SameFault (fun x _ => x.1.IsValid size ∧ x.1.capacity ≤ size)
      (v.shrinkToFit mem size k) (.ok ()) := by
  have hvalid := isValid_iff.mp hv
  rw [shrinkToFit, if_neg (not_not.mpr hv), hfixed, if_neg (by decide)]
  cases hdata : v.data with
  | false =>
    rw [Bool.not_false, if_pos rfl]
    refine .ok ⟨hv, ?_⟩
    have hzero : ¬ 0 < v.capacity := fun h => by
      have htrue := hvalid.1.mpr h
      rw [hdata] at htrue
      cases htrue
    have hcapacity : v.capacity = 0 := by omega
    rw [hcapacity]
    exact Nat.zero_le size
  | true =>
    have hsize := hpos hdata
    rw [Bool.not_true, if_neg (by decide)]
    by_cases hfit : size = v.capacity ∨ v.capacity = 1
    · rw [if_pos hfit]
      refine .ok ⟨hv, ?_⟩
      simp only
      omega
    · rw [if_neg hfit]
      have hnew : (if size ≠ 0 then size else 1) = size := if_pos (by omega)
      rw [hnew]
      refine (allocate_until mem _ k).left fun k' _ _ => .ok ⟨?_, Nat.le_refl size⟩
      refine isValid_iff.mpr ⟨?_, Nat.le_refl size⟩
      simp only [true_iff]
      exact hsize

end Facts

end VecHeader

end Silverfir
