import Mathlib.Data.List.Forall2
import Mathlib.Data.List.Flatten
import Mathlib.Tactic.Common

/-! Lists as stacks with the top at the head: entries counted from the bottom, and the part of
a stack that lies below a given height. -/
namespace ListStack

variable {α β : Type}

/-- Entry number `n` from the bottom. -/
def fromBottom (s : List α) (n : ℕ) : Option α := s.reverse[n]?

/-- The `h` entries at the bottom. -/
def below (h : ℕ) (s : List α) : List α := s.drop (s.length - h)

theorem fromBottom_eq {s : List α} {n : ℕ} (h : n < s.length) :
    fromBottom s n = s[s.length - 1 - n]? := List.getElem?_reverse h

theorem fromBottom_cons (a : α) (s : List α) (n : ℕ) :
    fromBottom (a :: s) n = if n = s.length then some a else fromBottom s n := by
  unfold fromBottom
  rw [List.reverse_cons]
  by_cases hlt : n < s.length
  · rw [List.getElem?_append_left (by simpa using hlt), if_neg (by omega)]
  · by_cases he : n = s.length
    · rw [if_pos he, List.getElem?_append_right (by simp [he])]
      simp [he]
    · rw [if_neg he, List.getElem?_eq_none (by simp; omega), List.getElem?_eq_none (by simp; omega)]

theorem fromBottom_cons_lt {a : α} {s : List α} {n : ℕ} (h : n < s.length) :
    fromBottom (a :: s) n = fromBottom s n := by
  rw [fromBottom_cons, if_neg (by omega)]

theorem fromBottom_cons_length (a : α) (s : List α) : fromBottom (a :: s) s.length = some a := by
  rw [fromBottom_cons, if_pos rfl]

theorem lt_length_of_fromBottom {s : List α} {n : ℕ} {a : α} (h : fromBottom s n = some a) :
    n < s.length := by
  have := (List.getElem?_eq_some_iff.mp h).1
  simpa using this

theorem fromBottom_lt {s : List α} {n : ℕ} (h : n < s.length) : ∃ a, fromBottom s n = some a := by
  have hlt : n < s.reverse.length := by simpa using h
  exact ⟨s.reverse[n], List.getElem?_eq_getElem hlt⟩

theorem mem_of_fromBottom {s : List α} {n : ℕ} {a : α} (h : fromBottom s n = some a) : a ∈ s :=
  List.mem_reverse.mp (List.mem_of_getElem? h)

/-- Counting from the top and from the bottom. -/
theorem fromBottom_of_getElem? {s : List α} {l : ℕ} {a : α} (h : s[l]? = some a) :
    fromBottom s (s.length - 1 - l) = some a := by
  have hl := (List.getElem?_eq_some_iff.mp h).1
  rw [fromBottom_eq (by omega)]
  have : s.length - 1 - (s.length - 1 - l) = l := by omega
  rw [this]
  exact h

theorem fromBottom_modify (s : List α) (l n : ℕ) (f : α → α) :
    fromBottom (s.modify l f) n =
      if n + l + 1 = s.length then (fromBottom s n).map f else fromBottom s n := by
  by_cases hn : n < s.length
  · have hm : n < (s.modify l f).length := by simpa using hn
    rw [fromBottom_eq hm, fromBottom_eq hn, List.length_modify, List.getElem?_modify]
    by_cases hl : n + l + 1 = s.length
    · have he : l = s.length - 1 - n := by omega
      rw [if_pos hl]
      simp only [if_pos he]
      rfl
    · have he : ¬ l = s.length - 1 - n := by omega
      rw [if_neg hl]
      simp only [if_neg he]
      exact id_map _
  · have h1 : fromBottom s n = none := List.getElem?_eq_none (by simp; omega)
    have h2 : fromBottom (s.modify l f) n = none := List.getElem?_eq_none (by simp; omega)
    rw [h1, h2]
    simp

theorem fromBottom_map (f : α → β) (s : List α) (n : ℕ) :
    fromBottom (s.map f) n = (fromBottom s n).map f := by
  unfold fromBottom
  rw [← List.map_reverse, List.getElem?_map]

/-- A change that `g` does not see. -/
theorem map_modify {f : α → α} {g : α → β} (h : ∀ a, g (f a) = g a) (s : List α) (l : ℕ) :
    (s.modify l f).map g = s.map g := by
  apply List.ext_getElem?
  intro n
  rw [List.getElem?_map, List.getElem?_map, List.getElem?_modify]
  by_cases hl : l = n
  · simp only [if_pos hl]
    cases s[n]? with
    | none => rfl
    | some a => exact congrArg some (h a)
  · simp only [if_neg hl]
    cases s[n]? <;> rfl

theorem below_self (s : List α) : below s.length s = s := by simp [below]

theorem length_below {h : ℕ} {s : List α} (hh : h ≤ s.length) : (below h s).length = h := by
  simp only [below, List.length_drop]
  omega

theorem drop_eq_below {k : ℕ} {s : List α} (hk : k ≤ s.length) : s.drop k = below (s.length - k) s := by
  unfold below
  congr 1
  omega

theorem below_append {h : ℕ} (us s : List α) (hh : h ≤ s.length) : below h (us ++ s) = below h s := by
  unfold below
  have hl : (us ++ s).length - h = us.length + (s.length - h) := by
    rw [List.length_append]; omega
  rw [hl, List.drop_append]
  simp

theorem below_below {h k : ℕ} {s : List α} (hk : k ≤ h) (hh : h ≤ s.length) :
    below k (below h s) = below k s := by
  have hl := length_below hh
  unfold below at hl ⊢
  rw [hl, List.drop_drop]
  congr 1
  omega

theorem below_drop {h k : ℕ} {s : List α} (hh : k + h ≤ s.length) : below h (s.drop k) = below h s := by
  rw [drop_eq_below (by omega), below_below (by omega) (by omega)]

end ListStack
