import Mathlib.Data.Nat.Notation
import Mathlib.Data.Int.Notation
import Mathlib.Tactic.Common

/-! Computations that touch ranges of a memory. What is touched is recorded in order, also when
the computation stops early. -/

/-- `len` bytes from `start` on, counted from the start of the memory. -/
structure Span where
  start : ℤ
  len : ℕ
  deriving DecidableEq, Repr

namespace Span

def Inside (size : ℕ) (s : Span) : Prop := ∀ k < s.len, 0 ≤ s.start + k ∧ s.start + k < size

theorem inside_iff {size : ℕ} {s : Span} :
    s.Inside size ↔ s.len = 0 ∨ 0 ≤ s.start ∧ s.start + s.len ≤ size := by
  constructor
  · intro h
    obtain hz | hpos := Nat.eq_zero_or_pos s.len
    · exact Or.inl hz
    · have hfirst := h 0 hpos
      have hlast := h (s.len - 1) (by omega)
      right
      omega
  · rintro (hz | ⟨hstart, hend⟩) k hk <;> omega

theorem inside_mk {size len : ℕ} {start : ℤ} :
    (⟨start, len⟩ : Span).Inside size ↔ len = 0 ∨ 0 ≤ start ∧ start + len ≤ size := inside_iff

instance {size : ℕ} {s : Span} : Decidable (s.Inside size) := decidable_of_iff _ inside_iff.symm

end Span

/-- The log of what was touched, and the result or the failure at its end. -/
structure Access (τ ε α : Type) where
  log : List τ
  ending : Except ε α

namespace Access

variable {τ ε α β : Type}

instance : Monad (Access τ ε) where
  pure a := ⟨[], .ok a⟩
  bind m f :=
    match m.ending with
    | .ok a => ⟨m.log ++ (f a).log, (f a).ending⟩
    | .error e => ⟨m.log, .error e⟩

def stop (e : ε) : Access τ ε α := ⟨[], .error e⟩

def touch (t : τ) : Access τ ε Unit := ⟨[t], .ok ()⟩

def each (f : α → Access τ ε Unit) : List α → Access τ ε Unit
  | [] => pure ()
  | a :: as => do
    f a
    each f as

/-- Everything touched satisfies `p`, and a failure satisfies `q`. -/
structure Safe (p : τ → Prop) (q : ε → Prop) (m : Access τ ε α) : Prop where
  touched : ∀ t ∈ m.log, p t
  stopped : ∀ e, m.ending = .error e → q e

section Safe
variable {p : τ → Prop} {q : ε → Prop}

@[simp] theorem pure_log (a : α) : (pure a : Access τ ε α).log = [] := rfl

@[simp] theorem pure_ending (a : α) : (pure a : Access τ ε α).ending = .ok a := rfl

@[simp] theorem safe_pure (a : α) : Safe p q (pure a : Access τ ε α) :=
  ⟨fun _ h => absurd h List.not_mem_nil, fun _ h => by cases h⟩

@[simp] theorem safe_stop (e : ε) : Safe p q (stop e : Access τ ε α) ↔ q e :=
  ⟨fun h => h.stopped e rfl, fun h => ⟨fun _ ht => absurd ht List.not_mem_nil, fun _ he => by cases he; exact h⟩⟩

@[simp] theorem safe_touch (t : τ) : Safe p q (touch t : Access τ ε Unit) ↔ p t :=
  ⟨fun h => h.touched t (List.mem_singleton.mpr rfl),
    fun h => ⟨fun _ ht => by rw [List.mem_singleton.mp ht]; exact h, fun _ he => by cases he⟩⟩

theorem safe_bind (m : Access τ ε α) (f : α → Access τ ε β) :
    Safe p q (m >>= f) ↔ Safe p q m ∧ ∀ a, m.ending = .ok a → Safe p q (f a) := by
  obtain ⟨log, e | a⟩ := m
  · constructor
    · intro h
      exact ⟨⟨h.touched, fun e' he => by cases he; exact h.stopped e rfl⟩, fun _ h => by cases h⟩
    · rintro ⟨h, -⟩
      exact ⟨h.touched, fun e' he => by cases he; exact h.stopped e rfl⟩
  · constructor
    · intro h
      refine ⟨⟨fun t ht => h.touched t (List.mem_append_left _ ht), fun _ he => by cases he⟩, fun a' ha => ?_⟩
      cases ha
      exact ⟨fun t ht => h.touched t (List.mem_append_right _ ht), h.stopped⟩
    · rintro ⟨hm, hf⟩
      have hf := hf a rfl
      refine ⟨fun t ht => ?_, hf.stopped⟩
      obtain ht | ht := List.mem_append.mp ht
      · exact hm.touched t ht
      · exact hf.touched t ht

@[simp] theorem safe_touch_bind (t : τ) (f : Unit → Access τ ε β) :
    Safe p q (touch t >>= f) ↔ p t ∧ Safe p q (f ()) := by
  rw [safe_bind, safe_touch]
  exact and_congr_right fun _ => ⟨fun h => h () rfl, fun h _ _ => h⟩

@[simp] theorem safe_stop_bind (e : ε) (f : α → Access τ ε β) : Safe p q (stop e >>= f) ↔ q e := by
  rw [safe_bind, safe_stop]
  exact ⟨And.left, fun h => ⟨h, fun _ he => by cases he⟩⟩

@[simp] theorem safe_pure_bind (a : α) (f : α → Access τ ε β) :
    Safe p q ((pure a : Access τ ε α) >>= f) ↔ Safe p q (f a) := by
  rw [safe_bind]
  exact ⟨fun h => h.2 a rfl, fun h => ⟨safe_pure a, fun _ ha => by cases ha; exact h⟩⟩

/-- A loop whose body never stops early. -/
theorem safe_each {f : α → Access τ ε Unit} (hf : ∀ a, (f a).ending = .ok ()) (l : List α) :
    Safe p q (each f l) ↔ ∀ a ∈ l, Safe p q (f a) := by
  induction l with
  | nil => simp [each]
  | cons a l ih =>
    rw [each, safe_bind, List.forall_mem_cons]
    exact and_congr_right fun _ => ⟨fun h => ih.mp (h () (hf a)), fun h _ _ => ih.mpr h⟩

theorem each_ending {f : α → Access τ ε Unit} (hf : ∀ a, (f a).ending = .ok ()) (l : List α) :
    (each f l).ending = .ok () := by
  induction l with
  | nil => rfl
  | cons a l ih =>
    obtain ⟨log, hlog⟩ : ∃ log, f a = ⟨log, .ok ()⟩ := ⟨(f a).log, by rw [← hf a]⟩
    rw [each, hlog]
    exact ih

end Safe

end Access
