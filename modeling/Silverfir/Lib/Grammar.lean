import Silverfir.Lib.Loop
import Mathlib.Tactic.Ring

/-! Grammars as relations between values and words, and readers that read every word of a value
wherever it stands. A reader moves a cursor; what comes behind the word is arbitrary. -/
namespace Grammar

variable {τ ε σ : Type}

/-- The values of a list, one word after the other. -/
inductive Items {α : Type} (E : α → List τ → Prop) : List α → List τ → Prop
  | nil : Items E [] []
  | cons {x : α} {xs : List α} {w ws : List τ} (head : E x w) (tail : Items E xs ws) : Items E (x :: xs) (w ++ ws)

theorem Items.length_le {α : Type} {E : α → List τ → Prop} {k : ℕ} (hE : ∀ x w, E x w → k ≤ w.length) {xs : List α}
    {ws : List τ} (h : Items E xs ws) : k * xs.length ≤ ws.length := by
  induction h with
  | nil => exact Nat.le_refl _
  | @cons x xs w ws head tail ih =>
    have hw := hE x w head
    rw [List.length_cons, List.length_append, Nat.mul_succ]
    omega

/-- A place in a word. -/
class Cursor (σ : Type) (τ : outParam Type) where
  left : σ → List τ
  advance : σ → ℕ → σ
  advance_zero : ∀ c, advance c 0 = c
  advance_advance : ∀ c m n, advance (advance c m) n = advance c (m + n)
  left_advance : ∀ c n, left (advance c n) = (left c).drop n

variable [Cursor σ τ] {ρ ρ' : Type}

/-- Where `w` comes next, the reader moves past it and returns `out` of the place behind it. -/
def Reads (p : σ → Except ε ρ) (out : σ → ρ) (w : List τ) : Prop :=
  ∀ c rest, Cursor.left c = w ++ rest → p c = .ok (out (Cursor.advance c w.length))

/-- The same where nothing comes behind `w`. -/
def Finishes (p : σ → Except ε ρ) (out : ρ) (w : List τ) : Prop :=
  ∀ c : σ, Cursor.left c = w → p c = .ok out

theorem left_behind {c : σ} {w rest : List τ} (h : Cursor.left c = w ++ rest) :
    Cursor.left (Cursor.advance c w.length) = rest := by
  rw [Cursor.left_advance, h, List.drop_left]

section Rules
variable {p : σ → Except ε ρ} {q : ρ → Except ε ρ'} {out : σ → ρ} {out' : σ → ρ'} {v w : List τ}

theorem Reads.pure (out : σ → ρ) : Reads (fun c => (.ok (out c) : Except ε ρ)) out ([] : List τ) := by
  intro c rest _
  rw [List.length_nil, Cursor.advance_zero]

theorem Reads.bind (hp : Reads p out v) (hq : Reads (fun c => q (out c)) out' w) :
    Reads (fun c => p c >>= q) out' (v ++ w) := by
  intro c rest hleft
  rw [List.append_assoc] at hleft
  have hnext := hq _ _ (left_behind hleft)
  rw [Cursor.advance_advance, ← List.length_append] at hnext
  dsimp only
  rw [hp c _ hleft]
  exact hnext

/-- The first reader reads nothing. -/
theorem Reads.skip (hp : Reads p out []) (hq : Reads (fun c => q (out c)) out' w) : Reads (fun c => p c >>= q) out' w :=
  hp.bind hq

/-- What comes after the last read reads nothing. -/
theorem Reads.result (hp : Reads p out v) (hq : ∀ c, q (out c) = .ok (out' c)) :
    Reads (fun c => p c >>= q) out' v := by
  intro c rest hleft
  dsimp only
  rw [hp c _ hleft]
  exact hq _

theorem Reads.else_ {P : Prop} [Decidable P] {p' : σ → Except ε ρ} (hP : ¬ P) (hp : Reads p out v) :
    Reads (fun c => if P then p' c else p c) out v := by
  intro c rest hleft
  dsimp only
  rw [if_neg hP]
  exact hp c rest hleft

theorem Reads.then_ {P : Prop} [Decidable P] {p' : σ → Except ε ρ} (hP : P) (hp : Reads p out v) :
    Reads (fun c => if P then p c else p' c) out v := by
  intro c rest hleft
  dsimp only
  rw [if_pos hP]
  exact hp c rest hleft

theorem Reads.finishes {y : ρ'} (hp : Reads p out v) (hq : Finishes (fun c => q (out c)) y w) :
    Finishes (fun c => p c >>= q) y (v ++ w) := by
  intro c hleft
  dsimp only
  rw [hp c w hleft]
  exact hq _ (left_behind hleft)

end Rules

theorem Reads.last {y : ρ'} {p : σ → Except ε ρ} {q : ρ → Except ε ρ'} {out : σ → ρ} {w : List τ} (hp : Reads p out w)
    (hq : ∀ c, Cursor.left c = [] → q (out c) = .ok y) : Finishes (fun c => p c >>= q) y w := by
  intro c hleft
  rw [← List.append_nil w] at hleft
  dsimp only
  rw [hp c [] hleft]
  exact hq _ (left_behind hleft)

/-- A loop with one round for each value. `P` relates the values read so far to the part of the
state that is not the cursor. -/
theorem Reads.times {α β : Type} {E : β → List τ → Prop} {f : ρ → Except ε ρ} {g : α → σ → ρ} {P : List β → α → Prop}
    {xs : List β} {ws : List τ}
    (hf : ∀ pre x post w s, xs = pre ++ x :: post → E x w → P pre s →
      ∃ s', P (pre ++ [x]) s' ∧ Reads (fun c => f (g s c)) (g s') w)
    (h : Items E xs ws) {s : α} (hs : P [] s) :
    ∃ s', P xs s' ∧ Reads (fun c => Loop.times f xs.length (g s c)) (g s') ws := by
  have key : ∀ (pre ys : List β) (ws : List τ) (s : α), xs = pre ++ ys → Items E ys ws → P pre s →
      ∃ s', P xs s' ∧ Reads (fun c => Loop.times f ys.length (g s c)) (g s') ws := by
    intro pre ys ws s hsplit hitems hpre
    induction hitems generalizing pre s with
    | nil =>
      rw [List.append_nil] at hsplit
      refine ⟨s, ?_, Reads.pure _⟩
      rw [hsplit]
      exact hpre
    | @cons x ys w ws head tail ih =>
      obtain ⟨s₁, hs₁, hround⟩ := hf pre x ys w s hsplit head hpre
      have hsplit' : xs = pre ++ [x] ++ ys := by rw [hsplit, List.append_assoc, List.singleton_append]
      obtain ⟨s', hs', hrest⟩ := ih (pre ++ [x]) s₁ hsplit' hs₁
      refine ⟨s', hs', ?_⟩
      intro c rest hleft
      rw [List.append_assoc] at hleft
      have hfirst := hround c _ hleft
      have hnext := hrest _ _ (left_behind hleft)
      rw [Cursor.advance_advance, ← List.length_append] at hnext
      dsimp only at hfirst hnext ⊢
      rw [List.length_cons, Loop.times, hfirst]
      exact hnext
  exact key [] xs ws s rfl h hs

/-- The same where the values read so far determine the state. -/
theorem Reads.rounds {α β : Type} {E : β → List τ → Prop} {f : ρ → Except ε ρ} {g : α → σ → ρ} {s : List β → α}
    {xs : List β} {ws : List τ}
    (hf : ∀ pre x post w, xs = pre ++ x :: post → E x w → Reads (fun c => f (g (s pre) c)) (g (s (pre ++ [x]))) w)
    (h : Items E xs ws) : Reads (fun c => Loop.times f xs.length (g (s []) c)) (g (s xs)) ws := by
  have hround : ∀ pre x post w t, xs = pre ++ x :: post → E x w → t = s pre →
      ∃ t', t' = s (pre ++ [x]) ∧ Reads (fun c => f (g t c)) (g t') w := by
    rintro pre x post w t hsplit hx rfl
    exact ⟨_, rfl, hf pre x post w hsplit hx⟩
  obtain ⟨t', rfl, hreads⟩ := Reads.times (P := fun pre t => t = s pre) hround h rfl
  exact hreads

end Grammar
