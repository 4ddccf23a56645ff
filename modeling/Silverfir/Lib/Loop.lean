import Mathlib.Tactic.Common

/-! Counted loops over a state whose body can fail. -/
namespace Loop

variable {ε σ : Type}

/-- `n` rounds of `f`, up to the first failure. -/
def times (f : σ → Except ε σ) : ℕ → σ → Except ε σ
  | 0, s => .ok s
  | n + 1, s =>
    match f s with
    | .ok s' => times f n s'
    | .error e => .error e

theorem times_succ_ok {f : σ → Except ε σ} {n : ℕ} {s t : σ} :
    times f (n + 1) s = .ok t ↔ ∃ s', f s = .ok s' ∧ times f n s' = .ok t := by
  rw [times]
  cases f s with
  | ok s' => simp
  | error e => simp

/-- An invariant of every round is an invariant of the loop. -/
theorem invariant {f : σ → Except ε σ} {P : σ → Prop} (hf : ∀ s s', P s → f s = .ok s' → P s') {n : ℕ} {s t : σ}
    (h : times f n s = .ok t) (hs : P s) : P t := by
  induction n generalizing s with
  | zero =>
    cases h
    exact hs
  | succ n ih =>
    obtain ⟨s', hs', ht⟩ := times_succ_ok.mp h
    exact ih ht (hf s s' hs hs')

/-- An invariant that counts the rounds. -/
theorem counted {f : σ → Except ε σ} {P : ℕ → σ → Prop} (hf : ∀ i s s', P i s → f s = .ok s' → P (i + 1) s') {n : ℕ}
    {i : ℕ} {s t : σ} (h : times f n s = .ok t) (hs : P i s) : P (i + n) t := by
  induction n generalizing i s with
  | zero =>
    cases h
    exact hs
  | succ n ih =>
    obtain ⟨s', hs', ht⟩ := times_succ_ok.mp h
    have := ih ht (hf i s s' hs hs')
    rwa [show i + (n + 1) = i + 1 + n by omega]

/-- A loop fails in the first round that does. -/
theorem times_error_iff {f : σ → Except ε σ} {n : ℕ} {s : σ} {e : ε} :
    times f n s = .error e ↔ ∃ k < n, ∃ t, times f k s = .ok t ∧ f t = .error e := by
  induction n generalizing s with
  | zero => simp [times]
  | succ n ih =>
    rw [times]
    cases hround : f s with
    | error e' =>
      constructor
      · intro h
        cases h
        exact ⟨0, Nat.succ_pos n, s, rfl, hround⟩
      · rintro ⟨k, -, t, ht, he⟩
        cases k with
        | zero =>
          cases ht
          rw [hround] at he
          exact he
        | succ k =>
          rw [times, hround] at ht
          cases ht
    | ok s' =>
      dsimp only
      rw [ih]
      constructor
      · rintro ⟨k, hk, t, ht, he⟩
        exact ⟨k + 1, Nat.succ_lt_succ hk, t, times_succ_ok.mpr ⟨s', hround, ht⟩, he⟩
      · rintro ⟨k, hk, t, ht, he⟩
        cases k with
        | zero =>
          cases ht
          rw [hround] at he
          cases he
        | succ k =>
          obtain ⟨s1, hs1, ht⟩ := times_succ_ok.mp ht
          rw [hround] at hs1
          cases hs1
          exact ⟨k, Nat.lt_of_succ_lt_succ hk, t, ht, he⟩

end Loop
