import Mathlib.Data.Nat.Digits.Defs
import Mathlib.Tactic.Ring
import Mathlib.Logic.Relation

/-! Stacks of counters that run down. The topmost counter is lowered in every step; a step may also put a new counter on
it, or take it off. Such a stack is a number in a positional system, with the topmost counter as its last digit. -/
namespace Countdown

/-- A step on the stack of counters, all of which are below `b`. -/
inductive Lowers (b : ℕ) : List ℕ → List ℕ → Prop
  | stay {n n' ks} (h : n' < n) : Lowers b (n :: ks) (n' :: ks)
  | push {n n' new ks} (h : n' < n) (hnew : new < b) : Lowers b (n :: ks) (new :: n' :: ks)
  | pop {n ks} (h : 0 < n) : Lowers b (n :: ks) ks
  | stop {n ks} (h : 0 < n) : Lowers b (n :: ks) []

/-- The number that a stack of at most `d` counters stands for. -/
def rank (b d : ℕ) (ks : List ℕ) : ℕ := b ^ (d - ks.length) * Nat.ofDigits b ks

variable {b d : ℕ} {ks ks' : List ℕ}

theorem rank_lt (hb : 1 < b) (hd : ks.length ≤ d) (hks : ∀ k ∈ ks, k < b) : rank b d ks < b ^ d := by
  have hdigits : Nat.ofDigits b ks < b ^ ks.length := Nat.ofDigits_lt_base_pow_length hb hks
  have hpos : 0 < b ^ (d - ks.length) := Nat.pow_pos (by omega)
  calc rank b d ks < b ^ (d - ks.length) * b ^ ks.length := Nat.mul_lt_mul_of_pos_left hdigits hpos
    _ = b ^ d := by rw [← Nat.pow_add, Nat.sub_add_cancel hd]

/-- With one place less, each digit is worth `b` times as much. -/
theorem rank_cons (n : ℕ) (hd : ks.length < d) :
    rank b d (n :: ks) = b ^ (d - (ks.length + 1)) * n + rank b d ks := by
  have hsub : d - ks.length = d - (ks.length + 1) + 1 := by omega
  rw [rank, rank, List.length_cons, hsub, Nat.pow_succ, Nat.ofDigits_cons]
  ring

/-- A new counter is worth less than one step of the counter below it. -/
theorem rank_lt_of_lowers (hb : 1 < b) (hd : ks.length ≤ d) (hd' : ks'.length ≤ d) (h : Lowers b ks ks') :
    rank b d ks' < rank b d ks := by
  have hpow : ∀ e, 0 < b ^ e := fun e => Nat.pow_pos (by omega)
  cases h with
  | @stay n n' ks h =>
    rw [rank_cons n hd, rank_cons n' hd]
    have hlt := Nat.mul_lt_mul_of_pos_left h (hpow (d - (ks.length + 1)))
    omega
  | @push n n' new ks h hnew =>
    rw [List.length_cons, List.length_cons] at hd'
    have hsub : d - (ks.length + 1) = d - (ks.length + 1 + 1) + 1 := by omega
    rw [rank_cons new hd', rank_cons n' hd, rank_cons n hd, List.length_cons]
    have hworth : b ^ (d - (ks.length + 1 + 1)) * new < b ^ (d - (ks.length + 1)) := by
      rw [hsub, Nat.pow_succ]
      exact Nat.mul_lt_mul_of_pos_left hnew (hpow _)
    have hle := Nat.mul_le_mul_left (b ^ (d - (ks.length + 1))) (Nat.succ_le_of_lt h)
    rw [Nat.mul_succ] at hle
    omega
  | @pop n _ h =>
    rw [rank_cons n hd]
    have hpos := Nat.mul_pos (hpow (d - (ks'.length + 1))) h
    omega
  | @stop n ks h =>
    rw [rank_cons n hd]
    have hpos := Nat.mul_pos (hpow (d - (ks.length + 1))) h
    have hnil : rank b d [] = 0 := by simp [rank]
    omega

/-! ### Runs with a budget -/

variable {σ : Type}

/-- A run of `n` steps, of which `k` are marked. -/
inductive Marked (step mark : σ → σ → Prop) : ℕ → ℕ → σ → σ → Prop
  | refl {x} : Marked step mark 0 0 x x
  | plain {n k x y z} (h : step x y) (hm : ¬ mark x y) (hrest : Marked step mark n k y z) :
      Marked step mark (n + 1) k x z
  | mark {n k x y z} (h : step x y) (hm : mark x y) (hrest : Marked step mark n k y z) :
      Marked step mark (n + 1) (k + 1) x z

variable {step mark : σ → σ → Prop} {x z : σ} {n k : ℕ}

theorem Marked.tail {y : σ} (h : Marked step mark n k x y) (hstep : step y z) (hm : ¬ mark y z) :
    Marked step mark (n + 1) k x z := by
  induction h with
  | refl => exact .plain hstep hm .refl
  | plain h hm' _ ih => exact .plain h hm' (ih hstep hm)
  | mark h hm' _ ih => exact .mark h hm' (ih hstep hm)

theorem Marked.run (h : Marked step mark n k x z) : Relation.ReflTransGen step x z := by
  induction h with
  | refl => exact .refl
  | plain h _ _ ih => exact .head h ih
  | mark h _ _ ih => exact .head h ih

/-- Where the steps that are not marked lower a rank, and no rank is above `bound`, the marked steps pay for the run. -/
theorem Marked.le {p : σ → Prop} {rank : σ → ℕ} {bound : ℕ} (hp : ∀ x y, step x y → p x → p y)
    (hbound : ∀ x, p x → rank x < bound) (hlower : ∀ x y, p x → step x y → ¬ mark x y → rank y < rank x)
    (h : Marked step mark n k x z) (hx : p x) : n + rank z ≤ rank x + k * bound := by
  induction h with
  | refl => omega
  | plain h hm _ ih =>
    have hrest := ih (hp _ _ h hx)
    have hlt := hlower _ _ hx h hm
    omega
  | mark h hm _ ih =>
    have hrest := ih (hp _ _ h hx)
    have hlt := hbound _ (hp _ _ h hx)
    rw [Nat.succ_mul]
    omega

end Countdown
