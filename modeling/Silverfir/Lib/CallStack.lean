import Silverfir.Lib.Run
import Mathlib.Data.Nat.Notation

/-! Runs over a stack of calls. A step leaves the stack as it is, adds a call on top, or takes the
topmost one off. -/
namespace CallStack

open Relation (ReflTransGen)

variable {κ : Type}

inductive Move : List κ → List κ → Prop
  | stay {ks} : Move ks ks
  | push {k ks} : Move ks (k :: ks)
  | pop {k ks} : Move (k :: ks) ks

/-- A step taken while there are more than `n` calls. -/
def Above (n : ℕ) (ks : List κ) : Prop := n < ks.length

theorem Move.suffix {base ks ks' : List κ} (h : Move ks ks') (hb : base <:+ ks) (hn : Above base.length ks) :
    base <:+ ks' := by
  cases h with
  | stay => exact hb
  | push => exact hb.trans (List.suffix_cons _ _)
  | pop =>
    obtain heq | hs := List.suffix_cons_iff.mp hb
    · subst heq
      exact absurd hn (Nat.lt_irrefl _)
    · exact hs

/-- Only a push makes the stack longer. -/
theorem Move.exists_push {ks ks' : List κ} (h : Move ks ks') (hlen : ks'.length = ks.length + 1) :
    ∃ k, ks' = k :: ks := by
  cases h with
  | stay => omega
  | push => exact ⟨_, rfl⟩
  | pop =>
    rw [List.length_cons] at hlen
    omega

/-- As long as a call has not returned, the calls below it are the same. -/
theorem suffix_of_above {base ks ks' : List κ} (h : ReflTransGen (Run.Within Move (Above base.length)) ks ks')
    (hb : base <:+ ks) : base <:+ ks' :=
  Run.invariant (fun _ _ hstep hx => hstep.2.suffix hx hstep.1) h hb

/-- A call that returns leaves the stack that was there before it. -/
theorem eq_of_returned {base ks ks' : List κ} {k : κ}
    (h : ReflTransGen (Run.Within Move (Above base.length)) (k :: base) ks) (hm : Move ks ks')
    (hlen : ks'.length = base.length) (habove : Above base.length ks) : ks' = base := by
  have hs := suffix_of_above h (List.suffix_cons k base)
  exact ((hm.suffix hs habove).eq_of_length hlen.symm).symm

/-! ### Calls that move -/

variable {σ : Type} {step : σ → σ → Prop} {stack : σ → List κ} {x z : σ}

/-- A step of the topmost call moves it; it may call another one, or return. -/
inductive Shift : List κ → List κ → Prop
  | stay {k k' ks} : Shift (k :: ks) (k' :: ks)
  | push {k k' new ks} : Shift (k :: ks) (new :: k' :: ks)
  | pop {k ks} : Shift (k :: ks) ks

/-- The calls below the topmost one are not touched. -/
theorem Shift.suffix {base ks ks' : List κ} (h : Shift ks ks') (hb : base <:+ ks) (hn : Above base.length ks) :
    base <:+ ks' := by
  have hbelow : ∀ (k : κ) (ks : List κ), base <:+ k :: ks → Above base.length (k :: ks) → base <:+ ks := by
    intro k ks hb hn
    rcases List.suffix_cons_iff.mp hb with heq | hs
    · rw [heq] at hn
      exact absurd hn (Nat.lt_irrefl _)
    · exact hs
  cases h with
  | stay => exact (hbelow _ _ hb hn).trans (List.suffix_cons _ _)
  | push => exact ((hbelow _ _ hb hn).trans (List.suffix_cons _ _)).trans (List.suffix_cons _ _)
  | pop => exact hbelow _ _ hb hn

/-- A step, and then as many more as it takes to come back to `d` calls or fewer. -/
inductive Completes (step : σ → σ → Prop) (stack : σ → List κ) (d : ℕ) : σ → σ → Prop
  | last {x y} (h : step x y) (hd : (stack y).length ≤ d) : Completes step stack d x y
  | deeper {x y z} (h : step x y) (hd : d < (stack y).length) (hrest : Completes step stack d y z) :
      Completes step stack d x z

/-- Calls that wait are still there when what they have called is over. -/
theorem Completes.waiting {base : List κ} (hstep : ∀ x y, step x y → Shift (stack x) (stack y))
    (h : Completes step stack base.length x z) (hb : base <:+ stack x) (hn : Above base.length (stack x)) :
    stack z = base := by
  induction h with
  | last h hle => exact (((hstep _ _ h).suffix hb hn).eq_of_length_le hle).symm
  | deeper h hlt _ ih => exact ih ((hstep _ _ h).suffix hb hn) hlt

/-- A step that does not return: with all that it calls it takes its call to where it moves it. -/
theorem Completes.moved {p : κ → Prop} {ks : List κ} (hstep : ∀ x y, step x y → Shift (stack x) (stack y))
    (hfirst : ∀ y, step x y → ∃ k, p k ∧ (stack y = k :: ks ∨ ∃ new, stack y = new :: k :: ks))
    (h : Completes step stack (ks.length + 1) x z) : ∃ k, p k ∧ stack z = k :: ks := by
  cases h with
  | last h hle =>
    obtain ⟨k, hp, hy | ⟨new, hy⟩⟩ := hfirst _ h
    · exact ⟨k, hp, hy⟩
    · rw [hy, List.length_cons, List.length_cons] at hle
      omega
  | deeper h hlt hrest =>
    obtain ⟨k, hp, hy | ⟨new, hy⟩⟩ := hfirst _ h
    · rw [hy, List.length_cons] at hlt
      omega
    · have hb : k :: ks <:+ new :: k :: ks := List.suffix_cons new (k :: ks)
      rw [← hy] at hb
      have hlast : stack z = k :: ks := Completes.waiting hstep hrest hb hlt
      exact ⟨k, hp, hlast⟩

end CallStack
