import Mathlib.Tactic.Common

/-! Programs on a state that can fail. What a program did to the state before it failed stays
done. Rules for pre- and postconditions. -/

/-- A program with state `σ`, failures `ε` and result `α`. -/
def Eff (ε σ α : Type) : Type := σ → Except ε α × σ

namespace Eff

variable {ε σ α β γ : Type}

instance : Monad (Eff ε σ) where
  pure a := fun s => (.ok a, s)
  bind m f := fun s =>
    match m s with
    | (.ok a, s') => f a s'
    | (.error e, s') => (.error e, s')

def fail (e : ε) : Eff ε σ α := fun s => (.error e, s)

def get : Eff ε σ σ := fun s => (.ok s, s)

def modify (f : σ → σ) : Eff ε σ Unit := fun s => (.ok (), f s)

/-- A computation that does not touch the state. -/
def lift (x : Except ε α) : Eff ε σ α := fun s => (x, s)

/-- A computation that reads the state. -/
def read (f : σ → Except ε α) : Eff ε σ α := fun s => (f s, s)

/-- Run `f` on the elements of a list, in order. -/
def each (f : α → Eff ε σ Unit) : List α → Eff ε σ Unit
  | [] => pure ()
  | a :: as => do
    f a
    each f as

theorem pure_apply (a : α) (s : σ) : (pure a : Eff ε σ α) s = (.ok a, s) := rfl

theorem bind_apply (m : Eff ε σ α) (f : α → Eff ε σ β) (s : σ) :
    (m >>= f) s = match m s with
      | (.ok a, s') => f a s'
      | (.error e, s') => (.error e, s') := rfl

theorem bind_ok {m : Eff ε σ α} {f : α → Eff ε σ β} {s s' : σ} {b : β} :
    (m >>= f) s = (.ok b, s') ↔ ∃ a s1, m s = (.ok a, s1) ∧ f a s1 = (.ok b, s') := by
  rw [bind_apply]
  constructor
  · intro h
    split at h
    · next a s1 hm => exact ⟨a, s1, hm, h⟩
    · cases h
  · rintro ⟨a, s1, hm, hf⟩
    rw [hm]
    exact hf

theorem read_ok {f : σ → Except ε α} {a : α} {s s' : σ} (h : read f s = (.ok a, s')) : f s = .ok a ∧ s' = s := by
  simp only [read, Prod.mk.injEq] at h
  exact ⟨h.1, h.2.symm⟩

theorem lift_ok {x : Except ε α} {a : α} {s s' : σ} (h : lift x s = (.ok a, s')) : x = .ok a ∧ s' = s :=
  @read_ok ε σ α (fun _ => x) a s s' h

theorem bind_assoc (m : Eff ε σ α) (f : α → Eff ε σ β) (g : β → Eff ε σ γ) :
    m >>= f >>= g = m >>= fun a => f a >>= g := by
  funext s
  simp only [bind_apply]
  cases m s with
  | mk r s' => cases r <;> rfl

theorem each_append (f : α → Eff ε σ Unit) (xs ys : List α) :
    each f (xs ++ ys) = (each f xs >>= fun _ => each f ys) := by
  induction xs with
  | nil => rfl
  | cons x xs ih =>
    rw [List.cons_append, each, each, ih, bind_assoc]

/-- A loop over other data with the same rounds. -/
theorem each_map {f : α → Eff ε σ Unit} {g : β → Eff ε σ Unit} {h : α → β} {xs : List α}
    (hf : ∀ x ∈ xs, f x = g (h x)) : each f xs = each g (xs.map h) := by
  induction xs with
  | nil => rfl
  | cons x xs ih =>
    rw [List.map_cons, each, each, hf x List.mem_cons_self, ih fun y hy => hf y (List.mem_cons_of_mem _ hy)]

/-- The loop comes to the element `x` in the state `s'`. -/
def Comes (f : α → Eff ε σ Unit) (xs : List α) (s : σ) (x : α) (s' : σ) : Prop :=
  ∃ done rest, xs = done ++ x :: rest ∧ each f done s = (.ok (), s')

theorem Comes.head (f : α → Eff ε σ Unit) (x : α) (xs : List α) (s : σ) : Comes f (x :: xs) s x s :=
  ⟨[], xs, rfl, rfl⟩

theorem Comes.tail {f : α → Eff ε σ Unit} {x y : α} {xs : List α} {s s1 s' : σ} (hy : f y s = (.ok (), s1))
    (h : Comes f xs s1 x s') : Comes f (y :: xs) s x s' := by
  obtain ⟨done, rest, rfl, hdone⟩ := h
  exact ⟨y :: done, rest, rfl, bind_ok.mpr ⟨(), s1, hy, hdone⟩⟩

/-- What every round keeps that the loop comes to, the loop keeps, however it ends. -/
theorem each_keeps {f : α → Eff ε σ Unit} {P : σ → Prop} {xs : List α} {s : σ}
    (h : ∀ x s1, Comes f xs s x s1 → P s1 → P (f x s1).2) (hs : P s) : P (each f xs s).2 := by
  induction xs generalizing s with
  | nil => exact hs
  | cons x xs ih =>
    have hx := h x s (.head f x xs s) hs
    rw [each, bind_apply]
    cases hfx : f x s with
    | mk res s1 =>
      rw [hfx] at hx
      cases res with
      | error => exact hx
      | ok => exact ih (fun y s2 hy => h y s2 (hy.tail hfx)) hx

/-- From a state with `P`, the program ends in a state with `Q`, or fails in a state with `E`. -/
def Triple (P : σ → Prop) (m : Eff ε σ α) (Q : α → σ → Prop) (E : σ → Prop) : Prop :=
  ∀ s, P s → (∀ a s', m s = (.ok a, s') → Q a s') ∧ ∀ e s', m s = (.error e, s') → E s'

namespace Triple

variable {P P' : σ → Prop} {Q Q' : α → σ → Prop} {T : β → σ → Prop} {E : σ → Prop} {m : Eff ε σ α}

theorem pure {a : α} (h : ∀ s, P s → Q a s) : Triple P (Pure.pure a : Eff ε σ α) Q E := by
  intro s hs
  refine ⟨fun b s' hb => ?_, fun e s' he => ?_⟩
  · cases hb
    exact h s hs
  · cases he

theorem bind {f : α → Eff ε σ β} (hm : Triple P m Q E) (hf : ∀ a, Triple (Q a) (f a) T E) :
    Triple P (m >>= f) T E := by
  intro s hs
  obtain ⟨hok, herr⟩ := hm s hs
  rw [bind_apply]
  split
  · next a s1 h1 => exact hf a s1 (hok a s1 h1)
  · next e s1 h1 =>
    refine ⟨fun _ _ hb => ?_, fun e' s' he => ?_⟩
    · cases hb
    · cases he
      exact herr e s1 h1

theorem fail {e : ε} (h : ∀ s, P s → E s) : Triple P (Eff.fail e : Eff ε σ α) Q E := by
  intro s hs
  refine ⟨fun _ _ hb => ?_, fun e' s' he => ?_⟩
  · cases hb
  · cases he
    exact h s hs

theorem modify {f : σ → σ} {Q : Unit → σ → Prop} (h : ∀ s, P s → Q () (f s)) :
    Triple P (Eff.modify f : Eff ε σ Unit) Q E := by
  intro s hs
  refine ⟨fun _ s' hb => ?_, fun e' s' he => ?_⟩
  · cases hb
    exact h s hs
  · cases he

theorem read {f : σ → Except ε α} (h : ∀ s a, P s → f s = .ok a → Q a s) (hE : ∀ s, P s → E s) :
    Triple P (Eff.read f) Q E := by
  intro s hs
  refine ⟨fun a s' hb => ?_, fun e s' he => ?_⟩
  · simp only [Eff.read, Prod.mk.injEq] at hb
    obtain ⟨hb, rfl⟩ := hb
    exact h s a hs hb
  · simp only [Eff.read, Prod.mk.injEq] at he
    rw [← he.2]
    exact hE s hs

theorem lift {x : Except ε α} (h : ∀ s a, P s → x = .ok a → Q a s) (hE : ∀ s, P s → E s) :
    Triple P (Eff.lift x) Q E := read h hE

theorem conseq (hm : Triple P m Q E) (hP : ∀ s, P' s → P s) (hQ : ∀ a s, Q a s → Q' a s) : Triple P' m Q' E := by
  intro s hs
  obtain ⟨hok, herr⟩ := hm s (hP s hs)
  exact ⟨fun a s' h => hQ a s' (hok a s' h), herr⟩

theorem ite {p : Prop} [Decidable p] {m' : Eff ε σ α} (ht : p → Triple P m Q E)
    (he : ¬ p → Triple P m' Q E) : Triple P (if p then m else m') Q E := by
  by_cases h : p
  · rw [if_pos h]
    exact ht h
  · rw [if_neg h]
    exact he h

/-- What holds at the end, however the program ends. -/
theorem after (h : Triple P m (fun _ => E) E) {s : σ} (hs : P s) : E (m s).2 := by
  obtain ⟨hok, herr⟩ := h s hs
  cases hm : m s with
  | mk res s' =>
    cases res with
    | ok a => exact hok a s' hm
    | error e => exact herr e s' hm

/-- An invariant of every round is an invariant of the loop. -/
theorem each {f : γ → Eff ε σ Unit} {xs : List γ} (h : ∀ x ∈ xs, Triple P (f x) (fun _ => P) P) :
    Triple P (Eff.each f xs) (fun _ => P) P := by
  induction xs with
  | nil => exact pure fun _ hs => hs
  | cons x xs ih =>
    exact bind (h x List.mem_cons_self) fun _ => ih fun y hy => h y (List.mem_cons_of_mem _ hy)

end Triple

end Eff
