import Silverfir.VecRepr
import Mathlib.Logic.Function.Basic

/-! Runs over several vectors of one type in one heap, and what their contents are as lists. -/
namespace Silverfir

open VecImpl

structure VecSystem (β : Type) where
  heap : Heap (List β)
  vecs : ℕ → RawVec

def VecSystem.state {β : Type} (y : VecSystem β) (i : ℕ) : VecState β := ⟨y.heap, y.vecs i⟩

/-- A call of one of the functions, with what the allocator returns in it. -/
inductive VecCall (β : Type) where
  | push (grant : Option (Heap.Grant β)) (e : List β)
  | pop
  | popall
  | resize (grant : Option (Heap.Grant β)) (n : ℕ)
  | reserve (grant : Option (Heap.Grant β)) (n : ℕ)
  | shrinkToFit (grant : Option (Heap.Grant β))
  | dup (grant : Option (Heap.Grant β)) (src : ℕ)
  | setFixed (fixed : Bool)
  | clear

namespace VecCall
variable {β : Type} (elemSize : ℕ) (zero : β)

def run (vecs : ℕ → RawVec) : VecCall β → VecM β Unit
  | push grant e => VecImpl.push elemSize grant e
  | pop => VecImpl.pop
  | popall => VecImpl.popall
  | resize grant n => VecImpl.resize elemSize zero grant n
  | reserve grant n => VecImpl.reserve elemSize grant n
  | shrinkToFit grant => VecImpl.shrinkToFit elemSize grant
  | dup grant src => VecImpl.dup elemSize grant (vecs src)
  | setFixed fixed => VecImpl.setFixed fixed
  | clear => VecImpl.clear

/-- What a call on the vector `i` asks for. -/
def Allowed (y : VecSystem β) (i : ℕ) : VecCall β → Prop
  | push _ e => e.length = elemSize
  | pop => (y.vecs i).size ≠ 0
  | resize _ n | reserve _ n => n < 2 ^ 64
  | dup _ _ => (y.vecs i).capacity = 0 ∧ (y.vecs i).data = none ∧ (y.vecs i).size = 0
  | _ => True

/-- The bytes of a larger storage can be counted in a `size_t`, and nothing is copied into a fixed vector. -/
def Fits (y : VecSystem β) (i : ℕ) : VecCall β → Prop
  | resize _ n | reserve _ n => (y.vecs i).fixed = false → (y.vecs i).capacity < n → n * elemSize < 2 ^ 64
  | dup _ src => (y.vecs src).size ≠ 0 → (y.vecs i).fixed = false
  | _ => True

/-- The call on the lists of elements. -/
def apply (contents : ℕ → List (List β)) (i : ℕ) : VecCall β → List (List β)
  | push _ e => contents i ++ [e]
  | pop => (contents i).dropLast
  | popall | clear => []
  | resize _ n => (contents i).take n ++ List.replicate (n - (contents i).length) (List.replicate elemSize zero)
  | dup _ src => contents src
  | reserve _ _ | shrinkToFit _ | setFixed _ => contents i

end VecCall

/-- A call on the vector `i`. -/
def VecSystem.call {β : Type} (elemSize : ℕ) (zero : β) (y : VecSystem β) (i : ℕ) (c : VecCall β) :
    R Unit × VecSystem β :=
  let res := c.run elemSize zero y.vecs (y.state i)
  (res.1, ⟨res.2.heap, Function.update y.vecs i res.2.vec⟩)

/-- What the lists should be after a call: as they were, if it returns an error. -/
def VecSystem.after {β : Type} (elemSize : ℕ) (zero : β) (y : VecSystem β) (contents : ℕ → List (List β)) (i : ℕ)
    (c : VecCall β) : ℕ → List (List β) :=
  match (y.call elemSize zero i c).1 with
  | .ok () => Function.update contents i (c.apply elemSize zero contents i)
  | .error _ => contents

/-- What calls lead to, from empty vectors on. Between the calls the rest of the program does what it likes to the other
blocks of the heap. -/
inductive VecRun {β : Type} (elemSize : ℕ) (zero : β) (cond : VecSystem β → ℕ → VecCall β → Prop) :
    VecSystem β → (ℕ → List (List β)) → Prop
  | start (heap : Heap (List β)) : VecRun elemSize zero cond ⟨heap, fun _ => {}⟩ fun _ => []
  | call {y contents i c} (hrun : VecRun elemSize zero cond y contents) (hallowed : c.Allowed elemSize y i)
      (hcond : cond y i c) : VecRun elemSize zero cond (y.call elemSize zero i c).2 (y.after elemSize zero contents i c)
  | other {y contents heap} (hrun : VecRun elemSize zero cond y contents)
      (hsame : ∀ i a, (y.vecs i).data = some a → heap a = y.heap a) : VecRun elemSize zero cond ⟨heap, y.vecs⟩ contents

/-- The vectors are valid and have these elements. -/
structure VecSystem.Shows {β : Type} (elemSize : ℕ) (y : VecSystem β) (contents : ℕ → List (List β)) : Prop where
  valid : ∀ i, (y.vecs i).IsValid
  size : ∀ i, (y.vecs i).size = (contents i).length
  elems : ∀ i k, (y.state i).elem elemSize k = (contents i)[k]?

/-- A call is defined, it changes nothing if it returns an error, and only `vec_clear` takes the storage of a fixed
vector. -/
structure VecSystem.Answers {β : Type} (elemSize : ℕ) (zero : β) (y : VecSystem β) (i : ℕ) (c : VecCall β) : Prop where
  result : (y.call elemSize zero i c).1 = .ok () ∨ ∃ msg, (y.call elemSize zero i c).1 = err .general msg
  refused : ∀ e, (y.call elemSize zero i c).1 = .error e → (y.call elemSize zero i c).2 = y
  pinned : (y.vecs i).fixed = true → c ≠ .clear → ((y.call elemSize zero i c).2.vecs i).data = (y.vecs i).data ∧
    ((y.call elemSize zero i c).2.vecs i).capacity = (y.vecs i).capacity

/-! ### What a call keeps -/

/-- Each vector has its elements in storage of its own. -/
structure VecSystem.Apart {β : Type} (elemSize : ℕ) (y : VecSystem β) (contents : ℕ → List (List β)) : Prop where
  holds : ∀ i, (y.state i).Holds elemSize (contents i)
  apart : ∀ i j a, (y.vecs i).data = some a → (y.vecs j).data = some a → i = j

section Calls
variable {β : Type} {elemSize i : ℕ} {zero : β} {y : VecSystem β} {contents : ℕ → List (List β)} {c : VecCall β}
  {s' : VecState β} {ys : List (List β)} {heap : Heap (List β)}

/-- The vector `i` changes, and no storage but its own. -/
theorem VecSystem.Apart.update (h : y.Apart elemSize contents) (hi : s'.Holds elemSize ys)
    (hother : ∀ b, (y.vecs i).data ≠ some b → s'.vec.data ≠ some b → s'.heap b = y.heap b)
    (hfresh : ∀ b, s'.vec.data = some b → (y.vecs i).data ≠ some b → y.heap b = none) :
    VecSystem.Apart elemSize ⟨s'.heap, Function.update y.vecs i s'.vec⟩ (Function.update contents i ys) := by
  have hnew : ∀ j a, j ≠ i → (y.vecs j).data = some a → s'.vec.data ≠ some a := by
    intro j a hj ha ha'
    have hnone := hfresh a ha' fun hold => hj (h.apart j i a ha hold)
    obtain ⟨block, hblock, -⟩ := (h.holds j).stored a ha
    rw [show (y.state j).heap a = y.heap a from rfl, hnone] at hblock
    cases hblock
  constructor
  · intro j
    by_cases hj : j = i
    · subst hj
      simp only [state, Function.update_self]
      exact hi
    · simp only [state, Function.update_of_ne hj]
      exact (h.holds j).congr fun a ha => hother a (fun hold => hj (h.apart j i a ha hold)) (hnew j a hj ha)
  · intro j k a hja hka
    by_cases hj : j = i
    · by_cases hk : k = i
      · rw [hj, hk]
      · subst hj
        simp only [Function.update_self] at hja
        simp only [Function.update_of_ne hk] at hka
        exact absurd hja (hnew k a hk hka)
    · simp only [Function.update_of_ne hj] at hja
      by_cases hk : k = i
      · subst hk
        simp only [Function.update_self] at hka
        exact absurd hka (hnew j a hj hja)
      · simp only [Function.update_of_ne hk] at hka
        exact h.apart j k a hja hka

/-- What a call that succeeds does to its vector. -/
structure VecCall.Serves {β : Type} (elemSize : ℕ) (s : VecState β) (c : VecCall β) (s' : VecState β)
    (ys : List (List β)) : Prop where
  holds : s'.Holds elemSize ys
  other : ∀ b, s.vec.data ≠ some b → s'.vec.data ≠ some b → s'.heap b = s.heap b
  fresh : ∀ b, s'.vec.data = some b → s.vec.data ≠ some b → s.heap b = none
  pinned : s.vec.fixed = true → c ≠ .clear → s'.vec.data = s.vec.data ∧ s'.vec.capacity = s.vec.capacity

theorem VecState.Does.serves {s : VecState β} {m : VecM β Unit} (h : s.Does elemSize m ys) (c : VecCall β) :
    (∃ s', m s = (.ok (), s') ∧ c.Serves elemSize s s' ys) ∨ ∃ msg, m s = (err .general msg, s) := by
  rcases h with ⟨s', hm, hbecomes⟩ | hfail
  · exact Or.inl ⟨s', hm, hbecomes.holds, hbecomes.other, hbecomes.fresh, fun hfixed _ => hbecomes.pinned hfixed⟩
  · exact Or.inr hfail

theorem VecCall.run_serves (zero : β) (h : y.Apart elemSize contents) (hallowed : c.Allowed elemSize y i)
    (hfits : c.Fits elemSize y i) (hsize : 0 < elemSize) (hdefault : 10 * elemSize < 2 ^ 64) :
    (∃ s', c.run elemSize zero y.vecs (y.state i) = (.ok (), s') ∧
        c.Serves elemSize (y.state i) s' (c.apply elemSize zero contents i)) ∨
      ∃ msg, c.run elemSize zero y.vecs (y.state i) = (err .general msg, y.state i) := by
  have hi := h.holds i
  cases c with
  | push grant e => exact (push_does hi hallowed hsize hdefault).serves _
  | pop =>
    have hne : contents i ≠ [] := by
      intro hnil
      have hzero := hi.size
      rw [hnil] at hzero
      exact hallowed hzero
    exact (pop_does hi hne).serves _
  | popall => exact (popall_does hi).serves _
  | resize grant n => exact (resize_does _ hi hsize hfits).serves _
  | reserve grant n => exact (reserve_does hi hsize hfits).serves _
  | shrinkToFit grant => exact (shrinkToFit_does hi hsize).serves _
  | dup grant src => exact (dup_does (s := y.state i) hallowed (h.holds src) hfits).serves _
  | setFixed fixed =>
    exact Or.inl ⟨_, setFixed_apply fixed, setFixed_holds hi fixed, fun _ _ _ => rfl, fun b hb hne => absurd hb hne,
      fun _ _ => ⟨rfl, rfl⟩⟩
  | clear =>
    obtain ⟨heap, hclear, hholds, hother, -⟩ := clear_holds hi
    exact Or.inl ⟨_, hclear, hholds, fun b hb _ => hother b hb, fun _ hb => absurd hb.symm (Option.some_ne_none _),
      fun _ hne => absurd rfl hne⟩

theorem VecSystem.call_cases (zero : β) (h : y.Apart elemSize contents) (hallowed : c.Allowed elemSize y i)
    (hfits : c.Fits elemSize y i) (hsize : 0 < elemSize) (hdefault : 10 * elemSize < 2 ^ 64) :
    (∃ s', y.call elemSize zero i c = (.ok (), ⟨s'.heap, Function.update y.vecs i s'.vec⟩) ∧
        c.Serves elemSize (y.state i) s' (c.apply elemSize zero contents i)) ∨
      ∃ msg, y.call elemSize zero i c = (err .general msg, y) := by
  unfold VecSystem.call
  rcases VecCall.run_serves zero h hallowed hfits hsize hdefault with ⟨s', hrun, hserves⟩ | ⟨msg, hrun⟩
  · rw [hrun]
    exact Or.inl ⟨s', rfl, hserves⟩
  · rw [hrun]
    have hsame : Function.update y.vecs i (y.state i).vec = y.vecs := Function.update_eq_self i y.vecs
    exact Or.inr ⟨msg, congrArg (fun vecs => (err .general msg, (⟨y.heap, vecs⟩ : VecSystem β))) hsame⟩

/-- A call keeps the vectors apart, and they hold what they should. -/
theorem VecSystem.Apart.call (h : y.Apart elemSize contents) (hallowed : c.Allowed elemSize y i)
    (hfits : c.Fits elemSize y i) (hsize : 0 < elemSize) (hdefault : 10 * elemSize < 2 ^ 64) :
    (y.call elemSize zero i c).2.Apart elemSize (y.after elemSize zero contents i c) := by
  unfold VecSystem.after
  rcases VecSystem.call_cases zero h hallowed hfits hsize hdefault with ⟨s', hcall, hserves⟩ | ⟨msg, hcall⟩
  · rw [hcall]
    exact h.update hserves.holds hserves.other hserves.fresh
  · rw [hcall]
    exact h

/-- The rest of the program leaves the storage of the vectors alone. -/
theorem VecSystem.Apart.other (h : y.Apart elemSize contents)
    (hsame : ∀ i a, (y.vecs i).data = some a → heap a = y.heap a) : VecSystem.Apart elemSize ⟨heap, y.vecs⟩ contents :=
  ⟨fun i => (h.holds i).congr (hsame i), h.apart⟩

theorem VecRun.apart (hrun : VecRun elemSize zero (fun y i c => c.Fits elemSize y i) y contents) (hsize : 0 < elemSize)
    (hdefault : 10 * elemSize < 2 ^ 64) : y.Apart elemSize contents := by
  induction hrun with
  | start heap =>
    refine ⟨fun i => ?_, fun i j a ha => by cases ha⟩
    exact ⟨fun x hx => absurd hx List.not_mem_nil, rfl, fun _ => ⟨rfl, rfl⟩, fun a ha => by cases ha⟩
  | call _ hallowed hfits ih => exact ih.call hallowed hfits hsize hdefault
  | other _ hsame ih => exact ih.other hsame

theorem VecSystem.Apart.shows (h : y.Apart elemSize contents) : y.Shows elemSize contents where
  valid i := (h.holds i).isValid
  size i := (h.holds i).size
  elems i := (h.holds i).elem

theorem VecSystem.Apart.answers (h : y.Apart elemSize contents) (hallowed : c.Allowed elemSize y i)
    (hfits : c.Fits elemSize y i) (hsize : 0 < elemSize) (hdefault : 10 * elemSize < 2 ^ 64) :
    y.Answers elemSize zero i c := by
  rcases VecSystem.call_cases zero h hallowed hfits hsize hdefault with ⟨s', hcall, hserves⟩ | ⟨msg, hcall⟩
  · refine ⟨Or.inl (by rw [hcall]), fun e he => ?_, fun hfixed hne => ?_⟩
    · rw [hcall] at he
      cases he
    · simp only [hcall, Function.update_self]
      exact hserves.pinned hfixed hne
  · exact ⟨Or.inr ⟨msg, by rw [hcall]⟩, fun _ _ => by rw [hcall], fun _ _ => by rw [hcall]; exact ⟨rfl, rfl⟩⟩

/-- Vectors are lists of elements in every run, and a fixed one stays where it is, as long as the sizes that are asked
for can be counted in bytes and no elements are copied to a fixed vector. -/
theorem vec_representation (elemSize : ℕ) (zero : β) (y : VecSystem β) (contents : ℕ → List (List β))
    (hsize : 0 < elemSize) (hdefault : 10 * elemSize < 2 ^ 64)
    (hrun : VecRun elemSize zero (fun y i c => c.Fits elemSize y i) y contents) :
    y.Shows elemSize contents ∧
      ∀ i c, c.Allowed elemSize y i → c.Fits elemSize y i → y.Answers elemSize zero i c :=
  have hapart := hrun.apart hsize hdefault
  ⟨hapart.shows, fun _ _ hallowed hfits => hapart.answers hallowed hfits hsize hdefault⟩

end Calls

/-! ### Runs on fixed inputs -/

theorem vec_representation_pushed :
    (VecSystem.call 1 0 ⟨fun _ => none, fun _ => {}⟩ 0 (.push (some ⟨4096, fun _ => 0⟩) [7])).2.Shows 1
      (Function.update (fun _ => []) 0 [[7]]) :=
  (vec_representation 1 0 _ _ (by decide) (by decide)
    (.call (c := .push (some ⟨4096, fun _ => 0⟩) [7]) (i := 0) (.start fun _ => none) rfl trivial)).1

/-- A resize to `2 ^ 61` elements of eight bytes asks for no bytes. -/
def wrapped : VecSystem ℕ × (ℕ → List (List ℕ)) :=
  let c := VecCall.resize (some ⟨4096, fun _ => 0⟩) (2 ^ 61)
  let y : VecSystem ℕ := ⟨fun _ => none, fun _ => {}⟩
  ((y.call 8 0 0 c).2, y.after 8 0 (fun _ => []) 0 c)

/-- An empty vector is fixed, and another one has an element. -/
def pinned : VecSystem ℕ × (ℕ → List (List ℕ)) :=
  let y : VecSystem ℕ := ⟨fun _ => none, fun _ => {}⟩
  let y1 := (y.call 1 0 0 (.setFixed true)).2
  let contents1 := y.after 1 0 (fun _ => []) 0 (.setFixed true)
  let c := VecCall.push (some ⟨4096, fun _ => 0⟩) [7]
  ((y1.call 1 0 1 c).2, y1.after 1 0 contents1 1 c)

theorem vec_wraps_and_moves :
    (VecRun 8 0 (fun _ _ _ => True) wrapped.1 wrapped.2 ∧ ¬ wrapped.1.Shows 8 wrapped.2) ∧
      VecRun 1 0 (fun _ _ _ => True) pinned.1 pinned.2 ∧
        VecCall.Allowed 1 pinned.1 0 (.dup (some ⟨8192, fun _ => 0⟩) 1) ∧
          ¬ pinned.1.Answers 1 0 0 (.dup (some ⟨8192, fun _ => 0⟩) 1) := by
  refine ⟨⟨.call (.start _) (by decide : 2 ^ 61 < 2 ^ 64) trivial, fun hshows => ?_⟩,
    .call (.call (.start _) trivial trivial) rfl trivial, ⟨rfl, rfl, rfl⟩, fun hanswers => ?_⟩
  · have hfirst := hshows.elems 0 0
    have hread : (wrapped.1.state 0).elem 8 0 = none := by decide
    have hlist : wrapped.2 0 = List.replicate (2 ^ 61) (List.replicate 8 0) := rfl
    rw [hread, hlist, List.getElem?_replicate, if_pos (by decide)] at hfirst
    cases hfirst
  · have hmoved := (hanswers.pinned (by decide) (by simp)).1
    exact absurd hmoved (by decide)

end Silverfir
