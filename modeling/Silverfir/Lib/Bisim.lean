import Mathlib.Logic.Relation

/-! Two transition relations whose states go in pairs, and what is seen of their runs. -/
namespace Bisim

open Relation (ReflTransGen)

variable {α β ω : Type} {R : α → β → Prop} {r : α → α → Prop} {t : β → β → Prop} {obs : α → ω} {obs' : β → ω}

/-- A step of either one is a step of the other, and leads to a pair again. -/
structure Bisimulation (R : α → β → Prop) (r : α → α → Prop) (t : β → β → Prop) : Prop where
  forth : ∀ a b a', R a b → r a a' → ∃ b', t b b' ∧ R a' b'
  back : ∀ a b b', R a b → t b b' → ∃ a', r a a' ∧ R a' b'

theorem Bisimulation.symm (h : Bisimulation R r t) : Bisimulation (fun b a => R a b) t r :=
  ⟨fun b a b' hab hstep => h.back a b b' hab hstep, fun b a a' hab hstep => h.forth a b a' hab hstep⟩

/-- What is seen of a run, from its first state to its last. -/
inductive Trace (r : α → α → Prop) (obs : α → ω) : α → List ω → Prop
  | last (a) : Trace r obs a [obs a]
  | step {a a' os} (h : r a a') (hrest : Trace r obs a' os) : Trace r obs a (obs a :: os)

/-- Of a pair the one can be seen to do what the other is seen to do. -/
theorem Bisimulation.trace (h : Bisimulation R r t) (hobs : ∀ a b, R a b → obs a = obs' b) {a : α} {b : β}
    (hab : R a b) {os : List ω} (ht : Trace r obs a os) : Trace t obs' b os := by
  induction ht generalizing b with
  | last a =>
    rw [hobs a b hab]
    exact .last b
  | @step a a' os hstep _ ih =>
    obtain ⟨b', hstep', hab'⟩ := h.forth a b a' hab hstep
    rw [hobs a b hab]
    exact .step hstep' (ih hab')

theorem Bisimulation.trace_iff (h : Bisimulation R r t) (hobs : ∀ a b, R a b → obs a = obs' b) {a : α} {b : β}
    (hab : R a b) (os : List ω) : Trace r obs a os ↔ Trace t obs' b os := by
  constructor
  · exact fun ht => h.trace hobs hab ht
  · exact fun ht => h.symm.trace (fun b a hab => (hobs a b hab).symm) hab ht

/-- A run of the one goes in pair with a run of the other. -/
theorem Bisimulation.run (h : Bisimulation R r t) {a a' : α} {b : β} (hab : R a b) (hrun : ReflTransGen r a a') :
    ∃ b', ReflTransGen t b b' ∧ R a' b' := by
  induction hrun with
  | refl => exact ⟨b, .refl, hab⟩
  | @tail a' a'' _ hstep ih =>
    obtain ⟨b', hrun', hab'⟩ := ih
    obtain ⟨b'', hstep', hab''⟩ := h.forth a' b' a'' hab' hstep
    exact ⟨b'', hrun'.tail hstep', hab''⟩

/-- Whatever holds of a state that is in a pair is seen all along a trace. -/
theorem Bisimulation.trace_all (h : Bisimulation R r t) {p : ω → Prop} (hp : ∀ a b, R a b → p (obs a)) {a : α} {b : β}
    (hab : R a b) {os : List ω} (ht : Trace r obs a os) : ∀ o ∈ os, p o := by
  induction ht generalizing b with
  | last a =>
    intro o ho
    rw [List.mem_singleton.mp ho]
    exact hp a b hab
  | @step a a' os hstep _ ih =>
    obtain ⟨b', -, hab'⟩ := h.forth a b a' hab hstep
    rw [List.forall_mem_cons]
    exact ⟨hp a b hab, ih hab'⟩

end Bisim
