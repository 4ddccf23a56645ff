import Silverfir.Validator

/-! What the stack operations of the validator do, once for all callbacks. -/
namespace Silverfir.Validator

/-- The test of `pop_val_expect`. -/
def Matches (actual expected : TypeId) : Prop :=
  actual = expected ∨ actual = .unknown ∨ expected = .unknown ∨ (expected = .ref ∧ actual.isRef = true)

@[simp] theorem pushVal_valStack (t : TypeId) (c : Ctx) : (pushVal t c).valStack = t :: c.valStack := rfl
@[simp] theorem pushVal_ctrlStack (t : TypeId) (c : Ctx) : (pushVal t c).ctrlStack = c.ctrlStack := rfl
@[simp] theorem pushVal_jt (t : TypeId) (c : Ctx) : (pushVal t c).jt = c.jt := rfl
@[simp] theorem pushVal_locals (t : TypeId) (c : Ctx) : (pushVal t c).locals = c.locals := rfl

theorem pushVals_cons (t : TypeId) (ts : List TypeId) (c : Ctx) :
    pushVals (t :: ts) c = pushVals ts (pushVal t c) := rfl

@[simp] theorem pushVals_nil (c : Ctx) : pushVals [] c = c := rfl

@[simp] theorem pushVals_valStack (ts : List TypeId) (c : Ctx) :
    (pushVals ts c).valStack = ts.reverse ++ c.valStack := by
  induction ts generalizing c with
  | nil => rfl
  | cons t ts ih => rw [pushVals_cons, ih]; simp

@[simp] theorem pushVals_ctrlStack (ts : List TypeId) (c : Ctx) :
    (pushVals ts c).ctrlStack = c.ctrlStack := by
  induction ts generalizing c with
  | nil => rfl
  | cons t ts ih => rw [pushVals_cons, ih]; rfl

@[simp] theorem pushVals_jt (ts : List TypeId) (c : Ctx) : (pushVals ts c).jt = c.jt := by
  induction ts generalizing c with
  | nil => rfl
  | cons t ts ih => rw [pushVals_cons, ih]; rfl

@[simp] theorem pushVals_locals (ts : List TypeId) (c : Ctx) : (pushVals ts c).locals = c.locals := by
  induction ts generalizing c with
  | nil => rfl
  | cons t ts ih => rw [pushVals_cons, ih]; rfl

@[simp] theorem pushSlot_valStack (l : ℕ) (s : JumpTable) (c : Ctx) :
    (pushSlot l s c).valStack = c.valStack := rfl
@[simp] theorem pushSlot_locals (l : ℕ) (s : JumpTable) (c : Ctx) :
    (pushSlot l s c).locals = c.locals := rfl
@[simp] theorem pushSlot_jt (l : ℕ) (s : JumpTable) (c : Ctx) : (pushSlot l s c).jt = c.jt ++ [s] := rfl
@[simp] theorem pushSlot_ctrlStack (l : ℕ) (s : JumpTable) (c : Ctx) :
    (pushSlot l s c).ctrlStack = c.ctrlStack.modify l (·.addPending [c.jt.length]) := rfl
@[simp] theorem pushSlot_stackSizeMax (l : ℕ) (s : JumpTable) (c : Ctx) :
    (pushSlot l s c).stackSizeMax = c.stackSizeMax := rfl

/-- `k` operands are taken from the stack of the top frame and `ts`, in pop order, is what the
pops return: when `ts` is longer than `k` the frame is unreachable and empty, and the missing
operands have unknown type. -/
structure Popped (c : Ctx) (k : ℕ) (ts : List TypeId) : Prop where
  types : ts = c.valStack.take k ++ List.replicate (ts.length - k) .unknown
  le : k ≤ ts.length
  above : ∀ fr ∈ c.ctrlStack.head?, fr.height ≤ c.valStack.length → k + fr.height ≤ c.valStack.length
  poly : k < ts.length → ∃ fr ∈ c.ctrlStack.head?, fr.unreachable = true ∧ c.valStack.length = fr.height + k

theorem Popped.nil (c : Ctx) : Popped c 0 [] where
  types := by simp
  le := le_rfl
  above := by simp
  poly := by simp

/-- In a reachable frame every operand is really there. -/
theorem Popped.of_reachable {c : Ctx} {k : ℕ} {ts : List TypeId} (h : Popped c k ts)
    (hr : ∀ fr ∈ c.ctrlStack.head?, fr.unreachable = false) :
    k = ts.length ∧ ts = c.valStack.take k := by
  have hk : k = ts.length := by
    by_contra hne
    obtain ⟨fr, hfr, hu, -⟩ := h.poly (lt_of_le_of_ne h.le hne)
    simp [hr fr hfr] at hu
  have ht := h.types
  rw [← hk, Nat.sub_self] at ht
  exact ⟨hk, by simpa using ht⟩

theorem popVal_ok {c c' : Ctx} {t : TypeId} (h : popVal c = .ok (t, c')) :
    ∃ k, Popped c k [t] ∧ c' = { c with valStack := c.valStack.drop k } := by
  unfold popVal at h
  split at h
  · simp [noFrame] at h
  · next fr rest hc =>
    split_ifs at h with h1 h2
    · cases h
      refine ⟨0, ⟨by simp, by simp, fun fr' hfr hle => by simpa using hle, fun _ => ?_⟩, by simp⟩
      exact ⟨fr, by simp [hc], h1.1, by omega⟩
    · simp at h
    · split at h
      · simp at h
      · next s hs =>
        cases h
        refine ⟨1, ⟨by simp [hs], by simp, ?_, by simp⟩, by simp [hs]⟩
        intro fr' hfr hle
        obtain rfl : fr = fr' := by simpa [hc] using hfr
        omega

theorem popValExpect_ok {e t : TypeId} {c c' : Ctx} (h : popValExpect e c = .ok (t, c')) :
    popVal c = .ok (t, c') ∧ Matches t e := by
  simp only [popValExpect, bind_eq_ok] at h
  obtain ⟨⟨t', c1⟩, h1, h⟩ := h
  split at h
  · simp at h
  · next hm =>
    cases h
    refine ⟨h1, ?_⟩
    unfold Matches
    simp only at hm
    tauto

theorem popValsRev_ok {es ts : List TypeId} {c c' : Ctx} (h : popValsRev es c = .ok (ts, c')) :
    List.Forall₂ Matches ts es ∧
      ∃ k, Popped c k ts ∧ c' = { c with valStack := c.valStack.drop k } := by
  induction es generalizing c c' ts with
  | nil =>
    cases h
    exact ⟨.nil, 0, .nil c, by simp⟩
  | cons e es ih =>
    simp only [popValsRev, bind_eq_ok] at h
    obtain ⟨⟨t, c1⟩, h1, ⟨us, c2⟩, h2, h⟩ := h
    obtain ⟨h1, hm⟩ := popValExpect_ok h1
    obtain ⟨k1, p1, hc1⟩ := popVal_ok h1
    obtain ⟨hms, k2, p2, hc2⟩ := ih (c := c1) h2
    cases h
    refine ⟨.cons hm hms, k1 + k2, ?_, ?_⟩
    · have hk1 : k1 ≤ 1 := by simpa using p1.le
      have hk2 := p2.le
      have hhead : c1.ctrlStack = c.ctrlStack := by rw [hc1]
      have hstack : c1.valStack = c.valStack.drop k1 := by rw [hc1]
      have hlen : c1.valStack.length = c.valStack.length - k1 := by rw [hstack]; simp
      -- after an unknown operand the frame is empty, so every later one is unknown too
      have hzero : k1 = 0 → k2 = 0 := by
        rintro rfl
        obtain ⟨fr, hfr, -, hh⟩ := p1.poly (by simp)
        have := p2.above fr (by rw [hhead]; exact hfr) (by omega)
        omega
      refine ⟨?_, by simp; omega, ?_, ?_⟩
      · rcases (by omega : k1 = 0 ∨ k1 = 1) with rfl | rfl
        · obtain rfl := hzero rfl
          have ht := p1.types
          have hu := p2.types
          simp only [List.take_zero, List.nil_append, Nat.sub_zero, List.length_singleton,
            List.replicate_one] at ht hu
          simp only [Nat.add_zero, List.take_zero, List.nil_append, Nat.sub_zero,
            List.length_cons, List.replicate_succ]
          rw [← hu]
          exact congrArg (· :: us) (by simpa using ht)
        · have ht := p1.types
          have hu := p2.types
          simp only [List.length_singleton, Nat.sub_self, List.replicate_zero, List.append_nil] at ht
          rw [hstack] at hu
          cases hv : c.valStack with
          | nil => simp [hv] at ht
          | cons a as =>
            simp only [hv, List.take_succ_cons, List.take_zero, List.cons.injEq, and_true] at ht
            rw [hv] at hu
            simp only [List.drop_succ_cons, List.drop_zero] at hu
            have hl : (us.length + 1) - (k2 + 1) = us.length - k2 := by omega
            simp only [List.length_cons, Nat.add_comm 1 k2, hl, List.take_succ_cons, List.cons_append,
              List.cons.injEq]
            exact ⟨ht, hu⟩
      · intro fr hfr hle
        have := p1.above fr hfr hle
        have := p2.above fr (by rw [hhead]; exact hfr) (by omega)
        omega
      · intro hlt
        simp only [List.length_cons] at hlt
        rcases (by omega : k1 = 0 ∨ k2 < us.length) with rfl | hlt
        · obtain rfl := hzero rfl
          simpa using p1.poly (by simp)
        · obtain ⟨fr, hfr, hu, hh⟩ := p2.poly hlt
          rw [hhead] at hfr
          refine ⟨fr, hfr, hu, ?_⟩
          rw [hlen] at hh
          by_cases hk : k1 = 0
          · obtain rfl := hk; obtain rfl := hzero rfl; omega
          · have := p1.types
            have hne : c.valStack ≠ [] := by
              rintro h0
              obtain rfl : k1 = 1 := by omega
              simp [h0] at this
            have := List.length_pos_iff.mpr hne
            omega
    · rw [hc2, hc1]
      simp [List.drop_drop]

theorem popValsToVec_ok {es ts : List TypeId} {c c' : Ctx} (h : popValsToVec es c = .ok (ts, c')) :
    List.Forall₂ Matches ts es.reverse ∧
      ∃ k, Popped c k ts ∧ c' = { c with valStack := c.valStack.drop k } := popValsRev_ok h

theorem popVals_ok {es : List TypeId} {c c' : Ctx} (h : popVals es c = .ok c') :
    ∃ ts k, List.Forall₂ Matches ts es.reverse ∧ Popped c k ts ∧
      c' = { c with valStack := c.valStack.drop k } := by
  simp only [popVals, bind_eq_ok] at h
  obtain ⟨⟨ts, c1⟩, h1, h⟩ := h
  obtain ⟨hm, k, hp, hc⟩ := popValsToVec_ok h1
  cases h
  exact ⟨ts, k, hm, hp, hc⟩

theorem popPush_ok {pops pushes : List TypeId} {c c' : Ctx} (h : popPush pops pushes c = .ok c') :
    ∃ ts k, List.Forall₂ Matches ts pops ∧ Popped c k ts ∧
      c' = pushVals pushes { c with valStack := c.valStack.drop k } := by
  simp only [popPush, bind_eq_ok] at h
  obtain ⟨⟨ts, c1⟩, h1, h⟩ := h
  obtain ⟨hm, k, hp, hc⟩ := popValsRev_ok h1
  cases h
  exact ⟨ts, k, hm, hp, by rw [hc]⟩

end Silverfir.Validator
