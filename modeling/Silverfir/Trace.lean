import Silverfir.Fetch
import Silverfir.Validator
import Silverfir.Lib.Run

/-! Validation as a run: the offsets at which the decoder reads an opcode and the contexts the
callbacks find there. -/
namespace Silverfir

open Relation (ReflTransGen)

section Decode
variable {σ : Type} {mod : Module} {cb : OpDecoderCallbacks σ} {code : Str}

/-- One round of the decoder: the payload of the callbacks beside the offset of the opcode. -/
def DecodeStep (mod : Module) (cb : OpDecoderCallbacks σ) (code : Str) (x y : ℕ × σ) : Prop :=
  ∃ fin, decodeRound mod cb ⟨code, x.1⟩ x.2 = .ok (y.2, ⟨code, y.1⟩, fin)

theorem decodeStep_iff {p q : ℕ} {x y : σ} :
    DecodeStep mod cb code (p, x) (q, y) ↔
      ∃ i imm, fetch mod code p = .ok (i, imm, q) ∧ cb.onInstr i ⟨code, imm⟩ x = .ok y := by
  constructor
  · rintro ⟨fin, h⟩
    obtain ⟨i, imm, q', hf, hcb, hq, -⟩ := decodeRound_ok.mp h
    cases hq
    exact ⟨i, imm, hf, hcb⟩
  · rintro ⟨i, imm, hf, hcb⟩
    exact ⟨_, decodeRound_ok.mpr ⟨i, imm, q, hf, hcb, rfl, rfl⟩⟩

theorem DecodeStep.lt {x y : ℕ × σ} (h : DecodeStep mod cb code x y) :
    x.1 < y.1 ∧ y.1 ≤ code.length := by
  obtain ⟨p, a⟩ := x
  obtain ⟨q, b⟩ := y
  obtain ⟨i, imm, hf, -⟩ := decodeStep_iff.mp h
  have := fetch_span hf
  exact ⟨by omega, this.2.2⟩

theorem DecodeStep.unique {x y z : ℕ × σ} (h : DecodeStep mod cb code x y)
    (k : DecodeStep mod cb code x z) : y = z := by
  obtain ⟨f1, h⟩ := h
  obtain ⟨f2, k⟩ := k
  have := Except.ok.inj (h.symm.trans k)
  simp only [Prod.mk.injEq, Stream.mk.injEq] at this
  exact Prod.ext this.2.1.2 this.1

theorem decodeSteps_le {x y : ℕ × σ} (h : ReflTransGen (DecodeStep mod cb code) x y) : x.1 ≤ y.1 :=
  Run.lift_preorder (s := fun x y => x.1 ≤ y.1) (fun _ => le_rfl) (fun _ _ _ => le_trans)
    (fun _ _ h => h.lt.1.le) h

/-- The offset determines the payload. -/
theorem decodeSteps_unique {x y z : ℕ × σ} (hy : ReflTransGen (DecodeStep mod cb code) x y)
    (hz : ReflTransGen (DecodeStep mod cb code) x z) (he : y.1 = z.1) : y = z := by
  have eq_of_le : ∀ {a b : ℕ × σ}, ReflTransGen (DecodeStep mod cb code) a b → b.1 ≤ a.1 → a = b := by
    intro a b hab hle
    rcases ReflTransGen.cases_head hab with rfl | ⟨c, hac, hcb⟩
    · rfl
    · have h1 := hac.lt.1
      have h2 := decodeSteps_le hcb
      omega
  rcases Run.total hy hz (fun _ _ _ => DecodeStep.unique) with h | h
  · exact eq_of_le h (by omega)
  · exact (eq_of_le h (by omega)).symm

/-- The loop of `decode_function` succeeds when a run of rounds ends with an `end` that is the
last byte of the code. -/
theorem decodeLoop_ok {n p : ℕ} {x x' : σ} (hn : code.length < p + n) :
    decodeLoop mod cb n ⟨code, p⟩ x = .ok x' ↔
      ∃ e xe imm, ReflTransGen (DecodeStep mod cb code) (p, x) (e, xe) ∧
        fetch mod code e = .ok (.end_, imm, code.length) ∧
        cb.onInstr .end_ ⟨code, imm⟩ xe = .ok x' := by
  constructor
  · intro h
    induction n generalizing p x with
    | zero => simp [decodeLoop] at h
    | succ n ih =>
      unfold decodeLoop at h
      obtain ⟨⟨y, st, fin⟩, hr, h⟩ := bind_eq_ok.mp h
      obtain ⟨i, imm, q, hf, hcb, rfl, rfl⟩ := decodeRound_ok.mp hr
      have hs := fetch_span hf
      simp only at h
      split at h
      · next hfin =>
        obtain ⟨rfl, rfl⟩ : i = .end_ ∧ q = code.length := by simpa using hfin
        cases h
        exact ⟨p, x, imm, .refl, hf, hcb⟩
      · obtain ⟨e, xe, imm', hsteps, hrest⟩ := ih (by omega) h
        exact ⟨e, xe, imm', .head (decodeStep_iff.mpr ⟨i, imm, hf, hcb⟩) hsteps, hrest⟩
  · rintro ⟨e, xe, imm, hsteps, hf, hcb⟩
    have he := fetch_span hf
    obtain ⟨y, hy⟩ : ∃ y, y = (p, x) := ⟨_, rfl⟩
    rw [← hy] at hsteps
    induction hsteps using ReflTransGen.head_induction_on generalizing n p x with
    | refl =>
      cases hy
      obtain ⟨n, rfl⟩ : ∃ m, n = m + 1 := ⟨n - 1, by omega⟩
      have hr := decodeRound_ok.mpr ⟨.end_, imm, code.length, hf, hcb, rfl, rfl⟩
      simp [decodeLoop, hr]
    | head hab hbz ih =>
      cases hy
      rename_i b
      obtain ⟨q, y⟩ := b
      obtain ⟨i, imm', hf', hcb'⟩ := decodeStep_iff.mp hab
      have hs := fetch_span hf'
      have hle := decodeSteps_le hbz
      obtain ⟨n, rfl⟩ : ∃ m, n = m + 1 := ⟨n - 1, by omega⟩
      have hr := decodeRound_ok.mpr ⟨i, imm', q, hf', hcb', rfl, rfl⟩
      have hq : q ≠ code.length := by
        simp only at hle
        omega
      simp only [decodeLoop, hr, ok_bind, beq_eq_false_iff_ne.mpr hq, Bool.and_false]
      exact ih (by omega) rfl

end Decode

/-- An instruction of a function body at its place: the offsets of its opcode, of its immediates
and of the next opcode. -/
structure Located where
  pc : ℕ
  instr : Instr
  imm : ℕ
  next : ℕ
  deriving DecidableEq, Repr

/-- The instructions from offset `p` on, at most `n` of them. -/
def scan (mod : Module) (code : Str) : ℕ → ℕ → List Located
  | 0, _ => []
  | n + 1, p =>
    match fetch mod code p with
    | .ok (i, imm, q) => ⟨p, i, imm, q⟩ :: scan mod code n q
    | .error _ => []

/-- The instructions of a function body, as the decoder reads them. -/
def instrs (mod : Module) (code : Str) : List Located := scan mod code code.length 0

namespace Validator

variable {mod : Module} {f : Func}

/-- One round of `validate_func`. -/
abbrev Step (mod : Module) (f : Func) : ℕ × Ctx → ℕ × Ctx → Prop :=
  DecodeStep mod (callbacks mod f) f.code

/-- The offsets and contexts that `validate_func` comes by. -/
def Reach (mod : Module) (f : Func) (x : ℕ × Ctx) : Prop :=
  ∃ c, onDecodeBegin f { jt := f.jt } = .ok c ∧ ReflTransGen (Step mod f) (0, c) x

theorem step_iff {p q : ℕ} {c c' : Ctx} :
    Step mod f (p, c) (q, c') ↔
      ∃ i imm, fetch mod f.code p = .ok (i, imm, q) ∧ onInstr mod i ⟨f.code, imm⟩ c = .ok c' :=
  decodeStep_iff

theorem Reach.tail {x y : ℕ × Ctx} (h : Reach mod f x) (hs : Step mod f x y) : Reach mod f y := by
  obtain ⟨c, hc, hsteps⟩ := h
  exact ⟨c, hc, hsteps.tail hs⟩

theorem Reach.trans {x y : ℕ × Ctx} (h : Reach mod f x) (hs : ReflTransGen (Step mod f) x y) :
    Reach mod f y := by
  obtain ⟨c, hc, hsteps⟩ := h
  exact ⟨c, hc, hsteps.trans hs⟩

/-- At an offset there is only one context. -/
theorem Reach.unique {p : ℕ} {c c' : Ctx} (h : Reach mod f (p, c)) (h' : Reach mod f (p, c')) :
    c = c' := by
  obtain ⟨c0, hc0, hs⟩ := h
  obtain ⟨c1, hc1, hs'⟩ := h'
  obtain rfl : c0 = c1 := Except.ok.inj (hc0.symm.trans hc1)
  have := decodeSteps_unique hs hs' rfl
  exact congrArg Prod.snd this

/-- One of two visited places comes after the other. -/
theorem Reach.total {x y : ℕ × Ctx} (hx : Reach mod f x) (hy : Reach mod f y) :
    ReflTransGen (Step mod f) x y ∨ ReflTransGen (Step mod f) y x := by
  obtain ⟨c0, hc0, hs⟩ := hx
  obtain ⟨c1, hc1, hs'⟩ := hy
  obtain rfl : c0 = c1 := Except.ok.inj (hc0.symm.trans hc1)
  exact Run.total hs hs' (fun _ _ _ => DecodeStep.unique)

/-- An invariant of the callbacks holds wherever validation comes by. -/
theorem Reach.induction {P : ℕ × Ctx → Prop} (hbegin : ∀ c, onDecodeBegin f { jt := f.jt } = .ok c → P (0, c))
    (hstep : ∀ x y, Reach mod f x → Step mod f x y → P x → P y) {x : ℕ × Ctx} (h : Reach mod f x) : P x := by
  obtain ⟨c, hc, hs⟩ := h
  induction hs with
  | refl => exact hbegin c hc
  | tail hs hstep' ih => exact hstep _ _ ⟨c, hc, hs⟩ hstep' ih

/-- The places validation comes by from `(p, c)` on, at most `n + 1` of them. -/
def visitsFrom (mod : Module) (f : Func) : ℕ → ℕ × Ctx → List (ℕ × Ctx)
  | 0, x => [x]
  | n + 1, x => x ::
    match fetch mod f.code x.1 with
    | .error _ => []
    | .ok (i, imm, q) =>
      match onInstr mod i ⟨f.code, imm⟩ x.2 with
      | .error _ => []
      | .ok c => visitsFrom mod f n (q, c)

/-- All places validation comes by. -/
def visits (mod : Module) (f : Func) : List (ℕ × Ctx) :=
  match onDecodeBegin f { jt := f.jt } with
  | .error _ => []
  | .ok c => visitsFrom mod f f.code.length (0, c)

theorem mem_visitsFrom {x y : ℕ × Ctx} (h : ReflTransGen (Step mod f) x y) {n : ℕ}
    (hn : f.code.length ≤ x.1 + n) : y ∈ visitsFrom mod f n x := by
  induction h using ReflTransGen.head_induction_on generalizing n with
  | refl => cases n <;> simp [visitsFrom]
  | @head a b hab _ ih =>
    obtain ⟨i, imm, hf, hcb⟩ := step_iff.mp hab
    have hspan := fetch_span hf
    obtain ⟨n, rfl⟩ : ∃ m, n = m + 1 := ⟨n - 1, by omega⟩
    simp only [visitsFrom, hf, hcb]
    exact List.mem_cons_of_mem _ (ih (by omega))

theorem steps_of_mem_visitsFrom {x y : ℕ × Ctx} {n : ℕ} (h : y ∈ visitsFrom mod f n x) :
    ReflTransGen (Step mod f) x y := by
  induction n generalizing x with
  | zero =>
    rw [visitsFrom, List.mem_singleton] at h
    exact h ▸ .refl
  | succ n ih =>
    rw [visitsFrom, List.mem_cons] at h
    rcases h with rfl | h
    · exact .refl
    · split at h
      · cases h
      · next i imm q hf =>
        split at h
        · cases h
        · next c hcb => exact .head (step_iff.mpr ⟨i, imm, hf, hcb⟩) (ih h)

/-- Where validation comes by can be computed. -/
theorem reach_iff_visits {x : ℕ × Ctx} : Reach mod f x ↔ x ∈ visits mod f := by
  unfold visits
  constructor
  · rintro ⟨c, hc, hs⟩
    rw [hc]
    exact mem_visitsFrom hs (by simp only; omega)
  · intro h
    split at h
    · cases h
    · next c hc => exact ⟨c, hc, steps_of_mem_visitsFrom h⟩

/-- The last round of an accepted function. -/
structure Accepts (mod : Module) (f : Func) (e imm : ℕ) (ce c : Ctx) : Prop where
  reach : Reach mod f (e, ce)
  fetch : fetch mod f.code e = .ok (.end_, imm, f.code.length)
  onEnd : onEnd ⟨f.code, imm⟩ ce = .ok c

theorem Accepts.step {e imm : ℕ} {ce c : Ctx} (h : Accepts mod f e imm ce c) :
    Step mod f (e, ce) (f.code.length, c) := step_iff.mpr ⟨.end_, imm, h.fetch, h.onEnd⟩

theorem Accepts.reach_end {e imm : ℕ} {ce c : Ctx} (h : Accepts mod f e imm ce c) :
    Reach mod f (f.code.length, c) := h.reach.tail h.step

theorem validateFunc_ok {f' : Func} :
    validateFunc mod f = .ok f' ↔
      ∃ e imm ce c, Accepts mod f e imm ce c ∧
        f' = { f with jt := linkJumpTable c.jt, stackSizeMax := c.stackSizeMax } := by
  constructor
  · intro h
    simp only [validateFunc, decodeFunction, bind_eq_ok] at h
    obtain ⟨c2, ⟨c0, h0, c1, h1, h2⟩, h⟩ := h
    obtain ⟨e, ce, imm, hs, hf, hcb⟩ := (decodeLoop_ok (by omega)).mp h1
    cases h2
    cases h
    exact ⟨e, imm, ce, c1, ⟨⟨c0, h0, hs⟩, hf, hcb⟩, rfl⟩
  · rintro ⟨e, imm, ce, c, ⟨⟨c0, h0, hs⟩, hf, hcb⟩, rfl⟩
    have h1 := (@decodeLoop_ok _ mod (callbacks mod f) f.code (f.code.length + 1) 0 _ c (by omega)).mpr
      ⟨e, ce, imm, hs, hf, hcb⟩
    simp only [validateFunc, decodeFunction, Stream.from_]
    have h0' : (callbacks mod f).onDecodeBegin { jt := f.jt } = .ok c0 := h0
    rw [h0', ok_bind, h1]
    rfl

/-- In an accepted function validation goes on from every visited place to the end. -/
theorem Accepts.steps {e imm : ℕ} {ce c : Ctx} (h : Accepts mod f e imm ce c) {x : ℕ × Ctx}
    (hx : Reach mod f x) : ReflTransGen (Step mod f) x (f.code.length, c) := by
  rcases hx.total h.reach_end with hs | hs
  · exact hs
  · rcases ReflTransGen.cases_head hs with rfl | ⟨y, hy, -⟩
    · exact .refl
    · have := hy.lt
      simp only at this
      omega

/-- In an accepted function every visited offset but the last holds an instruction. -/
theorem Accepts.exists_step {e imm : ℕ} {ce c : Ctx} (h : Accepts mod f e imm ce c) {x : ℕ × Ctx}
    (hx : Reach mod f x) (hlt : x.1 < f.code.length) : ∃ y, Step mod f x y := by
  rcases ReflTransGen.cases_head (h.steps hx) with rfl | ⟨y, hy, -⟩
  · simp at hlt
  · exact ⟨y, hy⟩

end Validator

end Silverfir
