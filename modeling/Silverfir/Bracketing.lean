import Silverfir.Nesting

/-! Whether the code of an accepted function is one bracketed expression. The decoder stops at
any `end` that is the last byte; the frames of the validator tell which frame it closed. -/
namespace Silverfir

/-- The number of open frames after an instruction. -/
def Instr.depth : Instr → ℕ → ℕ
  | .block _ _, d => d + 1
  | .end_, d => d - 1
  | _, d => d

/-- Read with `d` frames open, every instruction is inside a frame and the last one closes the
last frame. -/
def closes : ℕ → List Instr → Bool
  | d, [] => d == 0
  | d, i :: is => d != 0 && closes (i.depth d) is

/-- The brackets of a function body match. -/
def balanced (mod : Module) (code : Str) : Bool := closes 1 ((instrs mod code).map (·.instr))

namespace Validator

open ListStack
open Relation (ReflTransGen)

variable {mod : Module} {f : Func}

/-- Only `block`, `loop`, `if`, `else` and `end` change the kinds of the open frames. -/
theorem onInstr_frames {i : Instr} {imm : Stream} {c c' : Ctx} (h : onInstr mod i imm c = .ok c')
    (hb : ∀ o ty, i ≠ .block o ty) (hel : i ≠ .else_) (hen : i ≠ .end_) :
    c'.ctrlStack.map (·.type) = c.ctrlStack.map (·.type) := by
  have hslot : ∀ (l : ℕ) (slot : JumpTable) (d : Ctx),
      (pushSlot l slot d).ctrlStack.map (·.type) = d.ctrlStack.map (·.type) := fun l slot d =>
    map_modify (f := fun fr : CtrlFrame => fr.addPending [d.jt.length]) (fun _ => rfl) _ _
  have hun : ∀ {d d' : Ctx}, unreachable d = .ok d' → d'.ctrlStack.map (·.type) = d.ctrlStack.map (·.type) := by
    intro d d' hd
    obtain ⟨fr, rest, hc, -, rfl⟩ := unreachable_ok hd
    rw [hc]
    rfl
  by_cases hc : i.isControl = false
  · obtain ⟨k, ts, us, hs⟩ := onInstr_plain hc h
    have he : c'.ctrlStack = c.ctrlStack := congrArg Prod.fst hs.shape_eq
    rw [he]
  · cases i with
    | unreachable => exact hun h
    | block o ty => exact absurd rfl (hb o ty)
    | else_ => exact absurd rfl hel
    | end_ => exact absurd rfl hen
    | brOrIf o l =>
      obtain ⟨fr, k0, ts0, k, ts, c2, -, -, -, -, -, hc2, h⟩ := onBrOrIf_ok h
      have htypes : c2.ctrlStack.map (·.type) = c.ctrlStack.map (·.type) := by rw [hc2]; exact hslot _ _ _
      by_cases hop : o = .br
      · rw [if_pos hop] at h
        exact (hun h).trans htypes
      · rw [if_neg hop] at h
        cases h
        rw [pushVals_ctrlStack]
        exact htypes
    | brTable =>
      obtain ⟨t, k0, n, pc1, labels, pc2, fr, c2, c3, k, ts, -, -, -, -, hrun, -, -, -, hc3, h⟩ :=
        onBrTable_ok h
      have h3 : c3.ctrlStack = c2.ctrlStack := by rw [hc3]
      have h2 : c2.ctrlStack.map (·.type) = c.ctrlStack.map (·.type) := by
        generalize hd : { c with valStack := c.valStack.drop k0 } = d at hrun
        have hcd : c.ctrlStack = d.ctrlStack := by rw [← hd]
        rw [hcd]
        clear hd hcd h3 hc3 h
        induction hrun with
        | nil => rfl
        | cons _ _ _ _ _ ih => rw [ih, pushVals_ctrlStack]; exact hslot _ _ _
      exact (hun h).trans (by rw [h3]; exact h2)
    | return_ =>
      obtain ⟨fr, k, ts, c2, -, -, -, hc2, h⟩ := onReturn_ok h
      have h2 : c2.ctrlStack = c.ctrlStack := by rw [hc2]
      exact (hun h).trans (by rw [h2])
    | _ => exact absurd rfl hc

/-- How many frames are open after a callback. -/
theorem onInstr_length {i : Instr} {imm : Stream} {c c' : Ctx} (h : onInstr mod i imm c = .ok c') :
    c'.ctrlStack.length = i.depth c.ctrlStack.length := by
  by_cases hb : ∃ o ty, i = .block o ty
  · obtain ⟨o, ty, rfl⟩ := hb
    obtain ⟨ps, rs, k, ts, -, -, -, -, rfl⟩ := onBlock_ok h
    simp [Instr.depth]
  · by_cases hel : i = .else_
    · subst hel
      obtain ⟨cf, rest, k, ts, ps, rs, slot, hcf, -, -, -, -, -, -, rfl⟩ := onElse_ok h
      simp [Instr.depth, hcf]
    · by_cases hen : i = .end_
      · subst hen
        obtain ⟨cf, rest, k, ts, hcf, -, -, rfl⟩ := onEnd_ok h
        simp [Instr.depth, hcf]
      · have hb' : ∀ o ty, i ≠ .block o ty := fun o ty he => hb ⟨o, ty, he⟩
        have hlen := congrArg List.length (onInstr_frames h hb' hel hen)
        rw [List.length_map, List.length_map] at hlen
        rw [hlen]
        cases i <;> first | rfl | exact absurd rfl (hb' _ _) | exact absurd rfl hel | exact absurd rfl hen

theorem fetch_end {p imm q : ℕ} {code : Str} (h : fetch mod code p = .ok (.end_, imm, q)) :
    code[p]? = some 0x0b ∧ imm = p + 1 ∧ q = p + 1 := by
  obtain ⟨b, op, pc, hb, hop, hi, hr⟩ := fetch_ok.mp h
  obtain rfl : op = .end_ := (decodeImm_end_iff hi).mp rfl
  have hb' : b = 0x0b := by
    have : WasmOpcode.end_.code = b.toNat := WasmOpcode.code_of_ofByte? hop
    exact UInt8.toNat_inj.mp this.symm
  have hi' : decodeImm mod .end_ ⟨code, p + 1⟩ = .ok (.end_, ⟨code, p + 1⟩, ⟨code, p + 1⟩) := rfl
  rw [hi'] at hi
  cases hi
  cases hr
  exact ⟨by rw [hb, hb'], rfl, rfl⟩

/-- The code is one expression: every instruction is read while the frame of the function is
open, and the last byte is the `end` that closes it. -/
structure Bracketed (mod : Module) (f : Func) : Prop where
  inside : ∀ p c, Reach mod f (p, c) → p < f.code.length → c.ctrlStack ≠ []
  last : ∃ p c fr, p + 1 = f.code.length ∧ f.code[p]? = some 0x0b ∧ Reach mod f (p, c) ∧
    c.ctrlStack = [fr] ∧ fr.type = .func
  closed : ∀ c, Reach mod f (f.code.length, c) → c.ctrlStack = []

theorem scan_length (n : ℕ) (code : Str) : scan mod code n code.length = [] := by
  cases n with
  | zero => rfl
  | succ n =>
    unfold scan
    split
    · next i imm q h =>
      have := fetch_span h
      omega
    · rfl

/-- The scan of the brackets against the frames of the validator. -/
theorem closes_scan {p n : ℕ} {c c' : Ctx} (h : ReflTransGen (Step mod f) (p, c) (f.code.length, c'))
    (hn : f.code.length ≤ p + n) :
    closes c.ctrlStack.length ((scan mod f.code n p).map (·.instr)) = true ↔
      (∀ y, ReflTransGen (Step mod f) (p, c) y → y.1 < f.code.length → y.2.ctrlStack ≠ []) ∧
        c'.ctrlStack = [] := by
  obtain ⟨x, hx⟩ : ∃ x, x = (p, c) := ⟨_, rfl⟩
  rw [← hx] at h
  induction h using ReflTransGen.head_induction_on generalizing n p c with
  | refl =>
    cases hx
    rw [scan_length]
    simp only [List.map_nil, closes, beq_iff_eq, List.length_eq_zero_iff]
    constructor
    · intro hc
      refine ⟨fun y hy hlt => ?_, hc⟩
      have := decodeSteps_le hy
      simp only at this
      omega
    · exact fun hc => hc.2
  | @head a b hab hbz ih =>
    cases hx
    obtain ⟨q, d⟩ := b
    obtain ⟨i, imm, hf, hcb⟩ := step_iff.mp hab
    have hspan := fetch_span hf
    obtain ⟨n, rfl⟩ : ∃ m, n = m + 1 := ⟨n - 1, by omega⟩
    have hscan : scan mod f.code (n + 1) p = ⟨p, i, imm, q⟩ :: scan mod f.code n q := by
      simp only [scan, hf]
    rw [hscan, List.map_cons, closes, ← onInstr_length hcb, Bool.and_eq_true, bne_iff_ne,
      ih (by omega) rfl]
    constructor
    · rintro ⟨hne, hin, hc⟩
      refine ⟨fun y hy hlt => ?_, hc⟩
      rcases ReflTransGen.cases_head hy with rfl | ⟨z, hz, hzy⟩
      · exact List.ne_nil_of_length_pos (Nat.pos_of_ne_zero hne)
      · obtain rfl := hab.unique hz
        exact hin y hzy hlt
    · rintro ⟨hin, hc⟩
      refine ⟨?_, fun y hy hlt => hin y (.head hab hy) hlt, hc⟩
      have := hin (p, c) .refl (by simp only; omega)
      exact (List.length_pos_iff.mpr this).ne'

/-- The frame of the function is at the bottom as long as it is open. -/
theorem Reach.bottom {x : ℕ × Ctx} (hx : Reach mod f x)
    (hin : ∀ p c, Reach mod f (p, c) → p < x.1 → c.ctrlStack ≠ []) (hne : x.2.ctrlStack ≠ []) :
    ∃ fr, fromBottom x.2.ctrlStack 0 = some fr ∧ fr.type = .func ∧ fr.ftype = f.fnType ∧
      fr.height = 0 := by
  obtain ⟨c0, hc0, hs⟩ := hx
  obtain ⟨ps, rs, -, -, -, -, hc, -⟩ := onDecodeBegin_ok hc0
  have hstart : Reach mod f (0, c0) := ⟨c0, hc0, .refl⟩
  have habove : ReflTransGen (Above mod f 0) (0, c0) x := by
    induction hs with
    | refl => exact .refl
    | tail hpath hstep ih =>
      rename_i b d
      have hlt := hstep.lt.1
      have hb := hin b.1 b.2 ⟨c0, hc0, hpath⟩ hlt
      refine .tail (ih (fun p c hr hp => hin p c hr (by omega)) hb) ⟨?_, hstep⟩
      exact List.length_pos_iff.mpr hb
  have h0 : fromBottom c0.ctrlStack 0 = some (newFrame .func f.fnType ps rs 0) := by rw [hc]; rfl
  obtain ⟨fr, hfr, hk⟩ := hstart.above_kept habove h0 (List.length_pos_iff.mpr hne)
  cases hk with
  | same ht hf hh => exact ⟨fr, hfr, ht, hf, hh⟩
  | else_ ht => cases ht

/-- An accepted function is one expression exactly when its brackets match. -/
theorem Accepts.bracketed_iff {e imm : ℕ} {ce c : Ctx} (h : Accepts mod f e imm ce c) :
    Bracketed mod f ↔ balanced mod f.code = true := by
  obtain ⟨c0, hc0, hs⟩ := h.reach
  obtain ⟨ps, rs, -, -, -, -, hcs, -⟩ := onDecodeBegin_ok hc0
  have hstart : Reach mod f (0, c0) := ⟨c0, hc0, .refl⟩
  have hscan := closes_scan (n := f.code.length) (h.steps hstart) (by omega)
  have hlen : c0.ctrlStack.length = 1 := by rw [hcs]; rfl
  rw [hlen] at hscan
  unfold balanced instrs
  rw [hscan]
  have hreach : ∀ y, Reach mod f y ↔ ReflTransGen (Step mod f) (0, c0) y := by
    refine fun y => ⟨?_, fun hy => hstart.trans hy⟩
    rintro ⟨c1, hc1, hy⟩
    obtain rfl : c0 = c1 := Except.ok.inj (hc0.symm.trans hc1)
    exact hy
  constructor
  · intro hb
    exact ⟨fun y hy hlt => hb.inside y.1 y.2 ((hreach y).mpr hy) hlt, hb.closed c h.reach_end⟩
  · rintro ⟨hin, hend⟩
    have hin' : ∀ p d, Reach mod f (p, d) → p < f.code.length → d.ctrlStack ≠ [] :=
      fun p d hr hlt => hin (p, d) ((hreach _).mp hr) hlt
    obtain ⟨hb, himm, hq⟩ := fetch_end h.fetch
    refine ⟨hin', ?_, fun d hd => by rw [hd.unique h.reach_end]; exact hend⟩
    obtain ⟨cf, rest, k, ts, hcf, -, -, hc⟩ := onEnd_ok h.onEnd
    have hrest : rest = [] := by
      have : c.ctrlStack = rest := by rw [hc]; simp
      exact this.symm.trans hend
    subst hrest
    have hne : ce.ctrlStack ≠ [] := by rw [hcf]; simp
    obtain ⟨fr, hfr, ht, -⟩ := h.reach.bottom (fun p d hr hlt => hin' p d hr (by simp only at hlt; omega)) hne
    rw [hcf] at hfr
    cases hfr
    exact ⟨e, ce, cf, hq.symm, hb, h.reach, hcf, ht⟩

end Validator

open Validator in
/-- What `validate_func` accepts is one bracketed expression exactly when its brackets match:
neither the decoder nor the validator asks for that. -/
theorem validateFunc_bracketed_iff {mod : Module} {f f' : Func} (h : validateFunc mod f = .ok f') :
    Bracketed mod f ↔ balanced mod f.code = true := by
  obtain ⟨e, imm, ce, c, ha, -⟩ := validateFunc_ok.mp h
  exact ha.bracketed_iff

/-- `end` alone is the smallest body. -/
theorem validateFunc_bracketed_iff_end :
    validateFunc {} { code := [0x0b] } = .ok { code := [0x0b] } ∧
      (Validator.Bracketed {} { code := [0x0b] } ↔ balanced {} [0x0b] = true) := by
  have h : validateFunc {} { code := [0x0b] } = .ok { code := [0x0b] } := by decide +kernel
  exact ⟨h, validateFunc_bracketed_iff h⟩

/-- `block end`: the only `end` closes the block and the frame of the function stays open. -/
theorem validateFunc_block_end_not_bracketed :
    validateFunc {} { code := [0x02, 0x40, 0x0b] } = .ok { code := [0x02, 0x40, 0x0b] } ∧
      ¬ Validator.Bracketed {} { code := [0x02, 0x40, 0x0b] } := by
  have h : validateFunc {} { code := [0x02, 0x40, 0x0b] } = .ok { code := [0x02, 0x40, 0x0b] } := by
    decide +kernel
  refine ⟨h, ?_⟩
  obtain ⟨e, imm, ce, c, ha, -⟩ := Validator.validateFunc_ok.mp h
  rw [ha.bracketed_iff]
  decide +kernel

end Silverfir
