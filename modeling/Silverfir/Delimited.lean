import Silverfir.ConstExpr
import Silverfir.Sizes
import Silverfir.Parser
import Silverfir.Fetch

/-! Where a constant expression ends. The parser passes over the instructions up to `end` without
looking at them, and the evaluator decodes them later from the bytes that were kept. Both are followed
here with what they decode. -/
namespace Silverfir

/-- The byte of an opcode and the immediate after it. -/
structure Decoded where
  opcode : ℕ
  imm : Option ℤ
  deriving DecidableEq, Repr

def Decoded.end_ : Decoded := ⟨0x0b, none⟩

/-! ### The two loops with what they decode -/

/-- `skipImm` with the immediate. -/
def readConstImm (op : WasmOpcode) (st : Stream) : R (Option ℤ × Stream) :=
  match op with
  | .i32Const => st.readVi32.map fun (v, st) => (some (v : ℤ), st)
  | .i64Const => st.readVi64.map fun (v, st) => (some (v : ℤ), st)
  | .f32Const => st.readF32.map fun (v, st) => (some (v : ℤ), st)
  | .f64Const => st.readF64.map fun (v, st) => (some (v : ℤ), st)
  | .refNull => st.readVi7.map fun (v, st) => (some v, st)
  | .refFunc | .globalGet => st.readVu32.map fun (v, st) => (some (v : ℤ), st)
  | _ => .ok (none, st)

/-- `skipConstExpr` with all that it passes over. -/
def skipLog : ℕ → Stream → R (List Decoded × Stream)
  | 0, _ => Stream.notEnough
  | n + 1, st => do
    let (opcode, st) ← st.readU8
    match WasmOpcode.ofByte? opcode with
    | some .end_ => .ok ([⟨opcode, none⟩], st)
    | some op => do
      let (imm, st) ← readConstImm op st
      let (log, st) ← skipLog n st
      .ok (⟨opcode, imm⟩ :: log, st)
    | none => do
      let (log, st) ← skipLog n st
      .ok (⟨opcode, none⟩ :: log, st)

section Evaluator
variable (pf : Platform) (vm : Vm) (k : ℕ)

/-- `constInstr` with the immediate. -/
def constInstrLog (op : WasmOpcode) (code : Stream) : R (Option (Option ℤ × TypedValue × Stream)) :=
  match op with
  | .i32Const => do
    let (v, code) ← code.readVi32
    .ok (some (some (v : ℤ), ⟨.i32, BitVec.ofNat 64 v⟩, code))
  | .i64Const => do
    let (v, code) ← code.readVi64
    .ok (some (some (v : ℤ), ⟨.i64, BitVec.ofNat 64 v⟩, code))
  | .f32Const => do
    let (v, code) ← code.readF32
    .ok (some (some (v : ℤ), ⟨.f32, BitVec.ofNat 64 v⟩, code))
  | .f64Const => do
    let (v, code) ← code.readF64
    .ok (some (some (v : ℤ), ⟨.f64, BitVec.ofNat 64 v⟩, code))
  | .refNull => do
    let (type, _) ← code.readVi7
    let (t, code) ← readType TypeId.isRef "Invalid reference type after ref.null" code
    .ok (some (some type, ⟨t, nullref⟩, code))
  | .refFunc => do
    let (fIdx, code) ← code.readVu32
    let a ← vm.addr (·.fAddrs) k fIdx
    .ok (some (some (fIdx : ℤ), ⟨.funcref, pf.toRef a⟩, code))
  | .globalGet => do
    let (idx, code) ← code.readVu32
    let mi ← vm.inst k
    if idx ≥ mi.globals.length then err .invalid "Invalid global index"
    else do
      let a ← vm.addr (·.gAddrs) k idx
      let g ← vm.global a
      .ok (some (some (idx : ℤ), ⟨g.glob.valtype, g.gvalue⟩, code))
  | .end_ => .ok none
  | _ => err .invalid "illegal opcode"

/-- `constExprLoop` with all that it decodes, and where it stops. -/
def constExprLog (passiveElem : Bool) : ℕ → Stream → List TypedValue → R (List Decoded × List TypedValue × Stream)
  | 0, code, valueStack => .ok ([], valueStack, code)
  | n + 1, code, valueStack =>
    if code.remaining = 0 then .ok ([], valueStack, code)
    else do
      let (opcode, code) ← code.readU8
      match WasmOpcode.ofByte? opcode with
      | none =>
        if passiveElem then err .malformed "illegal opcode" else err .invalid "illegal opcode"
      | some op =>
        if passiveElem ∧ op ≠ .refNull ∧ op ≠ .refFunc ∧ op ≠ .end_ then err .malformed "illegal opcode"
        else do
          let v ← constInstrLog pf vm k op code
          match v with
          | none => .ok ([⟨opcode, none⟩], valueStack, code)
          | some (imm, v, code) => do
            let (log, valueStack, code) ← constExprLog passiveElem n code (v :: valueStack)
            .ok (⟨opcode, imm⟩ :: log, valueStack, code)

end Evaluator

theorem skipImm_eq (op : WasmOpcode) (st : Stream) : skipImm op st = (readConstImm op st).map (·.2) := by
  have hmap : ∀ {α β γ : Type} (x : R α) (f : α → β) (g : β → γ), (x.map f).map g = x.map fun a => g (f a) := by
    intro α β γ x f g
    cases x <;> rfl
  cases op <;> first | rfl | (unfold skipImm readConstImm; simp only [hmap])

theorem skipConstExpr_op {n opcode : ℕ} {st s : Stream} {op : WasmOpcode} (hread : st.readU8 = .ok (opcode, s))
    (hop : WasmOpcode.ofByte? opcode = some op) (hend : op ≠ .end_) :
    skipConstExpr (n + 1) st = skipImm op s >>= skipConstExpr n := by
  rw [skipConstExpr, hread, ok_bind]
  dsimp only
  rw [hop]
  split
  · next heq => exact absurd (Option.some.inj heq) hend
  · next heq =>
    cases heq
    rfl
  · next heq => cases heq

theorem skipLog_op {n opcode : ℕ} {st s : Stream} {op : WasmOpcode} (hread : st.readU8 = .ok (opcode, s))
    (hop : WasmOpcode.ofByte? opcode = some op) (hend : op ≠ .end_) :
    skipLog (n + 1) st = (do
      let (imm, s) ← readConstImm op s
      let (log, s) ← skipLog n s
      .ok (⟨opcode, imm⟩ :: log, s)) := by
  rw [skipLog, hread, ok_bind]
  dsimp only
  rw [hop]
  split
  · next heq => exact absurd (Option.some.inj heq) hend
  · next heq =>
    cases heq
    rfl
  · next heq => cases heq

/-- Without its log, `skipLog` is the loop of the parser. -/
theorem skipLog_erase (n : ℕ) (st : Stream) : skipConstExpr n st = (skipLog n st).map (·.2) := by
  induction n generalizing st with
  | zero => rfl
  | succ n ih =>
    cases hread : st.readU8 with
    | error e =>
      rw [skipConstExpr, skipLog, hread]
      rfl
    | ok r =>
      obtain ⟨opcode, s⟩ := r
      cases hop : WasmOpcode.ofByte? opcode with
      | none =>
        rw [skipConstExpr, skipLog, hread, ok_bind, ok_bind]
        dsimp only
        rw [hop]
        dsimp only
        rw [ih]
        cases skipLog n s <;> rfl
      | some op =>
        by_cases hend : op = .end_
        · rw [skipConstExpr, skipLog, hread, ok_bind, ok_bind]
          dsimp only
          rw [hop, hend]
          rfl
        · rw [skipConstExpr_op hread hop hend, skipLog_op hread hop hend, skipImm_eq]
          cases readConstImm op s with
          | error e => rfl
          | ok r =>
            obtain ⟨imm, s'⟩ := r
            change skipConstExpr n s' = _
            rw [ih, ok_bind]
            dsimp only
            cases skipLog n s' <;> rfl

section Evaluator
variable {pf : Platform} {vm : Vm} {k : ℕ} {passiveElem : Bool}

theorem constInstrLog_erase (op : WasmOpcode) (code : Stream) :
    constInstr pf vm k op code = (constInstrLog pf vm k op code).map (Option.map (·.2)) := by
  cases op
  case i32Const => unfold constInstr constInstrLog; cases code.readVi32 <;> rfl
  case i64Const => unfold constInstr constInstrLog; cases code.readVi64 <;> rfl
  case f32Const => unfold constInstr constInstrLog; cases code.readF32 <;> rfl
  case f64Const => unfold constInstr constInstrLog; cases code.readF64 <;> rfl
  case refNull =>
    unfold constInstr constInstrLog readType
    cases code.readVi7 with
    | error e => rfl
    | ok r =>
      simp only [ok_bind]
      split
      · rfl
      · split <;> rfl
  case refFunc =>
    unfold constInstr constInstrLog
    cases code.readVu32 with
    | error e => rfl
    | ok r =>
      simp only [ok_bind]
      cases vm.addr (·.fAddrs) k r.1 <;> rfl
  case globalGet =>
    unfold constInstr constInstrLog
    cases code.readVu32 with
    | error e => rfl
    | ok r =>
      simp only [ok_bind]
      cases vm.inst k with
      | error e => rfl
      | ok mi =>
        simp only [ok_bind]
        split
        · rfl
        · cases vm.addr (·.gAddrs) k r.1 with
          | error e => rfl
          | ok a =>
            simp only [ok_bind]
            cases vm.global a <;> rfl
  all_goals rfl

/-- Without its log, `constExprLog` is the loop of the evaluator. -/
theorem constExprLog_erase (n : ℕ) (code : Stream) (valueStack : List TypedValue) :
    constExprLoop pf vm k passiveElem n code valueStack =
      (constExprLog pf vm k passiveElem n code valueStack).map (·.2.1) := by
  induction n generalizing code valueStack with
  | zero => rfl
  | succ n ih =>
    rw [constExprLoop, constExprLog]
    by_cases hrem : code.remaining = 0
    · rw [if_pos hrem, if_pos hrem]
      rfl
    · rw [if_neg hrem, if_neg hrem]
      cases code.readU8 with
      | error e => rfl
      | ok r =>
        obtain ⟨opcode, s⟩ := r
        simp only [ok_bind]
        cases WasmOpcode.ofByte? opcode with
        | none => cases passiveElem <;> rfl
        | some op =>
          dsimp only
          by_cases hpassive : passiveElem = true ∧ op ≠ .refNull ∧ op ≠ .refFunc ∧ op ≠ .end_
          · rw [if_pos hpassive, if_pos hpassive]
            rfl
          · rw [if_neg hpassive, if_neg hpassive, constInstrLog_erase]
            cases constInstrLog pf vm k op s with
            | error e => rfl
            | ok r =>
              cases r with
              | none => rfl
              | some r =>
                obtain ⟨imm, v, s'⟩ := r
                change constExprLoop pf vm k passiveElem n s' (v :: valueStack) = _
                rw [ih, ok_bind]
                dsimp only
                cases constExprLog pf vm k passiveElem n s' (v :: valueStack) <;> rfl

end Evaluator

/-! ### Parts of a stream -/

/-- The bytes of the first stream lie in the second one, `d` bytes further on. -/
structure Part (d : ℕ) (st big : Stream) : Prop where
  at_ : big.p = d + st.p
  bytes : ∀ i b, st.s[i]? = some b → big.s[d + i]? = some b

namespace Part
variable {d : ℕ} {st big : Stream}

theorem advance (h : Part d st big) (n : ℕ) : Part d (st.advance n) (big.advance n) := by
  refine ⟨?_, h.bytes⟩
  have hat := h.at_
  simp only [Stream.advance]
  omega

theorem byteAt (h : Part d st big) {offset b : ℕ} (hb : st.byteAt? offset = some b) : big.byteAt? offset = some b := by
  rw [Stream.byteAt?, Option.map_eq_some_iff] at hb ⊢
  obtain ⟨byte, hbyte, heq⟩ := hb
  refine ⟨byte, ?_, heq⟩
  rw [h.at_, Nat.add_assoc]
  exact h.bytes _ _ hbyte

/-- What a reader finds in the part it finds in the whole. -/
def Agrees {α : Type} (f : Stream → R (α × Stream)) : Prop :=
  ∀ d st big v st', Part d st big → f st = .ok (v, st') → ∃ big', f big = .ok (v, big') ∧ Part d st' big'

theorem readU8 : Agrees Stream.readU8 := by
  intro d st big v st' hpart h
  unfold Stream.readU8 at h
  split at h
  · simp [Stream.notEnough] at h
  · next b hb =>
    cases h
    refine ⟨big.advance 1, ?_, hpart.advance 1⟩
    rw [Stream.readU8, hpart.byteAt hb]

theorem readVi7 : Agrees Stream.readVi7 := by
  intro d st big v st' hpart h
  unfold Stream.readVi7 at h
  split at h
  · simp [Stream.notEnough] at h
  · next b hb =>
    split at h
    · simp [Stream.badLeb] at h
    · next hsmall =>
      cases h
      refine ⟨big.advance 1, ?_, hpart.advance 1⟩
      rw [Stream.readVi7, hpart.byteAt hb]
      exact if_neg hsmall

theorem readVuLoop (width left offset result : ℕ) :
    Agrees fun st => Stream.readVuLoop width st left offset result := by
  intro d st big v st' hpart h
  induction left generalizing offset result with
  | zero => simp [Stream.readVuLoop, Stream.badLeb] at h
  | succ left ih =>
    dsimp only at h ⊢
    rw [Stream.readVuLoop] at h
    split at h
    · simp [Stream.badLeb] at h
    · next b hb =>
      rw [Stream.readVuLoop, hpart.byteAt hb]
      dsimp only at h ⊢
      split at h
      · next hlast =>
        rw [if_pos hlast]
        split at h
        · simp [Stream.badLeb] at h
        · next hmask =>
          cases h
          rw [if_neg hmask]
          exact ⟨_, rfl, hpart.advance _⟩
      · next hmore =>
        rw [if_neg hmore]
        exact ih _ _ h

theorem readViLoop (width left offset result : ℕ) :
    Agrees fun st => Stream.readViLoop width st left offset result := by
  intro d st big v st' hpart h
  induction left generalizing offset result with
  | zero => simp [Stream.readViLoop, Stream.badLeb] at h
  | succ left ih =>
    dsimp only at h ⊢
    rw [Stream.readViLoop] at h
    split at h
    · simp [Stream.badLeb] at h
    · next b hb =>
      rw [Stream.readViLoop, hpart.byteAt hb]
      dsimp only at h ⊢
      by_cases hlast : b < 0x80
      · rw [if_pos hlast] at h ⊢
        by_cases hmask : left = 0 ∧ (if b < 0x40 then b &&& Stream.lebLastByteMaskSigned width
            else (127 - b) &&& Stream.lebLastByteMaskSigned width) ≠ 0
        · rw [if_pos hmask] at h
          simp [Stream.badLeb] at h
        · rw [if_neg hmask] at h ⊢
          by_cases hsign : 7 * (offset + 1) < width ∧ 0x40 ≤ b
          · rw [if_pos hsign] at h ⊢
            cases h
            exact ⟨_, rfl, hpart.advance _⟩
          · rw [if_neg hsign] at h ⊢
            cases h
            exact ⟨_, rfl, hpart.advance _⟩
      · rw [if_neg hlast] at h ⊢
        exact ih _ _ h

theorem readFixed (n : ℕ) : Agrees (Stream.readFixed n) := by
  intro d st big v st' hpart h
  obtain ⟨hle, rfl, rfl⟩ := Stream.readFixed_ok h
  refine ⟨big.advance n, ?_, hpart.advance n⟩
  have hlen : ∀ j < n, (st.s.drop st.p)[j]? = (big.s.drop big.p)[j]? ∧ big.p + j < big.s.length := by
    intro j hj
    rw [Stream.remaining] at hle
    have hlt : st.p + j < st.s.length := by omega
    have hbyte := hpart.bytes _ _ (List.getElem?_eq_getElem hlt)
    rw [List.getElem?_drop, List.getElem?_drop, hpart.at_, Nat.add_assoc, hbyte, List.getElem?_eq_getElem hlt]
    exact ⟨rfl, (List.getElem?_eq_some_iff.mp hbyte).1⟩
  have htake : (big.s.drop big.p).take n = (st.s.drop st.p).take n := by
    apply List.ext_getElem?
    intro j
    rw [List.getElem?_take, List.getElem?_take]
    split
    · next hj => exact (hlen j hj).1.symm
    · rfl
  have hroom : ¬ big.remaining < n := by
    rw [Stream.remaining]
    rcases Nat.eq_zero_or_pos n with hzero | hpos
    · omega
    · have hlast := (hlen (n - 1) (by omega)).2
      omega
  rw [Stream.readFixed, if_neg hroom, htake]

theorem map {α β : Type} {f : Stream → R (α × Stream)} (hf : Agrees f) (g : α → β) :
    Agrees fun st => (f st).map fun r => (g r.1, r.2) := by
  intro d st big v st' hpart h
  cases hst : f st with
  | error e =>
    dsimp only at h
    rw [hst] at h
    cases h
  | ok r =>
    dsimp only at h
    rw [hst] at h
    cases h
    obtain ⟨big', hbig, hpart'⟩ := hf d st big r.1 r.2 hpart hst
    refine ⟨big', ?_, hpart'⟩
    dsimp only
    rw [hbig]
    rfl

theorem readConstImm (op : WasmOpcode) : Agrees (readConstImm op) := by
  have hnone : Agrees fun st => .ok ((none : Option ℤ), st) := by
    intro d st big v st' hpart h
    cases h
    exact ⟨big, rfl, hpart⟩
  cases op
  case i32Const => exact map (readViLoop 32 _ 0 0) fun v : ℕ => some (v : ℤ)
  case i64Const => exact map (readViLoop 64 _ 0 0) fun v : ℕ => some (v : ℤ)
  case f32Const => exact map (readFixed 4) fun v : ℕ => some (v : ℤ)
  case f64Const => exact map (readFixed 8) fun v : ℕ => some (v : ℤ)
  case refNull => exact map readVi7 some
  case refFunc => exact map (readVuLoop 32 _ 0 0) fun v : ℕ => some (v : ℤ)
  case globalGet => exact map (readVuLoop 32 _ 0 0) fun v : ℕ => some (v : ℤ)
  all_goals exact hnone

end Part

/-! ### The rounds -/

theorem skipLog_end {n b : ℕ} {st s : Stream} (hread : st.readU8 = .ok (b, s))
    (hop : WasmOpcode.ofByte? b = some .end_) :
    skipLog (n + 1) st = .ok ([⟨b, none⟩], s) := by
  rw [skipLog, hread, ok_bind]
  dsimp only
  rw [hop]

theorem skipLog_instr {n b : ℕ} {op : WasmOpcode} {st s s' : Stream} {imm : Option ℤ} (hread : st.readU8 = .ok (b, s))
    (hop : WasmOpcode.ofByte? b = some op) (hne : op ≠ .end_) (himm : readConstImm op s = .ok (imm, s')) :
    skipLog (n + 1) st = (skipLog n s').map fun r => (⟨b, imm⟩ :: r.1, r.2) := by
  rw [skipLog, hread, ok_bind]
  dsimp only
  rw [hop]
  split
  · next heq => exact absurd (Option.some.inj heq) hne
  · next heq =>
    cases heq
    rw [himm, ok_bind]
    dsimp only
    cases skipLog n s' <;> rfl
  · next heq => cases heq

theorem readConstImm_reads {op : WasmOpcode} {st st' : Stream} {imm : Option ℤ}
    (h : readConstImm op st = .ok (imm, st')) :
    st' = st ∨ Stream.Reads st st' := by
  have hmap : ∀ {α : Type} {x : R (α × Stream)} (g : α → Option ℤ), (∀ v st', x = .ok (v, st') → Stream.Reads st st') →
      (x.map fun r => (g r.1, r.2)) = .ok (imm, st') → st' = st ∨ Stream.Reads st st' := by
    intro α x g hx hst
    cases x with
    | error e => cases hst
    | ok r =>
      cases hst
      exact Or.inr (hx r.1 r.2 rfl)
  cases op
  case i32Const => exact hmap (fun v : ℕ => some (v : ℤ)) (fun _ _ => Stream.reads_readVi32) h
  case i64Const => exact hmap (fun v : ℕ => some (v : ℤ)) (fun _ _ => Stream.reads_readVi64) h
  case f32Const => exact hmap (fun v : ℕ => some (v : ℤ)) (fun _ _ => Stream.reads_readFixed (by decide)) h
  case f64Const => exact hmap (fun v : ℕ => some (v : ℤ)) (fun _ _ => Stream.reads_readFixed (by decide)) h
  case refNull => exact hmap some (fun _ _ => Stream.reads_readVi7) h
  case refFunc => exact hmap (fun v : ℕ => some (v : ℤ)) (fun _ _ => Stream.reads_readVu32) h
  case globalGet => exact hmap (fun v : ℕ => some (v : ℤ)) (fun _ _ => Stream.reads_readVu32) h
  all_goals
    cases h
    exact Or.inl rfl

/-- The parser reads at least the byte of `end`. -/
theorem skipLog_reads {n : ℕ} {st st' : Stream} {log : List Decoded} (h : skipLog n st = .ok (log, st')) :
    Stream.Reads st st' := by
  induction n generalizing st log with
  | zero => cases h
  | succ n ih =>
    rw [skipLog] at h
    obtain ⟨⟨b, s⟩, hread, h⟩ := bind_eq_ok.mp h
    have hfirst := Stream.reads_readU8 hread
    dsimp only at h
    split at h
    · cases h
      exact hfirst
    · obtain ⟨⟨imm, s'⟩, himm, h⟩ := bind_eq_ok.mp h
      obtain ⟨⟨log', s''⟩, hrest, h⟩ := bind_eq_ok.mp h
      cases h
      have hlast := ih hrest
      rcases readConstImm_reads himm with heq | hmid
      · rw [heq] at hlast
        exact hfirst.trans hlast
      · exact hfirst.trans (hmid.trans hlast)
    · obtain ⟨⟨log', s''⟩, hrest, h⟩ := bind_eq_ok.mp h
      cases h
      exact hfirst.trans (ih hrest)

section Evaluator
variable {pf : Platform} {vm : Vm} {k : ℕ} {passiveElem : Bool}

theorem constInstrLog_end {op : WasmOpcode} {code : Stream}
    (h : constInstrLog pf vm k op code = .ok none) : op = .end_ := by
  have herased : constInstr pf vm k op code = .ok none := by
    rw [constInstrLog_erase, h]
    rfl
  exact constInstr_none herased

/-- One instruction, with its immediate and its value. -/
theorem constInstrLog_some {op : WasmOpcode} {code code' : Stream} {imm : Option ℤ} {v : TypedValue}
    (h : constInstrLog pf vm k op code = .ok (some (imm, v, code'))) :
    ∃ c : ConstInstr, ConstInstr.Reads op code c code' ∧ c.value pf vm k = .ok v ∧
      readConstImm op code = .ok (imm, code') := by
  obtain ⟨c, hc, hv⟩ : ∃ c : ConstInstr, ConstInstr.Reads op code c code' ∧ c.value pf vm k = .ok v := by
    apply constInstr_some
    rw [constInstrLog_erase, h]
    rfl
  refine ⟨c, hc, hv, ?_⟩
  cases hc with
  | i32Const hread | i64Const hread | f32Const hread | f64Const hread =>
    simp only [constInstrLog, hread, ok_bind] at h
    cases h
    rw [readConstImm, hread]
    rfl
  | refNull hread =>
    obtain ⟨-, type, htype, -⟩ := readType_ok hread
    simp only [constInstrLog, hread, htype, ok_bind] at h
    cases h
    rw [readConstImm, htype]
    rfl
  | refFunc hread =>
    simp only [constInstrLog, hread, ok_bind] at h
    obtain ⟨a, -, h⟩ := bind_eq_ok.mp h
    cases h
    rw [readConstImm, hread]
    rfl
  | globalGet hread =>
    simp only [constInstrLog, hread, ok_bind] at h
    obtain ⟨mi, -, h⟩ := bind_eq_ok.mp h
    obtain ⟨-, h⟩ := guard_eq_ok.mp h
    obtain ⟨a, -, h⟩ := bind_eq_ok.mp h
    obtain ⟨g, -, h⟩ := bind_eq_ok.mp h
    cases h
    rw [readConstImm, hread]
    rfl

/-- One round of the evaluator: there is nothing left, or `end`, or an instruction. -/
theorem constExprLog_succ {n : ℕ} {code code' : Stream} {valueStack vs : List TypedValue} {log : List Decoded}
    (h : constExprLog pf vm k passiveElem (n + 1) code valueStack = .ok (log, vs, code')) :
    (vs = valueStack ∧ code.remaining = 0) ∨
    (∃ b, code.readU8 = .ok (b, code') ∧ WasmOpcode.ofByte? b = some .end_ ∧ log = [⟨b, none⟩] ∧ vs = valueStack) ∨
    ∃ b op s s' c imm v log', code.readU8 = .ok (b, s) ∧ WasmOpcode.ofByte? b = some op ∧ ConstInstr.Reads op s c s' ∧
      readConstImm op s = .ok (imm, s') ∧ c.value pf vm k = .ok v ∧ log = ⟨b, imm⟩ :: log' ∧
      constExprLog pf vm k passiveElem n s' (v :: valueStack) = .ok (log', vs, code') := by
  rw [constExprLog] at h
  split at h
  · next hrem =>
    cases h
    exact Or.inl ⟨rfl, hrem⟩
  · right
    obtain ⟨⟨b, s⟩, hread, h⟩ := bind_eq_ok.mp h
    dsimp only at h
    split at h
    · split at h <;> simp at h
    · next op hop =>
      obtain ⟨-, h⟩ := guard_eq_ok.mp h
      obtain ⟨r, hr, h⟩ := bind_eq_ok.mp h
      split at h
      · cases h
        rw [constInstrLog_end hr] at hop
        exact Or.inl ⟨b, hread, hop, rfl, rfl⟩
      · next imm v s' =>
        obtain ⟨c, hc, hv, himm⟩ := constInstrLog_some hr
        obtain ⟨⟨log', vs', s''⟩, hrest, h⟩ := bind_eq_ok.mp h
        cases h
        exact Or.inr ⟨b, op, s, s', c, imm, v, log', hread, hop, hc, himm, hv, rfl, hrest⟩

theorem constExprLog_length {n : ℕ} {code code' : Stream} {valueStack vs : List TypedValue} {log : List Decoded}
    (h : constExprLog pf vm k passiveElem n code valueStack = .ok (log, vs, code')) :
    valueStack.length ≤ vs.length := by
  have herased : constExprLoop pf vm k passiveElem n code valueStack = .ok vs := by
    rw [constExprLog_erase, h]
    rfl
  exact constExprLoop_length herased

end Evaluator

/-! ### The slice -/

theorem parseConstExpr_log {st st' : Stream} {expr : Str} (h : parseConstExpr st = .ok (expr, st')) :
    ∃ log, skipLog (st.remaining + 1) st = .ok (log, st') ∧ expr = (st.s.drop st.p).take (st'.p - st.p) := by
  rw [parseConstExpr, skipLog_erase] at h
  cases hlog : skipLog (st.remaining + 1) st with
  | error e =>
    rw [hlog] at h
    cases h
  | ok r =>
    rw [hlog] at h
    cases h
    exact ⟨r.1, rfl, rfl⟩

/-- The slice is a part of what was parsed. -/
theorem slice_part {st : Stream} (n : ℕ) : Part st.p (.from_ ((st.s.drop st.p).take n)) st := by
  refine ⟨rfl, fun i b hb => ?_⟩
  simp only [Stream.from_, List.getElem?_take, List.getElem?_drop] at hb
  split at hb
  · exact hb
  · cases hb

/-- The parser has passed over one constant instruction and `end`, the evaluator has decoded the
same from the slice up to its end, and the value is that of the instruction. -/
structure DecodedAlike (pf : Platform) (vm : Vm) (k : ℕ) (passiveElem : Bool) (st st' : Stream) (expr : Str)
    (v : TypedValue) (d : Decoded) (c : ConstInstr) : Prop where
  skipped : skipLog (st.remaining + 1) st = .ok ([d, .end_], st')
  decoded : constExprLog pf vm k passiveElem (expr.length + 1) (.from_ expr) [] =
    .ok ([d, .end_], [v], ⟨expr, expr.length⟩)
  last : expr.getLast? = some 0x0b
  instr : ∃ op, WasmOpcode.ofByte? d.opcode = some op ∧ ConstInstr.Reads op ⟨expr, 1⟩ c ⟨expr, expr.length - 1⟩
  value : c.value pf vm k = .ok v

theorem ofByte?_end {b : ℕ} (hb : b < 256) (h : WasmOpcode.ofByte? b = some .end_) : b = 0x0b := by
  have hbyte : (UInt8.ofNat b).toNat = b := Nat.mod_eq_of_lt hb
  have hcode := WasmOpcode.code_of_ofByte? (b := UInt8.ofNat b) (by rw [hbyte]; exact h)
  rw [hbyte] at hcode
  rw [← hcode]
  rfl

theorem reduceConstExpr_log {pf : Platform} {vm : Vm} {k : ℕ} {passiveElem : Bool} {expr : Str} {v : TypedValue}
    (h : reduceConstExpr pf vm k expr passiveElem = .ok v) :
    ∃ log code', constExprLog pf vm k passiveElem (expr.length + 1) (.from_ expr) [] = .ok (log, [v], code') := by
  rw [reduceConstExpr, constExprLog_erase] at h
  obtain ⟨vs, hloop, h⟩ := bind_eq_ok.mp h
  cases heval : constExprLog pf vm k passiveElem (expr.length + 1) (.from_ expr) [] with
  | error e =>
    rw [heval] at hloop
    cases hloop
  | ok r =>
    obtain ⟨log, vs', code'⟩ := r
    rw [heval] at hloop
    cases hloop
    dsimp only at h
    split at h
    · cases h
      exact ⟨log, code', rfl⟩
    · simp at h

theorem end_not_instr {s : Stream} {c : ConstInstr} {s' : Stream} : ¬ ConstInstr.Reads .end_ s c s' := by
  intro h
  cases h

/-- What the parser has delimited, the evaluator decodes as the parser did. -/
theorem reduceConstExpr_delimited (st st' : Stream) (expr : Str) (hparse : parseConstExpr st = .ok (expr, st'))
    (pf : Platform) (vm : Vm) (k : ℕ) (passiveElem : Bool) (v : TypedValue)
    (h : reduceConstExpr pf vm k expr passiveElem = .ok v) :
    ∃ d c, DecodedAlike pf vm k passiveElem st st' expr v d c := by
  obtain ⟨log, hskip, hexpr⟩ := parseConstExpr_log hparse
  have hwhole := skipLog_reads hskip
  have hlength : expr.length = st'.p - st.p := by
    have hle := hwhole.le
    rw [hexpr, List.length_take, List.length_drop]
    omega
  have hpart : Part st.p (.from_ expr) st := hexpr ▸ slice_part _
  obtain ⟨elog, code', heval⟩ := reduceConstExpr_log h
  have hdecoded := heval
  have hroom : 0 < expr.length := by
    have hlt := hwhole.lt
    omega
  have hmore : st.remaining ≠ 0 := by
    have hlt := hwhole.lt
    have hle := hwhole.le
    rw [Stream.remaining]
    omega
  -- the first round: an instruction
  rcases constExprLog_succ heval with ⟨hvs, -⟩ | ⟨b, -, -, -, hvs⟩ |
    ⟨b, op, s, s', c, imm, w, log', hread, hop, hc, himm, hvalue, rfl, hrest⟩
  · cases hvs
  · cases hvs
  obtain ⟨bs, hbread, hbs⟩ := Part.readU8 _ _ _ _ _ hpart hread
  obtain ⟨bs', hbimm, hbs'⟩ := Part.readConstImm op _ _ _ _ _ hbs himm
  have hne : op ≠ .end_ := by
    rintro rfl
    exact end_not_instr hc
  obtain ⟨m, hm⟩ := Nat.exists_eq_succ_of_ne_zero hmore
  have hskip1 := hskip
  rw [skipLog_instr hbread hop hne hbimm] at hskip1
  cases hskip2 : skipLog st.remaining bs' with
  | error e =>
    rw [hskip2] at hskip1
    cases hskip1
  | ok r =>
    obtain ⟨log2, st2⟩ := r
    rw [hskip2] at hskip1
    cases hskip1
    -- the parser reads on, so there is a byte left in the slice
    have hlast := skipLog_reads hskip2
    have hs' : s'.s = expr := by
      have hs : s.s = expr := (Stream.reads_readU8 hread).s_eq
      rcases readConstImm_reads himm with heq | hreads
      · rw [heq, hs]
      · rw [hreads.s_eq, hs]
    have hleft : s'.remaining ≠ 0 := by
      have hlt := hlast.lt
      have hat := hbs'.at_
      dsimp only at hlength
      rw [Stream.remaining, hs']
      omega
    obtain ⟨n, hn⟩ := Nat.exists_eq_succ_of_ne_zero hroom.ne'
    rw [hn] at hrest
    rcases constExprLog_succ hrest with ⟨-, hrem⟩ | ⟨b', hread', hop', rfl, hvs⟩ |
      ⟨_, _, _, _, _, _, _, _, -, -, -, -, -, -, hrest'⟩
    · exact absurd hrem hleft
    · cases hvs
      have hb' : b' = 0x0b := ofByte?_end (Stream.byteAt?_lt_256 (Stream.readU8_ok hread').1) hop'
      obtain ⟨bs'', hbread', -⟩ := Part.readU8 _ _ _ _ _ hbs' hread'
      rw [hm, skipLog_end hbread' hop'] at hskip2
      cases hskip2
      -- both have read one byte more
      have hbig := (Stream.readU8_ok hbread').2
      obtain ⟨hbyte, hcode'⟩ := Stream.readU8_ok hread'
      have hend : expr.length = s'.p + 1 := by
        have hat := hbs'.at_
        rw [hlength, hbig]
        simp only [Stream.advance]
        omega
      have hstream : ∀ t : Stream, t.s = expr → t = ⟨expr, t.p⟩ := fun t ht => by rw [← ht]
      have hcode : code' = ⟨expr, expr.length⟩ := by
        rw [hcode', Stream.advance, hs', hend]
      rw [hb', hcode] at hdecoded
      rw [hb'] at hskip
      refine ⟨⟨b, imm⟩, c, hskip, hdecoded, ?_, ⟨op, hop, ?_⟩, hvalue⟩
      · rw [List.getLast?_eq_getElem?, hend, Nat.add_sub_cancel]
        rw [Stream.byteAt?, hs', Nat.add_zero, Option.map_eq_some_iff, hb'] at hbyte
        obtain ⟨byte, hget, hval⟩ := hbyte
        rw [hget]
        exact congrArg some (UInt8.toNat_inj.mp hval)
      · have hs : s = ⟨expr, 1⟩ := by
          rw [(Stream.readU8_ok hread).2]
          rfl
        rw [hs, hstream s' hs'] at hc
        rw [hend, Nat.add_sub_cancel]
        exact hc
    · have hlen := constExprLog_length hrest'
      simp only [List.length_cons, List.length_nil] at hlen
      omega

/-- `i32.const 11`, whose immediate is the byte of `end`. -/
theorem reduceConstExpr_delimited_eleven : ∃ d c,
    DecodedAlike idle {} 0 false ⟨[0x41, 0x0b, 0x0b, 0x0b], 0⟩ ⟨[0x41, 0x0b, 0x0b, 0x0b], 3⟩ [0x41, 0x0b, 0x0b]
      ⟨.i32, 11⟩ d c :=
  reduceConstExpr_delimited _ _ _ (by decide +kernel) idle {} 0 false _ (by decide +kernel)

end Silverfir
