import Silverfir.Jumps
import Silverfir.InPlaceDt

/-! Control-flow integrity: `pc` and `next_jt_idx` of the interpreter stay in step with the
offsets that validation came by and with the slots it made there. -/
namespace Silverfir

open InPlaceDt Validator

/-- The label that an operand of `br_table` selects. -/
def tableIndex (code : Str) (imm operand : ℕ) : ℕ :=
  match Stream.readVu32 ⟨code, imm⟩ with
  | .ok (n, _) => if operand > n then n else operand
  | .error _ => 0

/-- The handler of a decoded instruction. -/
def flowOf (code : Str) (i : Instr) (imm q nextJtIdx operand : ℕ) : Flow :=
  match i with
  | .unreachable => .trap
  | .block op _ =>
    if op = .if_ then
      if operand ≠ 0 then .next q ((nextJtIdx + 1) % 2 ^ 16) else .jump imm nextJtIdx false
    else .next q nextJtIdx
  | .else_ => .jump imm nextJtIdx false
  | .end_ => if q = code.length then .finish else .next q nextJtIdx
  | .brOrIf op _ =>
    if op = .brIf ∧ operand = 0 then .next q ((nextJtIdx + 1) % 2 ^ 16) else .jump imm nextJtIdx true
  | .brTable => .jump q ((nextJtIdx + tableIndex code imm operand % 2 ^ 16) % 2 ^ 16) true
  | .return_ => .finish
  | i => .plain i.erase q

theorem decodeRest_plain {i : Instr} {pc pc' : Stream} (h : decodeRest i pc = .ok pc')
    (hbt : i ≠ .brTable) : pc' = pc := by
  unfold decodeRest at h
  split at h
  · exact absurd rfl hbt
  · simp at h
  · exact (Except.ok.inj h).symm

/-- The interpreter does at a decoded offset what the decoded instruction says. -/
theorem dispatch_of_fetch {mod : Module} {code : Str} {p imm q idx : ℕ} {i : Instr}
    (h : fetch mod code p = .ok (i, imm, q)) (v : ℕ) :
    dispatch code ⟨p, idx⟩ v = .ok (flowOf code i imm q idx v) := by
  obtain ⟨b, op, pc, hb, hop, hi, hr⟩ := fetch_ok.mp h
  have hcase := decodeImm_case hi
  have hopcode : opcodeAt code (p : ℤ) = .ok op := by
    simp [opcodeAt, Unchecked.byteAt, hb, hop]
  have hpc : (p : ℤ).toNat = p := Int.toNat_natCast p
  simp only [dispatch, hopcode, ok_bind, hpc]
  by_cases hc : i.isControl = false
  · have hfd : ∀ n, i ≠ .opcodeFd n := by
      rintro n rfl
      simp [decodeRest] at hr
    have hbt : i ≠ .brTable := by rintro rfl; cases hc
    have hq := decodeRest_plain hr hbt
    have hread := readImm_of_checked hi hc hfd
    rw [← hq] at hread
    have hplain : handler op code (p + 1) idx v = .ok (.plain i.erase q) := by
      have hk : op.case ≠ .unreachable ∧ op.case ≠ .block ∧ op.case ≠ .else_ ∧ op.case ≠ .end_ ∧
          op.case ≠ .brOrIf ∧ op.case ≠ .brTable ∧ op.case ≠ .return_ := by
        rw [← hcase]
        cases i <;> first | (simp [Instr.case]; done) | cases hc
      simp only at hread
      unfold handler
      split <;> first
        | (rw [hread]; rfl)
        | (exfalso; simp [WasmOpcode.case] at hk)
    rw [hplain]
    cases i <;> first | rfl | cases hc
  · cases i with
    | unreachable =>
      obtain rfl := WasmOpcode.eq_unreachable hcase.symm
      rfl
    | block o ty =>
      obtain rfl := decodeImm_block hi
      obtain ⟨himm, hq, -⟩ := fetch_block h
      subst himm hq
      rcases WasmOpcode.block_loop_or_if hcase.symm with rfl | rfl | rfl
      · rfl
      · rfl
      · simp only [handler, flowOf, if_true]
    | else_ =>
      obtain rfl := WasmOpcode.eq_else hcase.symm
      obtain ⟨rfl, rfl⟩ := Validator.fetch_else h
      rfl
    | end_ =>
      obtain rfl : op = .end_ := (decodeImm_end_iff hi).mp rfl
      obtain ⟨-, rfl, rfl⟩ := Validator.fetch_end h
      rfl
    | brOrIf o l =>
      obtain ⟨himm, hq, hor, b', hb', hop'⟩ := fetch_br h
      subst himm hq
      rw [hb] at hb'
      cases hb'
      rw [hop] at hop'
      cases hop'
      rcases hor with rfl | rfl
      · rfl
      · simp only [handler, flowOf]
        by_cases hv : v = 0 <;> simp [hv]
    | brTable =>
      obtain rfl := WasmOpcode.eq_brTable hcase.symm
      obtain ⟨rfl, n, pc1, hn, rfl⟩ := fetch_brTable h
      have hr' := readVu32_unchecked hn
      simp only at hr'
      simp only [handler, hr', ok_bind, flowOf, tableIndex, hn]
    | return_ =>
      obtain rfl := WasmOpcode.eq_return hcase.symm
      rfl
    | _ => exact absurd rfl hc

/-! ### Registers in step with validation -/

open Relation (ReflTransGen)

variable {mod : Module} {f : Func} {cE : Ctx}

/-- The registers are at a visited offset, and the next slot is the one validation makes next. -/
structure Synced (mod : Module) (f : Func) (jt : List JumpTable) (p : ℕ) (c : Ctx) (r : Regs) : Prop where
  reach : Reach mod f (p, c)
  lt : p < f.code.length
  pc : r.pc = p
  next : NextSlot jt c r.nextJtIdx

theorem Validator.Arrives.synced {jt : List JumpTable} {tbl : JumpTable} {target : ℕ} {ct : Ctx}
    (h : Arrives mod f jt tbl target ct) :
    Synced mod f jt target ct ⟨tbl.pc + tbl.targetOffset, tbl.nextIdx⟩ where
  reach := h.reach
  lt := h.lt
  pc := h.offset
  next := h.next

theorem Validator.Sound.start_synced (h : Sound mod f cE) :
    ∃ c, Synced mod f (linkJumpTable cE.jt) 0 c Regs.start := by
  obtain ⟨e, imm, ce, ha⟩ := h.accepts
  obtain ⟨c0, hc0, -⟩ := ha.reach
  obtain ⟨ps, rs, -, -, -, -, -, hjt⟩ := onDecodeBegin_ok hc0
  have hspan := fetch_span ha.fetch
  refine ⟨c0, ⟨c0, hc0, .refl⟩, by omega, rfl, ?_⟩
  intro _
  rw [hjt, h.safe.fresh]
  rfl

namespace Synced

variable {p imm q : ℕ} {c c' : Ctx} {r : Regs} {i : Instr}

/-- An instruction that does not jump moves on to the next one and skips its own slots. -/
theorem fall (h : Sound mod f cE) (hs : Synced mod f (linkJumpTable cE.jt) p c r)
    (hf : fetch mod f.code p = .ok (i, imm, q)) (hcb : onInstr mod i ⟨f.code, imm⟩ c = .ok c')
    (hq : i = .end_ → q ≠ f.code.length) {idx : ℕ}
    (hidx : idx = r.nextJtIdx ∧ slotsOf f.code ⟨p, i, imm, q⟩ = 0 ∨
      idx = (r.nextJtIdx + slotsOf f.code ⟨p, i, imm, q⟩) % 2 ^ 16) :
    Synced mod f (linkJumpTable cE.jt) q c' ⟨q, idx⟩ := by
  have hspan := fetch_span hf
  have hreach := hs.reach.tail (step_iff.mpr ⟨i, imm, hf, hcb⟩)
  refine ⟨hreach, ?_, rfl, ?_⟩
  · by_cases he : i = .end_
    · have := hq he
      omega
    · have hopen := h.bracketed.inside p c hs.reach hs.lt
      refine h.bracketed.lt_of_open hreach (List.ne_nil_of_length_pos ?_)
      have hpos := List.length_pos_iff.mpr hopen
      rw [onInstr_length hcb]
      cases i <;> first | exact absurd rfl he | exact hpos | exact Nat.succ_pos _
  · intro hm
    have hlen := onInstr_slots (p := p) (q := q) hcb
    rw [length_linkJumpTable] at hm
    have hle := h.jt_length_le
    have hr : r.nextJtIdx = c.jt.length := hs.next (by rw [length_linkJumpTable]; omega)
    rcases hidx with ⟨rfl, h0⟩ | rfl
    · rw [hlen, h0]
      exact hr
    · rw [hlen, ← hr]
      exact Nat.mod_eq_of_lt (by omega)

/-- An instruction with slots finds the first of them. -/
theorem slot (h : Sound mod f cE) (hs : Synced mod f (linkJumpTable cE.jt) p c r)
    (hf : fetch mod f.code p = .ok (i, imm, q)) (hcb : onInstr mod i ⟨f.code, imm⟩ c = .ok c')
    (hpos : 0 < slotsOf f.code ⟨p, i, imm, q⟩) : r.nextJtIdx = c.jt.length := by
  refine hs.next ?_
  have hlen := onInstr_slots (p := p) (q := q) hcb
  have hmono := h.jt_length_mono (hs.reach.tail (step_iff.mpr ⟨i, imm, hf, hcb⟩))
  simp only at hmono
  rw [length_linkJumpTable]
  omega

end Synced

/-- A handler leaves the registers in step: at a visited offset, or with a slot in hand that
leads to one. -/
def InStep (mod : Module) (f : Func) (jt : List JumpTable) (nextJtIdx : ℕ) : Flow → Prop
  | .plain _ pc => ∃ p c, Synced mod f jt p c ⟨pc, nextJtIdx⟩
  | .next pc nextJtIdx => ∃ p c, Synced mod f jt p c ⟨pc, nextJtIdx⟩
  | .jump pc k _ => ∃ tbl target ct, Jump mod f jt k pc tbl target ct
  | .finish => True
  | .trap => True

/-- The slot that a `br_table` selects. -/
theorem tableIndex_le {code : Str} {imm n : ℕ} {pc1 : Stream} (operand : ℕ)
    (hn : Stream.readVu32 ⟨code, imm⟩ = .ok (n, pc1)) : tableIndex code imm operand ≤ n := by
  unfold tableIndex
  rw [hn]
  simp only
  split <;> omega

theorem Synced.brTable_idx (h : Sound mod f cE) {p j : ℕ} {c : Ctx} {r : Regs}
    (hs : Synced mod f (linkJumpTable cE.jt) p c r)
    (hk : (linkJumpTable cE.jt)[c.jt.length + j]? ≠ none) :
    (r.nextJtIdx + j % 2 ^ 16) % 2 ^ 16 = c.jt.length + j := by
  have hlt : c.jt.length + j < cE.jt.length := by
    by_contra hge
    exact hk (List.getElem?_eq_none (by rw [length_linkJumpTable]; omega))
  have hle := h.jt_length_le
  have hr : r.nextJtIdx = c.jt.length := hs.next (by rw [length_linkJumpTable]; omega)
  have hj' : j % 2 ^ 16 = j := Nat.mod_eq_of_lt (by omega)
  rw [hr, hj']
  exact Nat.mod_eq_of_lt (by omega)

/-- Every handler keeps the registers in step. -/
theorem Synced.inStep (h : Sound mod f cE) {p imm q : ℕ} {c c' : Ctx} {r : Regs} {i : Instr}
    (hs : Synced mod f (linkJumpTable cE.jt) p c r)
    (hf : fetch mod f.code p = .ok (i, imm, q)) (hcb : onInstr mod i ⟨f.code, imm⟩ c = .ok c') (v : ℕ) :
    InStep mod f (linkJumpTable cE.jt) r.nextJtIdx (flowOf f.code i imm q r.nextJtIdx v) := by
  have hreach := hs.reach.tail (step_iff.mpr ⟨i, imm, hf, hcb⟩)
  have hfall := fun (idx : ℕ) hq (hidx : idx = _ ∧ _ ∨ idx = _) => hs.fall h hf hcb hq hidx
  have hplain : i ≠ .end_ → slotsOf f.code ⟨p, i, imm, q⟩ = 0 →
      Synced mod f (linkJumpTable cE.jt) q c' ⟨q, r.nextJtIdx⟩ :=
    fun he h0 => hfall _ (fun h' => absurd h' he) (.inl ⟨rfl, h0⟩)
  cases i with
  | unreachable => trivial
  | block op ty =>
    by_cases hop : op = .if_
    · subst hop
      by_cases hv : v = 0
      · obtain ⟨tbl, target, ct, hj, -⟩ := h.if_jump hreach hf hcb
        rw [← hs.slot h hf hcb (by simp [slotsOf])] at hj
        simp only [flowOf, if_pos, hv, ne_eq, not_true_eq_false, if_false]
        exact ⟨tbl, target, ct, hj⟩
      · simp only [flowOf, if_pos, hv, ne_eq, not_false_eq_true]
        exact ⟨q, c', hfall _ (fun h' => by cases h') (.inr rfl)⟩
    · simp only [flowOf, if_neg hop]
      exact ⟨q, c', hplain (fun h' => by cases h') (if_neg hop)⟩
  | else_ =>
    obtain ⟨tbl, target, ct, fr, rest, hj, -⟩ := h.else_jump hreach hf hcb
    rw [← hs.slot h hf hcb Nat.one_pos] at hj
    exact ⟨tbl, target, ct, hj⟩
  | end_ =>
    by_cases hq : q = f.code.length
    · simp only [flowOf, if_pos hq]
      trivial
    · simp only [flowOf, if_neg hq]
      exact ⟨q, c', hfall _ (fun _ => hq) (.inl ⟨rfl, rfl⟩)⟩
  | brOrIf op l =>
    by_cases hop : op = .brIf ∧ v = 0
    · simp only [flowOf, if_pos hop]
      exact ⟨q, c', hfall _ (fun h' => by cases h') (.inr rfl)⟩
    · simp only [flowOf, if_neg hop]
      obtain ⟨fr, k0, ts0, tbl, target, ct, fr', -, -, -, -, hj, -⟩ := h.br_jump hs.reach hreach hf hcb
      rw [← hs.slot h hf hcb Nat.one_pos] at hj
      exact ⟨tbl, target, ct, hj⟩
  | brTable =>
    obtain ⟨-, n, pc1, hn, -⟩ := fetch_brTable hf
    have hle := tableIndex_le v hn
    obtain ⟨t, k0, l, fr, size, tbl, target, ct, fr', -, -, -, -, hj, -⟩ :=
      h.brTable_jump hs.reach hreach hf hcb hn hle
    have hidx := hs.brTable_idx h (by rw [hj.slot]; simp)
    simp only [flowOf, hidx]
    exact ⟨tbl, target, ct, hj⟩
  | return_ => trivial
  | _ => exact ⟨q, c', hplain (fun h' => by cases h') rfl⟩

/-! ### Runs -/

/-- `decode_function` reads an opcode at this offset while it validates `f`. -/
def ReadsOpcode (mod : Module) (f : Func) (pc : ℤ) : Prop :=
  ∃ p c, pc = (p : ℕ) ∧ p < f.code.length ∧ Reach mod f (p, c)

theorem follow_synced {jt : List JumpTable} {idx : ℕ} {flow : Flow} (h : InStep mod f jt idx flow) :
    follow jt idx flow = .ok none ∨
      ∃ r, follow jt idx flow = .ok (some r) ∧ ∃ p c, Synced mod f jt p c r := by
  cases flow with
  | plain i pc => exact .inr ⟨_, rfl, h⟩
  | next pc idx' => exact .inr ⟨_, rfl, h⟩
  | jump pc k u =>
    obtain ⟨tbl, target, ct, hj⟩ := h
    refine .inr ⟨⟨pc + tbl.targetOffset, tbl.nextIdx⟩, ?_, target, ct, ?_⟩
    · simp [follow, slotAt, hj.slot]
    · rw [← hj.pc]
      exact hj.arrives.synced
  | finish => exact .inl rfl
  | trap => exact .inl rfl

theorem Synced.dispatch_eq (h : Sound mod f cE) {p : ℕ} {c : Ctx} {r : Regs}
    (hs : Synced mod f (linkJumpTable cE.jt) p c r) (v : ℕ) :
    ∃ flow, dispatch f.code r v = .ok flow ∧ InStep mod f (linkJumpTable cE.jt) r.nextJtIdx flow := by
  obtain ⟨i, imm, q, c', hf, hcb, -⟩ := h.exists_step hs.reach hs.lt
  refine ⟨_, ?_, hs.inStep h hf hcb v⟩
  have hr : r = ⟨p, r.nextJtIdx⟩ := by rw [← hs.pc]
  rw [hr]
  exact dispatch_of_fetch hf v

/-- One instruction of the interpreter. -/
theorem Synced.regsStep (h : Sound mod f cE) {p : ℕ} {c : Ctx} {r r' : Regs} {f' : Func}
    (hcode : f'.code = f.code) (hjt : f'.jt = linkJumpTable cE.jt)
    (hs : Synced mod f (linkJumpTable cE.jt) p c r) (hstep : RegsStep f' r r') :
    ∃ p' c', Synced mod f (linkJumpTable cE.jt) p' c' r' := by
  obtain ⟨v, hv⟩ := hstep
  obtain ⟨flow, hd, hflow⟩ := hs.dispatch_eq h v
  have hreg : InPlaceDt.regsStep f' r v = follow (linkJumpTable cE.jt) r.nextJtIdx flow := by
    unfold InPlaceDt.regsStep
    rw [hcode, hjt, hd]
    rfl
  rw [hreg] at hv
  rcases follow_synced hflow with hn | ⟨r1, h1, h2⟩
  · rw [hn] at hv
    rcases hv with hv | ⟨what, hv⟩ <;> cases hv
  · rw [h1] at hv
    rcases hv with hv | ⟨what, hv⟩
    · cases hv
      exact h2
    · cases hv

/-- Every state of a run is in step with validation. -/
theorem Validator.Sound.run_synced (h : Sound mod f cE) {r : Regs} {f' : Func} (hcode : f'.code = f.code)
    (hjt : f'.jt = linkJumpTable cE.jt) (hr : ReflTransGen (RegsStep f') Regs.start r) :
    ∃ p c, Synced mod f (linkJumpTable cE.jt) p c r := by
  induction hr with
  | refl =>
    obtain ⟨c, hc⟩ := h.start_synced
    exact ⟨0, c, hc⟩
  | tail _ hstep ih =>
    obtain ⟨p, c, hs⟩ := ih
    exact hs.regsStep h hcode hjt hstep

theorem sound_of_validateFunc {f' : Func} (h : validateFunc mod f = .ok f') (hs : JumpSafe mod f) :
    ∃ cE, Sound mod f cE ∧ f'.code = f.code ∧ f'.jt = linkJumpTable cE.jt := by
  obtain ⟨e, imm, ce, cE, ha, rfl⟩ := validateFunc_ok.mp h
  exact ⟨cE, ⟨⟨e, imm, ce, ha⟩, hs⟩, rfl, rfl⟩

/-- Control-flow integrity: whatever the operands are, opcodes are fetched only where the decoder
read one. -/
theorem run_readsOpcode {f' : Func} (h : validateFunc mod f = .ok f') (hs : JumpSafe mod f)
    {r : Regs} (hr : ReflTransGen (RegsStep f') Regs.start r) : ReadsOpcode mod f r.pc := by
  obtain ⟨cE, hsound, hcode, hjt⟩ := sound_of_validateFunc h hs
  obtain ⟨p, c, hsync⟩ := hsound.run_synced hcode hjt hr
  exact ⟨p, c, hsync.pc, hsync.lt, hsync.reach⟩

/-- `br 0; end` -/
theorem run_readsOpcode_br :
    ∃ f', validateFunc {} { code := [0x0c, 0x00, 0x0b] } = .ok f' ∧
      JumpSafe {} { code := [0x0c, 0x00, 0x0b] } ∧ RegsStep f' Regs.start ⟨2, 65535⟩ ∧
      ReadsOpcode {} { code := [0x0c, 0x00, 0x0b] } 2 := by
  obtain ⟨f', hf', hstep⟩ : ∃ f', validateFunc {} { code := [0x0c, 0x00, 0x0b] } = .ok f' ∧
      InPlaceDt.regsStep f' Regs.start 0 = .ok (some ⟨2, 65535⟩) :=
    ⟨_, rfl, rfl⟩
  have hsafe : JumpSafe {} { code := [0x0c, 0x00, 0x0b] } := by decide +kernel
  have hrun : RegsStep f' Regs.start ⟨2, 65535⟩ := ⟨0, .inl hstep⟩
  exact ⟨f', hf', hsafe, hrun, run_readsOpcode hf' hsafe (.single hrun)⟩

/-- Offsets that no instruction of the body starts at are not read. -/
theorem not_readsOpcode {f' : Func} {pc : ℕ} (h : validateFunc mod f = .ok f')
    (hpc : (instrs mod f.code).all (·.pc != pc) = true) : ¬ ReadsOpcode mod f pc := by
  rintro ⟨p, c, he, hlt, hr⟩
  obtain rfl : pc = p := by exact_mod_cast he
  obtain ⟨e, imm, ce, cE, ha, -⟩ := validateFunc_ok.mp h
  obtain ⟨⟨q, c'⟩, hstep⟩ := ha.exists_step hr hlt
  obtain ⟨i, imm', hf, -⟩ := step_iff.mp hstep
  have := List.all_eq_true.mp hpc _ (hr.mem_instrs hf)
  simp at this

/-- `br 0; block; end`: the frame of the function is never closed, the slot of the branch is
never patched, and the interpreter runs the label of the branch as an instruction. -/
theorem run_not_readsOpcode :
    ∃ f', validateFunc {} { code := [0x0c, 0x00, 0x02, 0x40, 0x0b] } = .ok f' ∧
      ∃ r, ReflTransGen (RegsStep f') Regs.start r ∧
        ¬ ReadsOpcode {} { code := [0x0c, 0x00, 0x02, 0x40, 0x0b] } r.pc := by
  obtain ⟨f', hf', hstep⟩ : ∃ f', validateFunc {} { code := [0x0c, 0x00, 0x02, 0x40, 0x0b] } = .ok f' ∧
      InPlaceDt.regsStep f' Regs.start 0 = .ok (some ⟨1, 65535⟩) :=
    ⟨_, rfl, rfl⟩
  refine ⟨f', hf', ⟨1, 65535⟩, .single ⟨0, .inl hstep⟩, ?_⟩
  exact @not_readsOpcode _ _ _ 1 hf' rfl

/-- The assertions of the handlers: a jump uses a slot of the table, and the slot was made for
the offset at which the interpreter is. -/
theorem run_jump_slot {f' : Func} (h : validateFunc mod f = .ok f') (hs : JumpSafe mod f)
    {r : Regs} (hr : ReflTransGen (RegsStep f') Regs.start r) {v pc k : ℕ} {unwind : Bool}
    (hd : dispatch f'.code r v = .ok (.jump pc k unwind)) :
    ∃ tbl, f'.jt[k]? = some tbl ∧ tbl.pc = pc := by
  obtain ⟨cE, hsound, hcode, hjt⟩ := sound_of_validateFunc h hs
  obtain ⟨p, c, hsync⟩ := hsound.run_synced hcode hjt hr
  obtain ⟨flow, hflow, hin⟩ := hsync.dispatch_eq hsound v
  rw [hcode, hflow] at hd
  cases hd
  obtain ⟨tbl, target, ct, hj⟩ := hin
  exact ⟨tbl, by rw [hjt]; exact hj.slot, hj.pc⟩

/-- `br 0; end` -/
theorem run_jump_slot_br :
    ∃ f', validateFunc {} { code := [0x0c, 0x00, 0x0b] } = .ok f' ∧
      dispatch f'.code Regs.start 0 = .ok (.jump 1 0 true) ∧ ∃ tbl, f'.jt[0]? = some tbl ∧ tbl.pc = 1 := by
  obtain ⟨f', hf', hd⟩ : ∃ f', validateFunc {} { code := [0x0c, 0x00, 0x0b] } = .ok f' ∧
      dispatch f'.code Regs.start 0 = .ok (.jump 1 0 true) := ⟨_, rfl, rfl⟩
  exact ⟨f', hf', hd, run_jump_slot hf' (by decide +kernel) .refl hd⟩

/-- `i32.const 0; br_table 0`, with the label in two bytes: the validator records the offset behind
the label, and decoder and interpreter skip one byte only. -/
theorem run_jump_slot_two_byte_label :
    ∃ f', validateFunc {} { code := [0x41, 0x00, 0x0e, 0x00, 0x80, 0x00, 0x0b] } = .ok f' ∧
      ∃ r, ReflTransGen (RegsStep f') Regs.start r ∧
        dispatch f'.code r 0 = .ok (.jump 5 0 true) ∧ ¬ ∃ tbl, f'.jt[0]? = some tbl ∧ tbl.pc = 5 := by
  obtain ⟨f', hf', hstep, hd, hjt⟩ :
      ∃ f', validateFunc {} { code := [0x41, 0x00, 0x0e, 0x00, 0x80, 0x00, 0x0b] } = .ok f' ∧
        InPlaceDt.regsStep f' Regs.start 0 = .ok (some ⟨2, 0⟩) ∧
        dispatch f'.code ⟨2, 0⟩ 0 = .ok (.jump 5 0 true) ∧ f'.jt[0]?.map (·.pc) = some 6 :=
    ⟨_, rfl, rfl, rfl, rfl⟩
  refine ⟨f', hf', ⟨2, 0⟩, .single ⟨0, .inl hstep⟩, hd, ?_⟩
  rintro ⟨tbl, htbl, hpc⟩
  rw [htbl] at hjt
  simp [hpc] at hjt

end Silverfir
