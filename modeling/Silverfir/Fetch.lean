import Silverfir.OpDecoder

/-! A round of the decoder is the decoding of one instruction, which does not depend on the
callbacks, followed by one callback. -/
namespace Silverfir

namespace Stream

/-- `st'` is `st` after a read of at least one byte. -/
structure Reads (st st' : Stream) : Prop where
  s_eq : st'.s = st.s
  lt : st.p < st'.p
  le : st'.p ≤ st.s.length

theorem Reads.remaining_lt {st st' : Stream} (h : Reads st st') : st'.remaining < st.remaining := by
  have hlt := h.lt
  have hle := h.le
  rw [remaining, remaining, h.s_eq]
  omega

theorem Reads.trans {a b c : Stream} (h : Reads a b) (k : Reads b c) : Reads a c where
  s_eq := k.s_eq.trans h.s_eq
  lt := h.lt.trans k.lt
  le := by have := k.le; rwa [h.s_eq] at this

theorem byteAt?_lt {st : Stream} {n b : ℕ} (h : st.byteAt? n = some b) : st.p + n < st.s.length := by
  unfold byteAt? at h
  obtain ⟨x, hx, -⟩ := Option.map_eq_some_iff.mp h
  exact (List.getElem?_eq_some_iff.mp hx).1

theorem byteAt?_lt_256 {st : Stream} {n b : ℕ} (h : st.byteAt? n = some b) : b < 256 := by
  unfold byteAt? at h
  obtain ⟨x, -, rfl⟩ := Option.map_eq_some_iff.mp h
  exact x.toNat_lt

theorem reads_advance {st : Stream} {n b : ℕ} (h : st.byteAt? n = some b) :
    Reads st (st.advance (n + 1)) where
  s_eq := rfl
  lt := by simp [advance]
  le := by have := byteAt?_lt h; simp [advance]; omega

theorem readU8_ok {st st' : Stream} {b : ℕ} (h : st.readU8 = .ok (b, st')) :
    st.byteAt? 0 = some b ∧ st' = st.advance 1 := by
  unfold readU8 at h
  split at h
  · simp [notEnough] at h
  · next hb => cases h; exact ⟨hb, rfl⟩

theorem readVu7_ok {st st' : Stream} {u : ℕ} (h : st.readVu7 = .ok (u, st')) :
    st.byteAt? 0 = some u ∧ u < 0x80 ∧ st' = st.advance 1 := by
  unfold readVu7 at h
  split at h
  · simp [notEnough] at h
  · next hb =>
    split at h
    · simp [badLeb] at h
    · next hu => cases h; exact ⟨hb, by omega, rfl⟩

theorem readVi7_ok {st st' : Stream} {t : ℤ} (h : st.readVi7 = .ok (t, st')) :
    ∃ u, st.byteAt? 0 = some u ∧ u < 0x80 ∧ t = i7Value u ∧ st' = st.advance 1 := by
  unfold readVi7 at h
  split at h
  · simp [notEnough] at h
  · next hb =>
    split at h
    · simp [badLeb] at h
    · next hu => cases h; exact ⟨_, hb, by omega, rfl, rfl⟩

theorem readFixed_ok {n : ℕ} {st st' : Stream} {v : ℕ} (h : readFixed n st = .ok (v, st')) :
    n ≤ st.remaining ∧ v = leBytes ((st.s.drop st.p).take n) ∧ st' = st.advance n := by
  unfold readFixed at h
  split at h
  · simp [notEnough] at h
  · cases h; exact ⟨by omega, rfl, rfl⟩

theorem reads_readFixed {n : ℕ} {st st' : Stream} {v : ℕ} (hn : 0 < n)
    (h : readFixed n st = .ok (v, st')) : Reads st st' := by
  obtain ⟨hle, -, rfl⟩ := readFixed_ok h
  exact ⟨rfl, by simp [advance, hn], by simp only [advance]; unfold remaining at hle; omega⟩

theorem seek_ok {st st' : Stream} {n : ℕ} (h : st.seek n = .ok st') :
    st' = st.advance n ∧ st.p + n ≤ st.s.length := by
  unfold seek at h
  split at h
  · simp at h
  · next hc =>
    cases h
    refine ⟨?_, by omega⟩
    simp only [advance]
    congr 1

theorem reads_readVuLoop {width left offset result v : ℕ} {st st' : Stream}
    (h : readVuLoop width st left offset result = .ok (v, st')) : Reads st st' := by
  induction left generalizing offset result with
  | zero => simp [readVuLoop, badLeb] at h
  | succ left ih =>
    rw [readVuLoop] at h
    split at h
    · simp [badLeb] at h
    · next b hb =>
      dsimp only at h
      split_ifs at h
      · simp [badLeb] at h
      · cases h; exact reads_advance hb
      · exact ih h

theorem reads_readViLoop {width left offset result v : ℕ} {st st' : Stream}
    (h : readViLoop width st left offset result = .ok (v, st')) : Reads st st' := by
  induction left generalizing offset result with
  | zero => simp [readViLoop, badLeb] at h
  | succ left ih =>
    rw [readViLoop] at h
    split at h
    · simp [badLeb] at h
    · next b hb =>
      dsimp only at h
      -- the sign extension changes the value only
      split_ifs at h <;> first | (simp [badLeb] at h; done) | (cases h; exact reads_advance hb) | exact ih h

theorem reads_readVu32 {st st' : Stream} {v : ℕ} (h : st.readVu32 = .ok (v, st')) : Reads st st' :=
  reads_readVuLoop h

theorem readVuLoop_lt {width left offset result v : ℕ} {st st' : Stream}
    (h : readVuLoop width st left offset result = .ok (v, st')) (hr : result < 2 ^ width) : v < 2 ^ width := by
  induction left generalizing offset result with
  | zero => simp [readVuLoop, badLeb] at h
  | succ left ih =>
    rw [readVuLoop] at h
    split at h
    · simp [badLeb] at h
    · next b hb =>
      have hor : result ||| ((b % 128) <<< (7 * offset)) % 2 ^ width < 2 ^ width :=
        Nat.or_lt_two_pow hr (Nat.mod_lt _ (Nat.two_pow_pos width))
      simp only at h
      split_ifs at h
      · simp [badLeb] at h
      · cases h
        exact hor
      · exact ih h hor

theorem readVu32_lt {st st' : Stream} {v : ℕ} (h : st.readVu32 = .ok (v, st')) : v < 2 ^ 32 :=
  readVuLoop_lt h (Nat.two_pow_pos 32)

theorem reads_readVi32 {st st' : Stream} {v : ℕ} (h : st.readVi32 = .ok (v, st')) : Reads st st' :=
  reads_readViLoop h

theorem reads_readVi64 {st st' : Stream} {v : ℕ} (h : st.readVi64 = .ok (v, st')) : Reads st st' :=
  reads_readViLoop h

theorem reads_readU8 {st st' : Stream} {v : ℕ} (h : st.readU8 = .ok (v, st')) : Reads st st' := by
  obtain ⟨hb, rfl⟩ := readU8_ok h
  exact reads_advance hb

theorem reads_readVu7 {st st' : Stream} {v : ℕ} (h : st.readVu7 = .ok (v, st')) : Reads st st' := by
  obtain ⟨hb, -, rfl⟩ := readVu7_ok h
  exact reads_advance hb

theorem reads_readVi7 {st st' : Stream} {v : ℤ} (h : st.readVi7 = .ok (v, st')) : Reads st st' := by
  obtain ⟨u, hb, -, -, rfl⟩ := readVi7_ok h
  exact reads_advance hb

end Stream

open Silverfir.Stream

theorem getBlocktype_ok {mod : Module} {st st' : Stream} {ft : FuncType}
    (h : getBlocktype mod st = .ok (ft, st')) :
    ∃ u, st.byteAt? 0 = some u ∧ u < 0x80 ∧ st' = st.advance 1 := by
  simp only [getBlocktype, bind_eq_ok] at h
  obtain ⟨⟨t, s1⟩, ht, h⟩ := h
  obtain ⟨u, hu, hlt, rfl, rfl⟩ := readVi7_ok ht
  refine ⟨u, hu, hlt, ?_⟩
  split at h
  · cases h; rfl
  · split at h
    · split at h
      · obtain ⟨ft', -, h⟩ := bind_eq_ok.mp h
        cases h; rfl
      · simp at h
    · split at h
      · split at h
        · simp at h
        · cases h; rfl
      · simp at h

theorem readType_ok {ok : TypeId → Bool} {msg : String} {st st' : Stream} {t : TypeId}
    (h : readType ok msg st = .ok (t, st')) :
    ok t = true ∧ ∃ n, st.readVi7 = .ok (n, st') ∧ TypeId.ofI8? n = some t := by
  simp only [readType, bind_eq_ok] at h
  obtain ⟨⟨n, s1⟩, hn, h⟩ := h
  split at h
  · simp at h
  · next t' ht =>
    split_ifs at h with hk
    · cases h; exact ⟨hk, n, hn, ht⟩
    · simp at h

theorem readReserved_ok {msg : String} {st st' : Stream} (h : readReserved msg st = .ok st') :
    st.readVu7 = .ok (0, st') := by
  simp only [readReserved, bind_eq_ok] at h
  obtain ⟨⟨b, s1⟩, hb, h⟩ := h
  split_ifs at h with hz
  · simp at h
  · simp only [Decidable.not_not] at hz
    cases h; rw [hb, hz]

/-- Where the immediates of an instruction lie: at `imm`, from `pc` on and up to `pc'`. -/
structure ImmSpan (pc imm pc' : Stream) : Prop where
  imm_s : imm.s = pc.s
  s_eq : pc'.s = pc.s
  le_imm : pc.p ≤ imm.p
  imm_le : imm.p ≤ pc'.p
  le : pc'.p ≤ max pc.p pc.s.length

theorem ImmSpan.refl (pc : Stream) : ImmSpan pc pc pc := ⟨rfl, rfl, le_rfl, le_rfl, le_max_left _ _⟩

theorem Stream.Reads.immSpan {pc pc' : Stream} (h : Reads pc pc') : ImmSpan pc pc pc' :=
  ⟨rfl, h.s_eq, le_rfl, h.lt.le, le_max_of_le_right h.le⟩

theorem Stream.Reads.immSpan_trans {pc pc1 imm pc' : Stream} (h : Reads pc pc1)
    (k : ImmSpan pc1 imm pc') : ImmSpan pc imm pc' where
  imm_s := k.imm_s.trans h.s_eq
  s_eq := k.s_eq.trans h.s_eq
  le_imm := h.lt.le.trans k.le_imm
  imm_le := k.imm_le
  le := by
    have h1 := k.le
    have h2 := h.le
    rw [h.s_eq] at h1
    exact le_max_of_le_right (h1.trans (max_le h2 le_rfl))

theorem decodeImmFc_span {op : WasmOpcodeFc} {i : Instr} {pc imm pc' : Stream}
    (h : decodeImmFc op pc = .ok (i, imm, pc')) : ImmSpan pc imm pc' := by
  unfold decodeImmFc at h
  split at h
  all_goals try simp only [readU32Instr, readU32U32Instr, bind_eq_ok] at h
  all_goals try (cases h; exact .refl _)
  case h_9 =>
    obtain ⟨⟨v, s1⟩, hv, s2, h2, h⟩ := h
    cases h
    exact ((reads_readVu32 hv).trans (reads_readVu7 (readReserved_ok h2))).immSpan
  case h_10 =>
    obtain ⟨⟨a, s1⟩, ha, ⟨b, s2⟩, hb, h⟩ := h
    split at h
    · simp at h
    · cases h
      exact ((reads_readVu7 ha).trans (reads_readVu7 hb)).immSpan
  case h_11 =>
    obtain ⟨s1, h1, h⟩ := h
    cases h
    exact (reads_readVu7 (readReserved_ok h1)).immSpan
  case h_13 | h_15 =>
    obtain ⟨⟨a, s1⟩, ha, ⟨b, s2⟩, hb, h⟩ := h
    cases h
    exact ((reads_readVu32 ha).trans (reads_readVu32 hb)).immSpan
  all_goals
    obtain ⟨⟨v, s1⟩, hv, h⟩ := h
    cases h
    exact (reads_readVu32 hv).immSpan

theorem decodeImm_span {mod : Module} {op : WasmOpcode} {i : Instr} {pc imm pc' : Stream}
    (h : decodeImm mod op pc = .ok (i, imm, pc')) : ImmSpan pc imm pc' := by
  unfold decodeImm at h
  split at h
  all_goals try simp only [readU32Instr, readU32U32Instr, bind_eq_ok] at h
  all_goals try (cases h; exact .refl _)
  all_goals try (obtain ⟨⟨v, s1⟩, hv, h⟩ := h; cases h; exact (reads_readVu32 hv).immSpan)
  case h_3 =>
    obtain ⟨⟨ft, s1⟩, hv, h⟩ := h
    obtain ⟨u, hb, -, rfl⟩ := getBlocktype_ok hv
    cases h
    exact (reads_advance hb).immSpan
  case h_6 =>
    obtain ⟨⟨v, s1⟩, hv, h⟩ := h
    cases h
    exact (reads_readU8 hv).immSpan
  case h_10 =>
    obtain ⟨⟨a, s1⟩, ha, ⟨b, s2⟩, hb, h⟩ := h
    cases h
    exact ((reads_readVu32 ha).trans (reads_readVu32 hb)).immSpan
  case h_13 =>
    obtain ⟨⟨n, s1⟩, hn, h⟩ := h
    split at h
    · simp at h
    · obtain ⟨⟨t, s2⟩, ht, h⟩ := bind_eq_ok.mp h
      obtain ⟨-, m, hm, -⟩ := readType_ok ht
      cases h
      exact ((reads_readVi7 hn).trans (reads_readVi7 hm)).immSpan
  case h_21 =>
    obtain ⟨⟨a, s1⟩, ha, ⟨b, s2⟩, hb, h⟩ := h
    cases h
    exact ((reads_readVu7 ha).trans (reads_readVu32 hb)).immSpan
  case h_22 | h_23 =>
    obtain ⟨s1, h1, h⟩ := h
    cases h
    exact (reads_readVu7 (readReserved_ok h1)).immSpan
  case h_24 =>
    obtain ⟨⟨v, s1⟩, hv, h⟩ := h
    cases h
    exact (reads_readVi32 hv).immSpan
  case h_25 =>
    obtain ⟨⟨v, s1⟩, hv, h⟩ := h
    cases h
    exact (reads_readVi64 hv).immSpan
  case h_26 =>
    obtain ⟨⟨v, s1⟩, hv, h⟩ := h
    cases h
    exact (reads_readFixed (by decide) hv).immSpan
  case h_27 =>
    obtain ⟨⟨v, s1⟩, hv, h⟩ := h
    cases h
    exact (reads_readFixed (by decide) hv).immSpan
  case h_41 =>
    obtain ⟨⟨t, s1⟩, ht, h⟩ := h
    obtain ⟨-, m, hm, -⟩ := readType_ok ht
    cases h
    exact (reads_readVi7 hm).immSpan
  case h_44 =>
    obtain ⟨⟨o, s1⟩, ho, h⟩ := h
    split at h
    · simp at h
    · exact (reads_readVu32 ho).immSpan_trans (decodeImmFc_span h)
  case h_45 =>
    obtain ⟨⟨o, s1⟩, ho, h⟩ := h
    cases h
    exact (reads_readVu32 ho).immSpan_trans (.refl _)

/-- One instruction of `code` at offset `p`, as the decoder reads it: what the callback gets,
the offset of the immediates, and the offset of the next opcode. -/
def fetch (mod : Module) (code : Str) (p : ℕ) : R (Instr × ℕ × ℕ) := do
  let (opcode, pc) ← Stream.readU8 ⟨code, p⟩
  match WasmOpcode.ofByte? opcode with
  | none => err .malformed "Invalid opcode"
  | some op => do
    let (i, imm, pc) ← decodeImm mod op pc
    let pc ← decodeRest i pc
    .ok (i, imm.p, pc.p)

theorem decodeRest_ok {i : Instr} {pc pc' : Stream} (h : decodeRest i pc = .ok pc') :
    pc'.s = pc.s ∧ pc.p ≤ pc'.p ∧ pc'.p ≤ max pc.p pc.s.length := by
  unfold decodeRest at h
  split at h
  · obtain ⟨⟨n, s3⟩, hn, h⟩ := bind_eq_ok.mp h
    have hr := reads_readVu32 hn
    obtain ⟨rfl, hle⟩ := seek_ok h
    have hlt := hr.lt
    simp only [advance, hr.s_eq] at hle ⊢
    exact ⟨trivial, by omega, le_max_of_le_right hle⟩
  · simp at h
  · cases h
    exact ⟨rfl, le_rfl, le_max_left _ _⟩

/-- The group of `case` labels that calls the callback. -/
def Instr.case : Instr → OpcodeCase
  | .unreachable => .unreachable
  | .nop => .nop
  | .block _ _ => .block
  | .else_ => .else_
  | .end_ => .end_
  | .brOrIf _ _ => .brOrIf
  | .brTable => .brTable
  | .return_ => .return_
  | .call _ => .call
  | .callIndirect _ _ => .callIndirect
  | .drop => .drop
  | .select => .select
  | .selectT _ => .selectT
  | .localGet _ => .localGet
  | .localSet _ => .localSet
  | .localTee _ => .localTee
  | .globalGet _ => .globalGet
  | .globalSet _ => .globalSet
  | .tableGet _ => .tableGet
  | .tableSet _ => .tableSet
  | .memoryLoadStore _ _ _ => .memoryLoadStore
  | .memorySize => .memorySize
  | .memoryGrow => .memoryGrow
  | .i32Const _ => .i32Const
  | .i64Const _ => .i64Const
  | .f32Const _ => .f32Const
  | .f64Const _ => .f64Const
  | .itestop _ => .itestop
  | .iunop _ => .iunop
  | .irelop _ => .irelop
  | .ibinop _ => .ibinop
  | .funop _ => .funop
  | .frelop _ => .frelop
  | .fbinop _ => .fbinop
  | .wrapop _ => .wrapop
  | .truncop _ => .truncop
  | .convertop _ => .convertop
  | .rankop _ => .rankop
  | .reinterpretop _ => .reinterpretop
  | .extendop _ => .extendop
  | .refNull _ => .refNull
  | .refIsNull => .refIsNull
  | .refFunc _ => .refFunc
  | .opcodeFd _ => .prefixFd
  | _ => .prefixFc

theorem decodeImmFc_case {op : WasmOpcodeFc} {i : Instr} {pc imm pc' : Stream}
    (h : decodeImmFc op pc = .ok (i, imm, pc')) : i.case = .prefixFc := by
  unfold decodeImmFc at h
  split at h
  all_goals try simp only [readU32Instr, readU32U32Instr, bind_eq_ok] at h
  case h_10 =>
    obtain ⟨_, _, _, _, h⟩ := h
    split at h <;> cases h
    rfl
  all_goals first
    | (cases h; rfl)
    | (obtain ⟨_, _, h⟩ := h; cases h; rfl)
    | (obtain ⟨_, _, _, _, h⟩ := h; cases h; rfl)

theorem decodeImm_case {mod : Module} {op : WasmOpcode} {i : Instr} {pc imm pc' : Stream}
    (h : decodeImm mod op pc = .ok (i, imm, pc')) : i.case = op.case := by
  unfold decodeImm at h
  split at h
  all_goals rename_i hc
  all_goals try simp only [readU32Instr, readU32U32Instr, bind_eq_ok] at h
  all_goals rw [hc]
  case h_13 =>
    obtain ⟨_, _, h⟩ := h
    split at h
    · simp at h
    · obtain ⟨_, _, h⟩ := bind_eq_ok.mp h
      cases h; rfl
  case h_44 =>
    obtain ⟨_, _, h⟩ := h
    split at h
    · simp at h
    · exact decodeImmFc_case h
  all_goals first
    | (cases h; rfl)
    | (obtain ⟨_, _, h⟩ := h; cases h; rfl)
    | (obtain ⟨_, _, _, _, h⟩ := h; cases h; rfl)

/-- The opcodes of the control instructions, by their callbacks. -/
theorem WasmOpcode.case_inv (op : WasmOpcode) :
    match op.case with
    | .unreachable => op = .unreachable
    | .block => op = .block ∨ op = .loop ∨ op = .if_
    | .else_ => op = .else_
    | .end_ => op = .end_
    | .brOrIf => op = .br ∨ op = .brIf
    | .brTable => op = .brTable
    | .return_ => op = .return_
    | _ => True := by
  cases op with
  | block => exact .inl rfl
  | loop => exact .inr (.inl rfl)
  | if_ => exact .inr (.inr rfl)
  | br => exact .inl rfl
  | brIf => exact .inr rfl
  | unreachable | else_ | end_ | brTable | return_ => exact rfl
  | _ => exact trivial

namespace WasmOpcode
variable {op : WasmOpcode}

theorem eq_unreachable (h : op.case = .unreachable) : op = .unreachable := by simpa only [h] using op.case_inv

theorem block_loop_or_if (h : op.case = .block) : op = .block ∨ op = .loop ∨ op = .if_ := by
  simpa only [h] using op.case_inv

theorem eq_else (h : op.case = .else_) : op = .else_ := by simpa only [h] using op.case_inv

theorem eq_end (h : op.case = .end_) : op = .end_ := by simpa only [h] using op.case_inv

theorem br_or_brIf (h : op.case = .brOrIf) : op = .br ∨ op = .brIf := by simpa only [h] using op.case_inv

theorem eq_brTable (h : op.case = .brTable) : op = .brTable := by simpa only [h] using op.case_inv

theorem eq_return (h : op.case = .return_) : op = .return_ := by simpa only [h] using op.case_inv

end WasmOpcode

/-- `end` is the only opcode whose callback is `on_end`. -/
theorem decodeImm_end_iff {mod : Module} {op : WasmOpcode} {i : Instr} {pc imm pc' : Stream}
    (h : decodeImm mod op pc = .ok (i, imm, pc')) : i = .end_ ↔ op = .end_ := by
  constructor
  · rintro rfl
    exact WasmOpcode.eq_end (decodeImm_case h).symm
  · rintro rfl
    have : decodeImm mod .end_ pc = .ok (.end_, pc, pc) := rfl
    rw [this] at h
    cases h; rfl

/-- The bytes a fetched instruction is made of. -/
theorem fetch_ok {mod : Module} {code : Str} {p imm q : ℕ} {i : Instr} :
    fetch mod code p = .ok (i, imm, q) ↔
      ∃ b op pc, code[p]? = some b ∧ WasmOpcode.ofByte? b.toNat = some op ∧
        decodeImm mod op ⟨code, p + 1⟩ = .ok (i, ⟨code, imm⟩, pc) ∧
        decodeRest i pc = .ok ⟨code, q⟩ := by
  constructor
  · intro h
    simp only [fetch, bind_eq_ok] at h
    obtain ⟨⟨b, s1⟩, hb, h⟩ := h
    obtain ⟨hb', rfl⟩ := Stream.readU8_ok hb
    obtain ⟨x, hx, rfl⟩ := Option.map_eq_some_iff.mp hb'
    split at h
    · simp at h
    · next op hop =>
      obtain ⟨⟨i', ⟨s, m⟩, pc⟩, hi, h2⟩ := bind_eq_ok.mp h
      obtain ⟨⟨s', q'⟩, hr, h3⟩ := bind_eq_ok.mp h2
      have hs := decodeImm_span hi
      obtain rfl : s = code := hs.imm_s
      obtain rfl : s' = s := (decodeRest_ok hr).1.trans hs.s_eq
      cases h3
      exact ⟨x, op, pc, hx, hop, hi, hr⟩
  · rintro ⟨b, op, pc, hb, hop, hi, hr⟩
    have hread : Stream.readU8 ⟨code, p⟩ = .ok (b.toNat, ⟨code, p + 1⟩) := by
      simp [Stream.readU8, byteAt?, hb, advance]
    simp [fetch, hread, hop, hi, hr]

/-- A fetched instruction occupies the bytes from `p` to `q`. -/
theorem fetch_span {mod : Module} {code : Str} {p imm q : ℕ} {i : Instr}
    (h : fetch mod code p = .ok (i, imm, q)) : p < imm ∧ imm ≤ q ∧ q ≤ code.length := by
  obtain ⟨b, op, pc, hb, -, hi, hr⟩ := fetch_ok.mp h
  have hp : p < code.length := (List.getElem?_eq_some_iff.mp hb).1
  have hs := decodeImm_span hi
  obtain ⟨-, h1, h2⟩ := decodeRest_ok hr
  have h3 := hs.le_imm
  have h4 := hs.imm_le
  have h5 := hs.le
  have h6 := hs.s_eq
  simp only at h1 h2 h3 h4 h5 h6
  rw [h6] at h2
  omega

theorem fetch_br {mod : Module} {p imm q l : ℕ} {code : Str} {o : WasmOpcode}
    (h : fetch mod code p = .ok (.brOrIf o l, imm, q)) :
    imm = p + 1 ∧ q = p + 2 ∧ (o = .br ∨ o = .brIf) ∧
      ∃ b, code[p]? = some b ∧ WasmOpcode.ofByte? b.toNat = some o := by
  obtain ⟨b, op, pc, hb, hop, hi, hr⟩ := fetch_ok.mp h
  have hcase : op.case = .brOrIf := (decodeImm_case hi).symm
  have hor := WasmOpcode.br_or_brIf hcase
  unfold decodeImm at hi
  rw [hcase] at hi
  obtain ⟨⟨lth, pc1⟩, hl, hi1⟩ := bind_eq_ok.mp hi
  obtain ⟨-, rfl⟩ := Stream.readU8_ok hl
  cases hi1
  cases hr
  exact ⟨rfl, rfl, hor, b, hb, hop⟩

theorem fetch_brTable {mod : Module} {p imm q : ℕ} {code : Str}
    (h : fetch mod code p = .ok (.brTable, imm, q)) :
    imm = p + 1 ∧ ∃ n pc1, Stream.readVu32 ⟨code, imm⟩ = .ok (n, ⟨code, pc1⟩) ∧
      q = pc1 + (n + 1) % 2 ^ 32 := by
  obtain ⟨b, op, pc, hb, hop, hi, hr⟩ := fetch_ok.mp h
  have hcase : op.case = .brTable := (decodeImm_case hi).symm
  unfold decodeImm at hi
  rw [hcase] at hi
  cases hi
  obtain ⟨⟨n, s1, p1⟩, hn, hr1⟩ := bind_eq_ok.mp hr
  obtain rfl : s1 = code := (Stream.reads_readVu32 hn).s_eq
  obtain ⟨hadv, -⟩ := Stream.seek_ok hr1
  simp only [Stream.advance, Stream.mk.injEq] at hadv
  exact ⟨rfl, n, p1, hn, hadv.2⟩

section Round
variable {σ : Type} {mod : Module} {cb : OpDecoderCallbacks σ} {code : Str}

/-- A round of the loop is a fetch and a callback. -/
theorem decodeRound_ok {p : ℕ} {x x' : σ} {st' : Stream} {fin : Bool} :
    decodeRound mod cb ⟨code, p⟩ x = .ok (x', st', fin) ↔
      ∃ i imm q, fetch mod code p = .ok (i, imm, q) ∧ cb.onInstr i ⟨code, imm⟩ x = .ok x' ∧
        st' = ⟨code, q⟩ ∧ fin = (i == .end_ && q == code.length) := by
  have hfin : ∀ {op i pc imm q}, decodeImm mod op ⟨code, p + 1⟩ = .ok (i, imm, pc) → q ≤ code.length →
      (op == .end_ && Stream.remaining ⟨code, q⟩ == 0) = (i == .end_ && q == code.length) := by
    intro op i pc imm q hi hq
    have hend := decodeImm_end_iff hi
    by_cases he : i = .end_
    · have : (code.length - q = 0) ↔ q = code.length := by omega
      rw [he, hend.mp he, Bool.eq_iff_iff]
      simp [Stream.remaining, this]
    · have ho : op ≠ .end_ := fun ho => he (hend.mpr ho)
      rw [beq_eq_false_iff_ne.mpr ho, beq_eq_false_iff_ne.mpr he]
      rfl
  constructor
  · intro h
    simp only [decodeRound, bind_eq_ok] at h
    obtain ⟨⟨b, s1⟩, hb, h⟩ := h
    obtain ⟨hb', rfl⟩ := Stream.readU8_ok hb
    obtain ⟨x1, hx1, rfl⟩ := Option.map_eq_some_iff.mp hb'
    split at h
    · simp at h
    · next op hop =>
      simp only [decodeOpcode, bind_eq_ok] at h
      obtain ⟨⟨y, s2⟩, ⟨⟨i, ⟨s, m⟩, pc⟩, hi, z, hz, ⟨s', q⟩, hr, h⟩, h'⟩ := h
      have hs := decodeImm_span hi
      obtain rfl : s = code := hs.imm_s
      obtain rfl : s' = s := (decodeRest_ok hr).1.trans hs.s_eq
      have hf := fetch_ok.mpr ⟨x1, op, pc, hx1, hop, hi, hr⟩
      cases h
      cases h'
      exact ⟨i, m, q, hf, hz, rfl, hfin hi (fetch_span hf).2.2⟩
  · rintro ⟨i, imm, q, hf, hcb, rfl, rfl⟩
    obtain ⟨b, op, pc, hb, hop, hi, hr⟩ := fetch_ok.mp hf
    have hread : Stream.readU8 ⟨code, p⟩ = .ok (b.toNat, ⟨code, p + 1⟩) := by
      simp [Stream.readU8, byteAt?, hb, advance]
    simp only [decodeRound, hread, ok_bind, hop, decodeOpcode, hi, hcb, hr,
      hfin hi (fetch_span hf).2.2]

end Round

end Silverfir
