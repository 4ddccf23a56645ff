import Silverfir.Leb
import Silverfir.ValidatorPlain

/-! The control registers of `in_place_dt_call`: `pc`, kept as an offset into the code, and
`next_jt_idx`. The handlers read the immediates with the unchecked readers. -/
namespace Silverfir

/-- What the interpreter sees of an instruction: it skips the alignment of loads and stores and
the types of `select` and `ref.null`. -/
def Instr.erase : Instr → Instr
  | .selectT _ => .select
  | .memoryLoadStore op _ offset => .memoryLoadStore op 0 offset
  | .refNull _ => .refNull .funcref
  | i => i

namespace InPlaceDt

/-- An instruction with one index. -/
def readIdx (i : ℕ → Instr) (code : Str) (pc : ℕ) : R (Instr × ℕ) := do
  let (u, pc) ← Unchecked.readVu32 code pc
  .ok (i u, pc)

def readIdxIdx (i : ℕ → ℕ → Instr) (code : Str) (pc : ℕ) : R (Instr × ℕ) := do
  let (u1, pc) ← Unchecked.readVu32 code pc
  let (u2, pc) ← Unchecked.readVu32 code pc
  .ok (i u1 u2, pc)

/-- The handlers behind the 0xfc prefix. -/
def readImmFc (op : WasmOpcodeFc) (code : Str) (pc : ℕ) : R (Instr × ℕ) :=
  match op with
  | .i32TruncSatF32S | .i32TruncSatF32U | .i32TruncSatF64S | .i32TruncSatF64U
  | .i64TruncSatF32S | .i64TruncSatF32U | .i64TruncSatF64S | .i64TruncSatF64U =>
    .ok (.truncSat op, pc)
  | .memoryInit => do
    let (dataIdx, pc) ← Unchecked.readVu32 code pc
    .ok (.memoryInit dataIdx, pc + 1)
  | .memoryCopy => .ok (.memoryCopy, pc + 2)
  | .memoryFill => .ok (.memoryFill, pc + 1)
  | .dataDrop => readIdx .dataDrop code pc
  | .tableInit => readIdxIdx .tableInit code pc
  | .elemDrop => readIdx .elemDrop code pc
  | .tableCopy => readIdxIdx .tableCopy code pc
  | .tableGrow => readIdx .tableGrow code pc
  | .tableSize => readIdx .tableSize code pc
  | .tableFill => readIdx .tableFill code pc

/-- The immediates of the instructions without control flow, and the offset behind them. -/
def readImm (op : WasmOpcode) (code : Str) (pc : ℕ) : R (Instr × ℕ) :=
  match op.case with
  | .nop => .ok (.nop, pc)
  | .call => readIdx .call code pc
  | .callIndirect => readIdxIdx .callIndirect code pc
  | .drop => .ok (.drop, pc)
  | .select => .ok (.select, pc)
  | .selectT => .ok (.select, pc + 2)
  | .localGet => readIdx .localGet code pc
  | .localSet => readIdx .localSet code pc
  | .localTee => readIdx .localTee code pc
  | .globalGet => readIdx .globalGet code pc
  | .globalSet => readIdx .globalSet code pc
  | .tableGet => readIdx .tableGet code pc
  | .tableSet => readIdx .tableSet code pc
  | .memoryLoadStore => do
    let (offset, pc) ← Unchecked.readVu32 code (pc + 1)
    .ok (.memoryLoadStore op 0 offset, pc)
  | .memorySize => .ok (.memorySize, pc + 1)
  | .memoryGrow => .ok (.memoryGrow, pc + 1)
  | .i32Const => do
    let (val, pc) ← Unchecked.readVi32 code pc
    .ok (.i32Const val, pc)
  | .i64Const => do
    let (val, pc) ← Unchecked.readVi64 code pc
    .ok (.i64Const val, pc)
  | .f32Const => do
    let (val, pc) ← Unchecked.readFixed 4 code pc
    .ok (.f32Const val, pc)
  | .f64Const => do
    let (val, pc) ← Unchecked.readFixed 8 code pc
    .ok (.f64Const val, pc)
  | .itestop => .ok (.itestop op, pc)
  | .iunop => .ok (.iunop op, pc)
  | .irelop => .ok (.irelop op, pc)
  | .ibinop => .ok (.ibinop op, pc)
  | .funop => .ok (.funop op, pc)
  | .frelop => .ok (.frelop op, pc)
  | .fbinop => .ok (.fbinop op, pc)
  | .wrapop => .ok (.wrapop op, pc)
  | .truncop => .ok (.truncop op, pc)
  | .convertop => .ok (.convertop op, pc)
  | .rankop => .ok (.rankop op, pc)
  | .reinterpretop => .ok (.reinterpretop op, pc)
  | .extendop => .ok (.extendop op, pc)
  | .refNull => .ok (.refNull .funcref, pc + 1)
  | .refIsNull => .ok (.refIsNull, pc)
  | .refFunc => readIdx .refFunc code pc
  | .prefixFc => do
    let (opcodeFc, pc) ← Unchecked.readVu32 code pc
    match WasmOpcodeFc.ofU32? opcodeFc with
    | none => err .malformed "Invalid opcode"
    | some op => readImmFc op code pc
  | .prefixFd => do
    let (opcodeFd, pc) ← Unchecked.readVu32 code pc
    if opcodeFd = 0 then .ok (.opcodeFd opcodeFd, pc) else err .malformed "Unsupported opcode"
  | .unreachable | .block | .else_ | .end_ | .brOrIf | .brTable | .return_ =>
    undef "not a plain instruction"

/-- How a handler goes on: with the next instruction, or through a slot of the jump table, or out
of the loop. A plain instruction leaves its effect on the operands to the caller. -/
inductive Flow where
  | plain (i : Instr) (pc : ℕ)
  | next (pc nextJtIdx : ℕ)
  | jump (pc nextJtIdx : ℕ) (unwind : Bool)
  | finish
  | trap
  deriving DecidableEq, Repr

/-- The 32-bit operand that `if`, `br_if` and `br_table` pop. -/
def popsOperand : WasmOpcode → Bool
  | .if_ | .brIf | .brTable => true
  | _ => false

/-- The handlers; `pc` is behind the opcode. -/
def handler (op : WasmOpcode) (code : Str) (pc nextJtIdx operand : ℕ) : R Flow :=
  match op with
  | .unreachable => .ok .trap
  | .block | .loop => .ok (.next (pc + 1) nextJtIdx)
  | .if_ => .ok (if operand ≠ 0 then .next (pc + 1) ((nextJtIdx + 1) % 2 ^ 16) else .jump pc nextJtIdx false)
  | .else_ => .ok (.jump pc nextJtIdx false)
  | .end_ => .ok (if pc = code.length then .finish else .next pc nextJtIdx)
  | .br => .ok (.jump pc nextJtIdx true)
  | .brIf => .ok (if operand ≠ 0 then .jump pc nextJtIdx true else .next (pc + 1) ((nextJtIdx + 1) % 2 ^ 16))
  | .brTable => do
    let (tableLen, pc) ← Unchecked.readVu32 code pc
    let i := if operand > tableLen then tableLen else operand
    .ok (.jump (pc + (tableLen + 1) % 2 ^ 32) ((nextJtIdx + i % 2 ^ 16) % 2 ^ 16) true)
  | .return_ => .ok .finish
  | op => do
    let (i, pc) ← readImm op code pc
    .ok (.plain i pc)

structure Regs where
  pc : ℤ
  nextJtIdx : ℕ
  deriving DecidableEq, Repr

/-- The opcode at `pc`. With direct threading a byte that is no opcode jumps nowhere. -/
def opcodeAt (code : Str) (pc : ℤ) : R WasmOpcode :=
  if pc < 0 then undef "read outside the code"
  else do
    let b ← Unchecked.byteAt code pc.toNat
    match WasmOpcode.ofByte? b with
    | none => undef "opcode_map"
    | some op => .ok op

/-- One pass of the loop up to the use of the jump table. -/
def dispatch (code : Str) (r : Regs) (operand : ℕ) : R Flow := do
  let op ← opcodeAt code r.pc
  handler op code (r.pc.toNat + 1) r.nextJtIdx operand

/-- The slot a jump goes through. Nothing checks the index. -/
def slotAt (jt : List JumpTable) (nextJtIdx : ℕ) : R JumpTable :=
  match jt[nextJtIdx]? with
  | none => undef "jump table index"
  | some tbl => .ok tbl

/-- The registers after a handler, when the loop goes on. -/
def follow (jt : List JumpTable) (nextJtIdx : ℕ) : Flow → R (Option Regs)
  | .plain _ pc => .ok (some ⟨pc, nextJtIdx⟩)
  | .next pc nextJtIdx => .ok (some ⟨pc, nextJtIdx⟩)
  | .jump pc nextJtIdx _ => do
    let tbl ← slotAt jt nextJtIdx
    .ok (some ⟨pc + tbl.targetOffset, tbl.nextIdx⟩)
  | .finish => .ok none
  | .trap => .ok none

def regsStep (f : Func) (r : Regs) (operand : ℕ) : R (Option Regs) := do
  let flow ← dispatch f.code r operand
  follow f.jt r.nextJtIdx flow

/-- What the registers can be after one instruction, whatever the operands are. After an access
outside the code or the table they can be anything. -/
def RegsStep (f : Func) (r r' : Regs) : Prop :=
  ∃ operand, regsStep f r operand = .ok (some r') ∨ ∃ what, regsStep f r operand = .error (.undefined what)

/-- `pc` and `next_jt_idx` at the start of the loop. -/
def Regs.start : Regs := ⟨0, 0⟩

/-! ### The operand stack -/

/-- The registers and the operand stack, with the top at the head; `sp - stack_base` is its
length. `V` is the type of a stack slot. -/
structure Act (V : Type) where
  regs : Regs
  stack : List V
  deriving DecidableEq, Repr

/-- What is left to do after the loop has handled its own instructions. -/
inductive Outcome (V : Type) where
  | plain (i : Instr) (a : Act V)
  | next (a : Act V)
  | finish (stack : List V)
  | trap
  deriving DecidableEq, Repr

/-- `handle_br`: the operands of the label move down over those of the frames that are left. -/
def unwindStack {V : Type} (tbl : JumpTable) (stack : List V) : R (List V) :=
  if tbl.stackOffset = 0 then .ok stack
  else if stack.length < tbl.stackOffset + tbl.arity then undef "branch below stack_base"
  else .ok (stack.take tbl.arity ++ stack.drop (tbl.arity + tbl.stackOffset))

/-- The operand of `if`, `br_if` and `br_table`; `cond` reads 32 bits of a slot. -/
def popOperand {V : Type} (cond : V → ℕ) (pops : Bool) (stack : List V) : R (ℕ × List V) :=
  if pops then
    match stack with
    | [] => undef "pop below stack_base"
    | v :: rest => .ok (cond v, rest)
  else .ok (0, stack)

def followStack {V : Type} (jt : List JumpTable) (nextJtIdx : ℕ) (stack : List V) : Flow → R (Outcome V)
  | .plain i pc => .ok (.plain i ⟨⟨pc, nextJtIdx⟩, stack⟩)
  | .next pc nextJtIdx => .ok (.next ⟨⟨pc, nextJtIdx⟩, stack⟩)
  | .jump pc nextJtIdx unwind => do
    let tbl ← slotAt jt nextJtIdx
    let stack ← if unwind then unwindStack tbl stack else .ok stack
    .ok (.next ⟨⟨pc + tbl.targetOffset, tbl.nextIdx⟩, stack⟩)
  | .finish => .ok (.finish stack)
  | .trap => .ok .trap

/-- One pass of the loop: control instructions are done, a plain instruction is handed on with
the registers behind it. -/
def actStep {V : Type} (f : Func) (cond : V → ℕ) (a : Act V) : R (Outcome V) := do
  let op ← opcodeAt f.code a.regs.pc
  let (operand, stack) ← popOperand cond (popsOperand op) a.stack
  let flow ← handler op f.code (a.regs.pc.toNat + 1) a.regs.nextJtIdx operand
  followStack f.jt a.regs.nextJtIdx stack flow

end InPlaceDt

/-! ### Reading an instruction twice -/

namespace Validator

open InPlaceDt

theorem readIdx_of_checked {i : ℕ → Instr} {pc imm pc' : Stream} {j : Instr}
    (h : readU32Instr i pc = .ok (j, imm, pc')) : readIdx i pc.s pc.p = .ok (j, pc'.p) := by
  obtain ⟨⟨u, pc1⟩, hu, h⟩ := bind_eq_ok.mp h
  cases h
  simp [readIdx, readVu32_unchecked hu]

theorem readIdxIdx_of_checked {i : ℕ → ℕ → Instr} {pc imm pc' : Stream} {j : Instr}
    (h : readU32U32Instr i pc = .ok (j, imm, pc')) : readIdxIdx i pc.s pc.p = .ok (j, pc'.p) := by
  obtain ⟨⟨u1, pc1⟩, hu1, h1⟩ := bind_eq_ok.mp h
  obtain ⟨⟨u2, pc2⟩, hu2, h2⟩ := bind_eq_ok.mp h1
  cases h2
  have hs : pc1.s = pc.s := (Stream.reads_readVu32 hu1).s_eq
  have hr := readVu32_unchecked hu2
  rw [hs] at hr
  simp [readIdxIdx, readVu32_unchecked hu1, hr]

theorem readImmFc_of_checked {op : WasmOpcodeFc} {i : Instr} {pc imm pc' : Stream}
    (h : decodeImmFc op pc = .ok (i, imm, pc')) : readImmFc op pc.s pc.p = .ok (i, pc'.p) := by
  unfold decodeImmFc at h
  unfold readImmFc
  split at h
  case h_9 =>
    obtain ⟨⟨v, s1⟩, hv, h1⟩ := bind_eq_ok.mp h
    obtain ⟨s2, h2, h3⟩ := bind_eq_ok.mp h1
    obtain ⟨-, -, rfl⟩ := Stream.readVu7_ok (readReserved_ok h2)
    cases h3
    simp [readVu32_unchecked hv, Stream.advance]
  case h_10 =>
    obtain ⟨⟨a, s1⟩, ha, h1⟩ := bind_eq_ok.mp h
    obtain ⟨⟨b, s2⟩, hb, h2⟩ := bind_eq_ok.mp h1
    obtain ⟨-, -, rfl⟩ := Stream.readVu7_ok ha
    obtain ⟨-, -, rfl⟩ := Stream.readVu7_ok hb
    cases (guard_eq_ok.mp h2).2
    rfl
  case h_11 =>
    obtain ⟨s1, h1, h2⟩ := bind_eq_ok.mp h
    obtain ⟨-, -, rfl⟩ := Stream.readVu7_ok (readReserved_ok h1)
    cases h2
    rfl
  all_goals first
    | (cases h; rfl)
    | exact readIdx_of_checked h
    | exact readIdxIdx_of_checked h

theorem Instr.erase_of_case {i : Instr} (h : i.case = .prefixFc) : i.erase = i := by
  cases i <;> first | rfl | simp [Instr.case] at h

/-- A plain instruction is read alike by the decoder and by the interpreter. -/
theorem readImm_of_checked {mod : Module} {op : WasmOpcode} {i : Instr} {pc imm pc' : Stream}
    (h : decodeImm mod op pc = .ok (i, imm, pc')) (hc : i.isControl = false) (hfd : ∀ n, i ≠ .opcodeFd n) :
    readImm op pc.s pc.p = .ok (i.erase, pc'.p) := by
  have hcase := decodeImm_case h
  unfold decodeImm at h
  unfold readImm
  split at h
  all_goals rename_i hop
  all_goals rw [hop]
  all_goals rw [hop] at hcase
  case h_1 | h_3 | h_4 | h_5 | h_6 | h_7 | h_8 =>
    cases i <;> first | (cases hcase; done) | cases hc
  case h_13 =>
    obtain ⟨⟨n, s1⟩, hn, h1⟩ := bind_eq_ok.mp h
    obtain ⟨⟨t, s2⟩, ht, h2⟩ := bind_eq_ok.mp (guard_eq_ok.mp h1).2
    obtain ⟨-, m, hm, -⟩ := readType_ok ht
    obtain ⟨u, -, -, -, rfl⟩ := Stream.readVi7_ok hn
    obtain ⟨v, -, -, -, rfl⟩ := Stream.readVi7_ok hm
    cases h2
    rfl
  case h_21 =>
    obtain ⟨⟨a, s1⟩, ha, h1⟩ := bind_eq_ok.mp h
    obtain ⟨⟨b, s2⟩, hb, h2⟩ := bind_eq_ok.mp h1
    obtain ⟨-, -, rfl⟩ := Stream.readVu7_ok ha
    cases h2
    have hr := readVu32_unchecked hb
    simp only [Stream.advance] at hr
    simp [hr, Instr.erase]
  case h_22 | h_23 =>
    obtain ⟨s1, h1, h2⟩ := bind_eq_ok.mp h
    obtain ⟨-, -, rfl⟩ := Stream.readVu7_ok (readReserved_ok h1)
    cases h2
    rfl
  case h_24 =>
    obtain ⟨⟨v, s1⟩, hv, h1⟩ := bind_eq_ok.mp h
    cases h1
    simp [readVi32_unchecked hv, Instr.erase]
  case h_25 =>
    obtain ⟨⟨v, s1⟩, hv, h1⟩ := bind_eq_ok.mp h
    cases h1
    simp [readVi64_unchecked hv, Instr.erase]
  case h_26 | h_27 =>
    obtain ⟨⟨v, s1⟩, hv, h1⟩ := bind_eq_ok.mp h
    cases h1
    simp [readFixed_unchecked hv (by decide), Instr.erase]
  case h_41 =>
    obtain ⟨⟨t, s1⟩, ht, h1⟩ := bind_eq_ok.mp h
    obtain ⟨-, m, hm, -⟩ := readType_ok ht
    obtain ⟨u, -, -, -, rfl⟩ := Stream.readVi7_ok hm
    cases h1
    rfl
  case h_44 =>
    obtain ⟨⟨o, s1⟩, ho, h1⟩ := bind_eq_ok.mp h
    have hs : s1.s = pc.s := (Stream.reads_readVu32 ho).s_eq
    simp only at h1
    split at h1
    · simp at h1
    · next opFc hfc =>
      have hr := readImmFc_of_checked h1
      rw [hs] at hr
      simp [readVu32_unchecked ho, hfc, hr, Instr.erase_of_case hcase]
  case h_45 =>
    obtain ⟨⟨o, s1⟩, ho, h1⟩ := bind_eq_ok.mp h
    cases h1
    exact absurd rfl (hfd o)
  all_goals first
    | (cases h; rfl)
    | (rw [readIdx_of_checked h]
       obtain ⟨⟨u, pc1⟩, -, h1⟩ := bind_eq_ok.mp h
       cases h1
       rfl)
    | (rw [readIdxIdx_of_checked h]
       obtain ⟨⟨u1, pc1⟩, -, h1⟩ := bind_eq_ok.mp h
       obtain ⟨⟨u2, pc2⟩, -, h2⟩ := bind_eq_ok.mp h1
       cases h2
       rfl)

end Validator

end Silverfir
