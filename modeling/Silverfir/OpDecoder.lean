import Silverfir.Module
import Silverfir.Opcode

/-! The instruction decoder of `op_decoder.c`: one loop, generic in its callbacks. -/
namespace Silverfir

/-- What a callback of `op_decoder_callbacks` receives: one constructor for each callback. -/
inductive Instr where
  | unreachable | nop
  | block (op : WasmOpcode) (type : FuncType)
  | else_ | end_
  | brOrIf (op : WasmOpcode) (lth : ℕ)
  | brTable | return_
  | call (funcIdx : ℕ)
  | callIndirect (typeIdx tableIdx : ℕ)
  | drop | select
  | selectT (type : TypeId)
  | localGet (idx : ℕ) | localSet (idx : ℕ) | localTee (idx : ℕ)
  | globalGet (idx : ℕ) | globalSet (idx : ℕ)
  | tableGet (idx : ℕ) | tableSet (idx : ℕ)
  | memoryLoadStore (op : WasmOpcode) (align offset : ℕ)
  | memorySize | memoryGrow
  | i32Const (val : ℕ) | i64Const (val : ℕ) | f32Const (val : ℕ) | f64Const (val : ℕ)
  | itestop (op : WasmOpcode) | iunop (op : WasmOpcode) | irelop (op : WasmOpcode)
  | ibinop (op : WasmOpcode) | funop (op : WasmOpcode) | frelop (op : WasmOpcode)
  | fbinop (op : WasmOpcode) | wrapop (op : WasmOpcode) | truncop (op : WasmOpcode)
  | convertop (op : WasmOpcode) | rankop (op : WasmOpcode) | reinterpretop (op : WasmOpcode)
  | extendop (op : WasmOpcode)
  | refNull (type : TypeId) | refIsNull | refFunc (fref : ℕ)
  | truncSat (op : WasmOpcodeFc)
  | memoryInit (dataIdx : ℕ) | memoryCopy | memoryFill | dataDrop (dataIdx : ℕ)
  | tableInit (elemIdx tableIdx : ℕ) | elemDrop (elemIdx : ℕ)
  | tableCopy (tableIdxDst tableIdxSrc : ℕ)
  | tableGrow (tableIdx : ℕ) | tableSize (tableIdx : ℕ) | tableFill (tableIdx : ℕ)
  | opcodeFd (op : ℕ)
  deriving DecidableEq, Repr

/-- The groups of `case` labels in the `switch` of `decode_function`. -/
inductive OpcodeCase where
  | unreachable | nop | block | else_ | end_ | brOrIf | brTable | return_ | call | callIndirect
  | drop | select | selectT | localGet | localSet | localTee | globalGet | globalSet | tableGet
  | tableSet | memoryLoadStore | memorySize | memoryGrow | i32Const | i64Const | f32Const
  | f64Const | itestop | iunop | irelop | ibinop | funop | frelop | fbinop | wrapop | truncop
  | convertop | rankop | reinterpretop | extendop | refNull | refIsNull | refFunc | prefixFc
  | prefixFd
  deriving DecidableEq, Repr

def WasmOpcode.case : WasmOpcode → OpcodeCase
  | .unreachable => .unreachable
  | .nop => .nop
  | .block | .loop | .if_ => .block
  | .else_ => .else_
  | .end_ => .end_
  | .br | .brIf => .brOrIf
  | .brTable => .brTable
  | .return_ => .return_
  | .call => .call
  | .callIndirect => .callIndirect
  | .drop => .drop
  | .select => .select
  | .selectT => .selectT
  | .localGet => .localGet
  | .localSet => .localSet
  | .localTee => .localTee
  | .globalGet => .globalGet
  | .globalSet => .globalSet
  | .tableGet => .tableGet
  | .tableSet => .tableSet
  | .i32Load | .i32Load8S | .i32Load8U | .i32Load16S | .i32Load16U | .i64Load | .i64Load8S
  | .i64Load8U | .i64Load16S | .i64Load16U | .i64Load32S | .i64Load32U | .f32Load | .f64Load
  | .i32Store | .i32Store8 | .i32Store16 | .i64Store | .i64Store8 | .i64Store16 | .i64Store32
  | .f32Store | .f64Store => .memoryLoadStore
  | .memorySize => .memorySize
  | .memoryGrow => .memoryGrow
  | .i32Const => .i32Const
  | .i64Const => .i64Const
  | .f32Const => .f32Const
  | .f64Const => .f64Const
  | .i32Eqz | .i64Eqz => .itestop
  | .i32Clz | .i64Clz | .i32Ctz | .i64Ctz | .i32Popcnt | .i64Popcnt => .iunop
  | .i32Eq | .i32Ne | .i32LtS | .i32LtU | .i32GtS | .i32GtU | .i32LeS | .i32LeU | .i32GeS
  | .i32GeU | .i64Eq | .i64Ne | .i64LtS | .i64LtU | .i64GtS | .i64GtU | .i64LeS | .i64LeU
  | .i64GeS | .i64GeU => .irelop
  | .i32Add | .i32Sub | .i32Mul | .i32DivS | .i32DivU | .i32RemS | .i32RemU | .i32And | .i32Or
  | .i32Xor | .i32Shl | .i32ShrS | .i32ShrU | .i32Rotl | .i32Rotr | .i64Add | .i64Sub
  | .i64Mul | .i64DivS | .i64DivU | .i64RemS | .i64RemU | .i64And | .i64Or | .i64Xor | .i64Shl
  | .i64ShrS | .i64ShrU | .i64Rotl | .i64Rotr => .ibinop
  | .f32Abs | .f32Neg | .f32Ceil | .f32Floor | .f32Trunc | .f32Nearest | .f32Sqrt | .f64Abs
  | .f64Neg | .f64Ceil | .f64Floor | .f64Trunc | .f64Nearest | .f64Sqrt => .funop
  | .f32Eq | .f32Ne | .f32Lt | .f32Gt | .f32Le | .f32Ge | .f64Eq | .f64Ne | .f64Lt | .f64Gt
  | .f64Le | .f64Ge => .frelop
  | .f32Add | .f32Sub | .f32Mul | .f32Div | .f32Min | .f32Max | .f32Copysign | .f64Add
  | .f64Sub | .f64Mul | .f64Div | .f64Min | .f64Max | .f64Copysign => .fbinop
  | .i32WrapI64 => .wrapop
  | .i32TruncF32S | .i32TruncF32U | .i32TruncF64S | .i32TruncF64U | .i64TruncF32S
  | .i64TruncF32U | .i64TruncF64S | .i64TruncF64U => .truncop
  | .f32ConvertI32S | .f32ConvertI32U | .f32ConvertI64S | .f32ConvertI64U | .f64ConvertI32S
  | .f64ConvertI32U | .f64ConvertI64S | .f64ConvertI64U => .convertop
  | .f32DemoteF64 | .f64PromoteF32 => .rankop
  | .i32ReinterpretF32 | .i64ReinterpretF64 | .f32ReinterpretI32 | .f64ReinterpretI64 => .reinterpretop
  | .i64ExtendI32S | .i64ExtendI32U | .i32Extend8S | .i32Extend16S | .i64Extend8S
  | .i64Extend16S | .i64Extend32S => .extendop
  | .refNull => .refNull
  | .refIsNull => .refIsNull
  | .refFunc => .refFunc
  | .prefixFc => .prefixFc
  | .prefixFd => .prefixFd

/-- `s_block_types`: from `externref` (0x6f) up to `i32` (0x7f). -/
def sBlockTypes : List FuncType :=
  [{ resultCount := 1, results := [0x6f] }, { resultCount := 1, results := [0x70] }] ++
    List.replicate 10 ({ } : FuncType) ++
    [{ resultCount := 1, results := [0x7b] }, { resultCount := 1, results := [0x7c] },
      { resultCount := 1, results := [0x7d] }, { resultCount := 1, results := [0x7e] },
      { resultCount := 1, results := [0x7f] }]

/-- The macro indexes the array with `id - TYPE_ID_externref` and has no bounds check. -/
def toFuncType (id : TypeId) : R FuncType :=
  let idx := id.code - TypeId.externref.code
  if idx < 0 then undef "to_func_type: index outside s_block_types"
  else
    match sBlockTypes[idx.toNat]? with
    | none => undef "to_func_type: index outside s_block_types"
    | some ft => .ok ft

def getBlocktype (mod : Module) (st : Stream) : R (FuncType × Stream) := do
  let (blocktype, st) ← st.readVi7
  if blocktype = TypeId.void_.code then .ok ({}, st)
  else
    match TypeId.ofI8? blocktype with
    | some t =>
      if t.isValueType then do
        let ft ← toFuncType t
        .ok (ft, st)
      else err .malformed "Invalid block value type"
    | none =>
      if 0 ≤ blocktype then
        match mod.funcTypes[blocktype.toNat]? with
        | none => err .malformed "Invalid blocktype index"
        | some ft => .ok (ft, st)
      else err .malformed "Invalid block value type"

/-- A value type immediate that must satisfy `ok`. -/
def readType (ok : TypeId → Bool) (msg : String) (st : Stream) : R (TypeId × Stream) := do
  let (t, st) ← st.readVi7
  match TypeId.ofI8? t with
  | none => err .invalid msg
  | some t => if ok t then .ok (t, st) else err .invalid msg

/-- A one-byte memory index, zero in this version of WebAssembly. -/
def readReserved (msg : String) (st : Stream) : R Stream := do
  let (b, st) ← st.readVu7
  if b ≠ 0 then err .malformed msg else .ok st

def readU32Instr (i : ℕ → Instr) (pc : Stream) : R (Instr × Stream × Stream) := do
  let (u, pc') ← pc.readVu32
  .ok (i u, pc, pc')

def readU32U32Instr (i : ℕ → ℕ → Instr) (pc : Stream) : R (Instr × Stream × Stream) := do
  let (u1, pc') ← pc.readVu32
  let (u2, pc') ← pc'.readVu32
  .ok (i u1 u2, pc, pc')

def memReserved : String := "currently memory.x reserved byte should be zero"

/-- The `switch` on the opcode behind the 0xfc prefix. -/
def decodeImmFc (op : WasmOpcodeFc) (pc : Stream) : R (Instr × Stream × Stream) :=
  match op with
  | .i32TruncSatF32S | .i32TruncSatF32U | .i32TruncSatF64S | .i32TruncSatF64U
  | .i64TruncSatF32S | .i64TruncSatF32U | .i64TruncSatF64S | .i64TruncSatF64U =>
    .ok (.truncSat op, pc, pc)
  | .memoryInit => do
    let (dataIdx, pc') ← pc.readVu32
    let pc' ← readReserved memReserved pc'
    .ok (.memoryInit dataIdx, pc, pc')
  | .memoryCopy => do
    let (src, pc') ← pc.readVu7
    let (dst, pc') ← pc'.readVu7
    if dst ≠ 0 ∨ src ≠ 0 then err .malformed memReserved else .ok (.memoryCopy, pc, pc')
  | .memoryFill => do
    let pc' ← readReserved memReserved pc
    .ok (.memoryFill, pc, pc')
  | .dataDrop => readU32Instr .dataDrop pc
  | .tableInit => readU32U32Instr .tableInit pc
  | .elemDrop => readU32Instr .elemDrop pc
  | .tableCopy => readU32U32Instr .tableCopy pc
  | .tableGrow => readU32Instr .tableGrow pc
  | .tableSize => readU32Instr .tableSize pc
  | .tableFill => readU32Instr .tableFill pc

/-- The immediates of an instruction: what its callback receives, the position of the
immediates (`imm`) and the position after them. `br_table` is not read here. -/
def decodeImm (mod : Module) (op : WasmOpcode) (pc : Stream) : R (Instr × Stream × Stream) :=
  match op.case with
  | .unreachable => .ok (.unreachable, pc, pc)
  | .nop => .ok (.nop, pc, pc)
  | .block => do
    let (type, pc') ← getBlocktype mod pc
    .ok (.block op type, pc, pc')
  | .else_ => .ok (.else_, pc, pc)
  | .end_ => .ok (.end_, pc, pc)
  | .brOrIf => do
    let (lth, pc') ← pc.readU8
    .ok (.brOrIf op lth, pc, pc')
  | .brTable => .ok (.brTable, pc, pc)
  | .return_ => .ok (.return_, pc, pc)
  | .call => readU32Instr .call pc
  | .callIndirect => readU32U32Instr .callIndirect pc
  | .drop => .ok (.drop, pc, pc)
  | .select => .ok (.select, pc, pc)
  | .selectT => do
    let (n, pc') ← pc.readVi7
    if n ≠ 1 then err .invalid "invalid select t type count"
    else do
      let (t, pc') ← readType TypeId.isValueType "invalid select t value type" pc'
      .ok (.selectT t, pc, pc')
  | .localGet => readU32Instr .localGet pc
  | .localSet => readU32Instr .localSet pc
  | .localTee => readU32Instr .localTee pc
  | .globalGet => readU32Instr .globalGet pc
  | .globalSet => readU32Instr .globalSet pc
  | .tableGet => readU32Instr .tableGet pc
  | .tableSet => readU32Instr .tableSet pc
  | .memoryLoadStore => do
    let (align, pc') ← pc.readVu7
    let (offset, pc') ← pc'.readVu32
    .ok (.memoryLoadStore op align offset, pc, pc')
  | .memorySize => do
    let pc' ← readReserved "currently memory.size reserved byte should be zero" pc
    .ok (.memorySize, pc, pc')
  | .memoryGrow => do
    let pc' ← readReserved "currently memory.grow reserved byte should be zero" pc
    .ok (.memoryGrow, pc, pc')
  | .i32Const => do
    let (val, pc') ← pc.readVi32
    .ok (.i32Const val, pc, pc')
  | .i64Const => do
    let (val, pc') ← pc.readVi64
    .ok (.i64Const val, pc, pc')
  | .f32Const => do
    let (val, pc') ← pc.readF32
    .ok (.f32Const val, pc, pc')
  | .f64Const => do
    let (val, pc') ← pc.readF64
    .ok (.f64Const val, pc, pc')
  | .itestop => .ok (.itestop op, pc, pc)
  | .iunop => .ok (.iunop op, pc, pc)
  | .irelop => .ok (.irelop op, pc, pc)
  | .ibinop => .ok (.ibinop op, pc, pc)
  | .funop => .ok (.funop op, pc, pc)
  | .frelop => .ok (.frelop op, pc, pc)
  | .fbinop => .ok (.fbinop op, pc, pc)
  | .wrapop => .ok (.wrapop op, pc, pc)
  | .truncop => .ok (.truncop op, pc, pc)
  | .convertop => .ok (.convertop op, pc, pc)
  | .rankop => .ok (.rankop op, pc, pc)
  | .reinterpretop => .ok (.reinterpretop op, pc, pc)
  | .extendop => .ok (.extendop op, pc, pc)
  | .refNull => do
    let (t, pc') ← readType TypeId.isRef "Invalid reference type" pc
    .ok (.refNull t, pc, pc')
  | .refIsNull => .ok (.refIsNull, pc, pc)
  | .refFunc => readU32Instr .refFunc pc
  | .prefixFc => do
    let (opcodeFc, pc) ← pc.readVu32
    match WasmOpcodeFc.ofU32? opcodeFc with
    | none => err .invalid "Unsupported opcode"
    | some op => decodeImmFc op pc
  | .prefixFd => do
    let (opcodeFd, pc) ← pc.readVu32
    .ok (.opcodeFd opcodeFd, pc, pc)

/-- The callbacks of a client with payload `σ`. `on_opcode` and `on_opcode_fc` only log. -/
structure OpDecoderCallbacks (σ : Type) where
  onDecodeBegin : σ → R σ
  onInstr : Instr → Stream → σ → R σ
  onDecodeEnd : σ → R σ

/-- What the decoder does with the stream after the callback: the callback of `br_table` has
read the immediates on its own copy, and the decoder skips `table_len + 1` bytes (a 32-bit sum). -/
def decodeRest (i : Instr) (pc : Stream) : R Stream :=
  match i with
  | .brTable => do
    let (tableLen, pc) ← pc.readVu32
    pc.seek ((tableLen + 1) % 2 ^ 32 : ℕ)
  | .opcodeFd _ => err .invalid "Unsupported opcode"
  | _ => .ok pc

section Decode
variable {σ : Type} (mod : Module) (cb : OpDecoderCallbacks σ)

/-- One pass of the `switch`. -/
def decodeOpcode (op : WasmOpcode) (pc : Stream) (payload : σ) : R (σ × Stream) := do
  let (i, imm, pc) ← decodeImm mod op pc
  let payload ← cb.onInstr i imm payload
  let pc ← decodeRest i pc
  .ok (payload, pc)

/-- One round of the loop; the flag tells whether it left through `finish`. -/
def decodeRound (pc : Stream) (payload : σ) : R (σ × Stream × Bool) := do
  let (opcode, pc) ← pc.readU8
  match WasmOpcode.ofByte? opcode with
  | none => err .malformed "Invalid opcode"
  | some op => do
    let (payload, pc) ← decodeOpcode mod cb op pc payload
    .ok (payload, pc, op == .end_ && pc.remaining == 0)

/-- Every round reads at least one byte, so `code.len + 1` rounds suffice
(`decodeLoop_ok`). -/
def decodeLoop : ℕ → Stream → σ → R σ
  | 0, _, _ => undef "decode_function: out of rounds"
  | n + 1, pc, payload => do
    let (payload, pc, finish) ← decodeRound mod cb pc payload
    if finish then .ok payload else decodeLoop n pc payload

def decodeFunction (code : Str) (payload : σ) : R σ := do
  let payload ← cb.onDecodeBegin payload
  let payload ← decodeLoop mod cb (code.length + 1) (.from_ code) payload
  cb.onDecodeEnd payload

end Decode

end Silverfir
