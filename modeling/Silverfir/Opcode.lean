import Mathlib.Data.Nat.Notation

/-! The opcode tables of `opcode.h`. The 0xfd (SIMD) table is left out: the decoder and the
validator reject every opcode of it. -/
namespace Silverfir

/-- One-byte opcodes, `FOR_EACH_WASM_OPCODE`. -/
inductive WasmOpcode where
  | unreachable | nop | block | loop | if_ | else_ | end_ | br | brIf | brTable | return_ | call
  | callIndirect | drop | select | selectT | localGet | localSet | localTee | globalGet
  | globalSet | tableGet | tableSet | i32Load | i64Load | f32Load | f64Load | i32Load8S
  | i32Load8U | i32Load16S | i32Load16U | i64Load8S | i64Load8U | i64Load16S | i64Load16U
  | i64Load32S | i64Load32U | i32Store | i64Store | f32Store | f64Store | i32Store8 | i32Store16
  | i64Store8 | i64Store16 | i64Store32 | memorySize | memoryGrow | i32Const | i64Const
  | f32Const | f64Const | i32Eqz | i32Eq | i32Ne | i32LtS | i32LtU | i32GtS | i32GtU | i32LeS
  | i32LeU | i32GeS | i32GeU | i64Eqz | i64Eq | i64Ne | i64LtS | i64LtU | i64GtS | i64GtU
  | i64LeS | i64LeU | i64GeS | i64GeU | f32Eq | f32Ne | f32Lt | f32Gt | f32Le | f32Ge | f64Eq
  | f64Ne | f64Lt | f64Gt | f64Le | f64Ge | i32Clz | i32Ctz | i32Popcnt | i32Add | i32Sub
  | i32Mul | i32DivS | i32DivU | i32RemS | i32RemU | i32And | i32Or | i32Xor | i32Shl | i32ShrS
  | i32ShrU | i32Rotl | i32Rotr | i64Clz | i64Ctz | i64Popcnt | i64Add | i64Sub | i64Mul
  | i64DivS | i64DivU | i64RemS | i64RemU | i64And | i64Or | i64Xor | i64Shl | i64ShrS | i64ShrU
  | i64Rotl | i64Rotr | f32Abs | f32Neg | f32Ceil | f32Floor | f32Trunc | f32Nearest | f32Sqrt
  | f32Add | f32Sub | f32Mul | f32Div | f32Min | f32Max | f32Copysign | f64Abs | f64Neg
  | f64Ceil | f64Floor | f64Trunc | f64Nearest | f64Sqrt | f64Add | f64Sub | f64Mul | f64Div
  | f64Min | f64Max | f64Copysign | i32WrapI64 | i32TruncF32S | i32TruncF32U | i32TruncF64S
  | i32TruncF64U | i64ExtendI32S | i64ExtendI32U | i64TruncF32S | i64TruncF32U | i64TruncF64S
  | i64TruncF64U | f32ConvertI32S | f32ConvertI32U | f32ConvertI64S | f32ConvertI64U
  | f32DemoteF64 | f64ConvertI32S | f64ConvertI32U | f64ConvertI64S | f64ConvertI64U
  | f64PromoteF32 | i32ReinterpretF32 | i64ReinterpretF64 | f32ReinterpretI32
  | f64ReinterpretI64 | i32Extend8S | i32Extend16S | i64Extend8S | i64Extend16S | i64Extend32S
  | refNull | refIsNull | refFunc | prefixFc | prefixFd
  deriving DecidableEq, Repr

/-- Opcodes behind the 0xfc prefix, `FOR_EACH_WASM_OPCODE_FC`. -/
inductive WasmOpcodeFc where
  | i32TruncSatF32S | i32TruncSatF32U | i32TruncSatF64S | i32TruncSatF64U | i64TruncSatF32S
  | i64TruncSatF32U | i64TruncSatF64S | i64TruncSatF64U | memoryInit | dataDrop | memoryCopy
  | memoryFill | tableInit | elemDrop | tableCopy | tableGrow | tableSize | tableFill
  deriving DecidableEq, Repr

namespace WasmOpcode

def code : WasmOpcode → ℕ
  | .unreachable => 0x00
  | .nop => 0x01
  | .block => 0x02
  | .loop => 0x03
  | .if_ => 0x04
  | .else_ => 0x05
  | .end_ => 0x0b
  | .br => 0x0c
  | .brIf => 0x0d
  | .brTable => 0x0e
  | .return_ => 0x0f
  | .call => 0x10
  | .callIndirect => 0x11
  | .drop => 0x1a
  | .select => 0x1b
  | .selectT => 0x1c
  | .localGet => 0x20
  | .localSet => 0x21
  | .localTee => 0x22
  | .globalGet => 0x23
  | .globalSet => 0x24
  | .tableGet => 0x25
  | .tableSet => 0x26
  | .i32Load => 0x28
  | .i64Load => 0x29
  | .f32Load => 0x2a
  | .f64Load => 0x2b
  | .i32Load8S => 0x2c
  | .i32Load8U => 0x2d
  | .i32Load16S => 0x2e
  | .i32Load16U => 0x2f
  | .i64Load8S => 0x30
  | .i64Load8U => 0x31
  | .i64Load16S => 0x32
  | .i64Load16U => 0x33
  | .i64Load32S => 0x34
  | .i64Load32U => 0x35
  | .i32Store => 0x36
  | .i64Store => 0x37
  | .f32Store => 0x38
  | .f64Store => 0x39
  | .i32Store8 => 0x3a
  | .i32Store16 => 0x3b
  | .i64Store8 => 0x3c
  | .i64Store16 => 0x3d
  | .i64Store32 => 0x3e
  | .memorySize => 0x3f
  | .memoryGrow => 0x40
  | .i32Const => 0x41
  | .i64Const => 0x42
  | .f32Const => 0x43
  | .f64Const => 0x44
  | .i32Eqz => 0x45
  | .i32Eq => 0x46
  | .i32Ne => 0x47
  | .i32LtS => 0x48
  | .i32LtU => 0x49
  | .i32GtS => 0x4a
  | .i32GtU => 0x4b
  | .i32LeS => 0x4c
  | .i32LeU => 0x4d
  | .i32GeS => 0x4e
  | .i32GeU => 0x4f
  | .i64Eqz => 0x50
  | .i64Eq => 0x51
  | .i64Ne => 0x52
  | .i64LtS => 0x53
  | .i64LtU => 0x54
  | .i64GtS => 0x55
  | .i64GtU => 0x56
  | .i64LeS => 0x57
  | .i64LeU => 0x58
  | .i64GeS => 0x59
  | .i64GeU => 0x5a
  | .f32Eq => 0x5b
  | .f32Ne => 0x5c
  | .f32Lt => 0x5d
  | .f32Gt => 0x5e
  | .f32Le => 0x5f
  | .f32Ge => 0x60
  | .f64Eq => 0x61
  | .f64Ne => 0x62
  | .f64Lt => 0x63
  | .f64Gt => 0x64
  | .f64Le => 0x65
  | .f64Ge => 0x66
  | .i32Clz => 0x67
  | .i32Ctz => 0x68
  | .i32Popcnt => 0x69
  | .i32Add => 0x6a
  | .i32Sub => 0x6b
  | .i32Mul => 0x6c
  | .i32DivS => 0x6d
  | .i32DivU => 0x6e
  | .i32RemS => 0x6f
  | .i32RemU => 0x70
  | .i32And => 0x71
  | .i32Or => 0x72
  | .i32Xor => 0x73
  | .i32Shl => 0x74
  | .i32ShrS => 0x75
  | .i32ShrU => 0x76
  | .i32Rotl => 0x77
  | .i32Rotr => 0x78
  | .i64Clz => 0x79
  | .i64Ctz => 0x7a
  | .i64Popcnt => 0x7b
  | .i64Add => 0x7c
  | .i64Sub => 0x7d
  | .i64Mul => 0x7e
  | .i64DivS => 0x7f
  | .i64DivU => 0x80
  | .i64RemS => 0x81
  | .i64RemU => 0x82
  | .i64And => 0x83
  | .i64Or => 0x84
  | .i64Xor => 0x85
  | .i64Shl => 0x86
  | .i64ShrS => 0x87
  | .i64ShrU => 0x88
  | .i64Rotl => 0x89
  | .i64Rotr => 0x8a
  | .f32Abs => 0x8b
  | .f32Neg => 0x8c
  | .f32Ceil => 0x8d
  | .f32Floor => 0x8e
  | .f32Trunc => 0x8f
  | .f32Nearest => 0x90
  | .f32Sqrt => 0x91
  | .f32Add => 0x92
  | .f32Sub => 0x93
  | .f32Mul => 0x94
  | .f32Div => 0x95
  | .f32Min => 0x96
  | .f32Max => 0x97
  | .f32Copysign => 0x98
  | .f64Abs => 0x99
  | .f64Neg => 0x9a
  | .f64Ceil => 0x9b
  | .f64Floor => 0x9c
  | .f64Trunc => 0x9d
  | .f64Nearest => 0x9e
  | .f64Sqrt => 0x9f
  | .f64Add => 0xa0
  | .f64Sub => 0xa1
  | .f64Mul => 0xa2
  | .f64Div => 0xa3
  | .f64Min => 0xa4
  | .f64Max => 0xa5
  | .f64Copysign => 0xa6
  | .i32WrapI64 => 0xa7
  | .i32TruncF32S => 0xa8
  | .i32TruncF32U => 0xa9
  | .i32TruncF64S => 0xaa
  | .i32TruncF64U => 0xab
  | .i64ExtendI32S => 0xac
  | .i64ExtendI32U => 0xad
  | .i64TruncF32S => 0xae
  | .i64TruncF32U => 0xaf
  | .i64TruncF64S => 0xb0
  | .i64TruncF64U => 0xb1
  | .f32ConvertI32S => 0xb2
  | .f32ConvertI32U => 0xb3
  | .f32ConvertI64S => 0xb4
  | .f32ConvertI64U => 0xb5
  | .f32DemoteF64 => 0xb6
  | .f64ConvertI32S => 0xb7
  | .f64ConvertI32U => 0xb8
  | .f64ConvertI64S => 0xb9
  | .f64ConvertI64U => 0xba
  | .f64PromoteF32 => 0xbb
  | .i32ReinterpretF32 => 0xbc
  | .i64ReinterpretF64 => 0xbd
  | .f32ReinterpretI32 => 0xbe
  | .f64ReinterpretI64 => 0xbf
  | .i32Extend8S => 0xc0
  | .i32Extend16S => 0xc1
  | .i64Extend8S => 0xc2
  | .i64Extend16S => 0xc3
  | .i64Extend32S => 0xc4
  | .refNull => 0xd0
  | .refIsNull => 0xd1
  | .refFunc => 0xd2
  | .prefixFc => 0xfc
  | .prefixFd => 0xfd

/-- The opcode a byte stands for; the gaps of the table are not opcodes. -/
def ofByte? : ℕ → Option WasmOpcode
  | 0x00 => some .unreachable
  | 0x01 => some .nop
  | 0x02 => some .block
  | 0x03 => some .loop
  | 0x04 => some .if_
  | 0x05 => some .else_
  | 0x0b => some .end_
  | 0x0c => some .br
  | 0x0d => some .brIf
  | 0x0e => some .brTable
  | 0x0f => some .return_
  | 0x10 => some .call
  | 0x11 => some .callIndirect
  | 0x1a => some .drop
  | 0x1b => some .select
  | 0x1c => some .selectT
  | 0x20 => some .localGet
  | 0x21 => some .localSet
  | 0x22 => some .localTee
  | 0x23 => some .globalGet
  | 0x24 => some .globalSet
  | 0x25 => some .tableGet
  | 0x26 => some .tableSet
  | 0x28 => some .i32Load
  | 0x29 => some .i64Load
  | 0x2a => some .f32Load
  | 0x2b => some .f64Load
  | 0x2c => some .i32Load8S
  | 0x2d => some .i32Load8U
  | 0x2e => some .i32Load16S
  | 0x2f => some .i32Load16U
  | 0x30 => some .i64Load8S
  | 0x31 => some .i64Load8U
  | 0x32 => some .i64Load16S
  | 0x33 => some .i64Load16U
  | 0x34 => some .i64Load32S
  | 0x35 => some .i64Load32U
  | 0x36 => some .i32Store
  | 0x37 => some .i64Store
  | 0x38 => some .f32Store
  | 0x39 => some .f64Store
  | 0x3a => some .i32Store8
  | 0x3b => some .i32Store16
  | 0x3c => some .i64Store8
  | 0x3d => some .i64Store16
  | 0x3e => some .i64Store32
  | 0x3f => some .memorySize
  | 0x40 => some .memoryGrow
  | 0x41 => some .i32Const
  | 0x42 => some .i64Const
  | 0x43 => some .f32Const
  | 0x44 => some .f64Const
  | 0x45 => some .i32Eqz
  | 0x46 => some .i32Eq
  | 0x47 => some .i32Ne
  | 0x48 => some .i32LtS
  | 0x49 => some .i32LtU
  | 0x4a => some .i32GtS
  | 0x4b => some .i32GtU
  | 0x4c => some .i32LeS
  | 0x4d => some .i32LeU
  | 0x4e => some .i32GeS
  | 0x4f => some .i32GeU
  | 0x50 => some .i64Eqz
  | 0x51 => some .i64Eq
  | 0x52 => some .i64Ne
  | 0x53 => some .i64LtS
  | 0x54 => some .i64LtU
  | 0x55 => some .i64GtS
  | 0x56 => some .i64GtU
  | 0x57 => some .i64LeS
  | 0x58 => some .i64LeU
  | 0x59 => some .i64GeS
  | 0x5a => some .i64GeU
  | 0x5b => some .f32Eq
  | 0x5c => some .f32Ne
  | 0x5d => some .f32Lt
  | 0x5e => some .f32Gt
  | 0x5f => some .f32Le
  | 0x60 => some .f32Ge
  | 0x61 => some .f64Eq
  | 0x62 => some .f64Ne
  | 0x63 => some .f64Lt
  | 0x64 => some .f64Gt
  | 0x65 => some .f64Le
  | 0x66 => some .f64Ge
  | 0x67 => some .i32Clz
  | 0x68 => some .i32Ctz
  | 0x69 => some .i32Popcnt
  | 0x6a => some .i32Add
  | 0x6b => some .i32Sub
  | 0x6c => some .i32Mul
  | 0x6d => some .i32DivS
  | 0x6e => some .i32DivU
  | 0x6f => some .i32RemS
  | 0x70 => some .i32RemU
  | 0x71 => some .i32And
  | 0x72 => some .i32Or
  | 0x73 => some .i32Xor
  | 0x74 => some .i32Shl
  | 0x75 => some .i32ShrS
  | 0x76 => some .i32ShrU
  | 0x77 => some .i32Rotl
  | 0x78 => some .i32Rotr
  | 0x79 => some .i64Clz
  | 0x7a => some .i64Ctz
  | 0x7b => some .i64Popcnt
  | 0x7c => some .i64Add
  | 0x7d => some .i64Sub
  | 0x7e => some .i64Mul
  | 0x7f => some .i64DivS
  | 0x80 => some .i64DivU
  | 0x81 => some .i64RemS
  | 0x82 => some .i64RemU
  | 0x83 => some .i64And
  | 0x84 => some .i64Or
  | 0x85 => some .i64Xor
  | 0x86 => some .i64Shl
  | 0x87 => some .i64ShrS
  | 0x88 => some .i64ShrU
  | 0x89 => some .i64Rotl
  | 0x8a => some .i64Rotr
  | 0x8b => some .f32Abs
  | 0x8c => some .f32Neg
  | 0x8d => some .f32Ceil
  | 0x8e => some .f32Floor
  | 0x8f => some .f32Trunc
  | 0x90 => some .f32Nearest
  | 0x91 => some .f32Sqrt
  | 0x92 => some .f32Add
  | 0x93 => some .f32Sub
  | 0x94 => some .f32Mul
  | 0x95 => some .f32Div
  | 0x96 => some .f32Min
  | 0x97 => some .f32Max
  | 0x98 => some .f32Copysign
  | 0x99 => some .f64Abs
  | 0x9a => some .f64Neg
  | 0x9b => some .f64Ceil
  | 0x9c => some .f64Floor
  | 0x9d => some .f64Trunc
  | 0x9e => some .f64Nearest
  | 0x9f => some .f64Sqrt
  | 0xa0 => some .f64Add
  | 0xa1 => some .f64Sub
  | 0xa2 => some .f64Mul
  | 0xa3 => some .f64Div
  | 0xa4 => some .f64Min
  | 0xa5 => some .f64Max
  | 0xa6 => some .f64Copysign
  | 0xa7 => some .i32WrapI64
  | 0xa8 => some .i32TruncF32S
  | 0xa9 => some .i32TruncF32U
  | 0xaa => some .i32TruncF64S
  | 0xab => some .i32TruncF64U
  | 0xac => some .i64ExtendI32S
  | 0xad => some .i64ExtendI32U
  | 0xae => some .i64TruncF32S
  | 0xaf => some .i64TruncF32U
  | 0xb0 => some .i64TruncF64S
  | 0xb1 => some .i64TruncF64U
  | 0xb2 => some .f32ConvertI32S
  | 0xb3 => some .f32ConvertI32U
  | 0xb4 => some .f32ConvertI64S
  | 0xb5 => some .f32ConvertI64U
  | 0xb6 => some .f32DemoteF64
  | 0xb7 => some .f64ConvertI32S
  | 0xb8 => some .f64ConvertI32U
  | 0xb9 => some .f64ConvertI64S
  | 0xba => some .f64ConvertI64U
  | 0xbb => some .f64PromoteF32
  | 0xbc => some .i32ReinterpretF32
  | 0xbd => some .i64ReinterpretF64
  | 0xbe => some .f32ReinterpretI32
  | 0xbf => some .f64ReinterpretI64
  | 0xc0 => some .i32Extend8S
  | 0xc1 => some .i32Extend16S
  | 0xc2 => some .i64Extend8S
  | 0xc3 => some .i64Extend16S
  | 0xc4 => some .i64Extend32S
  | 0xd0 => some .refNull
  | 0xd1 => some .refIsNull
  | 0xd2 => some .refFunc
  | 0xfc => some .prefixFc
  | 0xfd => some .prefixFd
  | _ => none

theorem ofByte?_code (op : WasmOpcode) : ofByte? op.code = some op := by cases op <;> rfl

theorem code_of_ofByte? {b : UInt8} {op : WasmOpcode} (h : ofByte? b.toNat = some op) :
    op.code = b.toNat := by
  have key : ∀ n : Fin 256, (ofByte? n.val).all (fun op => op.code == n.val) = true := by
    decide +kernel
  have hb := key ⟨b.toNat, b.toNat_lt⟩
  simp only [h, Option.all_some, beq_iff_eq] at hb
  exact hb

end WasmOpcode

namespace WasmOpcodeFc

def code : WasmOpcodeFc → ℕ
  | .i32TruncSatF32S => 0x00
  | .i32TruncSatF32U => 0x01
  | .i32TruncSatF64S => 0x02
  | .i32TruncSatF64U => 0x03
  | .i64TruncSatF32S => 0x04
  | .i64TruncSatF32U => 0x05
  | .i64TruncSatF64S => 0x06
  | .i64TruncSatF64U => 0x07
  | .memoryInit => 0x08
  | .dataDrop => 0x09
  | .memoryCopy => 0x0a
  | .memoryFill => 0x0b
  | .tableInit => 0x0c
  | .elemDrop => 0x0d
  | .tableCopy => 0x0e
  | .tableGrow => 0x0f
  | .tableSize => 0x10
  | .tableFill => 0x11

def ofU32? : ℕ → Option WasmOpcodeFc
  | 0x00 => some .i32TruncSatF32S
  | 0x01 => some .i32TruncSatF32U
  | 0x02 => some .i32TruncSatF64S
  | 0x03 => some .i32TruncSatF64U
  | 0x04 => some .i64TruncSatF32S
  | 0x05 => some .i64TruncSatF32U
  | 0x06 => some .i64TruncSatF64S
  | 0x07 => some .i64TruncSatF64U
  | 0x08 => some .memoryInit
  | 0x09 => some .dataDrop
  | 0x0a => some .memoryCopy
  | 0x0b => some .memoryFill
  | 0x0c => some .tableInit
  | 0x0d => some .elemDrop
  | 0x0e => some .tableCopy
  | 0x0f => some .tableGrow
  | 0x10 => some .tableSize
  | 0x11 => some .tableFill
  | _ => none

theorem ofU32?_code (op : WasmOpcodeFc) : ofU32? op.code = some op := by cases op <;> rfl

end WasmOpcodeFc

end Silverfir
