import Silverfir.Lib.CInt
import Silverfir.Exec

/-! The handlers of the integer instructions: the macros of `in_place_dt.c` over the operators of
`smath.h`, as the C of the build defines them. The source asks for C11, and no option of it makes
signed arithmetic wrap. -/
namespace Silverfir.Integers

open CInt InPlaceDt

/-! ### The C types and the fields of a slot -/

abbrev i8 : Ty := ⟨8, true⟩
abbrev i16 : Ty := ⟨16, true⟩
abbrev i32 : Ty := ⟨32, true⟩
abbrev u32 : Ty := ⟨32, false⟩
abbrev i64 : Ty := ⟨64, true⟩
abbrev u64 : Ty := ⟨64, false⟩

/-- A field of a `value_u`. -/
def field (t : Ty) (v : ValueU) : BitVec t.width := v.setWidth t.width

/-- `(value_u){.u_t = r}` -/
def slot (t : Ty) (r : ℤ) : ValueU := (t.bits r).setWidth 64

/-- The store to a field of a slot that stays where it is. -/
def setField (t : Ty) (v : ValueU) (r : ℤ) : ValueU := (v >>> t.width) <<< t.width ||| slot t r

/-! ### `smath.h` and `gcc_clang.h` -/

/-- `s_rotl32` and `s_rotl64` -/
def sRotl (t : Ty) (v n : ℤ) : Option ℤ := do
  let left ← t.shl v (← t.rem n t.width)
  let right ← t.shr v (← t.rem (← t.sub t.width n) t.width)
  t.or left right

/-- `s_rotr32` and `s_rotr64` -/
def sRotr (t : Ty) (v n : ℤ) : Option ℤ := do
  let right ← t.shr v (← t.rem n t.width)
  let left ← t.shl v (← t.rem (← t.sub t.width n) t.width)
  t.or right left

def sEqz (a : ℤ) : Option ℤ := truth (a = 0)

def sEq (a b : ℤ) : Option ℤ := truth (a = b)

def sNe (a b : ℤ) : Option ℤ := truth (a ≠ b)

def sLt (a b : ℤ) : Option ℤ := truth (a < b)

def sGt (a b : ℤ) : Option ℤ := truth (a > b)

def sLe (a b : ℤ) : Option ℤ := truth (a ≤ b)

def sGe (a b : ℤ) : Option ℤ := truth (a ≥ b)

def sNop (a : ℤ) : Option ℤ := some a

/-- `s_as_i8` and its kind: the first bytes of a little-endian number, read as the type `t`. -/
def sAs (t : Ty) (a : ℤ) : Option ℤ := some (t.value (t.bits a))

/-- `__builtin_clz` and `__builtin_clzll` -/
def builtinClz {w : ℕ} (x : BitVec w) : Option ℤ := if x = 0 then none else some x.clz.toNat

/-- `__builtin_ctz` and `__builtin_ctzll` -/
def builtinCtz {w : ℕ} (x : BitVec w) : Option ℤ := if x = 0 then none else some x.ctz.toNat

def sClz (t : Ty) (a : ℤ) : Option ℤ := if a = 0 then some t.width else builtinClz (t.bits a)

def sCtz (t : Ty) (a : ℤ) : Option ℤ := if a = 0 then some t.width else builtinCtz (t.bits a)

/-- `__builtin_popcount` and `__builtin_popcountll` -/
def sPopcnt (t : Ty) (a : ℤ) : Option ℤ := some (t.bits a).cpop.toNat

/-! ### The macros -/

def convertOp (tgt : Ty) (op : ℤ → Option ℤ) (src : Ty) (v : ValueU) : R ValueU :=
  match op (src.value (field src v)) with
  | none => undef "C arithmetic"
  | some r => .ok (setField tgt v r)

def unop (t : Ty) (op : ℤ → Option ℤ) : ValueU → R ValueU := convertOp t op t

/-- The operands are in the order in which they were pushed. -/
def binop (tgt : Ty) (op : ℤ → ℤ → Option ℤ) (opType : Ty) (v1 v2 : ValueU) : R ValueU :=
  match op (opType.value (field opType v1)) (opType.value (field opType v2)) with
  | none => undef "C arithmetic"
  | some r => .ok (slot tgt r)

def relop (opType : Ty) (op : ℤ → ℤ → Option ℤ) : ValueU → ValueU → R ValueU := binop i32 op opType

/-- `i32_MIN` and `i64_MIN` -/
def minValue (t : Ty) : ℤ := -2 ^ (t.width - 1)

/-- `i32_div_s` and `i64_div_s` -/
def divS (t : Ty) (v1 v2 : ValueU) : R ValueU :=
  if t.value (field t v1) = minValue t ∧ t.value (field t v2) = -1 ∨ t.value (field t v2) = 0 then
    err .general "div trap"
  else
    binop t t.div t v1 v2

/-- `i32_div_u` and `i64_div_u` -/
def divU (t : Ty) (v1 v2 : ValueU) : R ValueU :=
  if t.value (field t v2) = 0 then err .general "div trap" else binop t t.div t v1 v2

/-- `i32_rem_s` and `i64_rem_s` -/
def remS (t : Ty) (v1 v2 : ValueU) : R ValueU :=
  if t.value (field t v1) = minValue t ∧ t.value (field t v2) = -1 then
    .ok (slot t 0)
  else if t.value (field t v2) = 0 then
    err .general "trap"
  else
    binop t t.rem t v1 v2

/-- `i32_rem_u` and `i64_rem_u` -/
def remU (t : Ty) (v1 v2 : ValueU) : R ValueU :=
  if t.value (field t v2) = 0 then err .general "rem trap" else binop t t.rem t v1 v2

/-- The handlers that replace the operand. -/
def unary : WasmOpcode → Option (ValueU → R ValueU)
  | .i32Eqz => some (unop i32 sEqz)
  | .i64Eqz => some (unop i64 sEqz)
  | .i32Clz => some (unop i32 (sClz i32))
  | .i32Ctz => some (unop i32 (sCtz i32))
  | .i32Popcnt => some (unop i32 (sPopcnt i32))
  | .i64Clz => some (unop i64 (sClz i64))
  | .i64Ctz => some (unop i64 (sCtz i64))
  | .i64Popcnt => some (unop i64 (sPopcnt i64))
  | .i32WrapI64 => some (convertOp i32 sNop i64)
  | .i64ExtendI32S => some (convertOp i64 (sAs i32) i32)
  | .i64ExtendI32U => some (convertOp i64 (sAs u32) i32)
  | .i32Extend8S => some (convertOp i32 (sAs i8) i32)
  | .i32Extend16S => some (convertOp i32 (sAs i16) i32)
  | .i64Extend8S => some (convertOp i64 (sAs i8) i32)
  | .i64Extend16S => some (convertOp i64 (sAs i16) i32)
  | .i64Extend32S => some (convertOp i64 (sAs i32) i64)
  | _ => none

/-- The handlers that pop two operands. -/
def binary : WasmOpcode → Option (ValueU → ValueU → R ValueU)
  | .i32Eq => some (relop i32 sEq)
  | .i32Ne => some (relop i32 sNe)
  | .i32LtS => some (relop i32 sLt)
  | .i32LtU => some (relop u32 sLt)
  | .i32GtS => some (relop i32 sGt)
  | .i32GtU => some (relop u32 sGt)
  | .i32LeS => some (relop i32 sLe)
  | .i32LeU => some (relop u32 sLe)
  | .i32GeS => some (relop i32 sGe)
  | .i32GeU => some (relop u32 sGe)
  | .i64Eq => some (relop i64 sEq)
  | .i64Ne => some (relop i64 sNe)
  | .i64LtS => some (relop i64 sLt)
  | .i64LtU => some (relop u64 sLt)
  | .i64GtS => some (relop i64 sGt)
  | .i64GtU => some (relop u64 sGt)
  | .i64LeS => some (relop i64 sLe)
  | .i64LeU => some (relop u64 sLe)
  | .i64GeS => some (relop i64 sGe)
  | .i64GeU => some (relop u64 sGe)
  | .i32Add => some (binop i32 i32.add i32)
  | .i32Sub => some (binop i32 i32.sub i32)
  | .i32Mul => some (binop i32 i32.mul i32)
  | .i32DivS => some (divS i32)
  | .i32DivU => some (divU u32)
  | .i32RemS => some (remS i32)
  | .i32RemU => some (remU u32)
  | .i32And => some (binop i32 i32.and i32)
  | .i32Or => some (binop i32 i32.or i32)
  | .i32Xor => some (binop i32 i32.xor i32)
  | .i32Shl => some (binop i32 i32.shl i32)
  | .i32ShrS => some (binop i32 i32.shr i32)
  | .i32ShrU => some (binop i32 u32.shr u32)
  | .i32Rotl => some (binop i32 (sRotl u32) u32)
  | .i32Rotr => some (binop i32 (sRotr u32) u32)
  | .i64Add => some (binop i64 i64.add i64)
  | .i64Sub => some (binop i64 i64.sub i64)
  | .i64Mul => some (binop i64 i64.mul i64)
  | .i64DivS => some (divS i64)
  | .i64DivU => some (divU u64)
  | .i64RemS => some (remS i64)
  | .i64RemU => some (remU u64)
  | .i64And => some (binop i64 i64.and i64)
  | .i64Or => some (binop i64 i64.or i64)
  | .i64Xor => some (binop i64 i64.xor i64)
  | .i64Shl => some (binop i64 i64.shl i64)
  | .i64ShrS => some (binop i64 i64.shr i64)
  | .i64ShrU => some (binop i64 u64.shr u64)
  | .i64Rotl => some (binop i64 (sRotl u64) u64)
  | .i64Rotr => some (binop i64 (sRotr u64) u64)
  | _ => none

/-- The opcode of an instruction that only computes. -/
def numericOpcode : Instr → Option WasmOpcode
  | .itestop op | .iunop op | .irelop op | .ibinop op | .wrapop op | .extendop op => some op
  | _ => none

/-- A platform with the integer arithmetic of the build. -/
def withIntegers (pf : Platform) : Platform where
  toRef := pf.toRef
  toFuncAddr := pf.toFuncAddr
  host := pf.host
  unop i := ((numericOpcode i).bind unary).getD (pf.unop i)
  binop i := ((numericOpcode i).bind binary).getD (pf.binop i)

/-! ### What the instructions mean -/

inductive Width where
  | w32 | w64
  deriving DecidableEq, Repr

def Width.bits : Width → ℕ
  | .w32 => 32
  | .w64 => 64

inductive Un where
  | clz | ctz | popcnt
  deriving DecidableEq, Repr

inductive Rel where
  | eq | ne | ltS | ltU | gtS | gtU | leS | leU | geS | geU
  deriving DecidableEq, Repr

inductive Bin where
  | add | sub | mul | divS | divU | remS | remU | and | or | xor | shl | shrS | shrU | rotl | rotr
  deriving DecidableEq, Repr

/-- The conversions that keep the low bits of an operand. -/
inductive Cvt where
  | i32WrapI64 | i64ExtendI32S | i64ExtendI32U | i32Extend8S | i32Extend16S | i64Extend8S | i64Extend16S
  | i64Extend32S
  deriving DecidableEq, Repr

inductive Op where
  | eqz (w : Width)
  | un (w : Width) (op : Un)
  | rel (w : Width) (op : Rel)
  | bin (w : Width) (op : Bin)
  | cvt (op : Cvt)
  deriving DecidableEq, Repr

section Meaning
variable {n : ℕ} (x y : BitVec n)

def Un.eval : Un → BitVec n
  | .clz => x.clz
  | .ctz => x.ctz
  | .popcnt => x.cpop

def Rel.eval : Rel → Bool
  | .eq => x = y
  | .ne => x ≠ y
  | .ltS => x.toInt < y.toInt
  | .ltU => x.toNat < y.toNat
  | .gtS => x.toInt > y.toInt
  | .gtU => x.toNat > y.toNat
  | .leS => x.toInt ≤ y.toInt
  | .leU => x.toNat ≤ y.toNat
  | .geS => x.toInt ≥ y.toInt
  | .geU => x.toNat ≥ y.toNat

/-- Shift counts are taken modulo the width; `none` is a trap. -/
def Bin.eval : Bin → Option (BitVec n)
  | .add => some (x + y)
  | .sub => some (x - y)
  | .mul => some (x * y)
  | .divS => if y = 0 ∨ x = BitVec.intMin n ∧ y = -1 then none else some (x.sdiv y)
  | .divU => if y = 0 then none else some (x / y)
  | .remS => if y = 0 then none else some (x.srem y)
  | .remU => if y = 0 then none else some (x % y)
  | .and => some (x &&& y)
  | .or => some (x ||| y)
  | .xor => some (x ^^^ y)
  | .shl => some (x <<< (y.toNat % n))
  | .shrS => some (x.sshiftRight (y.toNat % n))
  | .shrU => some (x >>> (y.toNat % n))
  | .rotl => some (x.rotateLeft (y.toNat % n))
  | .rotr => some (x.rotateRight (y.toNat % n))

end Meaning

/-- The width of the operand and of the result, the bits that are kept, and whether they are
signed. -/
structure Cvt.Shape where
  target : ℕ
  kept : ℕ
  signed : Bool

def Cvt.shape : Cvt → Cvt.Shape
  | .i32WrapI64 => ⟨32, 32, false⟩
  | .i64ExtendI32S => ⟨64, 32, true⟩
  | .i64ExtendI32U => ⟨64, 32, false⟩
  | .i32Extend8S => ⟨32, 8, true⟩
  | .i32Extend16S => ⟨32, 16, true⟩
  | .i64Extend8S => ⟨64, 8, true⟩
  | .i64Extend16S => ⟨64, 16, true⟩
  | .i64Extend32S => ⟨64, 32, true⟩

def Cvt.eval (op : Cvt) (v : ValueU) : BitVec op.shape.target :=
  let low := v.setWidth op.shape.kept
  if op.shape.signed then low.signExtend _ else low.setWidth _

namespace Op

/-- The bits of the result. -/
def width : Op → ℕ
  | .eqz _ | .rel _ _ => 32
  | .un w _ | .bin w _ => w.bits
  | .cvt op => op.shape.target

/-- The result, `none` for a trap. `v2` is the operand on top; an instruction with one operand
does not look at `v1`. -/
def eval (v1 v2 : ValueU) : (op : Op) → Option (BitVec op.width)
  | .eqz w => some (BitVec.ofNat 32 (decide (v2.setWidth w.bits = 0)).toNat)
  | .un w op => some (op.eval (v2.setWidth w.bits))
  | .rel w op => some (BitVec.ofNat 32 (op.eval (v1.setWidth w.bits) (v2.setWidth w.bits)).toNat)
  | .bin w op => op.eval (v1.setWidth w.bits) (v2.setWidth w.bits)
  | .cvt op => some (op.eval v2)

def instr : Op → Instr
  | .eqz .w32 => .itestop .i32Eqz
  | .eqz .w64 => .itestop .i64Eqz
  | .un .w32 op => .iunop (match op with
    | .clz => .i32Clz | .ctz => .i32Ctz | .popcnt => .i32Popcnt)
  | .un .w64 op => .iunop (match op with
    | .clz => .i64Clz | .ctz => .i64Ctz | .popcnt => .i64Popcnt)
  | .rel .w32 op => .irelop (match op with
    | .eq => .i32Eq | .ne => .i32Ne | .ltS => .i32LtS | .ltU => .i32LtU | .gtS => .i32GtS | .gtU => .i32GtU
    | .leS => .i32LeS | .leU => .i32LeU | .geS => .i32GeS | .geU => .i32GeU)
  | .rel .w64 op => .irelop (match op with
    | .eq => .i64Eq | .ne => .i64Ne | .ltS => .i64LtS | .ltU => .i64LtU | .gtS => .i64GtS | .gtU => .i64GtU
    | .leS => .i64LeS | .leU => .i64LeU | .geS => .i64GeS | .geU => .i64GeU)
  | .bin .w32 op => .ibinop (match op with
    | .add => .i32Add | .sub => .i32Sub | .mul => .i32Mul | .divS => .i32DivS | .divU => .i32DivU
    | .remS => .i32RemS | .remU => .i32RemU | .and => .i32And | .or => .i32Or | .xor => .i32Xor
    | .shl => .i32Shl | .shrS => .i32ShrS | .shrU => .i32ShrU | .rotl => .i32Rotl | .rotr => .i32Rotr)
  | .bin .w64 op => .ibinop (match op with
    | .add => .i64Add | .sub => .i64Sub | .mul => .i64Mul | .divS => .i64DivS | .divU => .i64DivU
    | .remS => .i64RemS | .remU => .i64RemU | .and => .i64And | .or => .i64Or | .xor => .i64Xor
    | .shl => .i64Shl | .shrS => .i64ShrS | .shrU => .i64ShrU | .rotl => .i64Rotl | .rotr => .i64Rotr)
  | .cvt .i32WrapI64 => .wrapop .i32WrapI64
  | .cvt op => .extendop (match op with
    | .i32WrapI64 => .i32WrapI64 | .i64ExtendI32S => .i64ExtendI32S | .i64ExtendI32U => .i64ExtendI32U
    | .i32Extend8S => .i32Extend8S | .i32Extend16S => .i32Extend16S | .i64Extend8S => .i64Extend8S
    | .i64Extend16S => .i64Extend16S | .i64Extend32S => .i64Extend32S)

/-- The operands from the top of the stack. -/
def args (v1 v2 : ValueU) : Op → List ValueU
  | .eqz _ | .un _ _ | .cvt _ => [v2]
  | .rel _ _ | .bin _ _ => [v2, v1]

end Op

/-- What the handler of an operation computes. -/
def Op.run (v1 v2 : ValueU) (op : Op) : R ValueU :=
  let opcode := numericOpcode op.instr
  match op with
  | .eqz _ | .un _ _ | .cvt _ => ((opcode.bind unary).getD fun _ => undef "no handler") v2
  | .rel _ _ | .bin _ _ => ((opcode.bind binary).getD fun _ _ => undef "no handler") v1 v2

/-- The operands for which every C operation of a handler is defined. -/
def Bin.Defined {n : ℕ} (x y : BitVec n) : Bin → Prop
  | .add => -2 ^ (n - 1) ≤ x.toInt + y.toInt ∧ x.toInt + y.toInt < 2 ^ (n - 1)
  | .sub => -2 ^ (n - 1) ≤ x.toInt - y.toInt ∧ x.toInt - y.toInt < 2 ^ (n - 1)
  | .mul => -2 ^ (n - 1) ≤ x.toInt * y.toInt ∧ x.toInt * y.toInt < 2 ^ (n - 1)
  | .shl => y.toNat < n ∧ 0 ≤ x.toInt ∧ x.toInt * 2 ^ y.toNat < 2 ^ (n - 1)
  | .shrS | .shrU => y.toNat < n
  | _ => True

def Op.Defined (v1 v2 : ValueU) : Op → Prop
  | .bin w op => op.Defined (v1.setWidth w.bits) (v2.setWidth w.bits)
  | _ => True

/-- The instruction has the result of WebAssembly in its slot, or traps where that has none. -/
def Op.Meets (pf : Platform) (k : ℕ) (s : ExecState) (v1 v2 : ValueU) (op : Op) : Prop :=
  match op.eval v1 v2 with
  | none => ∃ msg, effect (withIntegers pf) k op.instr (op.args v1 v2) s = (.error (.err .general msg), s)
  | some r => ∃ v, effect (withIntegers pf) k op.instr (op.args v1 v2) s = (.ok [v], s) ∧ v.setWidth op.width = r

/-- The same of the handler alone. -/
def Gives {n : ℕ} (out : R ValueU) : Option (BitVec n) → Prop
  | none => ∃ msg, out = err .general msg
  | some r => ∃ v, out = .ok v ∧ v.setWidth n = r

/-! ### From the interpreter to the handlers -/

section Handlers
variable {pf : Platform} {k : ℕ} {s : ExecState} {v1 v2 : ValueU}

theorem effect_run (op : Op) :
    effect (withIntegers pf) k op.instr (op.args v1 v2) s = ((op.run v1 v2).map ([·]), s) := by
  have hlift : ∀ out : R ValueU,
      (Eff.lift out >>= fun r => pure [r] : Exec (List ValueU)) s = (out.map ([·]), s) := by
    intro out
    cases out <;> rfl
  have hbinary : ∀ (i : Instr) (f : ValueU → ValueU → R ValueU), (numericOpcode i).bind binary = some f →
      (withIntegers pf).binop i v1 v2 = (((numericOpcode i).bind binary).getD fun _ _ => undef "no handler") v1 v2 := by
    intro i f hf
    unfold withIntegers
    dsimp only
    rw [hf]
    rfl
  cases op with
  | eqz w => cases w <;> exact hlift _
  | un w op => cases w <;> cases op <;> exact hlift _
  | rel w op =>
    have hf : ∃ f, (numericOpcode (Op.rel w op).instr).bind binary = some f := by
      cases w <;> cases op <;> exact ⟨_, rfl⟩
    obtain ⟨f, hf⟩ := hf
    unfold Op.run
    dsimp only
    rw [← hbinary _ f hf, ← hlift]
    cases w <;> rfl
  | bin w op =>
    have hf : ∃ f, (numericOpcode (Op.bin w op).instr).bind binary = some f := by
      cases w <;> cases op <;> exact ⟨_, rfl⟩
    obtain ⟨f, hf⟩ := hf
    unfold Op.run
    dsimp only
    rw [← hbinary _ f hf, ← hlift]
    cases w <;> rfl
  | cvt op => cases op <;> exact hlift _

theorem meets_iff (op : Op) : op.Meets pf k s v1 v2 ↔ Gives (op.run v1 v2) (op.eval v1 v2) := by
  unfold Op.Meets Gives
  rw [effect_run]
  cases op.eval v1 v2 with
  | none =>
    refine exists_congr fun msg => ?_
    cases op.run v1 v2 with
    | error f => simp [Except.map, err]
    | ok v => simp [Except.map, err]
  | some r =>
    refine exists_congr fun v => and_congr_left fun _ => ?_
    cases op.run v1 v2 with
    | error f => simp [Except.map]
    | ok v' => simp [Except.map]

end Handlers

/-! ### The macros -/

section Macros
variable {tgt src t : Ty} {v v1 v2 : ValueU}

theorem field_slot (ht : tgt.width ≤ 64) (r : ℤ) : field tgt (slot tgt r) = tgt.bits r := by
  unfold field slot
  rw [BitVec.setWidth_setWidth_of_le _ ht, BitVec.setWidth_eq]

theorem field_setField (ht : tgt.width ≤ 64) (r : ℤ) : field tgt (setField tgt v r) = tgt.bits r := by
  rw [← field_slot ht r]
  unfold field setField
  apply BitVec.eq_of_getLsbD_eq
  intro i hi
  rw [BitVec.getLsbD_setWidth, BitVec.getLsbD_setWidth, BitVec.getLsbD_or, BitVec.getLsbD_shiftLeft]
  simp [hi]

/-- The slot of a handler that cannot fail. -/
theorem gives_convertOp {op : ℤ → Option ℤ} {r : BitVec tgt.width} (ht : tgt.width ≤ 64)
    (h : (op (src.value (field src v))).map tgt.bits = some r) : Gives (convertOp tgt op src v) (some r) := by
  obtain ⟨val, hop, hval⟩ := Option.map_eq_some_iff.mp h
  refine ⟨setField tgt v val, ?_, ?_⟩
  · unfold convertOp
    rw [hop]
  · rw [← hval]
    exact field_setField ht val

theorem gives_binop {op : ℤ → ℤ → Option ℤ} {C : Prop} [Decidable C] {r : BitVec tgt.width} (ht : tgt.width ≤ 64)
    (h : (op (t.value (field t v1)) (t.value (field t v2))).map tgt.bits = if C then some r else none) :
    Gives (binop tgt op t v1 v2) (some r) ↔ C := by
  unfold binop
  by_cases hC : C
  · rw [if_pos hC] at h
    obtain ⟨val, hop, hval⟩ := Option.map_eq_some_iff.mp h
    rw [hop]
    refine iff_of_true ⟨slot tgt val, rfl, ?_⟩ hC
    rw [← hval]
    exact field_slot ht val
  · rw [if_neg hC] at h
    rw [Option.map_eq_none_iff.mp h]
    refine iff_of_false ?_ hC
    rintro ⟨v, hv, -⟩
    exact undef_ne_ok _ _ hv

theorem gives_binop_of {op : ℤ → ℤ → Option ℤ} {r : BitVec tgt.width} (ht : tgt.width ≤ 64)
    (h : (op (t.value (field t v1)) (t.value (field t v2))).map tgt.bits = some r) :
    Gives (binop tgt op t v1 v2) (some r) := (gives_binop (C := True) ht (by rw [if_pos trivial, h])).mpr trivial

end Macros

/-! ### One lemma for each operator -/

namespace Width

/-- The signed and the unsigned type of a width. -/
abbrev int (w : Width) : Ty := ⟨w.bits, true⟩

abbrev uint (w : Width) : Ty := ⟨w.bits, false⟩

variable (w : Width)

theorem pos : 0 < w.bits := by cases w <;> decide

theorem small : w.bits < 2 ^ (w.bits - 1) := by cases w <;> decide

theorem le : w.bits ≤ 64 := by cases w <;> decide

theorem value_int (x : BitVec w.bits) : w.int.value x = x.toInt := rfl

theorem value_uint (x : BitVec w.bits) : w.uint.value x = x.toNat := rfl

end Width

section Operators
variable {w : Width} {v v1 v2 : ValueU} {x y : BitVec w.bits}

theorem gives_add :
    Gives (binop w.int w.int.add w.int v1 v2) (Bin.add.eval (v1.setWidth w.bits) (v2.setWidth w.bits)) ↔
      Bin.add.Defined (v1.setWidth w.bits) (v2.setWidth w.bits) :=
  (gives_binop w.le add_map).trans (imp_iff_right rfl)

theorem gives_sub :
    Gives (binop w.int w.int.sub w.int v1 v2) (Bin.sub.eval (v1.setWidth w.bits) (v2.setWidth w.bits)) ↔
      Bin.sub.Defined (v1.setWidth w.bits) (v2.setWidth w.bits) :=
  (gives_binop w.le sub_map).trans (imp_iff_right rfl)

theorem gives_mul :
    Gives (binop w.int w.int.mul w.int v1 v2) (Bin.mul.eval (v1.setWidth w.bits) (v2.setWidth w.bits)) ↔
      Bin.mul.Defined (v1.setWidth w.bits) (v2.setWidth w.bits) :=
  (gives_binop w.le mul_map).trans (imp_iff_right rfl)

/-- A count below the width is the count that WebAssembly uses. -/
theorem gives_counted {tgt t : Ty} {op : ℤ → ℤ → Option ℤ} {C : Prop} [Decidable C] {n : ℕ} {r : ℕ → BitVec tgt.width}
    (ht : tgt.width ≤ 64) {k : ℕ} (hC : C → k < n)
    (h : (op (t.value (field t v1)) (t.value (field t v2))).map tgt.bits = if C then some (r k) else none) :
    Gives (binop tgt op t v1 v2) (some (r (k % n))) ↔ C := by
  apply gives_binop ht
  rw [h]
  by_cases hc : C
  · rw [if_pos hc, if_pos hc, Nat.mod_eq_of_lt (hC hc)]
  · rw [if_neg hc, if_neg hc]

theorem gives_shl :
    Gives (binop w.int w.int.shl w.int v1 v2) (Bin.shl.eval (v1.setWidth w.bits) (v2.setWidth w.bits)) ↔
      Bin.shl.Defined (v1.setWidth w.bits) (v2.setWidth w.bits) := by
  have hmap := shl_map (t := w.int) (x := field w.int v1) (y := field w.int v2) w.pos w.small
  have h := gives_counted (n := w.bits) (r := fun j => (field w.int v1 <<< j : BitVec w.int.width)) w.le And.left hmap
  refine h.trans (and_congr_right fun _ => ?_)
  rw [imp_iff_right rfl]
  refine and_congr_right fun hx => ?_
  change (v1.setWidth w.bits).toInt ≥ 0 at hx
  have hpow : (0 : ℤ) ≤ 2 ^ (v2.setWidth w.bits).toNat := Int.pow_nonneg (by decide)
  have hmin : (0 : ℤ) ≤ 2 ^ (w.bits - 1) := Int.pow_nonneg (by decide)
  have hprod := Int.mul_nonneg hx hpow
  constructor
  · intro hfits
    exact hfits.2
  · intro hlt
    have hlow : -2 ^ (w.bits - 1) ≤ (v1.setWidth w.bits).toInt * 2 ^ (v2.setWidth w.bits).toNat := by omega
    exact ⟨hlow, hlt⟩

theorem gives_shrS :
    Gives (binop w.int w.int.shr w.int v1 v2) (Bin.shrS.eval (v1.setWidth w.bits) (v2.setWidth w.bits)) ↔
      Bin.shrS.Defined (v1.setWidth w.bits) (v2.setWidth w.bits) := by
  have hmap := shr_map (t := w.int) (x := field w.int v1) (y := field w.int v2) w.pos w.small
  have hcount : Gives _ _ ↔ (v2.setWidth w.bits).toNat < w.bits :=
    gives_counted (r := fun j => ((field w.int v1).sshiftRight j : BitVec w.int.width)) w.le id hmap
  exact hcount

theorem gives_shrU :
    Gives (binop w.int w.uint.shr w.uint v1 v2) (Bin.shrU.eval (v1.setWidth w.bits) (v2.setWidth w.bits)) ↔
      Bin.shrU.Defined (v1.setWidth w.bits) (v2.setWidth w.bits) := by
  have hmap := shr_map (t := w.uint) (x := field w.uint v1) (y := field w.uint v2) w.pos w.small
  have hcount : Gives _ _ ↔ (v2.setWidth w.bits).toNat < w.bits :=
    gives_counted (r := fun j => (field w.uint v1 >>> j : BitVec w.int.width)) w.le id hmap
  exact hcount

theorem gives_and :
    Gives (binop w.int w.int.and w.int v1 v2) (Bin.and.eval (v1.setWidth w.bits) (v2.setWidth w.bits)) :=
  gives_binop_of w.le (bits_bitwise (t := w.int) (· &&& ·))

theorem gives_or : Gives (binop w.int w.int.or w.int v1 v2) (Bin.or.eval (v1.setWidth w.bits) (v2.setWidth w.bits)) :=
  gives_binop_of w.le (bits_bitwise (t := w.int) (· ||| ·))

theorem gives_xor :
    Gives (binop w.int w.int.xor w.int v1 v2) (Bin.xor.eval (v1.setWidth w.bits) (v2.setWidth w.bits)) :=
  gives_binop_of w.le (bits_bitwise (t := w.int) (· ^^^ ·))

/-! #### Division -/

theorem value_eq_min : w.int.value x = minValue w.int ↔ x = BitVec.intMin w.bits := by
  rw [Width.value_int, ← BitVec.toInt_inj, BitVec.toInt_intMin_of_pos w.pos]
  rfl

theorem value_eq_minusOne : w.int.value x = -1 ↔ x = -1 := by
  have hone : (-1 : BitVec w.bits).toInt = -1 := by cases w <;> rfl
  rw [Width.value_int, ← BitVec.toInt_inj, hone]

theorem gives_divS : Gives (divS w.int v1 v2) (Bin.divS.eval (v1.setWidth w.bits) (v2.setWidth w.bits)) := by
  unfold divS
  change Gives _ (if v2.setWidth w.bits = 0 ∨ v1.setWidth w.bits = BitVec.intMin w.bits ∧ v2.setWidth w.bits = -1 then
    none else some ((v1.setWidth w.bits).sdiv (v2.setWidth w.bits)))
  have hguard : (w.int.value (field w.int v1) = minValue w.int ∧ w.int.value (field w.int v2) = -1 ∨
      w.int.value (field w.int v2) = 0) ↔
      v2.setWidth w.bits = 0 ∨ v1.setWidth w.bits = BitVec.intMin w.bits ∧ v2.setWidth w.bits = -1 := by
    rw [value_eq_min, value_eq_minusOne, value_eq_zero, or_comm]
    rfl
  by_cases h : v2.setWidth w.bits = 0 ∨ v1.setWidth w.bits = BitVec.intMin w.bits ∧ v2.setWidth w.bits = -1
  · rw [if_pos (hguard.mpr h), if_pos h]
    exact ⟨_, rfl⟩
  · rw [if_neg (mt hguard.mp h), if_neg h]
    rw [not_or] at h
    exact gives_binop_of w.le (div_map (t := w.int) h.1 fun hov => h.2 hov.2)

theorem gives_divU : Gives (divU w.uint v1 v2) (Bin.divU.eval (v1.setWidth w.bits) (v2.setWidth w.bits)) := by
  unfold divU
  change Gives _ (if v2.setWidth w.bits = 0 then none else some (v1.setWidth w.bits / v2.setWidth w.bits))
  by_cases h : v2.setWidth w.bits = 0
  · rw [if_pos (value_eq_zero.mpr h), if_pos h]
    exact ⟨_, rfl⟩
  · rw [if_neg (mt value_eq_zero.mp h), if_neg h]
    exact gives_binop_of w.le (div_map (t := w.uint) h fun hov => Bool.false_ne_true hov.1)

theorem gives_remS : Gives (remS w.int v1 v2) (Bin.remS.eval (v1.setWidth w.bits) (v2.setWidth w.bits)) := by
  unfold remS
  change Gives _ (if v2.setWidth w.bits = 0 then none else some ((v1.setWidth w.bits).srem (v2.setWidth w.bits)))
  have hguard : (w.int.value (field w.int v1) = minValue w.int ∧ w.int.value (field w.int v2) = -1) ↔
      v1.setWidth w.bits = BitVec.intMin w.bits ∧ v2.setWidth w.bits = -1 := by
    rw [value_eq_min, value_eq_minusOne]
    rfl
  by_cases hov : v1.setWidth w.bits = BitVec.intMin w.bits ∧ v2.setWidth w.bits = -1
  · have hne : v2.setWidth w.bits ≠ 0 := by
      rw [hov.2]
      cases w <;> decide
    rw [if_pos (hguard.mpr hov), if_neg hne, hov.1, hov.2]
    refine ⟨_, rfl, ?_⟩
    -- the remainder of the minimum by -1 is 0
    have hzero : (BitVec.intMin w.bits).srem (-1) = 0 := by cases w <;> decide
    rw [hzero]
    cases w <;> decide
  · rw [if_neg (mt hguard.mp hov)]
    by_cases h : v2.setWidth w.bits = 0
    · rw [if_pos (value_eq_zero.mpr h), if_pos h]
      exact ⟨_, rfl⟩
    · rw [if_neg (mt value_eq_zero.mp h), if_neg h]
      exact gives_binop_of w.le (rem_map (t := w.int) h fun hov' => hov hov'.2)

theorem gives_remU : Gives (remU w.uint v1 v2) (Bin.remU.eval (v1.setWidth w.bits) (v2.setWidth w.bits)) := by
  unfold remU
  change Gives _ (if v2.setWidth w.bits = 0 then none else some (v1.setWidth w.bits % v2.setWidth w.bits))
  by_cases h : v2.setWidth w.bits = 0
  · rw [if_pos (value_eq_zero.mpr h), if_pos h]
    exact ⟨_, rfl⟩
  · rw [if_neg (mt value_eq_zero.mp h), if_neg h]
    exact gives_binop_of w.le (rem_map (t := w.uint) h fun hov => Bool.false_ne_true hov.1)

/-! #### Rotations -/

theorem shl_uint {k : ℕ} (hk : k < w.bits) : w.uint.shl (w.uint.value x) k = some (w.uint.value (x <<< k)) := by
  have hcount : (0 : ℤ) ≤ k ∧ (k : ℤ) < w.uint.width := ⟨Int.natCast_nonneg k, Int.ofNat_lt.mpr hk⟩
  unfold Ty.shl
  rw [if_pos hcount, if_neg Bool.false_ne_true, Width.value_uint, Width.value_uint, BitVec.toNat_shiftLeft,
    Nat.shiftLeft_eq]
  push_cast
  rfl

theorem shr_uint {k : ℕ} (hk : k < w.bits) : w.uint.shr (w.uint.value x) k = some (w.uint.value (x >>> k)) := by
  have hcount : (0 : ℤ) ≤ k ∧ (k : ℤ) < w.uint.width := ⟨Int.natCast_nonneg k, Int.ofNat_lt.mpr hk⟩
  unfold Ty.shr
  rw [if_pos hcount, Width.value_uint, Width.value_uint, BitVec.toNat_ushiftRight, Nat.shiftRight_eq_div_pow]
  push_cast
  rfl

theorem or_uint : w.uint.or (w.uint.value x) (w.uint.value y) = some (w.uint.value (x ||| y)) := by
  unfold Ty.or Ty.bitwise
  rw [bits_value, bits_value]

/-- The remainder by the width of a number that fits. -/
theorem rem_uint {n : ℕ} (hn : n < 2 ^ w.bits) : w.uint.rem n w.bits = some ((n % w.bits : ℕ) : ℤ) := by
  have hpos := w.pos
  have hfits : w.uint.Fits ((n : ℤ).tdiv w.bits) := by
    rw [← Int.ofNat_tdiv]
    have hlt : n / w.bits < 2 ^ w.bits := lt_of_le_of_lt (Nat.div_le_self _ _) hn
    change (0 : ℤ) ≤ _ ∧ _ < (2 : ℤ) ^ w.bits
    constructor
    · exact Int.natCast_nonneg _
    · exact_mod_cast hlt
  unfold Ty.rem
  rw [if_neg (by omega), if_pos hfits, ← Int.ofNat_tmod]

/-- `(32 - n) % 32`, where the difference wraps. -/
theorem rest_uint : (w.uint.sub w.bits (w.uint.value y) >>= fun d => w.uint.rem d w.bits) =
    some (((w.bits - y.toNat % w.bits) % w.bits : ℕ) : ℤ) := by
  have hsub : w.uint.sub w.bits (w.uint.value y) =
      some ((((w.bits - y.toNat : ℤ) % 2 ^ w.bits).toNat : ℕ) : ℤ) := by
    unfold Ty.sub Ty.arith
    rw [if_neg Bool.false_ne_true, Int.toNat_of_nonneg (Int.emod_nonneg _ (by cases w <;> decide))]
    rfl
  rw [hsub]
  change w.uint.rem _ _ = _
  rw [rem_uint]
  · congr 2
    have hy := y.isLt
    cases w <;> (simp only [Width.bits] at hy ⊢; omega)
  · cases w <;> (simp only [Width.bits]; omega)

theorem sRotl_eq : sRotl w.uint (w.uint.value x) (w.uint.value y) =
    some (w.uint.value (x.rotateLeft (y.toNat % w.bits))) := by
  have hpos := w.pos
  have hmod : y.toNat % w.bits < w.bits := Nat.mod_lt _ hpos
  have hrest := rest_uint (y := y)
  obtain ⟨d, hd, hrem⟩ := Option.bind_eq_some_iff.mp hrest
  unfold sRotl
  change (w.uint.rem (y.toNat : ℤ) w.bits >>= fun n => w.uint.shl (w.uint.value x) n >>= fun left =>
    w.uint.sub w.bits (w.uint.value y) >>= fun d => w.uint.rem d w.bits >>= fun n =>
      w.uint.shr (w.uint.value x) n >>= fun right => w.uint.or left right) = _
  rw [rem_uint y.isLt, Option.bind_eq_bind, Option.bind_some, shl_uint hmod, hd]
  change (w.uint.rem d w.bits >>= fun n => w.uint.shr (w.uint.value x) n >>= fun right => w.uint.or _ right) = _
  rw [hrem, Option.bind_eq_bind, Option.bind_some, shr_uint (Nat.mod_lt _ hpos)]
  change w.uint.or _ _ = _
  rw [or_uint, BitVec.rotateLeft_def, Nat.mod_mod]
  by_cases hz : y.toNat % w.bits = 0
  · -- both halves are the whole operand, and the specification shifts one of them out
    rw [hz, Nat.sub_zero, Nat.mod_self, BitVec.ushiftRight_eq_zero (Nat.le_refl w.bits)]
    simp
  · rw [Nat.mod_eq_of_lt (show w.bits - y.toNat % w.bits < w.bits by omega)]

theorem sRotr_eq : sRotr w.uint (w.uint.value x) (w.uint.value y) =
    some (w.uint.value (x.rotateRight (y.toNat % w.bits))) := by
  have hpos := w.pos
  have hmod : y.toNat % w.bits < w.bits := Nat.mod_lt _ hpos
  have hrest := rest_uint (y := y)
  obtain ⟨d, hd, hrem⟩ := Option.bind_eq_some_iff.mp hrest
  unfold sRotr
  change (w.uint.rem (y.toNat : ℤ) w.bits >>= fun n => w.uint.shr (w.uint.value x) n >>= fun right =>
    w.uint.sub w.bits (w.uint.value y) >>= fun d => w.uint.rem d w.bits >>= fun n =>
      w.uint.shl (w.uint.value x) n >>= fun left => w.uint.or right left) = _
  rw [rem_uint y.isLt, Option.bind_eq_bind, Option.bind_some, shr_uint hmod, hd]
  change (w.uint.rem d w.bits >>= fun n => w.uint.shl (w.uint.value x) n >>= fun left => w.uint.or _ left) = _
  rw [hrem, Option.bind_eq_bind, Option.bind_some, shl_uint (Nat.mod_lt _ hpos)]
  change w.uint.or _ _ = _
  rw [or_uint, BitVec.rotateRight_def, Nat.mod_mod]
  by_cases hz : y.toNat % w.bits = 0
  · rw [hz, Nat.sub_zero, Nat.mod_self]
    simp
  · rw [Nat.mod_eq_of_lt (show w.bits - y.toNat % w.bits < w.bits by omega)]

theorem gives_rotl :
    Gives (binop w.int (sRotl w.uint) w.uint v1 v2) (Bin.rotl.eval (v1.setWidth w.bits) (v2.setWidth w.bits)) := by
  apply gives_binop_of w.le
  rw [sRotl_eq, Option.map_some]
  exact congrArg some (bits_value (t := w.uint))

theorem gives_rotr :
    Gives (binop w.int (sRotr w.uint) w.uint v1 v2) (Bin.rotr.eval (v1.setWidth w.bits) (v2.setWidth w.bits)) := by
  apply gives_binop_of w.le
  rw [sRotr_eq, Option.map_some]
  exact congrArg some (bits_value (t := w.uint))

/-! #### Tests and comparisons -/

theorem gives_relop {t : Ty} {op : ℤ → ℤ → Option ℤ} {p : Bool}
    (h : op (t.value (field t v1)) (t.value (field t v2)) = truth p) :
    Gives (relop t op v1 v2) (some (BitVec.ofNat 32 p.toNat)) := by
  apply gives_binop_of (by decide)
  rw [h]
  cases p <;> rfl

theorem gives_eq : Gives (relop w.int sEq v1 v2)
    (some (BitVec.ofNat 32 (Rel.eq.eval (v1.setWidth w.bits) (v2.setWidth w.bits)).toNat)) := by
  apply gives_relop
  unfold sEq Rel.eval
  congr 1
  exact decide_eq_decide.mpr value_injective

theorem gives_ne : Gives (relop w.int sNe v1 v2)
    (some (BitVec.ofNat 32 (Rel.ne.eval (v1.setWidth w.bits) (v2.setWidth w.bits)).toNat)) := by
  apply gives_relop
  unfold sNe Rel.eval
  congr 1
  exact decide_eq_decide.mpr (not_congr value_injective)

theorem gives_eqz : Gives (unop w.int sEqz v) (some (BitVec.ofNat 32 (decide (v.setWidth w.bits = 0)).toNat)) := by
  have hle : 32 ≤ w.bits := by cases w <;> decide
  have htest : sEqz (w.int.value (field w.int v)) = truth (decide (v.setWidth w.bits = 0)) := by
    unfold sEqz
    congr 1
    exact decide_eq_decide.mpr value_eq_zero
  unfold unop convertOp
  rw [htest]
  refine ⟨_, rfl, ?_⟩
  rw [← BitVec.setWidth_setWidth_of_le _ hle]
  have hfield : field w.int (setField w.int v (if decide (v.setWidth w.bits = 0) = true then 1 else 0)) =
    w.int.bits _ :=
    field_setField w.le _
  unfold field at hfield
  rw [hfield]
  cases decide (v.setWidth w.bits = 0) <;> cases w <;> rfl

/-! #### Counts of bits -/

theorem bits_toNat (n : BitVec w.bits) : w.int.bits n.toNat = n := by
  rw [Ty.bits, BitVec.ofInt_natCast, BitVec.ofNat_toNat, BitVec.setWidth_eq]

theorem gives_clz : Gives (unop w.int (sClz w.int) v) (some (Un.clz.eval (v.setWidth w.bits))) := by
  apply gives_convertOp w.le
  unfold sClz builtinClz
  rw [bits_value]
  change _ = some (field w.int v).clz
  by_cases hz : field w.int v = 0
  · rw [if_pos (value_eq_zero.mpr hz), hz, (BitVec.clz_eq_iff_eq_zero (x := (0 : BitVec w.int.width))).mpr rfl]
    rfl
  · rw [if_neg (mt value_eq_zero.mp hz), if_neg hz, Option.map_some]
    exact congrArg some (bits_toNat _)

theorem gives_ctz : Gives (unop w.int (sCtz w.int) v) (some (Un.ctz.eval (v.setWidth w.bits))) := by
  apply gives_convertOp w.le
  unfold sCtz builtinCtz
  rw [bits_value]
  change _ = some (field w.int v).ctz
  by_cases hz : field w.int v = 0
  · have hrev : (0 : BitVec w.int.width).reverse = 0 := BitVec.reverse_eq_zero_iff.mpr rfl
    rw [if_pos (value_eq_zero.mpr hz), hz, BitVec.ctz, hrev,
      (BitVec.clz_eq_iff_eq_zero (x := (0 : BitVec w.int.width))).mpr rfl]
    rfl
  · rw [if_neg (mt value_eq_zero.mp hz), if_neg hz, Option.map_some]
    exact congrArg some (bits_toNat _)

theorem gives_popcnt : Gives (unop w.int (sPopcnt w.int) v) (some (Un.popcnt.eval (v.setWidth w.bits))) := by
  apply gives_convertOp w.le
  unfold sPopcnt
  rw [bits_value, Option.map_some]
  exact congrArg some (bits_toNat _)

/-! #### Conversions -/

theorem gives_as (tgt t src : Ty) (ht : tgt.width ≤ 64) (hs : t.width ≤ src.width) :
    Gives (convertOp tgt (sAs t) src v) (some (if t.signed then (v.setWidth t.width).signExtend tgt.width
      else (v.setWidth t.width).setWidth tgt.width)) := by
  apply gives_convertOp ht
  have hlow : t.bits (src.value (field src v)) = v.setWidth t.width := by
    unfold Ty.bits field
    rw [ofInt_value hs, BitVec.setWidth_setWidth_of_le _ hs]
  unfold sAs
  rw [hlow, Option.map_some]
  congr 1
  unfold Ty.bits Ty.value
  split
  · rfl
  · rw [BitVec.ofInt_natCast, BitVec.ofNat_toNat]

theorem gives_wrap : Gives (convertOp i32 sNop i64 v) (some (Cvt.i32WrapI64.eval v)) := by
  apply gives_convertOp (by decide)
  unfold sNop Ty.bits
  rw [Option.map_some, ofInt_value (by decide)]
  rfl

end Operators

/-! ### Main result -/

/-- The handlers of the two widths, which differ in nothing else. -/
def Un.handler (w : Width) : Un → ValueU → R ValueU
  | .clz => Integers.unop w.int (sClz w.int)
  | .ctz => Integers.unop w.int (sCtz w.int)
  | .popcnt => Integers.unop w.int (sPopcnt w.int)

def Rel.handler (w : Width) : Rel → ValueU → ValueU → R ValueU
  | .eq => relop w.int sEq
  | .ne => relop w.int sNe
  | .ltS => relop w.int sLt
  | .ltU => relop w.uint sLt
  | .gtS => relop w.int sGt
  | .gtU => relop w.uint sGt
  | .leS => relop w.int sLe
  | .leU => relop w.uint sLe
  | .geS => relop w.int sGe
  | .geU => relop w.uint sGe

def Bin.handler (w : Width) : Bin → ValueU → ValueU → R ValueU
  | .add => binop w.int w.int.add w.int
  | .sub => binop w.int w.int.sub w.int
  | .mul => binop w.int w.int.mul w.int
  | .divS => Integers.divS w.int
  | .divU => Integers.divU w.uint
  | .remS => Integers.remS w.int
  | .remU => Integers.remU w.uint
  | .and => binop w.int w.int.and w.int
  | .or => binop w.int w.int.or w.int
  | .xor => binop w.int w.int.xor w.int
  | .shl => binop w.int w.int.shl w.int
  | .shrS => binop w.int w.int.shr w.int
  | .shrU => binop w.int w.uint.shr w.uint
  | .rotl => binop w.int (sRotl w.uint) w.uint
  | .rotr => binop w.int (sRotr w.uint) w.uint

section Main
variable {v1 v2 : ValueU}

theorem run_un (w : Width) (op : Un) : (Op.un w op).run v1 v2 = op.handler w v2 := by
  cases w <;> cases op <;> rfl

theorem run_rel (w : Width) (op : Rel) : (Op.rel w op).run v1 v2 = op.handler w v1 v2 := by
  cases w <;> cases op <;> rfl

theorem run_bin (w : Width) (op : Bin) : (Op.bin w op).run v1 v2 = op.handler w v1 v2 := by
  have hfind : (numericOpcode (Op.bin w op).instr).bind binary = some (op.handler w) := by
    cases w <;> cases op <;> rfl
  unfold Op.run
  dsimp only
  rw [hfind, Option.getD_some]

theorem gives_un (w : Width) (op : Un) :
    Gives (op.handler w v2) (some (op.eval (v2.setWidth w.bits))) := by
  cases op with
  | clz => exact gives_clz
  | ctz => exact gives_ctz
  | popcnt => exact gives_popcnt

theorem gives_rel (w : Width) (op : Rel) : Gives (op.handler w v1 v2)
    (some (BitVec.ofNat 32 (op.eval (v1.setWidth w.bits) (v2.setWidth w.bits)).toNat)) := by
  cases op with
  | eq => exact gives_eq
  | ne => exact gives_ne
  | ltS | gtS | leS | geS => exact gives_relop rfl
  | ltU =>
    apply gives_relop
    unfold sLt Rel.eval
    congr 1
    exact decide_eq_decide.mpr Int.ofNat_lt
  | gtU =>
    apply gives_relop
    unfold sGt Rel.eval
    congr 1
    exact decide_eq_decide.mpr Int.ofNat_lt
  | leU =>
    apply gives_relop
    unfold sLe Rel.eval
    congr 1
    exact decide_eq_decide.mpr Int.ofNat_le
  | geU =>
    apply gives_relop
    unfold sGe Rel.eval
    congr 1
    exact decide_eq_decide.mpr Int.ofNat_le

theorem gives_bin (w : Width) (op : Bin) :
    Gives (op.handler w v1 v2) (op.eval (v1.setWidth w.bits) (v2.setWidth w.bits)) ↔
      op.Defined (v1.setWidth w.bits) (v2.setWidth w.bits) := by
  cases op with
  | add => exact gives_add
  | sub => exact gives_sub
  | mul => exact gives_mul
  | shl => exact gives_shl
  | shrS => exact gives_shrS
  | shrU => exact gives_shrU
  | divS => exact iff_of_true gives_divS trivial
  | divU => exact iff_of_true gives_divU trivial
  | remS => exact iff_of_true gives_remS trivial
  | remU => exact iff_of_true gives_remU trivial
  | and => exact iff_of_true gives_and trivial
  | or => exact iff_of_true gives_or trivial
  | xor => exact iff_of_true gives_xor trivial
  | rotl => exact iff_of_true gives_rotl trivial
  | rotr => exact iff_of_true gives_rotr trivial

theorem gives_cvt (op : Cvt) : Gives ((Op.cvt op).run v1 v2) (some (op.eval v2)) := by
  cases op with
  | i32WrapI64 => exact gives_wrap
  | i64ExtendI32S => exact gives_as i64 i32 i32 (by decide) (by decide)
  | i64ExtendI32U => exact gives_as i64 u32 i32 (by decide) (by decide)
  | i32Extend8S => exact gives_as i32 i8 i32 (by decide) (by decide)
  | i32Extend16S => exact gives_as i32 i16 i32 (by decide) (by decide)
  | i64Extend8S => exact gives_as i64 i8 i32 (by decide) (by decide)
  | i64Extend16S => exact gives_as i64 i16 i32 (by decide) (by decide)
  | i64Extend32S => exact gives_as i64 i32 i64 (by decide) (by decide)

end Main

/-- An integer instruction has the meaning it has in WebAssembly exactly when signed sums,
differences and products do not overflow and shift counts are below the width, where a shift to
the left must also keep a number that is not negative below the sign. -/
theorem integer_instructions (pf : Platform) (k : ℕ) (s : ExecState) (v1 v2 : ValueU) (op : Op) :
    op.Meets pf k s v1 v2 ↔ op.Defined v1 v2 := by
  rw [meets_iff]
  cases op with
  | eqz w =>
    apply iff_of_true _ trivial
    cases w with
    | w32 => exact gives_eqz (w := .w32)
    | w64 => exact gives_eqz (w := .w64)
  | un w op =>
    rw [run_un]
    exact iff_of_true (gives_un w op) trivial
  | rel w op =>
    rw [run_rel]
    exact iff_of_true (gives_rel w op) trivial
  | bin w op =>
    rw [run_bin]
    exact gives_bin w op
  | cvt op => exact iff_of_true (gives_cvt op) trivial

/-- The C shift `1 << 32` of two `i32`s is undefined, and WebAssembly's is 1. -/
theorem shl_width :
    ¬ ∀ (pf : Platform) (k : ℕ) (s : ExecState) (v1 v2 : ValueU) (op : Op), op.Meets pf k s v1 v2 := by
  intro h
  have hpf : Nonempty Platform :=
    ⟨⟨fun _ => 0, fun _ => none, fun _ args m => .ok (args, m), fun _ v => .ok v, fun _ v _ => .ok v⟩⟩
  obtain ⟨pf⟩ := hpf
  have hmeets := meets_iff _ |>.mp (h pf 0 ⟨{}, []⟩ 1 32 (.bin .w32 .shl))
  rw [run_bin] at hmeets
  have hcount := ((gives_bin .w32 .shl).mp hmeets).1
  exact absurd hcount (by decide)

end Silverfir.Integers
