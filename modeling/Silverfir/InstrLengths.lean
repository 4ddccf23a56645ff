import Silverfir.Agreement
import Silverfir.Operands
import Silverfir.Moves
import Silverfir.Lib.CallStack

/-! The lengths of instructions: the offset at which validation reads the next opcode is the one
to which both interpreters go, when an instruction does not jump. -/
namespace Silverfir

open InPlaceDt (Act Outcome Regs Flow lo32 readImm readImmFc popOperand followStack opcodeAt)
open Validator (Reach Step step_iff)
open CallStack (Shift Completes)

/-! ### The immediates in `in_place_tco.c` -/

namespace InPlaceTco

/-- `stream_seek_unchecked` and the readers `stream_read_*_unchecked`. -/
inductive Imm where
  | seek (n : ℕ)
  | vu32 | vi32 | vi64 | f32 | f64
  deriving DecidableEq, Repr

/-- What an immediate leaves of `pc`. -/
def Imm.read (code : Str) (pc : ℕ) : Imm → R ℕ
  | .seek n => .ok (pc + n)
  | .vu32 => do
    let (_, pc) ← Unchecked.readVu32 code pc
    .ok pc
  | .vi32 => do
    let (_, pc) ← Unchecked.readVi32 code pc
    .ok pc
  | .vi64 => do
    let (_, pc) ← Unchecked.readVi64 code pc
    .ok pc
  | .f32 => do
    let (_, pc) ← Unchecked.readFixed 4 code pc
    .ok pc
  | .f64 => do
    let (_, pc) ← Unchecked.readFixed 8 code pc
    .ok pc

def readAll (code : Str) : ℕ → List Imm → R ℕ
  | pc, [] => .ok pc
  | pc, imm :: imms => do
    let pc ← imm.read code pc
    readAll code pc imms

/-- What the handlers read before `READ_NEXT_OP`, when they do not jump. -/
def immediates : OpcodeCase → List Imm
  | .block | .brOrIf => [.seek 1]
  | .call => [.vu32]
  | .callIndirect => [.vu32, .vu32]
  | .selectT => [.seek 2]
  | .localGet | .localSet | .localTee | .globalGet | .globalSet | .tableGet | .tableSet => [.vu32]
  | .memoryLoadStore => [.seek 1, .vu32]
  | .memorySize | .memoryGrow => [.seek 1]
  | .i32Const => [.vi32]
  | .i64Const => [.vi64]
  | .f32Const => [.f32]
  | .f64Const => [.f64]
  | .refNull => [.seek 1]
  | .refFunc => [.vu32]
  | _ => []

/-- The `case` labels of `OP(prefix_fc)`. -/
def immediatesFc : WasmOpcodeFc → List Imm
  | .memoryInit => [.vu32, .seek 1]
  | .dataDrop => [.vu32]
  | .memoryCopy => [.seek 2]
  | .memoryFill => [.seek 1]
  | .tableInit => [.vu32, .vu32]
  | .elemDrop => [.vu32]
  | .tableCopy => [.vu32, .vu32]
  | .tableGrow | .tableSize | .tableFill => [.vu32]
  | _ => []

/-- Where a handler that does not jump has its `READ_NEXT_OP`; `pc` is behind the opcode. -/
def nextOp (op : WasmOpcode) (code : Str) (pc : ℕ) : R ℕ :=
  match op.case with
  | .prefixFc => do
    let (opcodeFc, pc) ← Unchecked.readVu32 code pc
    match WasmOpcodeFc.ofU32? opcodeFc with
    | none => err .general "Invalid opcode"
    | some op => readAll code pc (immediatesFc op)
  | .prefixFd => err .general "Unsupported opcode"
  | c => readAll code pc (immediates c)

/-! ### They are those of `in_place_dt.c` -/

section Immediates
variable {code : Str} {pc q : ℕ} {j : Instr}

theorem readAll_idx {i : ℕ → Instr} (h : InPlaceDt.readIdx i code pc = .ok (j, q)) :
    readAll code pc [.vu32] = .ok q := by
  obtain ⟨⟨u, pc1⟩, hu, h⟩ := bind_eq_ok.mp h
  cases h
  simp only [readAll, Imm.read, hu, ok_bind]

theorem readAll_idxIdx {i : ℕ → ℕ → Instr} (h : InPlaceDt.readIdxIdx i code pc = .ok (j, q)) :
    readAll code pc [.vu32, .vu32] = .ok q := by
  obtain ⟨⟨u, pc1⟩, hu, h⟩ := bind_eq_ok.mp h
  obtain ⟨⟨u', pc2⟩, hu', h⟩ := bind_eq_ok.mp h
  cases h
  simp only [readAll, Imm.read, hu, hu', ok_bind]

theorem readAll_of_readImmFc {op : WasmOpcodeFc} (h : readImmFc op code pc = .ok (j, q)) :
    readAll code pc (immediatesFc op) = .ok q := by
  cases op with
  | memoryInit =>
    obtain ⟨⟨u, pc1⟩, hu, h⟩ := bind_eq_ok.mp h
    cases h
    simp only [immediatesFc, readAll, Imm.read, hu, ok_bind]
  | tableInit => exact readAll_idxIdx h
  | tableCopy => exact readAll_idxIdx h
  | dataDrop => exact readAll_idx h
  | elemDrop => exact readAll_idx h
  | tableGrow => exact readAll_idx h
  | tableSize => exact readAll_idx h
  | tableFill => exact readAll_idx h
  | _ =>
    cases h
    rfl

theorem nextOp_of_readImm {op : WasmOpcode} (hop : op.case ≠ .prefixFd) (h : readImm op code pc = .ok (j, q)) :
    nextOp op code pc = .ok q := by
  unfold readImm at h
  unfold nextOp
  cases hc : op.case with
  | prefixFd => exact absurd hc hop
  | prefixFc =>
    rw [hc] at h
    obtain ⟨⟨u, pc1⟩, hu, h⟩ := bind_eq_ok.mp h
    dsimp only
    rw [hu, ok_bind]
    dsimp only at h ⊢
    cases hfc : WasmOpcodeFc.ofU32? u with
    | none =>
      rw [hfc] at h
      exact absurd h (err_ne_ok _ _ _)
    | some opFc =>
      rw [hfc] at h
      exact readAll_of_readImmFc h
  | callIndirect =>
    rw [hc] at h
    exact readAll_idxIdx h
  | call | localGet | localSet | localTee | globalGet | globalSet | tableGet | tableSet | refFunc =>
    rw [hc] at h
    exact readAll_idx h
  | memoryLoadStore | i32Const | i64Const | f32Const | f64Const =>
    rw [hc] at h
    obtain ⟨⟨u, pc1⟩, hu, h⟩ := bind_eq_ok.mp h
    cases h
    simp only [immediates, readAll, Imm.read, hu, ok_bind]
  | unreachable | block | else_ | end_ | brOrIf | brTable | return_ =>
    rw [hc] at h
    exact absurd h (undef_ne_ok _ _)
  | _ =>
    rw [hc] at h
    cases h
    rfl

end Immediates

end InPlaceTco

/-! ### Instructions that do not jump -/

/-- Neither a branch that is taken, nor a return, nor `unreachable`, nor the end of the function.
`q` is behind the instruction, `operand` is what `if` and `br_if` pop. -/
def Instr.FallsThrough (q len operand : ℕ) : Instr → Prop
  | .unreachable | .else_ | .brTable | .return_ => False
  | .block op _ => op = .if_ → operand ≠ 0
  | .end_ => q ≠ len
  | .brOrIf op _ => op = .brIf ∧ operand = 0
  | _ => True

/-- The low half of the topmost slot. -/
def topOperand (stack : List ValueU) : ℕ := lo32 (stack.headD 0)

/-- The activation goes on with the registers of `a`. -/
def InPlaceDt.Outcome.GoesOn (out : Outcome ValueU) (a : Act ValueU) : Prop := out = .next a ∨ ∃ i, out = .plain i a

section Falls
variable {mod : Module} {fn : Func} {p imm q : ℕ} {i : Instr} {a : Act ValueU} {out : Outcome ValueU}

theorem flowOf_falls (imm idx : ℕ) {v : ℕ} (h : i.FallsThrough q fn.code.length v) :
    (∃ j, flowOf fn.code i imm q idx v = .plain j q) ∨ ∃ idx', flowOf fn.code i imm q idx v = .next q idx' := by
  cases i with
  | unreachable => exact h.elim
  | else_ => exact h.elim
  | brTable => exact h.elim
  | return_ => exact h.elim
  | block op type =>
    right
    unfold flowOf
    dsimp only
    by_cases hop : op = .if_
    · rw [if_pos hop, if_pos (h hop)]
      exact ⟨_, rfl⟩
    · rw [if_neg hop]
      exact ⟨_, rfl⟩
  | end_ =>
    right
    unfold flowOf
    dsimp only
    rw [if_neg h]
    exact ⟨_, rfl⟩
  | brOrIf op lth =>
    right
    have hnot : op = .brIf ∧ v = 0 := h
    unfold flowOf
    dsimp only
    rw [if_pos hnot]
    exact ⟨_, rfl⟩
  | _ => exact Or.inl ⟨_, rfl⟩

/-- Only `if` and `br_if` look at their operand. -/
theorem fallsThrough_operand {v : ℕ} {stack : List ValueU} {rest : List ValueU}
    (h : i.FallsThrough q fn.code.length (topOperand stack))
    (hpop : popOperand lo32 i.popsOperand stack = .ok (v, rest)) : i.FallsThrough q fn.code.length v := by
  by_cases hp : i.popsOperand = true
  · rw [hp] at hpop
    cases stack with
    | nil => exact absurd hpop (undef_ne_ok _ _)
    | cons top stack =>
      cases hpop
      exact h
  · cases i with
    | block op type =>
      intro hop
      rw [Instr.popsOperand, hop] at hp
      exact absurd rfl hp
    | brOrIf op lth =>
      rw [Instr.popsOperand, h.1] at hp
      exact absurd rfl hp
    | _ => exact h

theorem InPlaceDt.actStep_falls (h : fetch mod fn.code p = .ok (i, imm, q)) (hpc : a.regs.pc = p)
    (hfalls : i.FallsThrough q fn.code.length (topOperand a.stack)) (hout : InPlaceDt.actStep fn lo32 a = .ok out) :
    ∃ a', out.GoesOn a' ∧ a'.regs.pc = q := by
  rw [actStep_of_fetch lo32 h hpc] at hout
  obtain ⟨⟨v, stack⟩, hpop, hout⟩ := bind_eq_ok.mp hout
  have hv := fallsThrough_operand hfalls hpop
  obtain ⟨j, hflow⟩ | ⟨idx', hflow⟩ := flowOf_falls imm a.regs.nextJtIdx hv
  · dsimp only at hout
    rw [hflow] at hout
    cases hout
    exact ⟨_, Or.inr ⟨j, rfl⟩, rfl⟩
  · dsimp only at hout
    rw [hflow] at hout
    cases hout
    exact ⟨_, Or.inl rfl, rfl⟩

theorem InPlaceTco.actStep_falls (h : fetch mod fn.code p = .ok (i, imm, q)) (hpc : a.regs.pc = p)
    (hfalls : i.FallsThrough q fn.code.length (topOperand a.stack)) (hout : InPlaceTco.actStep fn a = .ok out) :
    ∃ a', out.GoesOn a' ∧ a'.regs.pc = q := by
  obtain ⟨op, -, hout⟩ := bind_eq_ok.mp hout
  by_cases hop : op = .prefixFd
  · rw [if_pos hop] at hout
    exact absurd hout (err_ne_ok _ _ _)
  · rw [if_neg hop] at hout
    exact InPlaceDt.actStep_falls h hpc hfalls hout

/-- The reads of `in_place_tco.c` end at the same offset. -/
theorem InPlaceTco.nextOp_of_fetch {code : Str} {v : ℕ} (h : fetch mod code p = .ok (i, imm, q))
    (hfalls : i.FallsThrough q code.length v) :
    ∃ op, opcodeAt code p = .ok op ∧ InPlaceTco.nextOp op code (p + 1) = .ok q := by
  obtain ⟨b, op, pc, hb, hop, hi, hr⟩ := fetch_ok.mp h
  have hopcode : opcodeAt code (p : ℤ) = .ok op := by
    simp [opcodeAt, Unchecked.byteAt, hb, hop]
  refine ⟨op, hopcode, ?_⟩
  have hcase := decodeImm_case hi
  by_cases hc : i.isControl = false
  · have hfd : ∀ n, i ≠ .opcodeFd n := by
      rintro n rfl
      exact absurd hr (err_ne_ok _ _ _)
    have hbt : i ≠ .brTable := by
      rintro rfl
      exact hfalls
    have hread := Validator.readImm_of_checked hi hc hfd
    rw [← decodeRest_plain hr hbt] at hread
    apply InPlaceTco.nextOp_of_readImm _ hread
    rw [← hcase]
    cases i with
    | opcodeFd n => exact absurd rfl (hfd n)
    | _ => exact fun hk => by cases hk
  · unfold InPlaceTco.nextOp
    rw [← hcase]
    cases i with
    | unreachable => exact hfalls.elim
    | else_ => exact hfalls.elim
    | brTable => exact hfalls.elim
    | return_ => exact hfalls.elim
    | block o ty =>
      obtain ⟨-, hq, -⟩ := Validator.fetch_block h
      rw [hq]
      rfl
    | end_ =>
      obtain ⟨-, -, hq⟩ := Validator.fetch_end h
      rw [hq]
      rfl
    | brOrIf o l =>
      obtain ⟨-, hq, -⟩ := fetch_br h
      rw [hq]
      rfl
    | _ => exact absurd rfl hc

end Falls

/-! ### One pass, by what becomes of the active calls -/

/-- An active call: its function and its registers. -/
abbrev Place := Addr × Regs

def places (frames : List Frame) : List Place := frames.map fun fr => (fr.fAddr, fr.act.regs)

/-- What a pass with the outcome `out` makes of a call at `a` above `below`. -/
inductive PassMoves (out : Outcome ValueU) (a : Addr) (below : List Place) : List Place → Prop
  | stay {act : Act ValueU} (h : out.GoesOn act) : PassMoves out a below ((a, act.regs) :: below)
  | call {act : Act ValueU} {new : Place} (h : out.GoesOn act) : PassMoves out a below (new :: (a, act.regs) :: below)
  | ret {stack : List ValueU} (h : out = .finish stack) : PassMoves out a below below

theorem PassMoves.shift {out : Outcome ValueU} {a : Addr} {rg : Regs} {below ps : List Place}
    (h : PassMoves out a below ps) : Shift ((a, rg) :: below) ps := by
  cases h with
  | stay h => exact .stay
  | call h => exact .push
  | ret h => exact .pop

/-- An outcome that goes on goes on in one way. -/
theorem PassMoves.goes {out : Outcome ValueU} {a : Addr} {below ps : List Place} (h : PassMoves out a below ps)
    {act : Act ValueU} (hout : out.GoesOn act) :
    ps = (a, act.regs) :: below ∨ ∃ new, ps = new :: (a, act.regs) :: below := by
  have hsame : ∀ {act' : Act ValueU}, out.GoesOn act' → act' = act := by
    intro act' h'
    rcases hout with rfl | ⟨i, rfl⟩
    · rcases h' with h' | ⟨j, h'⟩
      · exact (Outcome.next.inj h').symm
      · cases h'
    · rcases h' with h' | ⟨j, h'⟩
      · cases h'
      · exact (Outcome.plain.inj h').2.symm
  cases h with
  | stay h =>
    rw [hsame h]
    exact Or.inl rfl
  | call h =>
    rw [hsame h]
    exact Or.inr ⟨_, rfl⟩
  | ret h =>
    rw [h] at hout
    rcases hout with hout | ⟨i, hout⟩
    · cases hout
    · cases hout

section Dt
variable {pf : Platform} {vm vm' : Vm} {r r' : Running} {fr : Frame} {rest : List Frame} {fn : Func}
  {out : Outcome ValueU} {a : Act ValueU}

theorem not_abort : (⟨vm', some r'⟩ : System) ≠ abort vm r := by
  intro h
  have hf := congrArg System.running h
  cases hc : r.cont with
  | invoke type =>
    rw [abort, hc] at hf
    cases hf
  | start k =>
    rw [abort, hc] at hf
    cases hf

theorem callFunc_passes {a' : Act ValueU} {callee : Addr} {calleeFn : Func} {params : List ValueU} {args : ℕ}
    (hout : out.GoesOn a) (hregs : a'.regs = a.regs)
    (h : callFunc pf vm r fr rest a' callee calleeFn params args = .ok ⟨vm', some r'⟩) :
    PassMoves out fr.fAddr (places rest) (places r'.frames) := by
  have hplace : (fr.fAddr, a'.regs) = (fr.fAddr, a.regs) := by rw [hregs]
  unfold callFunc at h
  split at h
  · rcases hostCall_ok h with ⟨vm1, stack, -, heq⟩ | habort
    · cases heq
      change PassMoves out fr.fAddr (places rest) ((fr.fAddr, a'.regs) :: places rest)
      rw [hplace]
      exact .stay hout
    · exact absurd habort not_abort
  · rcases checked_ok h with ⟨⟨new, t⟩, -, heq⟩ | habort
    · cases heq
      change PassMoves out fr.fAddr (places rest) ((new.fAddr, new.act.regs) :: (fr.fAddr, a'.regs) :: places rest)
      rw [hplace]
      exact .call hout
    · exact absurd habort not_abort

theorem opPlain_passes {i : Instr} (hout : out.GoesOn a) (h : opPlain pf vm r fr rest i a = .ok ⟨vm', some r'⟩) :
    PassMoves out fr.fAddr (places rest) (places r'.frames) := by
  unfold opPlain at h
  dsimp only at h
  split at h
  · exact absurd h (undef_ne_ok _ _)
  · split at h
    · cases h
      change PassMoves out fr.fAddr (places rest) ((fr.fAddr, a.regs) :: places rest)
      exact .stay hout
    · exact absurd (Except.ok.inj h).symm not_abort
    · exact absurd h (undef_ne_ok _ _)

theorem opFinish_passes {stack : List ValueU} (hout : out = .finish stack)
    (h : opFinish vm r rest fn stack = .ok ⟨vm', some r'⟩) :
    PassMoves out fr.fAddr (places rest) (places r'.frames) := by
  unfold opFinish at h
  dsimp only at h
  split at h
  · exact absurd h (undef_ne_ok _ _)
  · cases rest with
    | nil =>
      have hnone := frames_finish h
      unfold finish at h
      dsimp only at h
      split at h
      · obtain ⟨vals, -, h⟩ := bind_eq_ok.mp h
        cases h
      · cases h
    | cons caller rest =>
      cases h
      exact .ret hout

theorem runStep_passes (h : runStep pf vm r = .ok ⟨vm', some r'⟩) :
    ∃ fr rest fn out, r.frames = fr :: rest ∧ vm.func fr.fAddr = .ok fn ∧
      InPlaceDt.actStep fn lo32 fr.act = .ok out ∧ PassMoves out fr.fAddr (places rest) (places r'.frames) := by
  unfold runStep at h
  cases hframes : r.frames with
  | nil =>
    rw [hframes] at h
    exact absurd h (undef_ne_ok _ _)
  | cons fr rest =>
    rw [hframes] at h
    obtain ⟨fn, hfn, h⟩ := bind_eq_ok.mp h
    obtain ⟨out, hact, h⟩ := bind_eq_ok.mp h
    refine ⟨fr, rest, fn, out, rfl, hfn, hact, ?_⟩
    cases out with
    | trap => exact absurd (Except.ok.inj h).symm not_abort
    | next a =>
      cases h
      exact .stay (Or.inl rfl)
    | finish stack => exact opFinish_passes rfl h
    | plain i a =>
      have hout : (Outcome.plain i a).GoesOn a := Or.inr ⟨i, rfl⟩
      cases i with
      | call idx =>
        obtain ⟨callee, -, h⟩ := bind_eq_ok.mp h
        obtain ⟨calleeFn, -, h⟩ := bind_eq_ok.mp h
        obtain ⟨⟨params, a'⟩, hpop, h⟩ := bind_eq_ok.mp h
        exact callFunc_passes hout (popParams_ok hpop).1 h
      | callIndirect typeIdx tableIdx =>
        obtain ⟨rg, stack⟩ := a
        cases stack with
        | nil => exact absurd h (undef_ne_ok _ _)
        | cons v stack =>
          rcases checked_ok h with ⟨callee, -, h⟩ | habort
          · obtain ⟨calleeFn, -, h⟩ := bind_eq_ok.mp h
            obtain ⟨⟨params, a'⟩, hpop, h⟩ := bind_eq_ok.mp h
            exact callFunc_passes hout (popParams_ok hpop).1 h
          · exact absurd habort not_abort
      | _ => exact opPlain_passes hout h

end Dt

namespace InPlaceTco

/-- The calls without their caches. -/
def placesOf (ctxs : List CallCtx) : List Place := places (ctxs.map (·.toFrame))

section Tco
variable {pf : Platform} {vm vm' : Vm} {r r' : Running} {ctx : CallCtx} {rest : List CallCtx} {fn : Func}
  {out : Outcome ValueU} {a : Act ValueU}

theorem placesOf_moved (vm vm' : Vm) (ctxs : List CallCtx) :
    placesOf (ctxs.map (CallCtx.moved vm vm')) = placesOf ctxs := by
  unfold placesOf
  rw [moved_toFrame]

theorem not_abort : (⟨vm', some r'⟩ : System) ≠ abort vm r := by
  intro h
  have hf := congrArg System.running h
  cases hc : r.cont with
  | invoke type =>
    rw [abort, hc] at hf
    cases hf
  | start k =>
    rw [abort, hc] at hf
    cases hf

theorem checked_ok {α : Type} {x : R α} {next : α → R System} {s : System} (h : checked vm r x next = .ok s) :
    (∃ y, x = .ok y ∧ next y = .ok s) ∨ s = abort vm r := by
  unfold checked at h
  split at h
  · next y => exact Or.inl ⟨y, rfl, h⟩
  · exact Or.inr (Except.ok.inj h).symm
  · exact absurd h (undef_ne_ok _ _)

theorem callFunc_passes {a' : Act ValueU} {inCall : Bool} {callee : Addr} {calleeFn : Func} {params : List ValueU}
    {args : ℕ} (hout : out.GoesOn a) (hregs : a'.regs = a.regs)
    (h : callFunc pf vm r ctx rest a' inCall callee calleeFn params args = .ok ⟨vm', some r'⟩) :
    PassMoves out ctx.fAddr (placesOf rest) (placesOf r'.ctxs) := by
  have hplace : (ctx.fAddr, a'.regs) = (ctx.fAddr, a.regs) := by rw [hregs]
  unfold callFunc at h
  split at h
  · rcases checked_ok h with ⟨⟨results, bytes⟩, -, heq⟩ | habort
    · cases heq
      rw [placesOf_moved]
      change PassMoves out ctx.fAddr (placesOf rest) ((ctx.fAddr, a'.regs) :: placesOf rest)
      rw [hplace]
      exact .stay hout
    · exact absurd habort not_abort
  · rcases checked_ok h with ⟨⟨new, t⟩, -, heq⟩ | habort
    · cases heq
      change PassMoves out ctx.fAddr (placesOf rest)
        ((new.fAddr, new.act.regs) :: (ctx.fAddr, a'.regs) :: placesOf rest)
      rw [hplace]
      exact .call hout
    · exact absurd habort not_abort

theorem opPlain_passes {i : Instr} (hout : out.GoesOn a) (h : opPlain pf vm r ctx rest i a = .ok ⟨vm', some r'⟩) :
    PassMoves out ctx.fAddr (placesOf rest) (placesOf r'.ctxs) := by
  unfold opPlain at h
  dsimp only at h
  split at h
  · exact absurd h (undef_ne_ok _ _)
  · split at h
    · next s _ =>
      cases h
      have hrest := placesOf_moved vm s.vm rest
      change PassMoves out ctx.fAddr (placesOf rest)
        ((ctx.fAddr, a.regs) :: placesOf (rest.map (CallCtx.moved vm s.vm)))
      rw [hrest]
      exact .stay hout
    · exact absurd (Except.ok.inj h).symm not_abort
    · exact absurd h (undef_ne_ok _ _)

theorem opFinish_passes {stack : List ValueU} (hout : out = .finish stack)
    (h : opFinish vm r rest fn stack = .ok ⟨vm', some r'⟩) :
    PassMoves out ctx.fAddr (placesOf rest) (placesOf r'.ctxs) := by
  unfold opFinish at h
  dsimp only at h
  split at h
  · exact absurd h (undef_ne_ok _ _)
  · cases rest with
    | nil =>
      obtain ⟨s, -, h⟩ := bind_eq_ok.mp h
      cases h
    | cons caller rest =>
      obtain ⟨caller', hback, h⟩ := bind_eq_ok.mp h
      have hsame : (caller'.fAddr, caller'.act.regs) = (caller.fAddr, caller.act.regs) := by
        unfold backInCaller at hback
        split at hback
        · obtain ⟨mem0, -, hback⟩ := bind_eq_ok.mp hback
          cases hback
          rfl
        · cases hback
          rfl
      cases h
      change PassMoves out ctx.fAddr ((caller.fAddr, caller.act.regs) :: placesOf rest)
        ((caller'.fAddr, caller'.act.regs) :: placesOf rest)
      rw [hsame]
      exact .ret hout

theorem runStep_passes (h : runStep pf vm r = .ok ⟨vm', some r'⟩) :
    ∃ ctx rest fn out, r.ctxs = ctx :: rest ∧ vm.func ctx.fAddr = .ok fn ∧ actStep fn ctx.act = .ok out ∧
      PassMoves out ctx.fAddr (placesOf rest) (placesOf r'.ctxs) := by
  unfold runStep at h
  cases hctxs : r.ctxs with
  | nil =>
    rw [hctxs] at h
    exact absurd h (undef_ne_ok _ _)
  | cons ctx rest =>
    rw [hctxs] at h
    obtain ⟨fn, hfn, h⟩ := bind_eq_ok.mp h
    obtain ⟨out, hact, h⟩ := bind_eq_ok.mp h
    refine ⟨ctx, rest, fn, out, rfl, hfn, hact, ?_⟩
    cases out with
    | trap => exact absurd (Except.ok.inj h).symm not_abort
    | next a =>
      cases h
      exact .stay (Or.inl rfl)
    | finish stack => exact opFinish_passes rfl h
    | plain i a =>
      have hout : (Outcome.plain i a).GoesOn a := Or.inr ⟨i, rfl⟩
      cases i with
      | call idx =>
        obtain ⟨callee, -, h⟩ := bind_eq_ok.mp h
        obtain ⟨calleeFn, -, h⟩ := bind_eq_ok.mp h
        obtain ⟨⟨params, a'⟩, hpop, h⟩ := bind_eq_ok.mp h
        exact callFunc_passes hout (popParams_ok hpop).1 h
      | callIndirect typeIdx tableIdx =>
        obtain ⟨rg, stack⟩ := a
        cases stack with
        | nil => exact absurd h (undef_ne_ok _ _)
        | cons v stack =>
          rcases checked_ok h with ⟨callee, -, h⟩ | habort
          · obtain ⟨calleeFn, -, h⟩ := bind_eq_ok.mp h
            obtain ⟨⟨params, a'⟩, hpop, h⟩ := bind_eq_ok.mp h
            exact callFunc_passes hout (popParams_ok hpop).1 h
          · exact absurd habort not_abort
      | _ => exact opPlain_passes hout h

end Tco

end InPlaceTco

/-! ### An instruction with all that it calls -/

section Executions
variable (pf : Platform)

/-- A pass after which code is still running. -/
def InPlaceDt.Pass (x y : Vm × Running) : Prop := runStep pf x.1 x.2 = .ok ⟨y.1, some y.2⟩

def InPlaceTco.Pass (x y : Vm × InPlaceTco.Running) : Prop :=
  InPlaceTco.runStep pf x.1 x.2 = .ok ⟨y.1, some y.2⟩

/-- The innermost call executes an instruction; when that is a call, until the callee is back. -/
def InPlaceDt.ExecutesOne (x y : Vm × Running) : Prop :=
  Completes (InPlaceDt.Pass pf) (fun x => places x.2.frames) x.2.frames.length x y

def InPlaceTco.ExecutesOne (x y : Vm × InPlaceTco.Running) : Prop :=
  Completes (InPlaceTco.Pass pf) (fun x => InPlaceTco.placesOf x.2.ctxs) x.2.ctxs.length x y

end Executions

section Lengths
variable {pf : Platform} {mod : Module} {fn : Func} {code : Str} {p imm q : ℕ} {i : Instr}

/-- The function `a` is at the offset `q`. -/
def At (a : Addr) (q : ℕ) (k : Place) : Prop := k.1 = a ∧ k.2.pc = q

theorem InPlaceDt.pass_shift {x y : Vm × Running} (h : InPlaceDt.Pass pf x y) :
    Shift (places x.2.frames) (places y.2.frames) := by
  obtain ⟨fr, rest, fn, out, hframes, -, -, hmoves⟩ := runStep_passes h
  rw [hframes]
  exact hmoves.shift

theorem InPlaceTco.pass_shift {x y : Vm × InPlaceTco.Running} (h : InPlaceTco.Pass pf x y) :
    Shift (InPlaceTco.placesOf x.2.ctxs) (InPlaceTco.placesOf y.2.ctxs) := by
  obtain ⟨ctx, rest, fn, out, hctxs, -, -, hmoves⟩ := InPlaceTco.runStep_passes h
  rw [hctxs]
  exact hmoves.shift

/-- A pass that goes on from an instruction that falls through. -/
theorem PassMoves.lands {out : Outcome ValueU} {a : Addr} {below ps : List Place} (h : PassMoves out a below ps)
    (hout : ∃ act, out.GoesOn act ∧ act.regs.pc = (q : ℤ)) :
    ∃ k, At a q k ∧ (ps = k :: below ∨ ∃ new, ps = new :: k :: below) := by
  obtain ⟨act, hgoes, hpc⟩ := hout
  exact ⟨(a, act.regs), ⟨rfl, hpc⟩, h.goes hgoes⟩

theorem InPlaceDt.executesOne_falls {x y : Vm × Running} {fr : Frame} {rest : List Frame}
    (h : fetch mod code p = .ok (i, imm, q)) (hcode : fn.code = code) (hframes : x.2.frames = fr :: rest)
    (hfn : x.1.func fr.fAddr = .ok fn) (hpc : fr.act.regs.pc = p)
    (hfalls : i.FallsThrough q code.length (topOperand fr.act.stack)) (hexec : InPlaceDt.ExecutesOne pf x y) :
    ∃ k, At fr.fAddr q k ∧ places y.2.frames = k :: places rest := by
  subst hcode
  unfold InPlaceDt.ExecutesOne at hexec
  have hlen : x.2.frames.length = (places rest).length + 1 := by
    rw [hframes, List.length_cons, places, List.length_map]
  rw [hlen] at hexec
  apply hexec.moved (fun _ _ hz => InPlaceDt.pass_shift hz)
  intro z hz
  obtain ⟨fr', rest', fn', out, hframes', hfn', hact, hmoves⟩ := runStep_passes hz
  rw [hframes] at hframes'
  cases hframes'
  rw [hfn] at hfn'
  cases hfn'
  exact hmoves.lands (InPlaceDt.actStep_falls h hpc hfalls hact)

theorem InPlaceTco.executesOne_falls {x y : Vm × InPlaceTco.Running} {ctx : InPlaceTco.CallCtx}
    {rest : List InPlaceTco.CallCtx} (h : fetch mod code p = .ok (i, imm, q)) (hcode : fn.code = code)
    (hctxs : x.2.ctxs = ctx :: rest) (hfn : x.1.func ctx.fAddr = .ok fn) (hpc : ctx.act.regs.pc = p)
    (hfalls : i.FallsThrough q code.length (topOperand ctx.act.stack)) (hexec : InPlaceTco.ExecutesOne pf x y) :
    ∃ k, At ctx.fAddr q k ∧ InPlaceTco.placesOf y.2.ctxs = k :: InPlaceTco.placesOf rest := by
  subst hcode
  unfold InPlaceTco.ExecutesOne at hexec
  have hlen : x.2.ctxs.length = (InPlaceTco.placesOf rest).length + 1 := by
    rw [hctxs, List.length_cons, InPlaceTco.placesOf, places, List.length_map, List.length_map]
  rw [hlen] at hexec
  apply hexec.moved (fun _ _ hz => InPlaceTco.pass_shift hz)
  intro z hz
  obtain ⟨ctx', rest', fn', out, hctxs', hfn', hact, hmoves⟩ := InPlaceTco.runStep_passes hz
  rw [hctxs] at hctxs'
  cases hctxs'
  rw [hfn] at hfn'
  cases hfn'
  exact hmoves.lands (InPlaceTco.actStep_falls h hpc hfalls hact)

/-- Where validation reads its next opcode, both interpreters go on. -/
theorem instruction_lengths {f f' : Func} {c : Validator.Ctx} (hvalid : validateFunc mod f = .ok f')
    (hreach : Reach mod f (p, c)) (hp : p < f.code.length) :
    ∃ i imm q c', fetch mod f.code p = .ok (i, imm, q) ∧ Step mod f (p, c) (q, c') ∧
      (∀ (pf : Platform) (x y : Vm × Running) (fr : Frame) (rest : List Frame), x.2.frames = fr :: rest →
        x.1.func fr.fAddr = .ok f' → fr.act.regs.pc = p →
        i.FallsThrough q f.code.length (topOperand fr.act.stack) → InPlaceDt.ExecutesOne pf x y →
        ∃ k, At fr.fAddr q k ∧ places y.2.frames = k :: places rest) ∧
      (∀ (pf : Platform) (x y : Vm × InPlaceTco.Running) (ctx : InPlaceTco.CallCtx) (rest : List InPlaceTco.CallCtx),
        x.2.ctxs = ctx :: rest → x.1.func ctx.fAddr = .ok f' → ctx.act.regs.pc = p →
        i.FallsThrough q f.code.length (topOperand ctx.act.stack) → InPlaceTco.ExecutesOne pf x y →
        (∃ op, opcodeAt f.code p = .ok op ∧ InPlaceTco.nextOp op f.code (p + 1) = .ok q) ∧
        ∃ k, At ctx.fAddr q k ∧ InPlaceTco.placesOf y.2.ctxs = k :: InPlaceTco.placesOf rest) := by
  obtain ⟨e, eimm, ce, cend, haccepts, heq⟩ := Validator.validateFunc_ok.mp hvalid
  have hcode : f'.code = f.code := by rw [heq]
  obtain ⟨⟨q, c'⟩, hstep⟩ := haccepts.exists_step hreach hp
  obtain ⟨i, imm, hfetch, hon⟩ := step_iff.mp hstep
  refine ⟨i, imm, q, c', hfetch, hstep, ?_, ?_⟩
  · intro pf x y fr rest hframes hfn hpc hfalls hexec
    exact InPlaceDt.executesOne_falls hfetch hcode hframes hfn hpc hfalls hexec
  · intro pf x y ctx rest hctxs hfn hpc hfalls hexec
    have hnext := InPlaceTco.nextOp_of_fetch hfetch hfalls
    exact ⟨hnext, InPlaceTco.executesOne_falls hfetch hcode hctxs hfn hpc hfalls hexec⟩

/-- The constant in front of the call in `growModule`, in both interpreters. -/
theorem lengths_grow :
    (∃ k, At ⟨0, 1⟩ 2 k ∧ places [growFrame 1 2 [0]] = [k]) ∧
      ∃ k, At ⟨0, 1⟩ 2 k ∧ InPlaceTco.placesOf [{ toFrame := growFrame 1 2 [0] }] = [k] := by
  have hvalid : validateFunc growModule growModule.funcs[1] = .ok { growModule.funcs[1] with stackSizeMax := 1 } := by
    decide +kernel
  obtain ⟨c, hbegin⟩ : ∃ c, Validator.onDecodeBegin growModule.funcs[1] { jt := growModule.funcs[1].jt } = .ok c :=
    ⟨_, rfl⟩
  have hreach : Reach growModule growModule.funcs[1] (0, c) := ⟨c, hbegin, .refl⟩
  obtain ⟨i, imm, q, c', hfetch, -, hdt, htco⟩ := instruction_lengths hvalid hreach (by decide)
  have hfirst : fetch growModule growModule.funcs[1].code 0 = .ok (.i32Const 0, 1, 2) := by decide +kernel
  rw [hfirst] at hfetch
  cases hfetch
  have hfn : (growVm []).func ⟨0, 1⟩ = .ok { growModule.funcs[1] with stackSizeMax := 1 } := by rfl
  constructor
  · have hpass : InPlaceDt.Pass idle (growVm [], growRunning [growFrame 1 0 []])
        (growVm [], growRunning [growFrame 1 2 [0]]) := by
      unfold InPlaceDt.Pass
      decide +kernel
    have hexec : InPlaceDt.ExecutesOne idle _ _ := .last hpass (by decide)
    exact hdt idle _ _ (growFrame 1 0 []) [] rfl hfn rfl trivial hexec
  · have hpass : InPlaceTco.Pass idle
        (growVm [], ⟨[{ toFrame := growFrame 1 0 [] }], { frameDepth := 1 }, .invoke {}⟩)
        (growVm [], ⟨[{ toFrame := growFrame 1 2 [0] }], { frameDepth := 1 }, .invoke {}⟩) := by
      unfold InPlaceTco.Pass
      decide +kernel
    have hexec : InPlaceTco.ExecutesOne idle _ _ := .last hpass (by decide)
    exact (htco idle _ _ { toFrame := growFrame 1 0 [] } [] rfl hfn rfl trivial hexec).2

end Lengths

end Silverfir
