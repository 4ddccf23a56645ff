import Silverfir.ValidatorStack
import Mathlib.Data.List.Forall2

/-! The callbacks of the instructions without control flow: operands are popped, results are
pushed, and neither the frames nor the jump table change. -/
namespace Silverfir

/-- The callbacks that touch the frames or the jump table. -/
def Instr.isControl : Instr → Bool
  | .unreachable | .block _ _ | .else_ | .end_ | .brOrIf _ _ | .brTable | .return_ => true
  | _ => false

/-- Number of operands of the numeric instructions. -/
def Instr.numArity : Instr → Option ℕ
  | .itestop _ | .iunop _ | .funop _ | .wrapop _ | .truncop _ | .convertop _ | .rankop _
  | .reinterpretop _ | .extendop _ | .truncSat _ => some 1
  | .irelop _ | .ibinop _ | .frelop _ | .fbinop _ => some 2
  | _ => none

/-- Operand and result type of the numeric instructions. -/
def Instr.numSig : Instr → Option (TypeId × TypeId)
  | .itestop op => some (if op = .i32Eqz then .i32 else .i64, .i32)
  | .iunop op =>
    match op with
    | .i32Clz | .i32Ctz | .i32Popcnt => some (.i32, .i32)
    | .i64Clz | .i64Ctz | .i64Popcnt => some (.i64, .i64)
    | _ => none
  | .irelop op =>
    match op with
    | .i32Eq | .i32Ne | .i32LtS | .i32LtU | .i32GtS | .i32GtU | .i32LeS | .i32LeU | .i32GeS | .i32GeU =>
      some (.i32, .i32)
    | .i64Eq | .i64Ne | .i64LtS | .i64LtU | .i64GtS | .i64GtU | .i64LeS | .i64LeU | .i64GeS | .i64GeU =>
      some (.i64, .i32)
    | _ => none
  | .ibinop op =>
    match op with
    | .i32Add | .i32Sub | .i32Mul | .i32DivS | .i32DivU | .i32RemS | .i32RemU | .i32And | .i32Or | .i32Xor
    | .i32Shl | .i32ShrS | .i32ShrU | .i32Rotl | .i32Rotr => some (.i32, .i32)
    | .i64Add | .i64Sub | .i64Mul | .i64DivS | .i64DivU | .i64RemS | .i64RemU | .i64And | .i64Or | .i64Xor
    | .i64Shl | .i64ShrS | .i64ShrU | .i64Rotl | .i64Rotr => some (.i64, .i64)
    | _ => none
  | .funop op =>
    match op with
    | .f32Abs | .f32Neg | .f32Ceil | .f32Floor | .f32Trunc | .f32Nearest | .f32Sqrt => some (.f32, .f32)
    | .f64Abs | .f64Neg | .f64Ceil | .f64Floor | .f64Trunc | .f64Nearest | .f64Sqrt => some (.f64, .f64)
    | _ => none
  | .frelop op =>
    match op with
    | .f32Eq | .f32Ne | .f32Lt | .f32Gt | .f32Le | .f32Ge => some (.f32, .i32)
    | .f64Eq | .f64Ne | .f64Lt | .f64Gt | .f64Le | .f64Ge => some (.f64, .i32)
    | _ => none
  | .fbinop op =>
    match op with
    | .f32Add | .f32Sub | .f32Mul | .f32Div | .f32Min | .f32Max | .f32Copysign => some (.f32, .f32)
    | .f64Add | .f64Sub | .f64Mul | .f64Div | .f64Min | .f64Max | .f64Copysign => some (.f64, .f64)
    | _ => none
  | .wrapop _ => some (.i64, .i32)
  | .truncop op =>
    match op with
    | .i32TruncF32S | .i32TruncF32U => some (.f32, .i32)
    | .i32TruncF64S | .i32TruncF64U => some (.f64, .i32)
    | .i64TruncF32S | .i64TruncF32U => some (.f32, .i64)
    | .i64TruncF64S | .i64TruncF64U => some (.f64, .i64)
    | _ => none
  | .convertop op =>
    match op with
    | .f32ConvertI32S | .f32ConvertI32U => some (.i32, .f32)
    | .f32ConvertI64S | .f32ConvertI64U => some (.i64, .f32)
    | .f64ConvertI32S | .f64ConvertI32U => some (.i32, .f64)
    | .f64ConvertI64S | .f64ConvertI64U => some (.i64, .f64)
    | _ => none
  | .rankop op =>
    match op with
    | .f32DemoteF64 => some (.f64, .f32)
    | .f64PromoteF32 => some (.f32, .f64)
    | _ => none
  | .reinterpretop op =>
    match op with
    | .i32ReinterpretF32 => some (.f32, .i32)
    | .i64ReinterpretF64 => some (.f64, .i64)
    | .f32ReinterpretI32 => some (.i32, .f32)
    | .f64ReinterpretI64 => some (.i64, .f64)
    | _ => none
  | .extendop op =>
    match op with
    | .i64ExtendI32S | .i64ExtendI32U => some (.i32, .i64)
    | .i32Extend8S | .i32Extend16S => some (.i32, .i32)
    | .i64Extend8S | .i64Extend16S | .i64Extend32S => some (.i64, .i64)
    | _ => none
  | .truncSat op =>
    match op with
    | .i32TruncSatF32S | .i32TruncSatF32U => some (.f32, .i32)
    | .i32TruncSatF64S | .i32TruncSatF64U => some (.f64, .i32)
    | .i64TruncSatF32S | .i64TruncSatF32U => some (.f32, .i64)
    | .i64TruncSatF64S | .i64TruncSatF64U => some (.f64, .i64)
    | _ => none
  | _ => none

/-- The number types proper; `TypeId.isNum` also holds of `unknown`. -/
def TypeId.IsNumType : TypeId → Prop
  | .i32 | .i64 | .f32 | .f64 => True
  | _ => False

theorem Instr.numSig_types {i : Instr} {a b : TypeId} (h : i.numSig = some (a, b)) :
    a.IsNumType ∧ b.IsNumType := by
  unfold numSig at h
  split at h
  case h_1 =>
    cases h
    split <;> exact ⟨trivial, trivial⟩
  case h_8 =>
    cases h
    exact ⟨trivial, trivial⟩
  case h_15 => cases h
  all_goals
    split at h
    all_goals
      first
      | (cases h
         exact ⟨trivial, trivial⟩)
      | cases h

/-- The type of the value that a memory access moves. -/
def WasmOpcode.memType : WasmOpcode → Option TypeId
  | .i32Load | .i32Load8S | .i32Load8U | .i32Load16S | .i32Load16U | .i32Store | .i32Store8 | .i32Store16 =>
    some .i32
  | .i64Load | .i64Load8S | .i64Load8U | .i64Load16S | .i64Load16U | .i64Load32S | .i64Load32U
  | .i64Store | .i64Store8 | .i64Store16 | .i64Store32 => some .i64
  | .f32Load | .f32Store => some .f32
  | .f64Load | .f64Store => some .f64
  | _ => none

theorem WasmOpcode.memType_isNumType {op : WasmOpcode} {t : TypeId} (h : op.memType = some t) : t.IsNumType := by
  unfold memType at h
  split at h
  all_goals
    first
    | (cases h
       exact trivial)
    | cases h

def WasmOpcode.isLoad : WasmOpcode → Bool
  | .i32Load | .i32Load8S | .i32Load8U | .i32Load16S | .i32Load16U | .i64Load | .i64Load8S
  | .i64Load8U | .i64Load16S | .i64Load16U | .i64Load32S | .i64Load32U | .f32Load | .f64Load => true
  | _ => false

/-- Operand types in pop order and result types in push order. -/
def funcSig (ft : FuncType) : Option (List TypeId × List TypeId) :=
  match parseTypes ft.paramCount ft.params, parseTypes ft.resultCount ft.results with
  | .ok ps, .ok rs => some (ps.reverse, rs)
  | _, _ => none

namespace Validator

/-- What the callbacks pop (in pop order) and push (in push order), where the types do not
depend on the operands. `drop` pops any type. -/
def fixedSig (mod : Module) (locals : List TypeId) : Instr → Option (List TypeId × List TypeId)
  | .nop | .dataDrop _ | .elemDrop _ => some ([], [])
  | .call f => (mod.funcs[f]?).bind fun fn => funcSig fn.fnType
  | .callIndirect t _ =>
    (mod.funcTypes[t]?).bind fun ft => (funcSig ft).map fun pr => (.i32 :: pr.1, pr.2)
  | .drop => some ([.unknown], [])
  | .selectT t => some ([.i32, t, t], [t])
  | .localGet i => (locals[i]?).map fun t => ([], [t])
  | .localSet i => (locals[i]?).map fun t => ([t], [])
  | .localTee i => (locals[i]?).map fun t => ([t], [t])
  | .globalGet i => (mod.globals[i]?).map fun g => ([], [g.valtype])
  | .globalSet i => (mod.globals[i]?).map fun g => ([g.valtype], [])
  | .tableGet i => (mod.tables[i]?).map fun tab => ([.i32], [tab.valtype])
  | .tableSet i => (mod.tables[i]?).map fun tab => ([tab.valtype, .i32], [])
  | .memorySize | .i32Const _ | .tableSize _ => some ([], [.i32])
  | .memoryGrow => some ([.i32], [.i32])
  | .i64Const _ => some ([], [.i64])
  | .f32Const _ => some ([], [.f32])
  | .f64Const _ => some ([], [.f64])
  | .refNull t => some ([], [t])
  | .refIsNull => some ([.ref], [.i32])
  | .refFunc _ => some ([], [.funcref])
  | .memoryInit _ | .memoryCopy | .memoryFill | .tableInit _ _ | .tableCopy _ _ =>
    some ([.i32, .i32, .i32], [])
  | .tableGrow _ => some ([.i32, .ref], [.i32])
  | .tableFill _ => some ([.i32, .ref, .i32], [])
  | .memoryLoadStore op _ _ =>
    op.memType.map fun t => if op.isLoad then ([.i32], [t]) else ([t, .i32], [])
  | i => i.numArity.bind fun n => i.numSig.map fun s => (List.replicate n s.1, [s.2])

theorem fixedSig_num (mod : Module) (locals : List TypeId) {i : Instr} {n : ℕ} (h : i.numArity = some n) :
    fixedSig mod locals i = i.numSig.map fun s => (List.replicate n s.1, [s.2]) := by
  cases i <;> first | (cases h; rfl) | cases h

/-- The operand types `ts` an instruction was given, in pop order, and the types it pushes. -/
inductive PlainTypes (mod : Module) (locals : List TypeId) : Instr → List TypeId → List TypeId → Prop
  | fixed {i ts pops pushes} (hs : fixedSig mod locals i = some (pops, pushes))
      (hm : List.Forall₂ Matches ts pops) : PlainTypes mod locals i ts pushes
  | select {t t1 t2} (hm : Matches t .i32)
      (hk : (t1.isNum && t2.isNum) || (t1.isVec && t2.isVec))
      (he : t1 = t2 ∨ t1 = .unknown ∨ t2 = .unknown) :
      PlainTypes mod locals .select [t, t1, t2] [if t1 = .unknown then t2 else t1]

/-- The results of an instruction depend on its operands only. -/
theorem PlainTypes.unique {mod : Module} {locals ts us us' : List TypeId} {i : Instr}
    (h : PlainTypes mod locals i ts us) (h' : PlainTypes mod locals i ts us') : us = us' := by
  cases h with
  | fixed hs =>
    cases h' with
    | fixed hs' =>
      rw [hs] at hs'
      cases hs'
      rfl
    | select => cases hs
  | select =>
    cases h' with
    | fixed hs' => cases hs'
    | select => rfl

/-- The size that the callback of `call` accounts for before it pushes the results. -/
def calleeSize (mod : Module) (i : Instr) (height : ℕ) : ℕ :=
  match i with
  | .call f =>
    match mod.funcs[f]? with
    | some fn => u32 (height + fn.localCount)
    | none => 0
  | _ => 0

/-- One step of a plain instruction. -/
structure PlainStep (mod : Module) (i : Instr) (c c' : Ctx) (k : ℕ) (ts us : List TypeId) : Prop where
  types : PlainTypes mod c.locals i ts us
  popped : Popped c k ts
  eq : c' = pushVals us { c with
    valStack := c.valStack.drop k
    stackSizeMax := max c.stackSizeMax (calleeSize mod i (c.valStack.length - k)) }

theorem PlainStep.of_popPush {mod : Module} {i : Instr} {c c' : Ctx} {pops pushes : List TypeId}
    (h : popPush pops pushes c = .ok c') (hc : ∀ n, calleeSize mod i n = 0)
    (ht : ∀ ts, List.Forall₂ Matches ts pops → PlainTypes mod c.locals i ts pushes) :
    ∃ k ts us, PlainStep mod i c c' k ts us := by
  obtain ⟨ts, k, hm, hp, rfl⟩ := popPush_ok h
  exact ⟨k, ts, pushes, ht ts hm, hp, by rw [hc, Nat.max_zero]⟩

theorem withIdx_ok {α : Type} {msg : String} {xs : List α} {idx : ℕ} {k : α → R Ctx} {c : Ctx}
    (h : withIdx msg xs idx k = .ok c) : ∃ x, xs[idx]? = some x ∧ k x = .ok c := by
  unfold withIdx at h
  split at h
  · simp at h
  · next x hx => exact ⟨x, hx, h⟩

theorem needMem0_ok {mod : Module} {k : R Ctx} {c : Ctx} (h : needMem0 mod k = .ok c) :
    mod.memories ≠ [] ∧ k = .ok c := by
  unfold needMem0 at h
  split at h
  · simp at h
  · next hm => exact ⟨fun he => hm (by simp [he]), h⟩

theorem PlainStep.of_fixed {mod : Module} {i : Instr} {c c' : Ctx} {pops pushes : List TypeId}
    (h : popPush pops pushes c = .ok c') (hs : fixedSig mod c.locals i = some (pops, pushes))
    (hc : ∀ n, calleeSize mod i n = 0 := by intro n; rfl) :
    ∃ k ts us, PlainStep mod i c c' k ts us :=
  PlainStep.of_popPush h hc fun _ hm => .fixed hs hm

theorem onCall_ok {mod : Module} {f : ℕ} {c c' : Ctx} (h : onCall mod f c = .ok c') :
    ∃ k ts us, PlainStep mod (.call f) c c' k ts us := by
  unfold onCall at h
  split at h
  · simp at h
  · next fn hfn =>
    simp only [bind_eq_ok] at h
    obtain ⟨ps, hps, c1, h1, rs, hrs, h⟩ := h
    obtain ⟨ts, k, hm, hp, rfl⟩ := popVals_ok h1
    cases h
    refine ⟨k, ts, rs, .fixed ?_ hm, hp, ?_⟩
    · simp [fixedSig, hfn, funcSig, hps, hrs]
    · simp only [calleeSize, hfn, List.length_drop]
      congr 2
      split_ifs with hlt
      · exact (max_eq_right hlt.le).symm
      · exact (max_eq_left (by omega)).symm

theorem onCallIndirect_fixed {mod : Module} {t tab : ℕ} {c c' : Ctx} (h : onCallIndirect mod t tab c = .ok c') :
    tab < mod.tables.length ∧ ∃ pops pushes, fixedSig mod c.locals (.callIndirect t tab) = some (pops, pushes) ∧
      popPush pops pushes c = .ok c' := by
  simp only [onCallIndirect, bind_eq_ok] at h
  obtain ⟨⟨t0, c0⟩, h0, h⟩ := h
  split at h
  · simp at h
  · next hlt =>
    refine ⟨by omega, ?_⟩
    split at h
    · simp at h
    · next ft hft =>
      simp only [bind_eq_ok] at h
      obtain ⟨ps, hps, c1, h1, rs, hrs, h⟩ := h
      simp only [popVals, bind_eq_ok] at h1
      obtain ⟨⟨us, c2⟩, h1, h2⟩ := h1
      have hpop : popValsRev (.i32 :: ps.reverse) c = .ok (t0 :: us, c2) := by
        simp only [popValsRev, h0, ok_bind]
        simp only [popValsToVec] at h1
        rw [h1]; rfl
      cases h
      cases h2
      have hpush : popPush (.i32 :: ps.reverse) rs c = .ok (pushVals rs c2) := by
        simp [popPush, hpop]
      exact ⟨_, _, by simp [fixedSig, hft, funcSig, hps, hrs], hpush⟩

theorem onSelect_ok {mod : Module} {c c' : Ctx} (h : onSelect c = .ok c') :
    ∃ k ts us, PlainStep mod .select c c' k ts us := by
  simp only [onSelect, bind_eq_ok] at h
  obtain ⟨⟨t, c0⟩, h0, ⟨t1, c1⟩, h1, ⟨t2, c2⟩, h2, h⟩ := h
  have expect : ∀ {c c' : Ctx} {t : TypeId}, popVal c = .ok (t, c') →
      popValExpect .unknown c = .ok (t, c') := by
    intro c c' t h
    simp [popValExpect, h]
  have hpop : popValsRev [.i32, .unknown, .unknown] c = .ok ([t, t1, t2], c2) := by
    simp only [popValsRev, h0, ok_bind, expect h1, expect h2]
  obtain ⟨hm, k, hp, hc2⟩ := popValsRev_ok hpop
  obtain ⟨-, hm0⟩ := popValExpect_ok h0
  simp only at h
  split at h
  · simp at h
  · next hk =>
    split at h
    · simp at h
    · next he =>
      cases h
      refine ⟨k, _, _, .select hm0 ?_ (by tauto), hp, ?_⟩
      · simpa only [Bool.not_eq_true', Bool.not_eq_false] using hk
      · rw [hc2]
        simp [calleeSize, pushVals]

/-- The callbacks that pop and push types that do not depend on the operands. -/
theorem onInstr_fixed {mod : Module} {i : Instr} {imm : Stream} {c c' : Ctx} (hi : i.isControl = false)
    (hcall : ∀ f, i ≠ .call f) (hselect : i ≠ .select) (h : onInstr mod i imm c = .ok c') :
    ∃ pops pushes, fixedSig mod c.locals i = some (pops, pushes) ∧ popPush pops pushes c = .ok c' := by
  cases i with
  | unreachable | block | else_ | end_ | brOrIf | brTable | return_ => simp [Instr.isControl] at hi
  | opcodeFd => simp [onInstr] at h
  | nop =>
    cases h
    exact ⟨[], [], rfl, rfl⟩
  | call f => exact absurd rfl (hcall f)
  | callIndirect t tab => exact (onCallIndirect_fixed h).2
  | drop =>
    have hp : popPush [.unknown] [] c = .ok c' := by
      simp only [onInstr, onDrop, bind_eq_ok] at h
      obtain ⟨⟨t, c1⟩, h1, h⟩ := h
      simp [popPush, popValsRev, popValExpect, h1, ← h]
    exact ⟨_, _, rfl, hp⟩
  | select => exact absurd rfl hselect
  | localGet | localSet | localTee | globalGet | globalSet | tableGet | tableSet | refFunc
  | tableGrow | tableSize | tableFill =>
    obtain ⟨x, hx, h⟩ := withIdx_ok h
    exact ⟨_, _, by simp [fixedSig, hx], h⟩
  | memoryLoadStore op align offset =>
    obtain ⟨hm, h⟩ := needMem0_ok h
    split at h
    all_goals first
      | exact ⟨_, _, rfl, (guard_eq_ok.mp h).2⟩
      | simp [shouldNotHappen] at h
  | selectT | memorySize | memoryGrow | i32Const | i64Const | f32Const | f64Const | refNull
  | refIsNull => exact ⟨_, _, rfl, h⟩
  | itestop op =>
    simp only [onInstr, onItestop] at h
    split at h
    · next he => exact ⟨_, _, by simp [fixedSig, Instr.numArity, Instr.numSig, he], h⟩
    · next he => exact ⟨_, _, by simp [fixedSig, Instr.numArity, Instr.numSig, he], h⟩
  | iunop op | funop op | truncop op | convertop op | rankop op | reinterpretop op | extendop op
  | truncSat op =>
    simp only [onInstr, onIunop, onFunop, onTruncop, onConvertop, onRankop, onReinterpretop,
      onExtendop, onTruncSat] at h
    split at h
    all_goals first
      | exact ⟨_, _, rfl, h⟩
      | simp [shouldNotHappen] at h
  | wrapop => exact ⟨_, _, rfl, h⟩
  | irelop op | ibinop op | frelop op | fbinop op =>
    simp only [onInstr, onIrelop, onIbinop, onFrelop, onFbinop] at h
    split at h
    all_goals first
      | exact ⟨_, _, rfl, h⟩
      | simp [shouldNotHappen] at h
  | memoryInit =>
    obtain ⟨x, hx, h⟩ := withIdx_ok h
    exact ⟨_, _, rfl, (needMem0_ok h).2⟩
  | memoryCopy | memoryFill => exact ⟨_, _, rfl, (needMem0_ok h).2⟩
  | dataDrop | elemDrop =>
    obtain ⟨x, hx, h⟩ := withIdx_ok h
    cases h
    exact ⟨[], [], rfl, rfl⟩
  | tableInit | tableCopy =>
    obtain ⟨x, hx, h⟩ := withIdx_ok h
    obtain ⟨y, hy, h⟩ := withIdx_ok h
    exact ⟨_, _, rfl, (guard_eq_ok.mp h).2⟩

/-- What the callbacks of the plain instructions do. -/
theorem onInstr_plain {mod : Module} {i : Instr} {imm : Stream} {c c' : Ctx}
    (hi : i.isControl = false) (h : onInstr mod i imm c = .ok c') :
    ∃ k ts us, PlainStep mod i c c' k ts us := by
  by_cases hcall : ∃ f, i = .call f
  · obtain ⟨f, rfl⟩ := hcall
    exact onCall_ok h
  by_cases hselect : i = .select
  · subst hselect
    exact onSelect_ok h
  obtain ⟨pops, pushes, hsig, hpush⟩ := onInstr_fixed hi (fun f hf => hcall ⟨f, hf⟩) hselect h
  refine PlainStep.of_fixed hpush hsig fun n => ?_
  cases i with
  | call f => exact absurd ⟨f, rfl⟩ hcall
  | _ => rfl

end Validator

end Silverfir
