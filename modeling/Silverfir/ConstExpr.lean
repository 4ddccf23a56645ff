import Silverfir.Vm

/-! Constant expressions: what they are, what their values are, and that
`interp_reduce_const_expr` finds these. -/
namespace Silverfir

inductive ConstInstr where
  | i32Const (v : ℕ)
  | i64Const (v : ℕ)
  | f32Const (v : ℕ)
  | f64Const (v : ℕ)
  | refNull (type : TypeId)
  | refFunc (fIdx : ℕ)
  | globalGet (idx : ℕ)
  deriving DecidableEq, Repr

namespace ConstInstr

/-- The instruction has this opcode, and its immediate stands here. -/
inductive Reads : WasmOpcode → Stream → ConstInstr → Stream → Prop
  | i32Const {s s' v} (h : s.readVi32 = .ok (v, s')) : Reads .i32Const s (.i32Const v) s'
  | i64Const {s s' v} (h : s.readVi64 = .ok (v, s')) : Reads .i64Const s (.i64Const v) s'
  | f32Const {s s' v} (h : s.readF32 = .ok (v, s')) : Reads .f32Const s (.f32Const v) s'
  | f64Const {s s' v} (h : s.readF64 = .ok (v, s')) : Reads .f64Const s (.f64Const v) s'
  | refNull {s s' type} (h : readType TypeId.isRef "Invalid reference type after ref.null" s = .ok (type, s')) :
      Reads .refNull s (.refNull type) s'
  | refFunc {s s' fIdx} (h : s.readVu32 = .ok (fIdx, s')) : Reads .refFunc s (.refFunc fIdx) s'
  | globalGet {s s' idx} (h : s.readVu32 = .ok (idx, s')) : Reads .globalGet s (.globalGet idx) s'

/-- The value of a constant instruction for instance `k`. -/
def value (pf : Platform) (vm : Vm) (k : ℕ) : ConstInstr → R TypedValue
  | i32Const v => .ok ⟨.i32, BitVec.ofNat 64 v⟩
  | i64Const v => .ok ⟨.i64, BitVec.ofNat 64 v⟩
  | f32Const v => .ok ⟨.f32, BitVec.ofNat 64 v⟩
  | f64Const v => .ok ⟨.f64, BitVec.ofNat 64 v⟩
  | refNull type => .ok ⟨type, nullref⟩
  | refFunc fIdx => do
    let a ← vm.addr (·.fAddrs) k fIdx
    .ok ⟨.funcref, pf.toRef a⟩
  | globalGet idx => do
    let a ← vm.addr (·.gAddrs) k idx
    let g ← vm.global a
    .ok ⟨g.glob.valtype, g.gvalue⟩

end ConstInstr

/-- The expression is one constant instruction, up to `end`. -/
def IsConstExpr (expr : Str) (c : ConstInstr) : Prop :=
  ∃ b op s s', (Stream.from_ expr).readU8 = .ok (b, s) ∧ WasmOpcode.ofByte? b = some op ∧ c.Reads op s s' ∧
    (s'.remaining = 0 ∨ ∃ b' s'', s'.readU8 = .ok (b', s'') ∧ WasmOpcode.ofByte? b' = some .end_)

/-- The value of a constant expression. -/
def ConstValue (pf : Platform) (vm : Vm) (k : ℕ) (expr : Str) (v : TypedValue) : Prop :=
  ∃ c, IsConstExpr expr c ∧ c.value pf vm k = .ok v

section Reduce
variable {pf : Platform} {vm : Vm} {k : ℕ} {passiveElem : Bool}

theorem constInstr_none {op : WasmOpcode} {code : Stream} (h : constInstr pf vm k op code = .ok none) : op = .end_ := by
  cases op <;> simp only [constInstr, bind_eq_ok, err_ne_ok] at h
  case end_ => rfl
  case globalGet =>
    obtain ⟨x, -, mi, -, h⟩ := h
    split at h
    · simp at h
    · simp only [bind_eq_ok] at h
      obtain ⟨_, -, _, -, h⟩ := h
      cases h
  all_goals simp at h

/-- One instruction, with its value. -/
theorem constInstr_some {op : WasmOpcode} {code code' : Stream} {v : TypedValue}
    (h : constInstr pf vm k op code = .ok (some (v, code'))) :
    ∃ c : ConstInstr, c.Reads op code code' ∧ c.value pf vm k = .ok v := by
  cases op <;> simp only [constInstr, bind_eq_ok, err_ne_ok] at h
  case i32Const =>
    obtain ⟨⟨x, s⟩, hread, h⟩ := h
    cases h
    exact ⟨_, .i32Const hread, rfl⟩
  case i64Const =>
    obtain ⟨⟨x, s⟩, hread, h⟩ := h
    cases h
    exact ⟨_, .i64Const hread, rfl⟩
  case f32Const =>
    obtain ⟨⟨x, s⟩, hread, h⟩ := h
    cases h
    exact ⟨_, .f32Const hread, rfl⟩
  case f64Const =>
    obtain ⟨⟨x, s⟩, hread, h⟩ := h
    cases h
    exact ⟨_, .f64Const hread, rfl⟩
  case refNull =>
    obtain ⟨⟨x, s⟩, hread, h⟩ := h
    cases h
    exact ⟨_, .refNull hread, rfl⟩
  case refFunc =>
    obtain ⟨⟨x, s⟩, hread, a, ha, h⟩ := h
    cases h
    refine ⟨_, .refFunc hread, ?_⟩
    rw [ConstInstr.value, ha]
    rfl
  case globalGet =>
    obtain ⟨⟨x, s⟩, hread, mi, -, h⟩ := h
    split at h
    · simp at h
    · simp only [bind_eq_ok] at h
      obtain ⟨a, ha, g, hg, h⟩ := h
      cases h
      refine ⟨_, .globalGet hread, ?_⟩
      rw [ConstInstr.value, ha, ok_bind, hg]
      rfl
  case end_ => cases h

/-- One round of the loop: it is over, or there is one value more. -/
theorem constExprLoop_succ {n : ℕ} {code : Stream} {valueStack vs : List TypedValue}
    (h : constExprLoop pf vm k passiveElem (n + 1) code valueStack = .ok vs) :
    (vs = valueStack ∧ (code.remaining = 0 ∨
      ∃ b s, code.readU8 = .ok (b, s) ∧ WasmOpcode.ofByte? b = some .end_)) ∨
    ∃ b op s s' c v, code.readU8 = .ok (b, s) ∧ WasmOpcode.ofByte? b = some op ∧ ConstInstr.Reads op s c s' ∧
      c.value pf vm k = .ok v ∧ constExprLoop pf vm k passiveElem n s' (v :: valueStack) = .ok vs := by
  rw [constExprLoop] at h
  split at h
  · next hrem =>
    cases h
    exact .inl ⟨rfl, .inl hrem⟩
  · obtain ⟨⟨b, s⟩, hread, h⟩ := bind_eq_ok.mp h
    simp only at h
    split at h
    · split at h <;> simp at h
    · next op hop =>
      split at h
      · simp at h
      · obtain ⟨r, hr, h⟩ := bind_eq_ok.mp h
        split at h
        · cases h
          rw [constInstr_none hr] at hop
          exact .inl ⟨rfl, .inr ⟨b, s, hread, hop⟩⟩
        · next v s' =>
          obtain ⟨c, hc, hv⟩ := constInstr_some hr
          exact .inr ⟨b, op, s, s', c, v, hread, hop, hc, hv, h⟩

theorem constExprLoop_length {n : ℕ} {code : Stream} {valueStack vs : List TypedValue}
    (h : constExprLoop pf vm k passiveElem n code valueStack = .ok vs) : valueStack.length ≤ vs.length := by
  induction n generalizing code valueStack with
  | zero =>
    cases h
    exact Nat.le_refl _
  | succ n ih =>
    obtain ⟨rfl, -⟩ | ⟨_, _, _, s', _, v, -, -, -, -, h⟩ := constExprLoop_succ h
    · exact Nat.le_refl _
    · have hle := ih h
      rw [List.length_cons] at hle
      omega

/-- A result of the evaluator is the value of the expression. -/
theorem reduceConstExpr_ok {expr : Str} {v : TypedValue} (h : reduceConstExpr pf vm k expr passiveElem = .ok v) :
    ConstValue pf vm k expr v := by
  rw [reduceConstExpr] at h
  obtain ⟨vs, hloop, h⟩ := bind_eq_ok.mp h
  split at h
  · cases h
    obtain ⟨heq, -⟩ | ⟨b, op, s, s', c, v', hread, hop, hc, hv, hloop⟩ := constExprLoop_succ hloop
    · cases heq
    · cases hlen : expr.length with
      | zero =>
        rw [List.eq_nil_of_length_eq_zero hlen] at hread
        cases hread
      | succ n =>
        rw [hlen] at hloop
        obtain ⟨heq, hend⟩ | ⟨_, _, _, s'', _, w, -, -, -, -, hloop⟩ := constExprLoop_succ hloop
        · cases heq
          exact ⟨c, ⟨b, op, s, s', hread, hop, hc, hend⟩, hv⟩
        · have hle := constExprLoop_length hloop
          simp at hle
  · simp at h

end Reduce

end Silverfir
