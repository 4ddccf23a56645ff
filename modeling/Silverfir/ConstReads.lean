import Silverfir.ElementApplication
import Silverfir.Defined

/-! What the evaluation of a constant expression comes to: its instructions one after the other, up to the first that
is refused or has no value. -/
namespace Silverfir

/-- A passive segment has references only. -/
def ConstInstr.Allowed (passiveElem : Bool) : ConstInstr → Prop
  | .refNull _ | .refFunc _ => True
  | _ => passiveElem = false

/-- The expression from its start to `code`, where every instruction is one that is gone behind. -/
inductive Along (goesOn : ConstInstr → Prop) (passiveElem : Bool) (expr : Str) : Stream → Prop
  | start : Along goesOn passiveElem expr (.from_ expr)
  | next {code s code' b op c} (h : Along goesOn passiveElem expr code) (hread : Stream.readU8 code = .ok (b, s))
      (hop : WasmOpcode.ofByte? b = some op) (hc : ConstInstr.Reads op s c code') (hallowed : c.Allowed passiveElem)
      (hgo : goesOn c) : Along goesOn passiveElem expr code'

/-- The instruction stands there. -/
def Meets (goesOn : ConstInstr → Prop) (passiveElem : Bool) (expr : Str) (c : ConstInstr) : Prop :=
  ∃ code s code' b op, Along goesOn passiveElem expr code ∧ code.readU8 = .ok (b, s) ∧
    WasmOpcode.ofByte? b = some op ∧ ConstInstr.Reads op s c code' ∧ c.Allowed passiveElem

/-- The evaluator takes the instruction, and it has a value. -/
def ConstInstr.Valued (pf : Platform) (vm : Vm) (k : ℕ) (passiveElem : Bool) (c : ConstInstr) : Prop :=
  c.Taken vm k passiveElem ∧ ∃ v, c.value pf vm k = .ok v

section Reads
variable {pf : Platform} {vm : Vm} {k : ℕ} {passiveElem : Bool} {expr : Str} {c : ConstInstr} {op : WasmOpcode}
  {code code' : Stream} {goesOn goesOn' Q : ConstInstr → Prop}

theorem ConstInstr.Taken.allowed (h : c.Taken vm k passiveElem) : c.Allowed passiveElem := by
  cases c with
  | refNull | refFunc => trivial
  | globalGet => exact h.1
  | _ => exact h

theorem reads_readType {ok : TypeId → Bool} {msg : String} {t : TypeId}
    (h : readType ok msg code = .ok (t, code')) : Stream.Reads code code' := by
  obtain ⟨-, n, hread, -⟩ := readType_ok h
  exact Stream.reads_readVi7 hread

theorem ConstInstr.Reads.reads (h : c.Reads op code code') : Stream.Reads code code' := by
  cases h with
  | i32Const h => exact Stream.reads_readVi32 h
  | i64Const h => exact Stream.reads_readVi64 h
  | f32Const h | f64Const h => exact Stream.reads_readFixed (by decide) h
  | refNull h => exact reads_readType h
  | refFunc h | globalGet h => exact Stream.reads_readVu32 h

/-- The loop of the evaluator behind an instruction that has a value. -/
theorem constExprLoop_next {n b : ℕ} {s : Stream} {valueStack : List TypedValue} {v : TypedValue}
    (hread : code.readU8 = .ok (b, s)) (hop : WasmOpcode.ofByte? b = some op) (hc : c.Reads op s code')
    (htaken : c.Taken vm k passiveElem) (hv : c.value pf vm k = .ok v) :
    constExprLoop pf vm k passiveElem (n + 1) code valueStack =
      constExprLoop pf vm k passiveElem n code' (v :: valueStack) := by
  rw [constExprLoop, if_neg (remaining_of_readU8 hread), hread, ok_bind]
  dsimp only
  rw [hop]
  dsimp only
  rw [if_neg (hc.allowed htaken), constInstr_of hc htaken hv, ok_bind]

/-- The evaluator comes to where the instructions that have values end. -/
theorem Along.evaluated (h : Along (ConstInstr.Valued pf vm k passiveElem) passiveElem expr code) :
    ∃ n valueStack, code.remaining < n ∧ constExprLoop pf vm k passiveElem (expr.length + 1) (.from_ expr) [] =
      constExprLoop pf vm k passiveElem n code valueStack := by
  induction h with
  | start => exact ⟨expr.length + 1, [], Nat.lt_succ_self _, rfl⟩
  | @next code s code' b op c _ hread hop hc _ hgo ih =>
    obtain ⟨n, valueStack, hn, hloop⟩ := ih
    obtain ⟨htaken, v, hv⟩ := hgo
    obtain ⟨m, rfl⟩ := Nat.exists_eq_succ_of_ne_zero (Nat.ne_zero_of_lt hn)
    have hless := ((Stream.reads_readU8 hread).trans hc.reads).remaining_lt
    refine ⟨m, v :: valueStack, by omega, hloop.trans ?_⟩
    exact constExprLoop_next hread hop hc htaken hv

/-- Two ways along the same expression: what is met on one is met on the other, if they go on together as long as
everything that is met satisfies `Q`. -/
theorem meets_congr (hgo : ∀ c, goesOn c → goesOn' c)
    (hback : ∀ c, c.Allowed passiveElem → Q c → goesOn' c → goesOn c) :
    (∀ c, Meets goesOn passiveElem expr c → Q c) ↔ ∀ c, Meets goesOn' passiveElem expr c → Q c := by
  have hmono : ∀ {code}, Along goesOn passiveElem expr code → Along goesOn' passiveElem expr code := by
    intro code h
    induction h with
    | start => exact .start
    | next _ hread hop hc hallowed hc' ih => exact .next ih hread hop hc hallowed (hgo _ hc')
  constructor
  · intro hall
    have halong : ∀ {code}, Along goesOn' passiveElem expr code → Along goesOn passiveElem expr code := by
      intro code h
      induction h with
      | start => exact .start
      | @next code s code' b op c _ hread hop hc hallowed hc' ih =>
        have hmet := hall c ⟨code, s, code', b, op, ih, hread, hop, hc, hallowed⟩
        exact .next ih hread hop hc hallowed (hback c hallowed hmet hc')
    rintro c ⟨code, s, code', b, op, h, hrest⟩
    exact hall c ⟨code, s, code', b, op, halong h, hrest⟩
  · rintro hall c ⟨code, s, code', b, op, h, hrest⟩
    exact hall c ⟨code, s, code', b, op, hmono h, hrest⟩

end Reads

end Silverfir
