import Silverfir.Exec

/-! How many operands an instruction takes and how many results it leaves: the counts the handlers
work with are those of the types the validator pops and pushes. -/
namespace Silverfir

namespace InPlaceDt

/-- The number of slots a handler pushes. The calls are not handled here. -/
def resultCount : Instr → ℕ
  | .select | .selectT _ | .localGet _ | .localTee _ | .globalGet _ | .tableGet _ | .memorySize | .memoryGrow
  | .i32Const _ | .i64Const _ | .f32Const _ | .f64Const _ | .itestop _ | .iunop _ | .irelop _ | .ibinop _
  | .funop _ | .frelop _ | .fbinop _ | .wrapop _ | .truncop _ | .convertop _ | .rankop _ | .reinterpretop _
  | .extendop _ | .refNull _ | .refIsNull | .refFunc _ | .truncSat _ | .tableGrow _ | .tableSize _ => 1
  | .memoryLoadStore op _ _ => if op.isLoad then 1 else 0
  | _ => 0

/-- The operands of an instruction of a function of `mod`, those of the calls included. -/
def pops (mod : Module) : Instr → ℕ
  | .call idx => ((mod.funcs[idx]?).map (·.fnType.paramCount)).getD 0
  | .callIndirect typeIdx _ => ((mod.funcTypes[typeIdx]?).map (·.paramCount + 1)).getD 0
  | i => operandCount i

/-- The results of an instruction of a function of `mod`, those of the calls included. -/
def pushes (mod : Module) : Instr → ℕ
  | .call idx => ((mod.funcs[idx]?).map (·.fnType.resultCount)).getD 0
  | .callIndirect typeIdx _ => ((mod.funcTypes[typeIdx]?).map (·.resultCount)).getD 0
  | i => resultCount i

end InPlaceDt

open InPlaceDt

theorem funcSig_length {ft : FuncType} {ps rs : List TypeId} (h : funcSig ft = some (ps, rs)) :
    ps.length = ft.paramCount ∧ rs.length = ft.resultCount := by
  unfold funcSig at h
  split at h
  · next hp hr =>
    cases h
    rw [List.length_reverse]
    exact ⟨parseTypes_length hp, parseTypes_length hr⟩
  · cases h

namespace Validator

variable {mod : Module} {locals : List TypeId}

theorem fixedSig_length {i : Instr} {ps rs : List TypeId} (h : fixedSig mod locals i = some (ps, rs)) :
    ps.length = pops mod i ∧ rs.length = pushes mod i := by
  cases i with
  | call idx =>
    obtain ⟨fn, hfn, hs⟩ := Option.bind_eq_some_iff.mp h
    have := funcSig_length hs
    simpa [pops, pushes, hfn] using this
  | callIndirect typeIdx tableIdx =>
    obtain ⟨ft, hft, hs⟩ := Option.bind_eq_some_iff.mp h
    obtain ⟨⟨ps', rs'⟩, hsig, he⟩ := Option.map_eq_some_iff.mp hs
    cases he
    have := funcSig_length hsig
    simpa [pops, pushes, hft] using this
  | localGet | localSet | localTee | globalGet | globalSet | tableGet | tableSet =>
    obtain ⟨x, -, he⟩ := Option.map_eq_some_iff.mp h
    cases he
    exact ⟨rfl, rfl⟩
  | memoryLoadStore op align offset =>
    obtain ⟨t, -, he⟩ := Option.map_eq_some_iff.mp h
    cases hop : op.isLoad <;> rw [hop] at he <;> cases he <;> simp [pops, pushes, operandCount, resultCount, hop]
  | itestop op | iunop op | irelop op | ibinop op | funop op | frelop op | fbinop op | wrapop op | truncop op
  | convertop op | rankop op | reinterpretop op | extendop op | truncSat op =>
    rw [fixedSig_num mod locals rfl] at h
    obtain ⟨s, -, he⟩ := Option.map_eq_some_iff.mp h
    cases he
    exact ⟨rfl, rfl⟩
  | _ =>
    first
    | (cases h
       exact ⟨rfl, rfl⟩)
    | cases h

/-- The counts of the types are the counts of the slots. -/
theorem PlainTypes.counts {i : Instr} {ts us : List TypeId} (h : PlainTypes mod locals i ts us) :
    ts.length = pops mod i ∧ us.length = pushes mod i := by
  cases h with
  | fixed hs hm => rw [hm.length_eq]; exact fixedSig_length hs
  | select => exact ⟨rfl, rfl⟩

end Validator

theorem pops_erase (mod : Module) (i : Instr) : pops mod i.erase = pops mod i := by cases i <;> rfl

theorem pushes_erase (mod : Module) (i : Instr) : pushes mod i.erase = pushes mod i := by cases i <;> rfl

end Silverfir
