import Silverfir.Trace
import Silverfir.Instantiate

/-! A module before and after validation. Validating a function changes its jump table and its
stack size, and validation of the others does not look at these. -/
namespace Silverfir

open Validator
open Relation (ReflTransGen)

/-- A function as the parser leaves it. -/
def Func.parsed (f : Func) : Func := { f with jt := [], stackSizeMax := 0 }

/-- A module as the parser leaves it. -/
def Module.parsed (mod : Module) : Module := { mod with funcs := mod.funcs.map Func.parsed }

namespace Validator

variable {mod : Module} {f : Func}

theorem onInstr_parsed (mod : Module) : onInstr mod.parsed = onInstr mod := by
  funext i imm c
  cases i with
  | call idx =>
    simp only [onInstr, onCall, Module.parsed, List.getElem?_map]
    cases mod.funcs[idx]? <;> rfl
  | refFunc idx =>
    simp only [onInstr, onRefFunc, withIdx, Module.parsed, List.getElem?_map]
    cases mod.funcs[idx]? <;> rfl
  | _ => rfl

theorem step_parsed {x y : ℕ × Ctx} : Step mod.parsed f x y ↔ Step mod f x y := by
  rw [show x = (x.1, x.2) from rfl, show y = (y.1, y.2) from rfl, step_iff, step_iff, onInstr_parsed]
  rfl

theorem reach_parsed {x : ℕ × Ctx} : Reach mod.parsed f x ↔ Reach mod f x := by
  have hstep : Step mod.parsed f = Step mod f := funext₂ fun _ _ => propext step_parsed
  unfold Reach
  rw [hstep]

theorem accepts_parsed {e imm : ℕ} {ce c : Ctx} : Accepts mod.parsed f e imm ce c ↔ Accepts mod f e imm ce c :=
  ⟨fun h => ⟨reach_parsed.mp h.reach, h.fetch, h.onEnd⟩, fun h => ⟨reach_parsed.mpr h.reach, h.fetch, h.onEnd⟩⟩

end Validator

theorem validateFunc_parsed {mod : Module} {f f' : Func} :
    validateFunc mod.parsed f = .ok f' ↔ validateFunc mod f = .ok f' := by
  simp only [validateFunc_ok, accepts_parsed]

/-- Validation does not look at the stack size of before. -/
theorem validateFunc_fresh {mod : Module} {f f' : Func} (hjt : f.jt = []) (h : validateFunc mod f = .ok f') :
    validateFunc mod f'.parsed = .ok f' := by
  obtain ⟨e, imm, ce, c, ha, rfl⟩ := validateFunc_ok.mp h
  have hf : ({ f with jt := linkJumpTable c.jt, stackSizeMax := c.stackSizeMax } : Func).parsed =
      { f with stackSizeMax := 0 } := by
    simp only [Func.parsed]
    rw [← hjt]
  rw [hf]
  exact validateFunc_ok.mpr ⟨e, imm, ce, c, ⟨ha.reach, ha.fetch, ha.onEnd⟩, rfl⟩

/-- What the loop over the functions leaves: every function of the module is validated, its
imports are as they were. -/
structure ValidatedTo (n : ℕ) (mod mod' : Module) : Prop where
  rest : { mod' with funcs := mod.funcs } = mod
  parsed : mod'.parsed = mod.parsed
  done : ∀ i fn', i < n → mod'.funcs[i]? = some fn' → fn'.linkage.imported = false →
    ∃ fn, mod.funcs[i]? = some fn ∧ validateFunc mod.parsed fn = .ok fn'
  todo : ∀ i, n ≤ i → mod'.funcs[i]? = mod.funcs[i]?

theorem parsed_of_validateFunc {mod : Module} {f f' : Func} (h : validateFunc mod f = .ok f') :
    f'.parsed = f.parsed := by
  obtain ⟨e, imm, ce, c, -, rfl⟩ := validateFunc_ok.mp h
  rfl

theorem validateFuncs_ok {n : ℕ} {mod mod' : Module} (h : validateFuncs n mod = .ok mod') :
    ValidatedTo n mod mod' := by
  induction n generalizing mod' with
  | zero =>
    cases h
    exact ⟨rfl, rfl, fun i fn' hi => absurd hi (Nat.not_lt_zero i), fun _ _ => rfl⟩
  | succ n ih =>
    obtain ⟨mod1, h1, h⟩ := bind_eq_ok.mp h
    have hv := ih h1
    split at h
    · next hn =>
      cases h
      refine ⟨hv.rest, hv.parsed, fun i fn' hi hfn himp => ?_, fun i hi => hv.todo i (by omega)⟩
      by_cases hlt : i < n
      · exact hv.done i fn' hlt hfn himp
      · obtain rfl : i = n := by omega
        rw [hn] at hfn
        cases hfn
    · next fn hn =>
      split at h
      · next himp1 =>
        cases h
        refine ⟨hv.rest, hv.parsed, fun i fn' hi hfn himp => ?_, fun i hi => hv.todo i (by omega)⟩
        by_cases hlt : i < n
        · exact hv.done i fn' hlt hfn himp
        · obtain rfl : i = n := by omega
          rw [hn] at hfn
          cases hfn
          rw [himp] at himp1
          cases himp1
      · next himp1 =>
        obtain ⟨fn1, hval, h⟩ := bind_eq_ok.mp h
        cases h
        refine ⟨hv.rest, ?_, fun i fn' hi hfn himp => ?_, fun i hi => ?_⟩
        · rw [← hv.parsed]
          simp only [Module.parsed, Module.mk.injEq, true_and, and_true]
          rw [List.map_set, parsed_of_validateFunc hval]
          apply List.ext_getElem?
          intro i
          rw [List.getElem?_set]
          split
          · next he =>
            subst he
            split
            · rw [List.getElem?_map, hn]
              rfl
            · next hlt =>
              rw [List.getElem?_eq_none (by simpa using hlt)]
          · rfl
        · rw [List.getElem?_set] at hfn
          by_cases he : n = i
          · subst he
            rw [if_pos rfl] at hfn
            split at hfn
            · cases hfn
              refine ⟨fn, ?_, ?_⟩
              · rw [← hv.todo n le_rfl, hn]
              · rw [← hv.parsed]
                exact validateFunc_parsed.mpr hval
            · cases hfn
          · rw [if_neg he] at hfn
            exact hv.done i fn' (by omega) hfn himp
        · rw [List.getElem?_set, if_neg (by omega)]
          exact hv.todo i (by omega)

/-- The module is as the parser leaves it: no function has a jump table. -/
def Module.Fresh (mod : Module) : Prop := ∀ f ∈ mod.funcs, f.jt = []

/-- Every function of a module that was validated for the first time. -/
theorem validateFuncs_fresh {mod mod' : Module} (hfresh : mod.Fresh)
    (h : validateFuncs mod.funcs.length mod = .ok mod') {i : ℕ} {fn : Func} (hfn : mod'.funcs[i]? = some fn)
    (himp : fn.linkage.imported = false) : validateFunc mod'.parsed fn.parsed = .ok fn := by
  have hv := validateFuncs_ok h
  by_cases hi : i < mod.funcs.length
  · obtain ⟨fn0, hfn0, hval⟩ := hv.done i fn hi hfn himp
    rw [hv.parsed]
    exact validateFunc_fresh (hfresh fn0 (List.mem_of_getElem? hfn0)) hval
  · rw [hv.todo i (by omega), List.getElem?_eq_none (by omega)] at hfn
    cases hfn

end Silverfir
