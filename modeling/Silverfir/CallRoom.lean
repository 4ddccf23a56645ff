import Silverfir.StackBounds

/-! The buffers that calls get. The locals of a callee start where its arguments are, on the operand stack of the
caller; its results go there too. -/
namespace Silverfir

open InPlaceDt Validator
open Relation (ReflTransGen)

variable {pf : Platform} {mods : Module → Prop} {mod : Module} {f fn calleeFn : Func} {cE : Ctx} {vm : Vm} {s : System}

/-- What validation has counted where a plain instruction is executed: the operands, the results, and the locals of a
callee. -/
structure Room (mod : Module) (i : Instr) (height max : ℕ) : Prop where
  small : height < 2 ^ 31
  operands : height + pops mod i ≤ max
  results : height + pushes mod i ≤ max
  callee : calleeSize mod i height ≤ max

theorem Bounded.plain_room {V : Type} {cond : V → ℕ} {f' : Func} {a a' : Act V} {i : Instr} (h : RoomSafe mod f)
    (hs : Sound mod f cE) (hcode : f'.code = f.code) (hjt : f'.jt = linkJumpTable cE.jt)
    (ha : Bounded mod f (linkJumpTable cE.jt) a.regs a.stack.length) (hstep : actStep f' cond a = .ok (.plain i a')) :
    ∃ height, a'.stack.length ≤ height + pops mod i ∧ Room mod i height cE.stackSizeMax := by
  have hpass := ha.step h hs hcode hjt hstep
  generalize hplain : Outcome.plain i a' = out at hpass
  cases hpass with
  | @plain p c i0 imm q c' r hsync hn hf hi hcb hsync' =>
    injection hplain with hi0 ha'
    subst hi0 ha'
    obtain ⟨k, ts, us, hstep⟩ := onInstr_plain hi hcb
    obtain ⟨hpops, hpushes⟩ := hstep.types.counts
    obtain ⟨hk, hle⟩ := hn.popped hstep.popped
    have hheight : c.valStack.length < 2 ^ 31 := h.fits.height _ hsync.reach
    have hbefore : c.valStack.length ≤ cE.stackSizeMax := hs.valStack_le h.fits hsync.reach
    have hafter : c'.valStack.length ≤ cE.stackSizeMax := hs.valStack_le h.fits hsync'.reach
    have hcounted : c'.stackSizeMax ≤ cE.stackSizeMax := (hsync'.reach.grows h.fits (hs.steps hsync'.reach)).mono
    have hafter31 : c'.valStack.length < 2 ^ 31 := h.fits.height _ hsync'.reach
    have hheld := hn.le
    have hlen : c'.valStack.length = us.length + (c.valStack.length - k) := by
      rw [hstep.eq, pushVals_valStack, List.length_append, List.length_reverse, List.length_drop]
    have hcallee : calleeSize mod i0 (c.valStack.length - k) ≤ c'.stackSizeMax := by
      have hgrows : Grows { c with
          valStack := c.valStack.drop k
          stackSizeMax := max c.stackSizeMax (calleeSize mod i0 (c.valStack.length - k)) } c' := by
        rw [hstep.eq]
        refine grows_pushVals ?_
        simp only [List.length_drop]
        omega
      exact (le_max_right _ _).trans hgrows.mono
    have herase : calleeSize mod i0.erase = calleeSize mod i0 := by cases i0 <;> rfl
    refine ⟨c.valStack.length - k, ?_, ?_, ?_, ?_, ?_⟩
    · rw [pops_erase]
      change a.stack.length ≤ _
      omega
    · omega
    · rw [pops_erase]
      omega
    · rw [pushes_erase]
      omega
    · rw [herase]
      exact hcallee.trans hcounted
  | _ => cases hplain

/-- What the buffer of a call is sure to hold. For a direct call the arguments and the results, and the locals too
if the callee is a function of the caller's module; for an indirect call the locals, and the results too if there are no
locals but the arguments. -/
inductive Buffered (mod : Module) (calleeFn : Func) (args : ℕ) : Instr → Prop
  | direct {idx} (hparams : calleeFn.fnType.paramCount ≤ args) (hresults : calleeFn.fnType.resultCount ≤ args)
      (hlocals : mod.funcs[idx]? = some calleeFn → calleeFn.localCount < 2 ^ 31 → calleeFn.localCount ≤ args) :
      Buffered mod calleeFn args (.call idx)
  | copied {typeIdx tableIdx} (hlocals : calleeFn.localCount = args)
      (hown : calleeFn.localCount ≠ calleeFn.fnType.paramCount) :
      Buffered mod calleeFn args (.callIndirect typeIdx tableIdx)
  | shared {typeIdx tableIdx} (hlocals : calleeFn.localCount ≤ args) (hresults : calleeFn.fnType.resultCount ≤ args) :
      Buffered mod calleeFn args (.callIndirect typeIdx tableIdx)

theorem calleeSize_parsed (mod : Module) (i : Instr) (height : ℕ) :
    calleeSize mod.parsed i height = calleeSize mod i height := by
  cases i with
  | call idx =>
    simp only [calleeSize, Module.parsed, List.getElem?_map]
    cases mod.funcs[idx]? <;> rfl
  | _ => rfl

theorem Room.parsed {i : Instr} {height max : ℕ} (h : Room mod.parsed i height max) : Room mod i height max where
  small := h.small
  operands := by
    rw [← pops_parsed]
    exact h.operands
  results := by
    rw [← pushes_parsed]
    exact h.results
  callee := by
    rw [← calleeSize_parsed]
    exact h.callee

/-- The callee gets what validation has counted. -/
theorem Makes.buffered {fr caller new : Frame} {i : Instr} {args : List ValueU} {height : ℕ}
    (h : Makes vm mod fn fr caller new calleeFn i args) (hlen : caller.act.stack.length ≤ height)
    (hroom : Room mod i height fn.stackSizeMax) : Buffered mod calleeFn new.args i := by
  have hpops := h.pops
  have hparams := h.params
  have hresults := hroom.results
  have hoperands := hroom.operands
  rw [← h.pushes] at hresults
  cases h.origin with
  | @direct idx haddr hargs =>
    refine .direct (by omega) (by omega) fun hown hlocals => ?_
    have hcallee := hroom.callee
    have hsmall := hroom.small
    simp only [calleeSize, hown] at hcallee
    rw [u32, Nat.mod_eq_of_lt (by omega)] at hcallee
    omega
  | @indirect typeIdx tableIdx hargs =>
    by_cases hown : calleeFn.localCount = calleeFn.fnType.paramCount
    · rw [indirectArgs, if_neg (not_not.mpr hown)] at hargs
      exact .shared (by omega) (by omega)
    · rw [indirectArgs, if_pos hown] at hargs
      exact .copied hargs.symm hown

/-- A pass after which there is a call more has made that call. -/
theorem Acted.makes {r r' : Running} {fr caller new : Frame} {rest : List Frame} {vm' : Vm}
    (h : Acted vm mod r fr rest fn ⟨vm', some r'⟩) (hcall : r'.frames = new :: caller :: rest) :
    ∃ calleeFn i args, Makes vm mod fn fr caller new calleeFn i args := by
  generalize hs : (⟨vm', some r'⟩ : System) = s' at h
  cases h with
  | stay =>
    cases hs
    have hlen := congrArg List.length hcall
    simp only [List.length_cons] at hlen
    omega
  | call hmakes =>
    cases hs
    cases hcall
    exact ⟨_, _, _, hmakes⟩
  | ret hrest =>
    cases hs
    have hlen := congrArg List.length hcall
    rw [hrest] at hlen
    simp only [List.length_cons] at hlen
    omega
  | idle hnone =>
    subst hs
    rw [frames_of_running rfl, hcall] at hnone
    cases hnone

end Silverfir
