import Silverfir.Heights

/-! How many operands a call holds: at most as many as validation assumes where the interpreter is. Operands that are
left over in a frame only make them fewer. -/
namespace Silverfir

open InPlaceDt Validator ListStack
open Relation (ReflTransGen)

variable {V : Type} {mod : Module} {f f' : Func} {cE : Ctx}

/-- What the bound on the operands rests on: an `if` without `else` does not take more operands than it leaves. -/
structure RoomSafe (mod : Module) (f : Func) : Prop where
  jumps : JumpSafe mod f
  fits : Fits mod f
  ifs : ∀ p c fr, OneArmed mod f p c fr → fr.startTypes.length ≤ fr.endTypes.length

/-- Reachable code, where validation assumes at least `n` operands. -/
structure HoldsAt (c : Ctx) (n : ℕ) : Prop where
  live : ∀ fr ∈ c.ctrlStack, fr.unreachable = false
  le : n ≤ c.valStack.length

/-- The registers are in step with validation, and there are at most the operands it assumes; or the interpreter is at
the last `end`. -/
def Bounded (mod : Module) (f : Func) (jt : List JumpTable) (r : Regs) (n : ℕ) : Prop :=
  (∃ p c, Synced mod f jt p c r ∧ HoldsAt c n) ∨
    ∃ e : ℕ, r.pc = e ∧ fetch mod f.code e = .ok (.end_, f.code.length, f.code.length)

/-- How a pass of the loop ends. -/
inductive RoomPass (mod : Module) (f : Func) (jt : List JumpTable) (a : Act V) : Outcome V → Prop
  | plain {p c i imm q c' r} (hs : Synced mod f jt p c a.regs) (hn : HoldsAt c a.stack.length)
      (hf : fetch mod f.code p = .ok (i, imm, q)) (hi : i.isControl = false)
      (hcb : onInstr mod i ⟨f.code, imm⟩ c = .ok c') (hs' : Synced mod f jt q c' r) :
      RoomPass mod f jt a (.plain i.erase ⟨r, a.stack⟩)
  | next {a'} (h : Bounded mod f jt a'.regs a'.stack.length) : RoomPass mod f jt a (.next a')
  | finish {stack} : RoomPass mod f jt a (.finish stack)
  | trap : RoomPass mod f jt a .trap

/-! ### Where a jump arrives -/

namespace Validator

variable {n target : ℕ} {x : ℕ × Ctx} {c c' ct : Ctx} {fr : CtrlFrame}

theorem onEnd_room {imm : Stream} (hw : Wf c) (h : onEnd imm c = .ok c') (hfr : fr ∈ c.ctrlStack.head?) :
    fr.height + fr.endTypes.length ≤ c'.valStack.length := by
  obtain ⟨cf, rest, k, ts, hc, -, hp, hc'⟩ := onEnd_ok h
  obtain rfl : fr = cf := by
    rw [hc] at hfr
    exact (Option.some.inj hfr).symm
  have habove := hp.above fr hfr (hw.top fr hfr)
  rw [hc', pushVals_valStack, List.length_append, List.length_reverse]
  simp only [List.length_drop]
  omega

theorem Exit.room {e imm : ℕ} {ce ce' : Ctx} {cf : CtrlFrame} {rest : List CtrlFrame} (hx : Reach mod f x)
    (hfr : fromBottom x.2.ctrlStack n = some fr) (h : Exit mod f n x e imm ce ce' cf rest) :
    fr.height + fr.endTypes.length ≤ ce'.valStack.length := by
  have hroom := onEnd_room (h.reach hx).inv.wf h.onEnd (head?_mem h.top)
  have hheight := (h.kept hx hfr).height_le
  rw [← (h.types hx hfr).2]
  omega

/-- Validation assumes the operands of a label where a branch to it arrives. -/
theorem BranchTarget.room (hx : Reach mod f x) (hfr : fromBottom x.2.ctrlStack n = some fr)
    (h : BranchTarget mod f n x fr target ct) (hfunc : fr.type ≠ .func) :
    fr.height + fr.labelTypes.length ≤ ct.valStack.length := by
  by_cases ht : fr.type = .loop
  · have hle := hx.inv.wf.height_le hfr
    rw [h.loop_operands hx hfr ht, List.length_append, List.length_reverse, length_below hle]
    omega
  · cases h with
    | func ht' => exact absurd ht' hfunc
    | loop ht' => exact absurd ht' ht
    | exit _ _ _ hex =>
      rw [CtrlFrame.labelTypes, if_neg ht]
      exact hex.room hx hfr

/-- Where a false `if` arrives. -/
theorem IfTarget.room (hx : Reach mod f x) (hfr : fromBottom x.2.ctrlStack n = some fr)
    (hlive : ∀ m < n, ∀ g, fromBottom x.2.ctrlStack m = some g → g.unreachable = false)
    (hifs : ∀ p c fr, OneArmed mod f p c fr → fr.startTypes.length ≤ fr.endTypes.length)
    (h : IfTarget mod f n x target ct) : HoldsAt ct (fr.height + fr.startTypes.length) := by
  cases h with
  | @exit e _ ce _ cf rest ht hex =>
    have hone : OneArmed mod f e ce cf := ⟨hex.reach hx, ⟨_, _, hex.fetch⟩, head?_mem hex.top, ht⟩
    have harity := hifs e ce cf hone
    obtain ⟨hstart, hend⟩ := hex.types hx hfr
    have hroom := hex.room hx hfr
    rw [hstart, hend] at harity
    exact ⟨hex.live hx hfr hlive, by omega⟩
  | @else_ e _ ce _ cf rest ht hel =>
    obtain ⟨-, hkept, hstart⟩ := hel.kept hx hfr
    refine ⟨hel.live hx hfr hlive, ?_⟩
    have hr : Reach mod f (e, ce) := hx.trans (Run.of_within hel.path)
    have htop : cf ∈ ce.ctrlStack.head? := head?_mem hel.top
    obtain ⟨cf', rest', k, ts, ps, rs, slot, hc, -, -, hp, hps, -, -, hc'⟩ := onElse_ok hel.onElse
    obtain rfl : cf = cf' := by
      rw [hc] at htop
      exact (Option.some.inj htop).symm
    have hps' : ps = cf.startTypes :=
      Except.ok.inj (hps.symm.trans (hr.inv.wf.types cf (List.mem_of_mem_head? htop)).1)
    have habove := hp.above cf htop (hr.inv.wf.top cf htop)
    have hheight := hkept.height_le
    rw [hc', pushVals_valStack, List.length_append, List.length_reverse, hps', hstart]
    simp only [List.length_drop]
    omega

end Validator

/-! ### Branches -/

theorem unwindStack_length {tbl : JumpTable} {s s' : List V} (h : unwindStack tbl s = .ok s') :
    s'.length = s.length - tbl.stackOffset := by
  unfold unwindStack at h
  split_ifs at h with h0 hlt
  · cases h
    rw [h0, Nat.sub_zero]
  · cases h
  · cases h
    rw [List.length_append, List.length_take, List.length_drop]
    omega

section Branch
variable {c : Ctx} {n : ℕ}

theorem HoldsAt.popped (h : HoldsAt c n) {k : ℕ} {ts : List TypeId} (hp : Popped c k ts) :
    k = ts.length ∧ k ≤ c.valStack.length := ⟨(hp.of_live h.live).1, (hp.of_live h.live).2.2⟩

/-- An operand is popped. -/
theorem HoldsAt.pop {v : V} {s : List V} (h : HoldsAt c (v :: s).length) {k : ℕ} {t : TypeId} (hp : Popped c k [t]) :
    HoldsAt { c with valStack := c.valStack.drop k } s.length := by
  obtain ⟨hk, -⟩ := h.popped hp
  have hle := h.le
  rw [List.length_cons] at hle
  rw [List.length_singleton] at hk
  refine ⟨h.live, ?_⟩
  simp only [List.length_drop]
  omega

/-- A branch to the label of frame `fr`, from context `c1` (the condition popped). -/
theorem HoldsAt.branch (h : Sound mod f cE) (hfits : Fits mod f) {p q l k0 size arity target : ℕ} {c' ct : Ctx}
    {ts0 : List TypeId} {fr fr' : CtrlFrame} {tbl : JumpTable} {s s' : List V} (hp : Reach mod f (p, c))
    (hstep : Step mod f (p, c) (q, c')) (hp0 : Popped c k0 ts0)
    (hs : HoldsAt { c with valStack := c.valStack.drop k0 } s.length) (hfr : c.ctrlStack[l]? = some fr)
    (hlab : LabelPopped { c with valStack := c.valStack.drop k0 } fr) (hslot : LabelSlot size arity fr tbl)
    (hsize : size = (c.valStack.drop k0).length) (ha : arity = fr.labelTypes.length)
    (hfr' : fromBottom c'.ctrlStack (c.ctrlStack.length - 1 - l) = some fr') (ht : fr'.type = fr.type)
    (hbt : BranchTarget mod f (c.ctrlStack.length - 1 - l) (q, c') fr' target ct)
    (harr : Arrives mod f (linkJumpTable cE.jt) tbl target ct) (hu : unwindStack tbl s = .ok s') :
    Bounded mod f (linkJumpTable cE.jt) ⟨tbl.pc + tbl.targetOffset, tbl.nextIdx⟩ s'.length := by
  have hr := hp.tail hstep
  have hfb := fromBottom_of_getElem? hfr
  have hn := lt_length_of_fromBottom hfb
  by_cases hfunc : fr.type = .func
  · have hn0 := (h.bracketed.func_iff hp hfb).mp hfunc
    rw [hn0] at hbt
    exact .inr ⟨target, harr.offset, hbt.last h.bracketed hr (ht.trans hfunc)⟩
  · have hlive := hbt.live hr hfr' (by rw [ht]; exact hfunc) (hstep.live_around hp hn hs.live)
    have hroom := hbt.room hr hfr' (by rw [ht]; exact hfunc)
    obtain ⟨hheight, htypes⟩ := hstep.label_kept hp hfr hfr' ht
    rw [hheight, htypes] at hroom
    refine .inl ⟨target, ct, harr.synced, hlive, le_trans ?_ hroom⟩
    -- the operands of the label are there, so the offset is not cut
    obtain ⟨k, ts, hm, hpk⟩ := hlab
    obtain ⟨hk, hkle⟩ := hs.popped hpk
    have hlen : ts.length = fr.labelTypes.length := by simpa using hm.length_eq
    have hwf : Wf { c with valStack := c.valStack.drop k0 } := hp.inv.wf.pop hp0
    obtain ⟨top, htop⟩ : ∃ top, top ∈ c.ctrlStack.head? := by
      cases hc : c.ctrlStack with
      | nil => rw [hc] at hn; simp at hn
      | cons a _ => exact ⟨a, rfl⟩
    have habove := hpk.above top htop (hwf.top top htop)
    have htopHeight := hp.inv.wf.height_le_top hfb htop
    have hbound := hfits.height _ hp
    have hle := hs.le
    have hoff := hslot.stackOffset
    have hcut := unwindStack_length hu
    have hdrop : (c.valStack.drop k0).length ≤ c.valStack.length := by
      rw [List.length_drop]
      exact Nat.sub_le _ _
    simp only at habove hle hbound
    omega

end Branch

/-! ### The step -/

section Step
variable {cond : V → ℕ} {a : Act V} {out : Outcome V} {p imm q : ℕ} {c c' : Ctx}

/-- A block that is entered has its operands already. -/
theorem HoldsAt.block {n : ℕ} (h : HoldsAt c n) {o : WasmOpcode} {imm : Stream} {ty : FuncType} (ho : o ≠ .if_)
    (hcb : onBlock o imm ty c = .ok c') : HoldsAt c' n := by
  obtain ⟨ps, rs, k, ts, -, -, hm, hp, hc'⟩ := onBlock_ok hcb
  rw [blockOperands, if_neg ho] at hm
  obtain ⟨hk, hle⟩ := h.popped hp
  have hlen : ts.length = ps.length := by simpa using hm.length_eq
  have hn := h.le
  refine ⟨by rw [hc', pushVals_ctrlStack, List.forall_mem_cons]; exact ⟨rfl, h.live⟩, ?_⟩
  rw [hc', pushVals_valStack, List.length_append, List.length_reverse]
  simp only [List.length_drop]
  omega

/-- An `if` takes its condition too. -/
theorem HoldsAt.if_ {v : V} {s : List V} (h : HoldsAt c (v :: s).length) {imm : Stream} {ty : FuncType}
    (hcb : onBlock .if_ imm ty c = .ok c') : HoldsAt c' s.length := by
  obtain ⟨ps, rs, k, ts, -, -, hm, hp, hc'⟩ := onBlock_ok hcb
  rw [blockOperands, if_pos rfl] at hm
  obtain ⟨hk, hle⟩ := h.popped hp
  have hlen : ts.length = ps.length + 1 := by simpa using hm.length_eq
  have hn := h.le
  rw [List.length_cons] at hn
  refine ⟨by rw [hc', pushVals_ctrlStack, List.forall_mem_cons]; exact ⟨rfl, h.live⟩, ?_⟩
  rw [hc', pushVals_valStack, List.length_append, List.length_reverse]
  simp only [List.length_drop]
  omega

/-- The operands of the frame that an `end` closes become those of the enclosing one. -/
theorem HoldsAt.end_ {n : ℕ} (h : HoldsAt c n) {imm : Stream} (hcb : onEnd imm c = .ok c') : HoldsAt c' n := by
  obtain ⟨cf, rest, k, ts, hc, hm, hp, hc'⟩ := onEnd_ok hcb
  obtain ⟨hk, hle⟩ := h.popped hp
  have hlen : ts.length = cf.endTypes.length := by simpa using hm.length_eq
  have hn := h.le
  refine ⟨?_, ?_⟩
  · rw [hc', pushVals_ctrlStack]
    exact fun fr hfr => h.live fr (by rw [hc]; exact List.mem_cons_of_mem _ hfr)
  · rw [hc', pushVals_valStack, List.length_append, List.length_reverse]
    simp only [List.length_drop]
    omega

/-- Behind the `end` where an `else` jumps to, the operands of the `if` are assumed. -/
theorem HoldsAt.else_ {n target : ℕ} {ct : Ctx} {fr : CtrlFrame} {rest : List CtrlFrame} (h : HoldsAt c n)
    (hr : Reach mod f (p, c)) (hr' : Reach mod f (q, c')) (hcb : onElse ⟨f.code, imm⟩ c = .ok c')
    (hframes : c'.ctrlStack = fr :: rest) (ht : fr.type = .else_)
    (hbt : BranchTarget mod f rest.length (q, c') fr target ct) : HoldsAt ct n := by
  obtain ⟨cf, rest', k, ts, ps, rs, slot, hc, -, hm, hp, -, hrs, -, hc'⟩ := onElse_ok hcb
  have hcs : c'.ctrlStack = elseFrame cf ps rs (c.valStack.length - k) c.jt.length :: rest' := by
    rw [hc', pushVals_ctrlStack]
  rw [hcs] at hframes
  obtain ⟨rfl, rfl⟩ := List.cons.inj hframes
  have hfr : fromBottom c'.ctrlStack rest'.length =
      some (elseFrame cf ps rs (c.valStack.length - k) c.jt.length) := by rw [hcs, fromBottom_cons_length]
  have hlive : ∀ m < rest'.length, ∀ g, fromBottom c'.ctrlStack m = some g → g.unreachable = false := by
    intro m hm' g hg
    rw [hcs, fromBottom_cons_lt hm'] at hg
    exact h.live g (by rw [hc]; exact List.mem_cons_of_mem _ (mem_of_fromBottom hg))
  have hroom := hbt.room hr' hfr (by rw [ht]; decide)
  have hend : rs = cf.endTypes :=
    Except.ok.inj (hrs.symm.trans (hr.inv.wf.types cf (by rw [hc]; exact List.mem_cons_self)).2)
  obtain ⟨hk, hle⟩ := h.popped hp
  have hlen : ts.length = cf.endTypes.length := by simpa using hm.length_eq
  have hn := h.le
  refine ⟨hbt.live hr' hfr (by rw [ht]; decide) hlive, ?_⟩
  rw [CtrlFrame.labelTypes, if_neg (by rw [ht]; decide)] at hroom
  simp only [elseFrame, newFrame, hend] at hroom
  omega

theorem popOperand_ok {s s' : List V} {v : ℕ} (h : popOperand cond true s = .ok (v, s')) :
    ∃ w, s = w :: s' ∧ v = cond w := by
  cases s with
  | nil => cases h
  | cons w s =>
    cases h
    exact ⟨w, rfl, rfl⟩

/-- A jump through a slot. -/
theorem followStack_jump_ok {jt : List JumpTable} {k idx pc : ℕ} {s : List V} {tbl : JumpTable} {unwind : Bool}
    (hslot : jt[k]? = some tbl) (hpc : tbl.pc = pc)
    (h : followStack jt idx s (.jump pc k unwind) = .ok out) :
    ∃ s', (if unwind then unwindStack tbl s else .ok s) = .ok s' ∧
      out = .next ⟨⟨tbl.pc + tbl.targetOffset, tbl.nextIdx⟩, s'⟩ := by
  subst hpc
  simp only [followStack, slotAt, hslot, ok_bind] at h
  cases unwind with
  | true =>
    obtain ⟨s', hs', h⟩ := bind_eq_ok.mp h
    cases h
    exact ⟨s', hs', rfl⟩
  | false =>
    cases h
    exact ⟨s, rfl, rfl⟩

variable (h : RoomSafe mod f) (hsound : Sound mod f cE)
include h hsound

theorem RoomSafe.block_step {o : WasmOpcode} {ty : FuncType} (hs : Synced mod f (linkJumpTable cE.jt) p c a.regs)
    (hn : HoldsAt c a.stack.length) (hf : fetch mod f.code p = .ok (.block o ty, imm, q))
    (hcb : onInstr mod (.block o ty) ⟨f.code, imm⟩ c = .ok c') {v : ℕ} {s : List V}
    (hpop : popOperand cond (Instr.block o ty).popsOperand a.stack = .ok (v, s))
    (hstep : followStack (linkJumpTable cE.jt) a.regs.nextJtIdx s
      (flowOf f.code (.block o ty) imm q a.regs.nextJtIdx v) = .ok out) :
    RoomPass mod f (linkJumpTable cE.jt) a out := by
  have hr := hs.reach.tail (step_iff.mpr ⟨_, imm, hf, hcb⟩)
  have hblock : onBlock o ⟨f.code, imm⟩ ty c = .ok c' := hcb
  by_cases ho : o = .if_
  · subst ho
    obtain ⟨w, hw, rfl⟩ := popOperand_ok hpop
    rw [hw] at hn
    have hn' := hn.if_ hblock
    by_cases hv : cond w = 0
    · obtain ⟨tbl, target, ct, hj, hif⟩ := hsound.if_jump hr hf hcb
      rw [← hs.slot hsound hf hcb (by simp [slotsOf])] at hj
      obtain ⟨fr, hcs, -, -, hval⟩ := onBlock_frame hblock
      have hfr : fromBottom c'.ctrlStack c.ctrlStack.length = some fr := by rw [hcs, fromBottom_cons_length]
      have hheld := hif.room hr hfr (fun m _ g hg => hn'.live g (mem_of_fromBottom hg)) h.ifs
      simp only [flowOf, if_pos, hv, ne_eq, not_true_eq_false, if_false] at hstep
      obtain ⟨s', hs', rfl⟩ := followStack_jump_ok hj.slot hj.pc hstep
      cases hs'
      refine .next (.inl ⟨target, ct, hj.arrives.synced, hheld.live, le_trans hn'.le (le_trans ?_ hheld.le)⟩)
      rw [hval, List.length_append, List.length_reverse, length_below (hr.inv.wf.height_le hfr), Nat.add_comm]
    · simp only [flowOf, if_pos, hv, ne_eq, not_false_eq_true] at hstep
      cases hstep
      exact .next (.inl ⟨q, c', hs.fall hsound hf hcb (fun h' => by cases h') (.inr rfl), hn'⟩)
  · rw [show (Instr.block o ty).popsOperand = false from by simp [Instr.popsOperand, ho]] at hpop
    cases hpop
    simp only [flowOf, if_neg ho] at hstep
    cases hstep
    exact .next (.inl ⟨q, c', hs.fall hsound hf hcb (fun h' => by cases h') (.inl ⟨rfl, if_neg ho⟩),
      hn.block ho hblock⟩)

theorem RoomSafe.br_step {o : WasmOpcode} {l : ℕ} (hs : Synced mod f (linkJumpTable cE.jt) p c a.regs)
    (hn : HoldsAt c a.stack.length) (hf : fetch mod f.code p = .ok (.brOrIf o l, imm, q))
    (hcb : onInstr mod (.brOrIf o l) ⟨f.code, imm⟩ c = .ok c') {v : ℕ} {s : List V}
    (hpop : popOperand cond (Instr.brOrIf o l).popsOperand a.stack = .ok (v, s))
    (hstep : followStack (linkJumpTable cE.jt) a.regs.nextJtIdx s
      (flowOf f.code (.brOrIf o l) imm q a.regs.nextJtIdx v) = .ok out) :
    RoomPass mod f (linkJumpTable cE.jt) a out := by
  have hdecode := step_iff.mpr ⟨_, imm, hf, hcb⟩
  have hr := hs.reach.tail hdecode
  obtain ⟨fr, k0, ts0, tbl, target, ct, fr', hfr, hm0, hp0, hlab, hj, hslot, hfr', ht, hbt⟩ :=
    hsound.br_jump hs.reach hr hf hcb
  rw [← hs.slot hsound hf hcb Nat.one_pos] at hj
  have harity : u16 fr.labelTypes.length = fr.labelTypes.length :=
    Nat.mod_eq_of_lt (h.fits.arity _ _ hs.reach (List.mem_of_getElem? hfr))
  -- the operands behind the condition
  have hrest : HoldsAt { c with valStack := c.valStack.drop k0 } s.length := by
    obtain ⟨-, -, hor, -⟩ := fetch_br hf
    rcases hor with rfl | rfl
    · have hts0 : ts0 = [] := by
        rw [brOperands, if_neg (by decide)] at hm0
        cases hm0
        rfl
      subst hts0
      obtain rfl : k0 = 0 := (hn.popped hp0).1
      cases hpop
      exact hn
    · obtain ⟨t, rfl⟩ : ∃ t, ts0 = [t] := by
        rw [brOperands, if_pos rfl] at hm0
        exact List.length_eq_one_iff.mp hm0.length_eq
      obtain ⟨w, hw, -⟩ := popOperand_ok hpop
      rw [hw] at hn
      exact hn.pop hp0
  by_cases hfall : o = .brIf ∧ v = 0
  · simp only [flowOf, if_pos hfall] at hstep
    cases hstep
    refine .next (.inl ⟨q, c', hs.fall hsound hf hcb (fun h' => by cases h') (.inr rfl), ?_, le_trans hrest.le ?_⟩)
    · obtain ⟨fr1, k1, ts1, k, ts, c2, -, -, -, -, -, hc2, hcb'⟩ := onBrOrIf_ok hcb
      rw [if_neg (by rw [hfall.1]; decide)] at hcb'
      cases hcb'
      rw [pushVals_ctrlStack, hc2, pushSlot_ctrlStack, forall_fromBottom]
      intro m g hg
      obtain ⟨g0, hg0⟩ := fromBottom_lt (n := m) (s := c.ctrlStack) (by simpa using lt_length_of_fromBottom hg)
      obtain ⟨ks, hks⟩ := fromBottom_modify_addPending (l := l) (k := c.jt.length) hg0
      obtain rfl := Option.some.inj (hks.symm.trans hg)
      exact hn.live g0 (mem_of_fromBottom hg0)
    · -- not taken: the operands of the label are popped and pushed back
      obtain ⟨fr1, k1, ts1, k, ts, c2, hfr1, hm1, hp1, hm, hp, hc2, hcb'⟩ := onBrOrIf_ok hcb
      rw [if_neg (by rw [hfall.1]; decide)] at hcb'
      cases hcb'
      obtain ⟨hk0, -⟩ := hn.popped hp0
      obtain ⟨hk1, -⟩ := hn.popped hp1
      have hk : k1 = k0 := by
        have hlen0 := hm0.length_eq
        have hlen1 := hm1.length_eq
        omega
      subst hk
      obtain ⟨hkp, hkle⟩ := hrest.popped hp
      have hlen : ts.length = fr1.labelTypes.length := by simpa using hm.length_eq
      rw [pushVals_valStack, hc2, List.length_append, List.length_reverse, pushSlot_valStack]
      simp only [List.length_drop] at hkle ⊢
      omega
  · simp only [flowOf, if_neg hfall] at hstep
    obtain ⟨s', hs', rfl⟩ := followStack_jump_ok hj.slot hj.pc hstep
    exact .next (hrest.branch hsound h.fits hs.reach hdecode hp0 hfr hlab hslot rfl harity hfr' ht hbt hj.arrives hs')

theorem RoomSafe.brTable_step (hs : Synced mod f (linkJumpTable cE.jt) p c a.regs)
    (hn : HoldsAt c a.stack.length) (hf : fetch mod f.code p = .ok (.brTable, imm, q))
    (hcb : onInstr mod .brTable ⟨f.code, imm⟩ c = .ok c') {v : ℕ} {s : List V}
    (hpop : popOperand cond Instr.brTable.popsOperand a.stack = .ok (v, s))
    (hstep : followStack (linkJumpTable cE.jt) a.regs.nextJtIdx s
      (flowOf f.code .brTable imm q a.regs.nextJtIdx v) = .ok out) :
    RoomPass mod f (linkJumpTable cE.jt) a out := by
  have hdecode := step_iff.mpr ⟨_, imm, hf, hcb⟩
  have hr := hs.reach.tail hdecode
  obtain ⟨-, n, pc1, hread, -⟩ := fetch_brTable hf
  obtain ⟨t, k0, l, fr, size, tbl, target, ct, fr', -, hp0, hfr, -, hj, hslot, hsize, hfr', ht, hbt⟩ :=
    hsound.brTable_jump hs.reach hr hf hcb hread (tableIndex_le v hread)
  have hidx := hs.brTable_idx hsound (by rw [hj.slot]; simp)
  obtain ⟨hsz, hlab⟩ := hsize fun g hg => hn.live g (List.mem_of_mem_head? hg)
  obtain ⟨w, hw, -⟩ := popOperand_ok hpop
  rw [hw] at hn
  simp only [flowOf, hidx] at hstep
  obtain ⟨s', hs', rfl⟩ := followStack_jump_ok hj.slot hj.pc hstep
  exact .next ((hn.pop hp0).branch hsound h.fits hs.reach hdecode hp0 hfr hlab hslot hsz rfl hfr' ht hbt hj.arrives hs')

/-- No pass of the loop leaves more operands than validation assumes. -/
theorem Bounded.step (hcode : f'.code = f.code) (hjt : f'.jt = linkJumpTable cE.jt)
    (ha : Bounded mod f (linkJumpTable cE.jt) a.regs a.stack.length) (hstep : actStep f' cond a = .ok out) :
    RoomPass mod f (linkJumpTable cE.jt) a out := by
  rcases ha with ⟨p, c, hs, hn⟩ | ⟨e, hpc, hf⟩
  · obtain ⟨i, imm, q, c', hf, hcb, -⟩ := hsound.exists_step hs.reach hs.lt
    have hr := hs.reach.tail (step_iff.mpr ⟨_, imm, hf, hcb⟩)
    rw [hs.actStep_eq cond hcode hjt hf] at hstep
    obtain ⟨⟨v, s⟩, hpop, hstep⟩ := bind_eq_ok.mp hstep
    by_cases hi : i.isControl = false
    · have hpops : i.popsOperand = false := by
        cases i <;> first | rfl | cases hi
      have hflow : flowOf f.code i imm q a.regs.nextJtIdx v = .plain i.erase q := by
        cases i <;> first | rfl | cases hi
      have hslots : slotsOf f.code ⟨p, i, imm, q⟩ = 0 := by
        cases i <;> first | rfl | cases hi
      have hend : i = .end_ → q ≠ f.code.length := by
        rintro rfl
        cases hi
      rw [hpops] at hpop
      cases hpop
      simp only [hflow] at hstep
      cases hstep
      exact .plain hs hn hf hi hcb (hs.fall hsound hf hcb hend (.inl ⟨rfl, hslots⟩))
    · cases i with
      | unreachable =>
        cases hstep
        exact .trap
      | block o ty => exact h.block_step hsound hs hn hf hcb hpop hstep
      | else_ =>
        obtain ⟨tbl, target, ct, fr, rest, hj, hcs, hft, hbt⟩ := hsound.else_jump hr hf hcb
        rw [← hs.slot hsound hf hcb Nat.one_pos] at hj
        cases hpop
        obtain ⟨s', hs', rfl⟩ := followStack_jump_ok hj.slot hj.pc hstep
        cases hs'
        exact .next (.inl ⟨target, ct, hj.arrives.synced, hn.else_ hs.reach hr hcb hcs hft hbt⟩)
      | end_ =>
        cases hpop
        by_cases hq : q = f.code.length
        · simp only [flowOf, if_pos hq] at hstep
          cases hstep
          exact .finish
        · simp only [flowOf, if_neg hq] at hstep
          cases hstep
          exact .next (.inl ⟨q, c', hs.fall hsound hf hcb (fun _ => hq) (.inl ⟨rfl, rfl⟩), hn.end_ hcb⟩)
      | brOrIf o l => exact h.br_step hsound hs hn hf hcb hpop hstep
      | brTable => exact h.brTable_step hsound hs hn hf hcb hpop hstep
      | return_ =>
        cases hstep
        exact .finish
      | _ => exact absurd rfl hi
  · rw [← hcode] at hf
    rw [actStep_of_fetch cond hf hpc] at hstep
    obtain ⟨⟨v, s⟩, hpop, hstep⟩ := bind_eq_ok.mp hstep
    simp only [flowOf, if_true] at hstep
    cases hstep
    exact .finish

end Step

/-! ### `stack_size_max` -/

/-- `stack_size_max` does not get smaller, and stays large enough for the operands if it is. -/
structure Grows (c c' : Ctx) : Prop where
  mono : c.stackSizeMax ≤ c'.stackSizeMax
  fits : c.valStack.length ≤ c.stackSizeMax → c'.valStack.length ≤ c'.stackSizeMax

section Grows
variable {c c1 c' : Ctx}

theorem Grows.refl (c : Ctx) : Grows c c := ⟨le_rfl, id⟩

theorem Grows.trans (h : Grows c c1) (h' : Grows c1 c') : Grows c c' :=
  ⟨h.mono.trans h'.mono, fun hc => h'.fits (h.fits hc)⟩

/-- There are no more operands, and `stack_size_max` is as large. -/
theorem Grows.of_le (hlen : c'.valStack.length ≤ c.valStack.length) (hmax : c.stackSizeMax ≤ c'.stackSizeMax) :
    Grows c c' := ⟨hmax, fun hc => (hlen.trans hc).trans hmax⟩

theorem grows_pushVals {ts : List TypeId} (h : ts.length + c.valStack.length < 2 ^ 32) : Grows c (pushVals ts c) := by
  induction ts generalizing c with
  | nil => exact .refl c
  | cons t ts ih =>
    rw [List.length_cons] at h
    have hlen : (pushVal t c).valStack.length = c.valStack.length + 1 := by
      rw [pushVal_valStack, List.length_cons]
    have hmax : (pushVal t c).stackSizeMax = max c.stackSizeMax (c.valStack.length + 1) := by
      unfold pushVal
      simp only [List.length_cons]
      split
      · rw [u32, Nat.mod_eq_of_lt (by omega)]
        omega
      · omega
    rw [pushVals_cons]
    refine .trans ⟨?_, fun _ => ?_⟩ (ih (by omega))
    · rw [hmax]
      exact le_max_left _ _
    · rw [hmax, hlen]
      exact le_max_right _ _

theorem Grows.pop {k : ℕ} (hval : c'.valStack = c.valStack.drop k) (hmax : c.stackSizeMax ≤ c'.stackSizeMax) :
    Grows c c' := by
  refine .of_le ?_ hmax
  rw [hval, List.length_drop]
  exact Nat.sub_le _ _

/-- What was popped is replaced. -/
theorem Grows.push {ts : List TypeId} {c2 : Ctx} (hpop : Grows c c2) (h : (pushVals ts c2).valStack.length < 2 ^ 31) :
    Grows c (pushVals ts c2) := by
  rw [pushVals_valStack, List.length_append, List.length_reverse] at h
  exact hpop.trans (grows_pushVals (by omega))

theorem grows_unreachable (h : unreachable c = .ok c') : Grows c c' := by
  obtain ⟨fr, rest, -, hle, rfl⟩ := unreachable_ok h
  refine .of_le ?_ le_rfl
  rw [length_below hle]
  exact hle

theorem Validator.Popped.le_length {k : ℕ} {ts : List TypeId} (h : Popped c k ts) : k ≤ c.valStack.length := by
  have hlen := congrArg List.length h.types
  have hle := h.le
  rw [List.length_append, List.length_take, List.length_replicate] at hlen
  omega

/-- The labels of `br_table`: in dead code there may be more operands than before, by the arity of the label. -/
theorem Validator.SlotRun.grows {pcEnd arity : ℕ} {ls : List ℕ} (h : SlotRun pcEnd arity ls c c')
    (harity : arity < 2 ^ 16) (hheight : ∀ n ∈ (c.ctrlStack.map (·.height)).head?, n < 2 ^ 31)
    (hlen : c.valStack.length < 2 ^ 31 + 2 ^ 16) : Grows c c' := by
  induction h with
  | nil => exact .refl _
  | @cons l ls c c' fr k ts hfr ha hm hp hrest ih =>
    have hts : ts.length = arity := by
      rw [hm.length_eq, List.length_reverse, ha]
    have hle := hp.le
    have hkle := hp.le_length
    have hsize : ts.length + (c.valStack.length - k) < 2 ^ 31 + 2 ^ 16 := by
      by_cases hk : k < ts.length
      · obtain ⟨top, htop, -, hpoly⟩ := hp.poly hk
        have hlow : top.height < 2 ^ 31 := by
          refine hheight top.height ?_
          rw [List.head?_map, htop]
          rfl
        omega
      · omega
    have hreplace : Grows c (pushVals ts.reverse (pushSlot l (branchSlot pcEnd c.valStack.length arity fr)
        { c with valStack := c.valStack.drop k })) := by
      refine (Grows.pop (k := k) ?_ ?_).trans (grows_pushVals ?_)
      · rw [pushSlot_valStack]
      · rw [pushSlot_stackSizeMax]
      · rw [pushSlot_valStack, List.length_reverse, List.length_drop]
        omega
    refine hreplace.trans (ih ?_ ?_)
    · rw [pushVals_ctrlStack, pushSlot_heights]
      exact hheight
    · rw [pushVals_valStack, pushSlot_valStack, List.reverse_reverse, List.length_append, List.length_drop]
      exact hsize

/-- A callback that does not overflow the counters. -/
theorem onInstr_grows {mod : Module} {i : Instr} {imm : Stream} (hw : Wf c)
    (harity : ∀ fr ∈ c.ctrlStack, fr.labelTypes.length < 2 ^ 16) (hheight : c.valStack.length < 2 ^ 31)
    (hheight' : c'.valStack.length < 2 ^ 31) (h : onInstr mod i imm c = .ok c') : Grows c c' := by
  by_cases hctl : i.isControl = true
  · cases i with
    | unreachable => exact grows_unreachable h
    | block op type =>
      obtain ⟨ps, rs, k, ts, -, -, -, hp, rfl⟩ := onBlock_ok h
      refine Grows.push ?_ hheight'
      exact Grows.pop (k := k) rfl le_rfl
    | else_ =>
      obtain ⟨cf, rest, k, ts, ps, rs, slot, -, -, -, hp, -, -, -, rfl⟩ := onElse_ok h
      refine Grows.push ?_ hheight'
      exact Grows.pop (k := k) rfl le_rfl
    | end_ =>
      obtain ⟨cf, rest, k, ts, -, -, hp, rfl⟩ := onEnd_ok h
      refine Grows.push ?_ hheight'
      exact Grows.pop (k := k) rfl le_rfl
    | brOrIf op l =>
      obtain ⟨fr, k0, ts0, k, ts, c2, -, -, hp0, -, hp, hc2, h2⟩ := onBrOrIf_ok h
      have hpop : Grows c c2 := by
        have hfirst : Grows c { c with valStack := c.valStack.drop k0 } := Grows.pop (k := k0) rfl le_rfl
        refine hfirst.trans (Grows.pop (k := k) ?_ ?_)
        · rw [hc2, pushSlot_valStack]
        · rw [hc2, pushSlot_stackSizeMax]
      split at h2
      · exact hpop.trans (grows_unreachable h2)
      · cases h2
        exact hpop.push hheight'
    | brTable =>
      obtain ⟨t, k0, n, pc1, labels, pc2, fr, c2, c3, k, ts, -, hp0, -, -, hrun, ⟨m, -, hfr⟩, -, hp, hc3, h2⟩ :=
        onBrTable_ok h
      have hdrop : (c.valStack.drop k0).length ≤ c.valStack.length := by
        rw [List.length_drop]
        exact Nat.sub_le _ _
      have hslots : Grows { c with valStack := c.valStack.drop k0 } c2 := by
        refine hrun.grows (harity fr (List.mem_of_getElem? hfr)) ?_ ?_
        · intro height hmem
          rw [List.head?_map] at hmem
          obtain ⟨top, htop, rfl⟩ := Option.map_eq_some_iff.mp hmem
          exact lt_of_le_of_lt (hw.top top htop) hheight
        · exact lt_of_le_of_lt hdrop (by omega)
      have hlast : Grows c2 c3 := by
        refine Grows.pop (k := k) ?_ ?_
        · rw [hc3]
        · rw [hc3]
      have hfirst : Grows c { c with valStack := c.valStack.drop k0 } := Grows.pop (k := k0) rfl le_rfl
      exact hfirst.trans (hslots.trans (hlast.trans (grows_unreachable h2)))
    | return_ =>
      obtain ⟨fr, k, ts, c2, -, -, hp, hc2, h2⟩ := onReturn_ok h
      have hpop : Grows c c2 := by
        refine Grows.pop (k := k) ?_ ?_
        · rw [hc2]
        · rw [hc2]
      exact hpop.trans (grows_unreachable h2)
    | _ => cases hctl
  · obtain ⟨k, ts, us, hstep⟩ := onInstr_plain (by simpa using hctl) h
    have heq := hstep.eq
    subst heq
    exact (Grows.pop rfl (le_max_left _ _)).push hheight'

/-- Visited places one after the other. -/
theorem Validator.Reach.grows (hfits : Fits mod f) {x y : ℕ × Ctx} (hx : Reach mod f x)
    (h : ReflTransGen (Step mod f) x y) : Grows x.2 y.2 := by
  induction h with
  | refl => exact .refl _
  | @tail y z hy hstep ih =>
    obtain ⟨i, imm, -, hcb⟩ := step_iff.mp hstep
    have hr := hx.trans hy
    exact ih.trans (onInstr_grows hr.inv.wf (fun fr => hfits.arity _ fr hr) (hfits.height _ hr)
      (hfits.height _ (hr.tail hstep)) hcb)

/-- Wherever validation has been, the operands are at most `stack_size_max`. -/
theorem Validator.Sound.valStack_le (hs : Sound mod f cE) (hfits : Fits mod f) {x : ℕ × Ctx} (hx : Reach mod f x) :
    x.2.valStack.length ≤ cE.stackSizeMax := by
  obtain ⟨c, hc, hrun⟩ := hx
  have hstart : Reach mod f (0, c) := ⟨c, hc, .refl⟩
  have hempty : c.valStack.length ≤ c.stackSizeMax := by
    obtain ⟨ps, rs, -, -, -, hval, -⟩ := onDecodeBegin_ok hc
    rw [hval]
    exact Nat.zero_le _
  have hr := hstart.trans hrun
  exact ((hstart.grows hfits hrun).fits hempty).trans (hr.grows hfits (hs.steps hr)).mono

end Grows

/-! ### Runs -/

section Runs
variable {cond : V → ℕ} {a a' : Act V} {c c' : Ctx}

/-- A plain instruction, or a call that has returned. -/
theorem HoldsAt.plain {args rest results : List V} {i : Instr} {k : ℕ} {ts us : List TypeId}
    (h : HoldsAt c (args ++ rest).length) (hstep : PlainStep mod i c c' k ts us) (hargs : args.length = pops mod i)
    (hresults : results.length = pushes mod i) : HoldsAt c' (results ++ rest).length := by
  obtain ⟨hpops, hpushes⟩ := hstep.types.counts
  obtain ⟨hk, hle⟩ := h.popped hstep.popped
  have hn := h.le
  rw [List.length_append] at hn
  rw [hstep.eq]
  constructor
  · rw [pushVals_ctrlStack]
    exact h.live
  · rw [pushVals_valStack, List.length_append, List.length_append, List.length_reverse, List.length_drop]
    omega

/-- Control instructions push nothing. -/
theorem actStep_next_length (h : actStep f cond a = .ok (.next a')) : a'.stack.length ≤ a.stack.length := by
  simp only [actStep, bind_eq_ok] at h
  obtain ⟨op, hop, ⟨operand, s⟩, hpop, flow, hflow, h⟩ := h
  have hs : s.length ≤ a.stack.length := by
    cases hp : popsOperand op with
    | false =>
      rw [hp] at hpop
      cases hpop
      exact le_rfl
    | true =>
      rw [hp] at hpop
      obtain ⟨w, hw, -⟩ := popOperand_ok hpop
      rw [hw, List.length_cons]
      exact Nat.le_succ _
  cases flow with
  | next =>
    cases h
    exact hs
  | jump pc k unwind =>
    obtain ⟨tbl, -, h⟩ := bind_eq_ok.mp h
    cases unwind with
    | false =>
      cases h
      exact hs
    | true =>
      obtain ⟨s', hs', h⟩ := bind_eq_ok.mp h
      cases h
      rw [unwindStack_length hs']
      exact (Nat.sub_le _ _).trans hs
  | plain | finish | trap => cases h

/-- Along every run there are at most as many operands as validation assumes, and at most `stack_size_max`. -/
theorem RoomSafe.run_bounded (h : RoomSafe mod f) (hs : Sound mod f cE) (hcode : f'.code = f.code)
    (hjt : f'.jt = linkJumpTable cE.jt) (hr : ReflTransGen (ActStep (Counted mod) f' cond) Act.start a) :
    Bounded mod f (linkJumpTable cE.jt) a.regs a.stack.length ∧ a.stack.length ≤ cE.stackSizeMax := by
  refine Run.invariant (p := fun a : Act V => Bounded mod f (linkJumpTable cE.jt) a.regs a.stack.length ∧
    a.stack.length ≤ cE.stackSizeMax) ?_ hr ⟨?_, Nat.zero_le _⟩
  · rintro x y hstep ⟨hx, hle⟩
    cases hstep with
    | next hout =>
      have hpass := hx.step h hs hcode hjt hout
      generalize hnext : Outcome.next y = out at hpass
      cases hpass with
      | next hy =>
        cases hnext
        exact ⟨hy, (actStep_next_length hout).trans hle⟩
      | _ => cases hnext
    | @plain i r args rest results hout hrel =>
      have hpass := hx.step h hs hcode hjt hout
      generalize hplain : Outcome.plain i ⟨r, args ++ rest⟩ = out at hpass
      cases hpass with
      | @plain p c i0 imm q c' r' hsync hn hf hi hcb hsync' =>
        injection hplain with hi0 hact
        injection hact with hr' hstack
        subst hi0 hr'
        rw [← hstack] at hn
        obtain ⟨k, ts, us, hstep⟩ := onInstr_plain hi hcb
        have hholds := hn.plain hstep (hrel.1.trans (pops_erase mod i0)) (hrel.2.trans (pushes_erase mod i0))
        exact ⟨.inl ⟨q, c', hsync', hholds⟩, hholds.le.trans (hs.valStack_le h.fits hsync'.reach)⟩
      | _ => cases hplain
  · obtain ⟨c, hsync⟩ := hs.start_synced
    obtain ⟨c0, hc0, -⟩ := hsync.reach
    obtain rfl : c = c0 := hsync.reach.unique ⟨c0, hc0, .refl⟩
    obtain ⟨ps, rs, -, -, -, -, hframes, -⟩ := onDecodeBegin_ok hc0
    refine .inl ⟨0, c, hsync, ?_, Nat.zero_le _⟩
    rw [hframes]
    intro fr hfr
    rw [List.mem_singleton.mp hfr]
    rfl

end Runs

end Silverfir
