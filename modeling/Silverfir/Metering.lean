import Silverfir.LocalSlots
import Silverfir.Threads
import Silverfir.Lib.Countdown

/-! How long a run can get. The interpreter goes back in the body of a call only in branches to loops, so between two of
them each active call comes closer to the end of its body, and there are as many calls as the frame limit admits. -/
namespace Silverfir

open InPlaceDt
open Relation (ReflTransGen)

/-- The place behind the opcode and the type of a `loop`. -/
def LoopBody (mod : Module) (code : Str) (pc : ℤ) : Prop :=
  ∃ l ∈ instrs mod code, (∃ ty, l.instr = .block .loop ty) ∧ (l.next : ℤ) = pc

namespace Validator

open ListStack

variable {mod : Module} {f : Func} {cE : Ctx}

/-- The frame of a loop was opened by a `loop` instruction. -/
theorem Reach.loopBody (hs : JumpSafe mod f) {x : ℕ × Ctx} (hx : Reach mod f x) {n : ℕ} {fr : CtrlFrame}
    (hfr : fromBottom x.2.ctrlStack n = some fr) (ht : fr.type = .loop) : LoopBody mod f.code fr.pc := by
  obtain ⟨c0, fr0, s, hr, hc0, hsn, hk, -, -, -⟩ := hx.loop_opened hs hfr ht
  have hfr0 : fromBottom c0.ctrlStack n = some fr0 := by rw [hc0, ← hsn, fromBottom_cons_length]
  have htype : fr0.type = .loop := by
    cases hk with
    | same htype => exact htype.symm.trans ht
    | else_ _ htype =>
      rw [ht] at htype
      cases htype
  obtain ⟨cb, hcb, hsteps⟩ := hr
  rcases ReflTransGen.cases_tail hsteps with heq | ⟨⟨p, c⟩, hsteps, hstep⟩
  · -- the first frame is the one of the function
    obtain ⟨ps, rs, -, -, -, -, hcs, -⟩ := onDecodeBegin_ok hcb
    obtain rfl : c0 = cb := congrArg Prod.snd heq
    have hmem := mem_of_fromBottom hfr0
    rw [hcs, List.mem_singleton] at hmem
    rw [hmem] at htype
    cases htype
  · have hrp : Reach mod f (p, c) := ⟨cb, hcb, hsteps⟩
    obtain ⟨i, imm, hf, hinstr⟩ := step_iff.mp hstep
    have hspan := fetch_span hf
    by_cases hlt : n < c.ctrlStack.length
    · -- a frame that was there before was opened before
      obtain ⟨g, hg⟩ := fromBottom_lt hlt
      obtain ⟨fr', hfr', hk'⟩ := (step_effect hrp.inv.wf hf hinstr).kept hg (lt_length_of_fromBottom hfr0)
      obtain rfl : fr' = fr0 := Option.some.inj (hfr'.symm.trans hfr0)
      have hpc : fr'.pc = fr.pc := by
        cases hk with
        | same _ _ _ hpc => exact hpc.symm
        | else_ _ htype' =>
          rw [ht] at htype'
          cases htype'
      cases hk' with
      | same htype' _ _ hpc' =>
        obtain ⟨c1, -, -, -, -, -, -, -, -, hpath⟩ := hrp.loop_opened hs hg (htype'.symm.trans htype)
        have hle := decodeSteps_le (Run.of_within hpath)
        simp only at hle
        omega
      | else_ _ htype' =>
        rw [htype] at htype'
        cases htype'
    · obtain ⟨o, ty, rfl⟩ : ∃ o ty, i = .block o ty := by
        have hlen := onInstr_length hinstr
        have hn := lt_length_of_fromBottom hfr0
        cases i <;> first | exact ⟨_, _, rfl⟩ | (exfalso; simp only [Instr.depth] at hlen hn; omega)
      obtain ⟨-, -, ho, -⟩ := fetch_block hf
      obtain ⟨ps, rs, k, ts, -, -, -, -, hc'⟩ := onBlock_ok hinstr
      have hcs : c0.ctrlStack = blockFrame o imm ty ps rs (c.valStack.length - k) c.jt.length :: c.ctrlStack := by
        rw [hc']
        simp
      rw [hc0] at hcs
      have hhead := (List.cons.inj hcs).1
      have hloop : o = .loop := (blocktypeOf_loop ho).mp (by rw [hhead] at htype; exact htype)
      subst hloop
      exact ⟨_, hrp.mem_instrs hf, ⟨ty, rfl⟩, rfl⟩

/-- A branch goes on behind the instruction, or to the body of a loop. -/
theorem BranchTarget.onward (hs : JumpSafe mod f) {x : ℕ × Ctx} (hx : Reach mod f x) {n : ℕ} {fr : CtrlFrame}
    (hfr : fromBottom x.2.ctrlStack n = some fr) {target : ℕ} {ct : Ctx}
    (h : BranchTarget mod f n x fr target ct) : x.1 ≤ target ∨ LoopBody mod f.code target := by
  cases h with
  | loop ht => exact .inr (hx.loopBody hs hfr ht)
  | func _ _ hex =>
    have hle := decodeSteps_le (Run.of_within hex.path)
    exact .inl hle
  | exit _ _ _ hex =>
    have hle := decodeSteps_le (Run.of_within hex.path)
    have hspan := fetch_span hex.fetch
    simp only at hle
    exact .inl (by omega)

theorem IfTarget.onward {n : ℕ} {x : ℕ × Ctx} {target : ℕ} {ct : Ctx} (h : IfTarget mod f n x target ct) :
    x.1 ≤ target := by
  cases h with
  | else_ _ hel =>
    have hle := decodeSteps_le (Run.of_within hel.path)
    have hspan := fetch_span hel.fetch
    simp only at hle
    omega
  | exit _ hex =>
    have hle := decodeSteps_le (Run.of_within hex.path)
    have hspan := fetch_span hex.fetch
    simp only at hle
    omega

end Validator

open Validator ListStack

/-! ### One pass -/

section Onward
variable {mod : Module} {f fn : Func} {cE : Ctx}

/-- Where a handler goes on is behind `p`, or in the body of a loop. -/
def Onward (mod : Module) (code : Str) (jt : List JumpTable) (p : ℕ) : Flow → Prop
  | .plain _ pc => (p : ℤ) < pc
  | .next pc _ => (p : ℤ) < pc
  | .jump pc k _ => ∃ tbl, jt[k]? = some tbl ∧
      ((p : ℤ) < pc + tbl.targetOffset ∨ LoopBody mod code (pc + tbl.targetOffset))
  | .finish => True
  | .trap => True

theorem Validator.Jump.onward {jt : List JumpTable} {p q k pc target : ℕ} {tbl : JumpTable} {ct : Ctx}
    (h : Jump mod f jt k pc tbl target ct) (hq : p < q) (htarget : q ≤ target ∨ LoopBody mod f.code target) :
    ∃ tbl, jt[k]? = some tbl ∧
      ((p : ℤ) < (pc : ℤ) + tbl.targetOffset ∨ LoopBody mod f.code ((pc : ℤ) + tbl.targetOffset)) := by
  have hoffset : (pc : ℤ) + tbl.targetOffset = target := by
    rw [← h.pc]
    exact h.arrives.offset
  refine ⟨tbl, h.slot, ?_⟩
  rw [hoffset]
  obtain hle | hloop := htarget
  · exact .inl (by omega)
  · exact .inr hloop

theorem Synced.onward (h : Sound mod f cE) {p imm q : ℕ} {c c' : Ctx} {r : Regs} {i : Instr}
    (hs : Synced mod f (linkJumpTable cE.jt) p c r) (hf : fetch mod f.code p = .ok (i, imm, q))
    (hcb : onInstr mod i ⟨f.code, imm⟩ c = .ok c') (v : ℕ) :
    Onward mod f.code (linkJumpTable cE.jt) p (flowOf f.code i imm q r.nextJtIdx v) := by
  have hreach := hs.reach.tail (step_iff.mpr ⟨i, imm, hf, hcb⟩)
  have hspan := fetch_span hf
  have hlt : p < q := by omega
  have hnext : (p : ℤ) < q := by omega
  cases i with
  | unreachable | return_ => trivial
  | block op ty =>
    by_cases hop : op = .if_
    · subst hop
      by_cases hv : v = 0
      · obtain ⟨tbl, target, ct, hj, htarget⟩ := h.if_jump hreach hf hcb
        rw [← hs.slot h hf hcb (by simp [slotsOf])] at hj
        simp only [flowOf, if_pos, hv, ne_eq, not_true_eq_false, if_false]
        exact hj.onward hlt (.inl htarget.onward)
      · simp only [flowOf, if_pos, hv, ne_eq, not_false_eq_true]
        exact hnext
    · simp only [flowOf, if_neg hop]
      exact hnext
  | else_ =>
    obtain ⟨tbl, target, ct, fr, rest, hj, hcs, -, htarget⟩ := h.else_jump hreach hf hcb
    rw [← hs.slot h hf hcb Nat.one_pos] at hj
    have hfr : fromBottom c'.ctrlStack rest.length = some fr := by rw [hcs, fromBottom_cons_length]
    exact hj.onward hlt (htarget.onward h.safe hreach hfr)
  | end_ =>
    by_cases hq : q = f.code.length
    · simp only [flowOf, if_pos hq]
      trivial
    · simp only [flowOf, if_neg hq]
      exact hnext
  | brOrIf op l =>
    by_cases hop : op = .brIf ∧ v = 0
    · simp only [flowOf, if_pos hop]
      exact hnext
    · simp only [flowOf, if_neg hop]
      obtain ⟨fr, k0, ts0, tbl, target, ct, fr', -, -, -, -, hj, -, hfr', -, htarget⟩ :=
        h.br_jump hs.reach hreach hf hcb
      rw [← hs.slot h hf hcb Nat.one_pos] at hj
      exact hj.onward hlt (htarget.onward h.safe hreach hfr')
  | brTable =>
    obtain ⟨-, n, pc1, hn, -⟩ := fetch_brTable hf
    have hle := tableIndex_le v hn
    obtain ⟨t, k0, l, fr, size, tbl, target, ct, fr', -, -, -, -, hj, -, -, hfr', -, htarget⟩ :=
      h.brTable_jump hs.reach hreach hf hcb hn hle
    have hidx := hs.brTable_idx h (by rw [hj.slot]; simp)
    simp only [flowOf, hidx]
    exact hj.onward hlt (htarget.onward h.safe hreach hfr')
  | _ => exact hnext

/-- One instruction of a call goes on in the body, or to the body of a loop. -/
theorem Validator.Sound.regsStep_onward (h : Sound mod f cE) (hcode : fn.code = f.code)
    (hjt : fn.jt = linkJumpTable cE.jt) {r r' : Regs} (hr : ReflTransGen (RegsStep fn) Regs.start r)
    (hstep : RegsStep fn r r') :
    0 ≤ r.pc ∧ r.pc < fn.code.length ∧ (r.pc < r'.pc ∨ LoopBody mod fn.code r'.pc) := by
  obtain ⟨p, c, hsync⟩ := h.run_synced hcode hjt hr
  obtain ⟨i, imm, q, c', hf, hcb, -⟩ := h.exists_step hsync.reach hsync.lt
  have hpc := hsync.pc
  have hlt := hsync.lt
  refine ⟨by omega, by rw [hcode]; omega, ?_⟩
  obtain ⟨v, hv⟩ := hstep
  have hregs : r = ⟨p, r.nextJtIdx⟩ := by rw [← hpc]
  have hflow := hsync.onward h hf hcb v
  have hdispatch : dispatch f.code r v = .ok (flowOf f.code i imm q r.nextJtIdx v) := by
    rw [hregs]
    exact dispatch_of_fetch hf v
  simp only [regsStep, hcode, hjt, hdispatch, ok_bind] at hv
  rw [hpc, hcode]
  generalize flowOf f.code i imm q r.nextJtIdx v = flow at hv hflow
  cases flow with
  | plain j pc | next pc idx =>
    obtain hv | ⟨what, hv⟩ := hv <;> cases hv
    exact .inl hflow
  | jump pc k unwind =>
    obtain ⟨tbl, htbl, hflow⟩ := hflow
    have hslot : slotAt (linkJumpTable cE.jt) k = .ok tbl := by rw [slotAt, htbl]
    simp only [follow, hslot, ok_bind] at hv
    obtain hv | ⟨what, hv⟩ := hv <;> cases hv
    exact hflow
  | finish | trap => obtain hv | ⟨what, hv⟩ := hv <;> cases hv

/-- A plain instruction or a call goes on in the body. -/
theorem Validator.Sound.plain_onward (h : Sound mod f cE) (hcode : fn.code = f.code)
    (hjt : fn.jt = linkJumpTable cE.jt) {a a' : Act ValueU} {i : Instr}
    (hr : ReflTransGen (RegsStep fn) Regs.start a.regs) (hstep : actStep fn lo32 a = .ok (.plain i a')) :
    a.regs.pc < a'.regs.pc := by
  obtain ⟨p, c, hsync⟩ := h.run_synced hcode hjt hr
  obtain ⟨i0, imm, q, c', hf, hcb, -⟩ := h.exists_step hsync.reach hsync.lt
  simp only [actStep, bind_eq_ok] at hstep
  obtain ⟨op, hop, ⟨operand, stack⟩, -, flow, hflow, hfollow⟩ := hstep
  have hregs : a.regs = ⟨p, a.regs.nextJtIdx⟩ := by rw [← hsync.pc]
  have hdispatch : dispatch fn.code a.regs operand = .ok flow := by simp only [dispatch, hop, ok_bind, hflow]
  have honward := hsync.onward h hf hcb operand
  rw [hcode, hregs, dispatch_of_fetch hf] at hdispatch
  cases hdispatch
  rw [hsync.pc]
  generalize flowOf f.code i0 imm q a.regs.nextJtIdx operand = flow at hfollow honward
  cases flow with
  | plain j pc =>
    cases hfollow
    exact honward
  | jump pc k unwind =>
    obtain ⟨tbl, -, hfollow⟩ := bind_eq_ok.mp hfollow
    split at hfollow
    · obtain ⟨stack', -, hfollow⟩ := bind_eq_ok.mp hfollow
      cases hfollow
    · cases hfollow
  | next | finish | trap => cases hfollow

end Onward

/-! ### Runs -/

/-- A pass of the loop of the innermost call. -/
def System.Pass (pf : Platform) (s s' : System) : Prop := ∃ r, s.running = some r ∧ runStep pf s.vm r = .ok s'

/-- The innermost call goes back in its body. -/
def GoesBack (s s' : System) : Prop :=
  ∃ fr fr' rest, s.frames = fr :: rest ∧ s'.frames = fr' :: rest ∧ fr'.act.regs.pc ≤ fr.act.regs.pc

/-- How far the call is from the end of a body of length `L`. -/
def Frame.countdown (L : ℕ) (fr : Frame) : ℕ := L - fr.act.regs.pc.toNat + 1

def System.countdown (L : ℕ) (s : System) : List ℕ := s.frames.map (·.countdown L)

section Runs
variable {pf : Platform} {mods : Module → Prop} {s s' : System} {L : ℕ}

theorem System.Pass.sysStep (h : s.Pass pf s') : SysStep pf mods s s' := by
  obtain ⟨r, hr, hstep⟩ := h
  obtain ⟨vm, running⟩ := s
  obtain rfl : running = some r := hr
  exact .run hstep

theorem System.Pass.mods_eq (h : s.Pass pf s') : s'.vm.mods = s.vm.mods := by
  obtain ⟨r, -, hstep⟩ := h
  exact Vm.mods_of_shape (runStep_shape hstep)

theorem runStep_code {vm : Vm} {r : Running} (h : runStep pf vm r = .ok s') {fr : Frame} {rest : List Frame} {fn : Func}
    (hframes : r.frames = fr :: rest) (hfn : vm.func fr.fAddr = .ok fn) : fn.code ≠ [] := by
  simp only [runStep, hframes, hfn, ok_bind] at h
  obtain ⟨out, hout, -⟩ := bind_eq_ok.mp h
  exact code_of_actStep hout

/-- The function of the innermost call has been validated, and the call is at a place of its body. -/
theorem innermost_sound (hmods : ∀ mod, mods mod → mod.Given JumpSafe) (h : ReflTransGen (SysStep pf mods) {} s)
    {r : Running} (hr : s.running = some r) {fr : Frame} {rest : List Frame} (hframes : r.frames = fr :: rest)
    {fn : Func} {mi : ModuleInst} (hmi : s.vm.instances[fr.fAddr.inst]? = some mi)
    (hidx : mi.mod.funcs[fr.fAddr.idx]? = some fn) (hcode : fn.code ≠ []) :
    ∃ f cE, Sound mi.mod.parsed f cE ∧ fn.code = f.code ∧ fn.jt = linkJumpTable cE.jt ∧
      ReflTransGen (RegsStep fn) Regs.start fr.act.regs := by
  have hval := run_validated (fun _ _ hsafe => jumpSafe_parsed.mpr hsafe) hmods h
  have hmod : mi.mod ∈ s.vm.mods := List.mem_map_of_mem (List.mem_of_getElem? hmi)
  obtain ⟨f, cE, hvalid⟩ := hval mi.mod hmod fn (List.mem_of_getElem? hidx) hcode
  have hmem : fr ∈ s.frames := by
    rw [frames_of_running hr, hframes]
    exact List.mem_cons_self
  obtain ⟨fn', hfn', hregs⟩ := run_placed h fr hmem
  obtain rfl : fn = fn' := Except.ok.inj ((Vm.func_ok.mpr ⟨mi, hmi, hidx⟩).symm.trans hfn')
  exact ⟨f, cE, ⟨hvalid.accepts, hvalid.safe⟩, hvalid.code, hvalid.jt, hregs⟩

theorem pass_loopBody (hmods : ∀ mod, mods mod → mod.Given JumpSafe) (h : ReflTransGen (SysStep pf mods) {} s)
    (hpass : s.Pass pf s') (hback : GoesBack s s') :
    ∃ fr rest mi fn, s'.frames = fr :: rest ∧ s.vm.instances[fr.fAddr.inst]? = some mi ∧
      mi.mod.funcs[fr.fAddr.idx]? = some fn ∧ LoopBody mi.mod fn.code fr.act.regs.pc := by
  obtain ⟨r, hr, hstep⟩ := hpass
  obtain ⟨fr, fr', rest, hfrs, hfrs', hle⟩ := hback
  rw [frames_of_running hr] at hfrs
  obtain ⟨fr1, rest1, fn, hframes, hfn, hmoved⟩ := runStep_moved hstep
  obtain ⟨rfl, rfl⟩ := List.cons.inj (hfrs.symm.trans hframes)
  obtain ⟨mi, hmi, hidx⟩ := Vm.func_ok.mp hfn
  have hcode := runStep_code hstep hframes hfn
  obtain ⟨f, cE, hsound, hfcode, hjt, hregs⟩ := innermost_sound hmods h hr hframes hmi hidx hcode
  cases hmoved with
  | stay _ hadv =>
    obtain ⟨rfl, -⟩ := List.cons.inj hfrs'
    obtain ⟨-, -, honward⟩ := hsound.regsStep_onward hfcode hjt hregs hadv.regs
    have hloop := honward.resolve_left (Int.not_lt.mpr hle)
    refine ⟨_, rest, mi, fn, rfl, ?_, ?_, ?_⟩
    · rw [hadv.fAddr]
      exact hmi
    · rw [hadv.fAddr]
      exact hidx
    · rw [LoopBody, instrs_parsed] at hloop
      exact hloop
  | call =>
    have hlen := congrArg List.length hfrs'
    simp [System.frames] at hlen
  | ret hrest =>
    have hlen := congrArg List.length hfrs'
    simp [System.frames, hrest] at hlen
  | abort =>
    rw [frames_abort] at hfrs'
    cases hfrs'
  | finish _ hfin =>
    rw [frames_finish hfin] at hfrs'
    cases hfrs'

theorem Frame.countdown_lt_base (fr : Frame) : fr.countdown L < L + 2 := by
  unfold countdown
  omega

theorem Frame.countdown_lt {fr fr' : Frame} {len : ℕ} (hpos : 0 ≤ fr.act.regs.pc) (hlt : fr.act.regs.pc < len)
    (hlen : len ≤ L) (h : fr.act.regs.pc < fr'.act.regs.pc) : fr'.countdown L < fr.countdown L := by
  unfold countdown
  omega

/-- A pass that does not go back runs the counters of the active calls down. -/
theorem pass_lowers (hmods : ∀ mod, mods mod → mod.Given JumpSafe) (h : ReflTransGen (SysStep pf mods) {} s)
    (hL : ∀ mod ∈ s.vm.mods, ∀ fn ∈ mod.funcs, fn.code.length ≤ L) (hpass : s.Pass pf s') (hback : ¬ GoesBack s s') :
    Countdown.Lowers (L + 2) (s.countdown L) (s'.countdown L) := by
  obtain ⟨r, hr, hstep⟩ := hpass
  obtain ⟨fr, rest, fn, hframes, hfn, -⟩ := runStep_moved hstep
  obtain ⟨mi, hmi, hidx⟩ := Vm.func_ok.mp hfn
  have hok : VmOk s.vm := run_vmOk (fun mod hmod => (hmods mod hmod).loaded.fresh) h
  have hacted := runStep_acted hok hstep hframes hmi hidx
  have hmod : mi.mod ∈ s.vm.mods := List.mem_map_of_mem (List.mem_of_getElem? hmi)
  have hlen := hL mi.mod hmod fn (List.mem_of_getElem? hidx)
  have hcode := runStep_code hstep hframes hfn
  obtain ⟨f, cE, hsound, hfcode, hjt, hregs⟩ := innermost_sound hmods h hr hframes hmi hidx hcode
  obtain ⟨p, c, hsync⟩ := hsound.run_synced hfcode hjt hregs
  have hpc := hsync.pc
  have hsynclt := hsync.lt
  have hpos : 0 ≤ fr.act.regs.pc := by omega
  have hlt : fr.act.regs.pc < fn.code.length := by
    rw [hfcode]
    omega
  have hs : s.countdown L = fr.countdown L :: rest.map (·.countdown L) := by
    rw [System.countdown, frames_of_running hr, hframes, List.map_cons]
  rw [hs]
  cases hacted with
  | stay haddr hact =>
    refine .stay (Frame.countdown_lt hpos hlt hlen ?_)
    by_contra hle
    exact hback ⟨fr, _, rest, (frames_of_running hr).trans hframes, rfl, Int.not_lt.mp hle⟩
  | call hmakes =>
    have honward := hsound.plain_onward hfcode hjt hregs hmakes.step
    exact .push (Frame.countdown_lt hpos hlt hlen honward) (Frame.countdown_lt_base _)
  | @ret r' caller caller' rest' results hrest hlen haddr hact =>
    have hsame : (caller' :: rest').map (·.countdown L) = rest.map (·.countdown L) := by
      simp only [hrest, List.map_cons, Frame.countdown, hact]
    rw [System.countdown]
    change Countdown.Lowers (L + 2) _ ((caller' :: rest').map (·.countdown L))
    rw [hsame]
    exact .pop (Nat.succ_pos _)
  | idle hnone =>
    rw [System.countdown, hnone]
    exact .stop (Nat.succ_pos _)

theorem parseModule_u32Sizes {bin : Str} {mod : Module} (h : parseModule bin = .ok mod) : mod.U32Sizes := by
  refine parseModule_induction (P := Module.U32Sizes) (by simp [Module.U32Sizes]) (fun mod mod' hrec hm => ?_) h
  cases hrec with
  | importFunc | func =>
    intro fn hfn
    obtain hfn | hfn := List.mem_append.mp hfn
    · exact hm fn hfn
    · rw [List.mem_singleton.mp hfn]
      exact Nat.two_pow_pos 32
  | code _ hfn =>
    intro fn' hfn'
    obtain hfn' | rfl := List.mem_or_eq_of_mem_set hfn'
    · exact hm fn' hfn'
    · have hsize := hm _ (List.mem_of_getElem? hfn)
      exact hsize
  | @export_ mod1 kind _ _ hmark =>
    have hfuncs : mod1.funcs.map Func.stackSizeMax = mod.funcs.map Func.stackSizeMax := by
      cases kind with
      | func =>
        obtain ⟨-, hmark⟩ := guard_eq_ok.mp hmark
        cases hmark
        refine ListStack.map_modify (fun _ => ?_) _ _
        rfl
      | table | memory | global =>
        obtain ⟨-, hmark⟩ := guard_eq_ok.mp hmark
        cases hmark
        rfl
    exact forall_of_map_eq (g := Func.stackSizeMax) (Q := fun n => n < 2 ^ 32) hfuncs hm
  | _ => exact hm

theorem Loaded.u32Sizes {mod : Module} (h : Loaded mod) : mod.U32Sizes := by
  refine h.induction (P := Module.U32Sizes) (fun _ _ hp => parseModule_u32Sizes hp) (fun _ _ hm => hm) ?_
  rintro m m' ⟨funcs, rfl, heq⟩ hm
  have hsizes : funcs.map Func.stackSizeMax = m.funcs.map Func.stackSizeMax := map_unbound (fun _ => rfl) heq
  exact forall_of_map_eq (g := Func.stackSizeMax) (Q := fun n => n < 2 ^ 32) hsizes hm

/-- At most as many calls are active as the limit admits. -/
theorem run_frames_le (hmods : ∀ mod, mods mod → Loaded mod) (h : ReflTransGen (SysStep pf mods) {} s) :
    s.frames.length ≤ silverfirStackFrameLimit + 1 := by
  have hrun : ReflTransGen (ThreadStep pf Module.U32Sizes) {} s :=
    ReflTransGen.mono (fun _ _ hstep => .sys (hstep.mono fun mod hmod => (hmods mod hmod).u32Sizes)) _ _ h
  cases hr : s.running with
  | none =>
    rw [System.frames, hr]
    exact Nat.zero_le _
  | some r =>
    obtain ⟨-, hcounts, -⟩ := (run_counted hrun).running r hr
    rw [frames_of_running hr]
    exact hcounts.bound

theorem passes_lt (hmods : ∀ mod, mods mod → mod.Given JumpSafe) (h : ReflTransGen (SysStep pf mods) {} s)
    (hL : ∀ mod ∈ s.vm.mods, ∀ fn ∈ mod.funcs, fn.code.length ≤ L) {n k : ℕ}
    (hrun : Countdown.Marked (System.Pass pf) GoesBack n k s s') :
    n < (k + 1) * (L + 2) ^ (silverfirStackFrameLimit + 1) := by
  have hloaded : ∀ mod, mods mod → Loaded mod := fun mod hmod => (hmods mod hmod).loaded
  let p : System → Prop := fun s =>
    ReflTransGen (SysStep pf mods) {} s ∧ ∀ mod ∈ s.vm.mods, ∀ fn ∈ mod.funcs, fn.code.length ≤ L
  let rank : System → ℕ := fun s => Countdown.rank (L + 2) (silverfirStackFrameLimit + 1) (s.countdown L)
  have hp : ∀ x y, System.Pass pf x y → p x → p y := by
    rintro x y hpass ⟨hx, hbodies⟩
    refine ⟨hx.tail hpass.sysStep, ?_⟩
    rw [hpass.mods_eq]
    exact hbodies
  have hdepth : ∀ x, p x → (x.countdown L).length ≤ silverfirStackFrameLimit + 1 := by
    intro x hx
    rw [System.countdown, List.length_map]
    exact run_frames_le hloaded hx.1
  have hbound : ∀ x, p x → rank x < (L + 2) ^ (silverfirStackFrameLimit + 1) := by
    intro x hx
    refine Countdown.rank_lt (by omega) (hdepth x hx) fun m hm => ?_
    obtain ⟨fr, -, rfl⟩ := List.mem_map.mp hm
    exact Frame.countdown_lt_base fr
  have hlower : ∀ x y, p x → System.Pass pf x y → ¬ GoesBack x y → rank y < rank x := by
    intro x y hx hpass hback
    have hlowers := pass_lowers hmods hx.1 hx.2 hpass hback
    exact Countdown.rank_lt_of_lowers (by omega) (hdepth x hx) (hdepth y (hp x y hpass hx)) hlowers
  have hle := hrun.le hp hbound hlower ⟨h, hL⟩
  have hlt := hbound s ⟨h, hL⟩
  rw [Nat.succ_mul]
  omega

end Runs

/-! ### An endless loop -/

/-- A start function that is a loop. -/
def loopModule : Module where
  names := [[]]
  formatVersion := 1
  funcTypes := [{}]
  funcs := [{ code := [0x03, 0x40, 0x0c, 0, 0x0b, 0x0b] }]
  startFuncidx := some 0

theorem given_loopModule : loopModule.Given JumpSafe := by
  have hmod : moduleInit [0x00, 0x61, 0x73, 0x6d, 1, 0, 0, 0, 1, 4, 1, 0x60, 0, 0, 3, 2, 1, 0, 8, 1, 0,
      10, 9, 1, 7, 0, 0x03, 0x40, 0x0c, 0, 0x0b, 0x0b] [] = .ok loopModule := by rfl
  refine ⟨.init hmod, fun fn hfn _ => ?_⟩
  rw [List.mem_singleton.mp hfn]
  decide +kernel

/-- The start function at `pc`. -/
def loopRun (pc : ℤ) : System where
  vm := { instances := [{ moduleInstNew 0 { loopModule with
    funcs := [{ code := [0x03, 0x40, 0x0c, 0, 0x0b, 0x0b], jt := [⟨3, -1, 0, 0, 0⟩] }] } with
      fAddrs := [some ⟨0, 0⟩] }] }
  running := some ⟨[⟨⟨0, 0⟩, ⟨⟨pc, 0⟩, []⟩, [], 0⟩], { frameDepth := 1 }, .start 0⟩

/-- The start function enters its loop, and branches to the body of the loop. -/
theorem loopRun_steps : instantiateStep idle {} 0 loopModule = .ok (loopRun 0) ∧
    (∀ r ∈ (loopRun 0).running, runStep idle (loopRun 0).vm r = .ok (loopRun 2)) ∧
      ∀ r ∈ (loopRun 2).running, runStep idle (loopRun 2).vm r = .ok (loopRun 2) := by
  decide +kernel

theorem loopRun_start : SysStep idle (· = loopModule) {} (loopRun 0) := .instantiate rfl loopRun_steps.1

theorem loopRun_enter : (loopRun 0).Pass idle (loopRun 2) := ⟨_, rfl, loopRun_steps.2.1 _ rfl⟩

theorem loopRun_again : (loopRun 2).Pass idle (loopRun 2) ∧ GoesBack (loopRun 2) (loopRun 2) := by
  constructor
  · exact ⟨_, rfl, loopRun_steps.2.2 _ rfl⟩
  · exact ⟨_, _, [], rfl, rfl, le_refl _⟩

end Silverfir
