import Silverfir.ControlFlow
import Silverfir.FrameExit

/-! The operand stack of the interpreter beside the one of the validator: along every run the
operands have the types that validation recorded for the place the interpreter is at. -/
namespace Silverfir

open InPlaceDt Validator ListStack
open Relation (ReflTransGen)

variable {V : Type} {mod : Module} {f : Func} {cE : Ctx}

/-- The arities and heights of a function fit in the fields of the jump table. -/
structure Fits (mod : Module) (f : Func) : Prop where
  arity : ∀ x fr, Reach mod f x → fr ∈ x.2.ctrlStack → fr.labelTypes.length < 2 ^ 16
  height : ∀ x, Reach mod f x → x.2.valStack.length < 2 ^ 31

/-- A way to type stack slots: `G` holds of the types the validator can compare, and a value of
one type is a value of any type that matches it. -/
structure Typing (mod : Module) (f : Func) (typed : V → TypeId → Prop) (G : TypeId → Prop) : Prop where
  frames : ∀ x fr, Reach mod f x → fr ∈ x.2.ctrlStack → (∀ t ∈ fr.startTypes, G t) ∧ ∀ t ∈ fr.endTypes, G t
  conv : ∀ t e v, G t → G e → Matches t e → typed v t → typed v e

/-- The `end` at `p` closes the frame `fr` of an `if` that has no `else`. -/
structure OneArmed (mod : Module) (f : Func) (p : ℕ) (c : Ctx) (fr : CtrlFrame) : Prop where
  reach : Reach mod f (p, c)
  fetch : ∃ imm q, fetch mod f.code p = .ok (.end_, imm, q)
  top : fr ∈ c.ctrlStack.head?
  type : fr.type = .if_

/-- The operands have the types of the context, which is reachable code. -/
structure OperandsAt (typed : V → TypeId → Prop) (G : TypeId → Prop) (c : Ctx) (stack : List V) : Prop where
  live : ∀ fr ∈ c.ctrlStack, fr.unreachable = false
  typed : List.Forall₂ typed stack c.valStack
  good : ∀ t ∈ c.valStack, G t

section Lists

variable {typed : V → TypeId → Prop} {G : TypeId → Prop}

theorem Typing.conv_all (hT : Typing mod f typed G) {vs : List V} {ts es : List TypeId}
    (hv : List.Forall₂ typed vs ts) (ht : ∀ t ∈ ts, G t) (he : ∀ e ∈ es, G e)
    (hm : List.Forall₂ Matches ts es) : List.Forall₂ typed vs es := by
  induction hm generalizing vs with
  | nil =>
    cases hv
    exact .nil
  | cons h _ ih =>
    cases hv with
    | cons hv hvs =>
      rw [List.forall_mem_cons] at ht he
      exact .cons (hT.conv _ _ _ ht.1 he.1 h hv) (ih hvs ht.2 he.2)

theorem Typing.label (hT : Typing mod f typed G) {x : ℕ × Ctx} {fr : CtrlFrame} (hr : Reach mod f x)
    (hmem : fr ∈ x.2.ctrlStack) : ∀ t ∈ fr.labelTypes.reverse, G t := by
  intro t ht
  rw [List.mem_reverse, CtrlFrame.labelTypes] at ht
  split at ht
  · exact (hT.frames _ _ hr hmem).1 t ht
  · exact (hT.frames _ _ hr hmem).2 t ht

theorem forall_fromBottom {α : Type} {s : List α} {P : α → Prop} :
    (∀ a ∈ s, P a) ↔ ∀ n a, fromBottom s n = some a → P a := by
  constructor
  · exact fun h n a ha => h a (mem_of_fromBottom ha)
  · intro h a ha
    obtain ⟨n, hn⟩ := List.mem_iff_getElem?.mp (List.mem_reverse.mpr ha)
    exact h n a hn

/-- Top operands of the label types on the operands of an enclosing frame. -/
theorem forall₂_take_below {s : List V} {ts us : List TypeId} {h k : ℕ}
    (htop : List.Forall₂ typed (s.take k) ts) (hall : List.Forall₂ typed s us) :
    List.Forall₂ typed (s.take k ++ below h s) (ts ++ below h us) := by
  have hlen := hall.length_eq
  unfold below
  rw [hlen]
  exact List.rel_append htop (List.forall₂_drop _ hall)

end Lists

/-- In reachable code the popped types are the top of the stack. -/
theorem Validator.Popped.of_live {c : Ctx} (hlive : ∀ fr ∈ c.ctrlStack, fr.unreachable = false) {k : ℕ}
    {ts : List TypeId} (hp : Popped c k ts) : k = ts.length ∧ ts = c.valStack.take k ∧ k ≤ c.valStack.length := by
  obtain ⟨h1, h2⟩ := hp.of_reachable fun fr hfr => hlive fr (List.mem_of_mem_head? hfr)
  refine ⟨h1, h2, ?_⟩
  have hlen := congrArg List.length h2
  rw [List.length_take] at hlen
  omega

theorem OperandsAt.popped {typed : V → TypeId → Prop} {G : TypeId → Prop} {c : Ctx} {stack : List V}
    (h : OperandsAt typed G c stack) {k : ℕ} {ts : List TypeId} (hp : Popped c k ts) :
    k = ts.length ∧ ts = c.valStack.take k ∧ k ≤ c.valStack.length := hp.of_live h.live

/-- The operands of the label types, and of the types they were compared with. -/
theorem OperandsAt.top {typed : V → TypeId → Prop} {G : TypeId → Prop} (hT : Typing mod f typed G) {c : Ctx}
    {stack : List V} (h : OperandsAt typed G c stack) {k : ℕ} {ts es : List TypeId} (hp : Popped c k ts)
    (hm : List.Forall₂ Matches ts es) (he : ∀ e ∈ es, G e) :
    es.length = k ∧ List.Forall₂ typed (stack.take k) es := by
  obtain ⟨hk, hts, -⟩ := h.popped hp
  refine ⟨by rw [← hm.length_eq, hk], hT.conv_all (List.forall₂_take k h.typed) ?_ he (by rw [← hts]; exact hm)⟩
  exact fun t ht => h.good t (List.mem_of_mem_take ht)

/-! ### Where a branch arrives -/

namespace Validator

variable {n : ℕ} {x : ℕ × Ctx} {fr : CtrlFrame} {target : ℕ} {ct : Ctx}

/-- The `end` that a branch to the label of the function goes to is the last instruction. -/
theorem Exit.last (hb : Bracketed mod f) {e imm : ℕ} {ce ce' : Ctx} {cf : CtrlFrame} {rest : List CtrlFrame}
    (hx : Reach mod f x) (h : Exit mod f 0 x e imm ce ce' cf rest) : imm = f.code.length := by
  have hspan := fetch_span h.fetch
  have hrest : ce'.ctrlStack = [] := by
    rw [h.rest_eq]
    exact List.length_eq_zero_iff.mp h.depth
  by_contra hne
  exact hb.inside imm ce' (h.reach' hx) (by omega) hrest

/-- The frames that an `end` leaves open are those from before, reachable ones. -/
theorem Exit.live {e imm : ℕ} {ce ce' : Ctx} {cf : CtrlFrame} {rest : List CtrlFrame} (hx : Reach mod f x)
    (hfr : fromBottom x.2.ctrlStack n = some fr)
    (hlive : ∀ m < n, ∀ g, fromBottom x.2.ctrlStack m = some g → g.unreachable = false)
    (h : Exit mod f n x e imm ce ce' cf rest) : ∀ g ∈ ce'.ctrlStack, g.unreachable = false := by
  rw [h.rest_eq, forall_fromBottom]
  intro m g hg
  have hm : m < n := h.depth ▸ lt_length_of_fromBottom hg
  have hlen := lt_length_of_fromBottom hfr
  obtain ⟨g0, hg0⟩ := fromBottom_lt (hm.trans hlen)
  obtain ⟨ks, hks⟩ := hx.above_grow h.path hm hg0
  rw [h.top, fromBottom_cons_lt (lt_length_of_fromBottom hg), hg] at hks
  cases hks
  exact hlive m hm g0 hg0

/-- The types of the frame that an `end` closes. -/
theorem Exit.types {e imm : ℕ} {ce ce' : Ctx} {cf : CtrlFrame} {rest : List CtrlFrame} (hx : Reach mod f x)
    (hfr : fromBottom x.2.ctrlStack n = some fr) (h : Exit mod f n x e imm ce ce' cf rest) :
    cf.startTypes = fr.startTypes ∧ cf.endTypes = fr.endTypes :=
  (hx.inv.wf.types fr (mem_of_fromBottom hfr)).eq_of_ftype
    ((h.reach hx).inv.wf.types cf (List.mem_of_mem_head? (head?_mem h.top))) (h.kept hx hfr).ftype

/-- The frames and operands where an `end` leaves a frame. -/
theorem Exit.operands (hexits : Exits mod f) {e imm : ℕ} {ce ce' : Ctx} {cf : CtrlFrame}
    {rest : List CtrlFrame} (hx : Reach mod f x) (hfr : fromBottom x.2.ctrlStack n = some fr)
    (hlive : ∀ m < n, ∀ g, fromBottom x.2.ctrlStack m = some g → g.unreachable = false)
    (h : Exit mod f n x e imm ce ce' cf rest) :
    (∀ g ∈ ce'.ctrlStack, g.unreachable = false) ∧ cf.height = fr.height ∧
      cf.startTypes = fr.startTypes ∧ cf.endTypes = fr.endTypes ∧
      ce'.valStack = fr.endTypes.reverse ++ below fr.height x.2.valStack := by
  have hr := h.reach hx
  have htop : cf ∈ ce.ctrlStack.head? := head?_mem h.top
  have hheight := hexits.height_eq hx h.path hfr h.frame
  obtain ⟨hstart, hend⟩ := h.types hx hfr
  have hv := onEnd_valStack hr.inv.wf h.onEnd htop (hexits.at_end hr h.fetch htop)
  refine ⟨h.live hx hfr hlive, hheight, hstart, hend, ?_⟩
  rw [hv, hheight, hend]
  congr 1
  exact hx.above_below h.path hfr le_rfl

/-- Where a branch arrives is reachable code, unless it leaves the function. -/
theorem BranchTarget.live (hx : Reach mod f x) (hfr : fromBottom x.2.ctrlStack n = some fr)
    (h : BranchTarget mod f n x fr target ct) (hfunc : fr.type ≠ .func)
    (hlive : ∀ m < n, ∀ g, fromBottom x.2.ctrlStack m = some g → g.unreachable = false) :
    ∀ g ∈ ct.ctrlStack, g.unreachable = false := by
  cases h with
  | func ht => exact absurd ht hfunc
  | exit _ _ _ hex => exact hex.live hx hfr hlive
  | @loop _ fr0 s ht hr hc hn hk hu hv hpath =>
    rw [hc, List.forall_mem_cons]
    refine ⟨hu, forall_fromBottom.mpr fun m g hg => ?_⟩
    have hm : m < n := hn ▸ lt_length_of_fromBottom hg
    obtain ⟨ks, hks⟩ := hr.above_grow hpath hm (by rw [hc, fromBottom_cons_lt (hn ▸ hm)]; exact hg)
    exact hlive m hm (g.addPending ks) hks

/-- The operands where a branch to a loop arrives. -/
theorem BranchTarget.loop_operands (hx : Reach mod f x) (hfr : fromBottom x.2.ctrlStack n = some fr)
    (h : BranchTarget mod f n x fr target ct) (ht : fr.type = .loop) :
    ct.valStack = fr.labelTypes.reverse ++ below fr.height x.2.valStack := by
  cases h with
  | func ht' => rw [ht] at ht'; cases ht'
  | exit ht' => exact absurd ht ht'
  | @loop _ fr0 s _ hr hc hn hk hu hv hpath =>
    have hft := (hr.inv.wf.types fr0 (by rw [hc]; exact List.mem_cons_self)).eq_of_ftype
      (hx.inv.wf.types fr (mem_of_fromBottom hfr)) hk.ftype
    have hheight : fr.height = fr0.height := by
      cases hk with
      | same _ _ hh => exact hh
      | else_ _ ht' => rw [ht] at ht'; cases ht'
    have hfr0 : fromBottom ct.ctrlStack n = some fr0 := by rw [hc, ← hn, fromBottom_cons_length]
    have hb := hr.above_below hpath hfr0 le_rfl
    simp only at hb
    rw [hv, ← hb, CtrlFrame.labelTypes, if_pos ht, hft.1, hheight]

/-- The frames and operands where a branch arrives, unless it leaves the function. -/
theorem BranchTarget.operands (hexits : Exits mod f) (hx : Reach mod f x)
    (hfr : fromBottom x.2.ctrlStack n = some fr) (h : BranchTarget mod f n x fr target ct)
    (hfunc : fr.type ≠ .func)
    (hlive : ∀ m < n, ∀ g, fromBottom x.2.ctrlStack m = some g → g.unreachable = false) :
    (∀ g ∈ ct.ctrlStack, g.unreachable = false) ∧
      ct.valStack = fr.labelTypes.reverse ++ below fr.height x.2.valStack := by
  refine ⟨h.live hx hfr hfunc hlive, ?_⟩
  by_cases ht : fr.type = .loop
  · exact h.loop_operands hx hfr ht
  · cases h with
    | func ht' => exact absurd ht' hfunc
    | loop ht' => exact absurd ht' ht
    | exit _ _ _ hex =>
      obtain ⟨-, -, -, -, hv⟩ := hex.operands hexits hx hfr hlive
      rw [hv, CtrlFrame.labelTypes, if_neg ht]

end Validator

/-! ### One pass of the loop -/

/-- The instructions that pop a condition or an index. -/
def Instr.popsOperand : Instr → Bool
  | .block op _ => op == .if_
  | .brOrIf op _ => op == .brIf
  | .brTable => true
  | _ => false

theorem popsOperand_case {op : WasmOpcode} (h : InPlaceDt.popsOperand op = true) :
    op.case = .block ∨ op.case = .brOrIf ∨ op.case = .brTable := by
  revert h
  cases op <;> simp [InPlaceDt.popsOperand, WasmOpcode.case]

theorem popsOperand_of_fetch {p imm q : ℕ} {i : Instr} {code : Str} (h : fetch mod code p = .ok (i, imm, q)) :
    ∃ op, opcodeAt code (p : ℤ) = .ok op ∧ InPlaceDt.popsOperand op = i.popsOperand := by
  obtain ⟨b, op, pc, hb, hop, hi, -⟩ := fetch_ok.mp h
  have hcase := decodeImm_case hi
  refine ⟨op, by simp [opcodeAt, Unchecked.byteAt, hb, hop], ?_⟩
  have hother : i.case ≠ .block → i.case ≠ .brOrIf → i.case ≠ .brTable → InPlaceDt.popsOperand op = false := by
    intro h1 h2 h3
    rw [hcase] at h1 h2 h3
    by_contra hp
    rcases popsOperand_case (Bool.not_eq_false _ ▸ hp) with hc | hc | hc
    · exact h1 hc
    · exact h2 hc
    · exact h3 hc
  cases i with
  | block o ty =>
    obtain rfl := decodeImm_block hi
    obtain ⟨-, -, ho, -⟩ := fetch_block h
    obtain rfl | rfl | rfl := WasmOpcode.block_loop_or_if ho <;> rfl
  | brOrIf o l =>
    obtain ⟨-, -, hor, b', hb', hop'⟩ := fetch_br h
    obtain rfl : b = b' := Option.some.inj (hb.symm.trans hb')
    obtain rfl : op = o := Option.some.inj (hop.symm.trans hop')
    rcases hor with rfl | rfl <;> rfl
  | brTable =>
    obtain rfl := WasmOpcode.eq_brTable hcase.symm
    rfl
  | truncSat o => exact hother (by simp [Instr.case]) (by simp [Instr.case]) (by simp [Instr.case])
  | _ => exact hother (fun hk => by cases hk) (fun hk => by cases hk) (fun hk => by cases hk)

/-- The interpreter at a decoded offset. -/
theorem actStep_of_fetch {p imm q : ℕ} {i : Instr} {f' : Func} {a : Act V} (cond : V → ℕ)
    (h : fetch mod f'.code p = .ok (i, imm, q)) (hpc : a.regs.pc = p) :
    actStep f' cond a = (do
      let (v, stack) ← popOperand cond i.popsOperand a.stack
      followStack f'.jt a.regs.nextJtIdx stack (flowOf f'.code i imm q a.regs.nextJtIdx v)) := by
  obtain ⟨op, hop, hpops⟩ := popsOperand_of_fetch h
  have hd : ∀ v, handler op f'.code (p + 1) a.regs.nextJtIdx v =
      .ok (flowOf f'.code i imm q a.regs.nextJtIdx v) := by
    intro v
    have := @dispatch_of_fetch _ _ _ _ _ a.regs.nextJtIdx _ h v
    simp only [dispatch, hop, ok_bind, Int.toNat_natCast] at this
    exact this
  unfold actStep
  rw [hpc, hop, ok_bind, hpops, Int.toNat_natCast]
  cases popOperand cond i.popsOperand a.stack with
  | error e => rfl
  | ok x =>
    obtain ⟨v, stack⟩ := x
    simp only [ok_bind, hd]

/-- Behind an `else` the code is reachable if it is around the `if`. -/
theorem Validator.ElseAt.live {n e imm : ℕ} {x : ℕ × Ctx} {ce ce' : Ctx} {fr cf : CtrlFrame} {rest : List CtrlFrame}
    (hx : Reach mod f x) (hfr : fromBottom x.2.ctrlStack n = some fr)
    (hlive : ∀ m < n, ∀ g, fromBottom x.2.ctrlStack m = some g → g.unreachable = false)
    (h : ElseAt mod f n x e imm ce ce' cf rest) : ∀ g ∈ ce'.ctrlStack, g.unreachable = false := by
  obtain ⟨cf', rest', k, ts, ps, rs, slot, hc, -, -, -, -, -, -, hc'⟩ := onElse_ok h.onElse
  obtain ⟨rfl, rfl⟩ : cf' = cf ∧ rest' = rest := by
    rw [h.top] at hc
    cases hc
    exact ⟨rfl, rfl⟩
  rw [hc', pushVals_ctrlStack, List.forall_mem_cons]
  refine ⟨rfl, forall_fromBottom.mpr fun m a ha => ?_⟩
  have hm : m < n := h.depth ▸ lt_length_of_fromBottom ha
  obtain ⟨a0, ha0⟩ := fromBottom_lt (hm.trans (lt_length_of_fromBottom hfr))
  obtain ⟨ks, hks⟩ := hx.above_grow h.path hm ha0
  rw [h.top, fromBottom_cons_lt (lt_length_of_fromBottom ha), ha] at hks
  cases hks
  exact hlive m hm a0 ha0

/-- The frame that an `else` closes. -/
theorem Validator.ElseAt.kept {n e imm : ℕ} {x : ℕ × Ctx} {ce ce' : Ctx} {fr cf : CtrlFrame} {rest : List CtrlFrame}
    (hx : Reach mod f x) (hfr : fromBottom x.2.ctrlStack n = some fr) (h : ElseAt mod f n x e imm ce ce' cf rest) :
    fromBottom ce.ctrlStack n = some cf ∧ Kept fr cf ∧ cf.startTypes = fr.startTypes := by
  have hr : Reach mod f (e, ce) := hx.trans (Run.of_within h.path)
  have hcf : fromBottom ce.ctrlStack n = some cf := by rw [h.top, ← h.depth, fromBottom_cons_length]
  obtain ⟨g0, hg0, hk⟩ := hx.above_kept h.path hfr (lt_length_of_fromBottom hcf)
  obtain rfl : g0 = cf := Option.some.inj (hg0.symm.trans hcf)
  have hft := (hx.inv.wf.types fr (mem_of_fromBottom hfr)).eq_of_ftype
    (hr.inv.wf.types g0 (mem_of_fromBottom hcf)) hk.ftype
  exact ⟨hcf, hk, hft.1⟩

/-- Where a false `if` arrives: behind the `else` with the operands it has, or behind the `end`,
where validation assumes the results. -/
theorem Validator.IfTarget.operands (hexits : Exits mod f) {n target : ℕ} {x : ℕ × Ctx} {ct : Ctx}
    {fr : CtrlFrame} (hx : Reach mod f x) (hfr : fromBottom x.2.ctrlStack n = some fr)
    (hlive : ∀ m < n, ∀ g, fromBottom x.2.ctrlStack m = some g → g.unreachable = false)
    (h : IfTarget mod f n x target ct) :
    (∀ g ∈ ct.ctrlStack, g.unreachable = false) ∧
      (ct.valStack = fr.startTypes.reverse ++ below fr.height x.2.valStack ∨
        ct.valStack = fr.endTypes.reverse ++ below fr.height x.2.valStack ∧
          ∃ e ce imm cf, Reach mod f (e, ce) ∧ fetch mod f.code e = .ok (.end_, imm, imm) ∧
            cf ∈ ce.ctrlStack.head? ∧ cf.type = .if_ ∧ cf.startTypes = fr.startTypes ∧
            cf.endTypes = fr.endTypes) := by
  cases h with
  | @exit e _ ce _ cf rest ht hex =>
    obtain ⟨hl, -, hst, hen, hv⟩ := hex.operands hexits hx hfr hlive
    exact ⟨hl, .inr ⟨hv, e, ce, target, cf, hex.reach hx, hex.fetch, head?_mem hex.top, ht, hst, hen⟩⟩
  | @else_ e _ ce _ cf rest ht hel =>
    have hr : Reach mod f (e, ce) := hx.trans (Run.of_within hel.path)
    have htop : cf ∈ ce.ctrlStack.head? := head?_mem hel.top
    obtain ⟨hcf, -, hstart⟩ := hel.kept hx hfr
    have hheight := hexits.height_eq hx hel.path hfr hcf
    obtain ⟨g, rest', -, -, -, -, -, -, -, hv⟩ :=
      onElse_exact hr.inv.wf hel.onElse htop (hexits.at_else hr hel.fetch htop)
    refine ⟨hel.live hx hfr hlive, .inl ?_⟩
    rw [hv, hheight, hstart]
    congr 1
    exact hx.above_below hel.path hfr le_rfl

section Step

variable {typed : V → TypeId → Prop} {G : TypeId → Prop} {c c' : Ctx} {stack : List V}

theorem OperandsAt.replace (h : OperandsAt typed G c stack) (c' : Ctx) {new : List V} {us : List TypeId} {k : ℕ}
    (hnew : List.Forall₂ typed new us) (hgood : ∀ t ∈ us, G t)
    (hlive : ∀ fr ∈ c'.ctrlStack, fr.unreachable = false) (hv : c'.valStack = us ++ c.valStack.drop k) :
    OperandsAt typed G c' (new ++ stack.drop k) where
  live := hlive
  typed := by
    rw [hv]
    exact List.rel_append hnew (List.forall₂_drop k h.typed)
  good := by
    rw [hv, List.forall_mem_append]
    exact ⟨hgood, fun t ht => h.good t (List.mem_of_mem_drop ht)⟩

/-- An operand is popped. -/
theorem OperandsAt.pop (h : OperandsAt typed G c stack) {k : ℕ} {t : TypeId} (hp : Popped c k [t]) :
    ∃ v rest, stack = v :: rest ∧ k = 1 ∧ OperandsAt typed G { c with valStack := c.valStack.drop k } rest := by
  obtain ⟨rfl, hts, hle⟩ := h.popped hp
  have hlen := h.typed.length_eq
  cases hs : stack with
  | nil =>
    rw [hs] at hlen
    simp only [List.length_nil, List.length_singleton] at hlen hle
    omega
  | cons v rest =>
    refine ⟨v, rest, rfl, rfl, h.live, ?_, fun t ht => h.good t (List.mem_of_mem_drop ht)⟩
    have hd := List.forall₂_drop 1 h.typed
    rw [hs] at hd
    exact hd

/-- The frame of a `block`, `loop` or `if`, and the operands it starts with. -/
theorem onBlock_frame {o : WasmOpcode} {imm : Stream} {ty : FuncType}
    (h : onBlock o imm ty c = .ok c') :
    ∃ fr, c'.ctrlStack = fr :: c.ctrlStack ∧ fr.type = blocktypeOf o ∧ fr.unreachable = false ∧
      c'.valStack = fr.startTypes.reverse ++ below fr.height c'.valStack := by
  obtain ⟨ps, rs, k, ts, -, -, -, hp, hc'⟩ := onBlock_ok h
  refine ⟨blockFrame o imm.p ty ps rs (c.valStack.length - k) c.jt.length,
    by rw [hc', pushVals_ctrlStack], rfl, rfl, ?_⟩
  have hv : c'.valStack = ps.reverse ++ c.valStack.drop k := by rw [hc', pushVals_valStack]
  rw [hv]
  simp only [blockFrame, newFrame]
  congr 1
  have hlen : (c.valStack.drop k).length = c.valStack.length - k := List.length_drop
  rw [below_append _ _ hlen.ge, ← hlen, below_self]

theorem OperandsAt.block (hT : Typing mod f typed G) (h : OperandsAt typed G c stack) {o : WasmOpcode}
    {imm : Stream} {ty : FuncType} {q : ℕ} (ho : o ≠ .if_) (hr : Reach mod f (q, c'))
    (hcb : onBlock o imm ty c = .ok c') : OperandsAt typed G c' stack := by
  obtain ⟨ps, rs, k, ts, -, -, hm, hp, hc'⟩ := onBlock_ok hcb
  rw [blockOperands, if_neg ho] at hm
  have hcs : c'.ctrlStack = blockFrame o imm.p ty ps rs (c.valStack.length - k) c.jt.length :: c.ctrlStack := by
    rw [hc', pushVals_ctrlStack]
  have hps : ∀ t ∈ ps, G t := (hT.frames _ _ hr (by rw [hcs]; exact List.mem_cons_self)).1
  have hps' : ∀ t ∈ ps.reverse, G t := fun t ht => hps t (List.mem_reverse.mp ht)
  have htop := (h.top hT hp hm hps').2
  have := h.replace c' htop hps' (by rw [hcs, List.forall_mem_cons]; exact ⟨rfl, h.live⟩)
    (by rw [hc', pushVals_valStack])
  rwa [List.take_append_drop] at this

theorem OperandsAt.if_ (hT : Typing mod f typed G) (h : OperandsAt typed G c stack) {imm : Stream}
    {ty : FuncType} {q : ℕ} (hr : Reach mod f (q, c')) (hcb : onBlock .if_ imm ty c = .ok c') :
    ∃ v rest, stack = v :: rest ∧ OperandsAt typed G c' rest := by
  obtain ⟨ps, rs, k, ts, -, -, hm, hp, hc'⟩ := onBlock_ok hcb
  rw [blockOperands, if_pos rfl] at hm
  have hcs : c'.ctrlStack = blockFrame .if_ imm.p ty ps rs (c.valStack.length - k) c.jt.length :: c.ctrlStack := by
    rw [hc', pushVals_ctrlStack]
  have hps : ∀ t ∈ ps, G t := (hT.frames _ _ hr (by rw [hcs]; exact List.mem_cons_self)).1
  have hps' : ∀ t ∈ ps.reverse, G t := fun t ht => hps t (List.mem_reverse.mp ht)
  obtain ⟨hk, hts, hle⟩ := h.popped hp
  have htyped := List.forall₂_take k h.typed
  rw [← hts] at htyped
  cases hm with
  | @cons t _ ts' _ ht hm =>
    have hlen := h.typed.length_eq
    rw [List.length_cons] at hk
    obtain ⟨v, rest, rfl⟩ : ∃ v rest, stack = v :: rest := by
      cases stack with
      | nil => simp only [List.length_nil] at hlen; omega
      | cons v rest => exact ⟨v, rest, rfl⟩
    rw [hk, List.take_succ_cons, List.forall₂_cons] at htyped
    have hgood : ∀ t ∈ ts', G t := by
      intro t' ht'
      refine h.good t' (List.mem_of_mem_take (i := k) ?_)
      rw [← hts]
      exact List.mem_cons_of_mem _ ht'
    have htop := hT.conv_all htyped.2 hgood hps' hm
    have hrep := h.replace c' htop hps' (by rw [hcs, List.forall_mem_cons]; exact ⟨rfl, h.live⟩)
      (by rw [hc', pushVals_valStack])
    rw [hk, List.drop_succ_cons, List.take_append_drop] at hrep
    exact ⟨v, rest, rfl, hrep⟩

end Step

/-! ### Branches -/

/-- The last `end` with the results on the stack, where a branch to the label of the function goes. -/
structure AtLast (typed : V → TypeId → Prop) (mod : Module) (f : Func) (a : Act V) : Prop where
  pc : ∃ e imm, a.regs.pc = (e : ℕ) ∧ fetch mod f.code e = .ok (.end_, imm, f.code.length)
  results : ∃ rs, parseTypes f.fnType.resultCount f.fnType.results = .ok rs ∧ List.Forall₂ typed a.stack rs.reverse

/-- The interpreter is in step with validation, operands included. -/
def Lands (typed : V → TypeId → Prop) (G : TypeId → Prop) (mod : Module) (f : Func) (jt : List JumpTable)
    (a : Act V) : Prop :=
  (∃ p c, Synced mod f jt p c a.regs ∧ OperandsAt typed G c a.stack) ∨ AtLast typed mod f a

/-- What `handle_br` leaves: the operands of the label on those below the frame. -/
theorem unwindStack_label {fr : CtrlFrame} {tbl : JumpTable} {size arity : ℕ} {s : List V}
    (hslot : LabelSlot size arity fr tbl) (ha : arity = fr.labelTypes.length)
    (hlt : fr.labelTypes.length < 2 ^ 16) (hs : s.length = size) (hsize : size < 2 ^ 32)
    (hle : fr.labelTypes.length + fr.height ≤ size) :
    unwindStack tbl s = .ok (s.take fr.labelTypes.length ++ below fr.height s) := by
  have harity : tbl.arity = fr.labelTypes.length := by
    rw [hslot.arity]
    exact Nat.mod_eq_of_lt hlt
  have hoff : tbl.stackOffset = size - fr.labelTypes.length - fr.height := by
    rw [hslot.stackOffset, ha]
    omega
  have hbelow : s.drop (fr.labelTypes.length + (size - fr.labelTypes.length - fr.height)) = below fr.height s := by
    unfold below
    congr 1
    omega
  unfold unwindStack
  rw [hoff, harity]
  by_cases h0 : size - fr.labelTypes.length - fr.height = 0
  · rw [if_pos h0]
    rw [h0, Nat.add_zero] at hbelow
    rw [← hbelow, List.take_append_drop]
  · rw [if_neg h0, if_neg (by omega), hbelow]

namespace Validator

/-- The `end` where a branch to the label of the function arrives. -/
theorem BranchTarget.last (hb : Bracketed mod f) {x : ℕ × Ctx} {fr : CtrlFrame} {target : ℕ} {ct : Ctx}
    (hx : Reach mod f x) (h : BranchTarget mod f 0 x fr target ct) (ht : fr.type = .func) :
    fetch mod f.code target = .ok (.end_, f.code.length, f.code.length) := by
  cases h with
  | loop hl => rw [ht] at hl; cases hl
  | exit _ hl => exact absurd ht hl
  | func _ _ hex =>
    have hend := hex.last hb hx
    have hfetch := hex.fetch
    rwa [hend] at hfetch

/-- The frame of a label, before and behind the branch. -/
theorem Step.label_kept {p q l : ℕ} {c c' : Ctx} {fr fr' : CtrlFrame} (hp : Reach mod f (p, c))
    (hstep : Step mod f (p, c) (q, c')) (hfr : c.ctrlStack[l]? = some fr)
    (hfr' : fromBottom c'.ctrlStack (c.ctrlStack.length - 1 - l) = some fr') (ht : fr'.type = fr.type) :
    fr'.height = fr.height ∧ fr'.labelTypes = fr.labelTypes := by
  have hfb := fromBottom_of_getElem? hfr
  obtain ⟨P, heff⟩ := hp.effect hstep
  obtain ⟨g, hg, hkept⟩ := heff.kept hfb (lt_length_of_fromBottom hfr')
  obtain rfl : g = fr' := Option.some.inj (hg.symm.trans hfr')
  have hft := (hp.inv.wf.types fr (mem_of_fromBottom hfb)).eq_of_ftype
    ((hp.tail hstep).inv.wf.types g (mem_of_fromBottom hfr')) hkept.ftype
  cases hkept with
  | same _ _ hh => exact ⟨hh, by rw [CtrlFrame.labelTypes, CtrlFrame.labelTypes, ht, hft.1, hft.2]⟩
  | else_ h1 h2 => rw [h2, h1] at ht; cases ht

/-- The frames around a label are as reachable behind the branch as before. -/
theorem Step.live_around {p q n : ℕ} {c c' : Ctx} (hp : Reach mod f (p, c)) (hstep : Step mod f (p, c) (q, c'))
    (hn : n < c.ctrlStack.length) (hlive : ∀ fr ∈ c.ctrlStack, fr.unreachable = false) :
    ∀ m < n, ∀ g, fromBottom c'.ctrlStack m = some g → g.unreachable = false := by
  intro m hm g hg
  obtain ⟨g0, hg0⟩ := fromBottom_lt (hm.trans hn)
  have hpath : ReflTransGen (Above mod f n) (p, c) (q, c') := .single ⟨hn, hstep⟩
  obtain ⟨ks, hks⟩ := hp.above_grow hpath hm hg0
  obtain rfl := Option.some.inj (hks.symm.trans hg)
  exact hlive g0 (mem_of_fromBottom hg0)

end Validator

section Branch

variable {typed : V → TypeId → Prop} {G : TypeId → Prop}

/-- A branch to the label of frame `fr`, from operands `s` in context `c1` (the condition popped). -/
theorem OperandsAt.branch (h : Sound mod f cE) (hfits : Fits mod f) (hexits : Exits mod f)
    (hT : Typing mod f typed G) {p q l k0 size arity target : ℕ} {c c' ct : Ctx} {ts0 : List TypeId}
    {fr fr' : CtrlFrame} {tbl : JumpTable} {s : List V} (hp : Reach mod f (p, c))
    (hstep : Step mod f (p, c) (q, c')) (hp0 : Popped c k0 ts0)
    (hs : OperandsAt typed G { c with valStack := c.valStack.drop k0 } s) (hfr : c.ctrlStack[l]? = some fr)
    (hlab : LabelPopped { c with valStack := c.valStack.drop k0 } fr) (hslot : LabelSlot size arity fr tbl)
    (hsize : size = (c.valStack.drop k0).length) (ha : arity = fr.labelTypes.length)
    (hfr' : fromBottom c'.ctrlStack (c.ctrlStack.length - 1 - l) = some fr') (ht : fr'.type = fr.type)
    (hbt : BranchTarget mod f (c.ctrlStack.length - 1 - l) (q, c') fr' target ct)
    (harr : Arrives mod f (linkJumpTable cE.jt) tbl target ct) :
    ∃ s', unwindStack tbl s = .ok s' ∧ s' = s.take fr.labelTypes.length ++ below fr.height s ∧
      fr.labelTypes.length + fr.height ≤ s.length ∧
      Lands typed G mod f (linkJumpTable cE.jt) ⟨⟨tbl.pc + tbl.targetOffset, tbl.nextIdx⟩, s'⟩ ∧
      (fr.type ≠ .func → ct.valStack.length = s'.length) := by
  have hr := hp.tail hstep
  have hfb := fromBottom_of_getElem? hfr
  have hn := lt_length_of_fromBottom hfb
  have hwf := hp.inv.wf
  obtain ⟨top, htop⟩ : ∃ top, top ∈ c.ctrlStack.head? := by
    cases hc : c.ctrlStack with
    | nil => rw [hc] at hn; simp at hn
    | cons a _ => exact ⟨a, rfl⟩
  have hheight := hwf.height_le_top hfb htop
  have hbelow := (hp0.below htop (hwf.top top htop) hheight []).1
  rw [List.nil_append] at hbelow
  obtain ⟨k, ts, hm, hpk⟩ := hlab
  have hmem : fr ∈ c.ctrlStack := mem_of_fromBottom hfb
  have hlabG := hT.label hp hmem
  obtain ⟨hk, htyped⟩ := hs.top hT hpk hm hlabG
  rw [List.length_reverse] at hk
  have hwf1 : Wf { c with valStack := c.valStack.drop k0 } := hwf.pop hp0
  have habove := hpk.above top htop (hwf1.top top htop)
  simp only at habove
  have hslen : s.length = size := by
    have := hs.typed.length_eq
    simp only at this
    omega
  have hsz : size < 2 ^ 32 := by
    have := hfits.height _ hp
    rw [hsize, List.length_drop]
    simp only at this
    omega
  have hle : fr.labelTypes.length + fr.height ≤ size := by omega
  have hunw := unwindStack_label hslot ha (hfits.arity _ _ hp hmem) hslen hsz hle
  refine ⟨_, hunw, rfl, by omega, ?_⟩
  have hsame := hstep.label_kept hp hfr hfr' ht
  have hpath : ReflTransGen (Above mod f (c.ctrlStack.length - 1 - l)) (p, c) (q, c') := .single ⟨hn, hstep⟩
  have hbase : below fr.height c'.valStack = below fr.height (c.valStack.drop k0) :=
    (hp.above_below hpath hfb le_rfl).trans hbelow.symm
  have hall : List.Forall₂ typed (s.take fr.labelTypes.length ++ below fr.height s)
      (fr.labelTypes.reverse ++ below fr.height (c.valStack.drop k0)) := by
    rw [← hk] at htyped
    exact forall₂_take_below htyped hs.typed
  by_cases hfunc : fr.type = .func
  · refine ⟨.inr ⟨?_, ?_⟩, fun hne => absurd hfunc hne⟩
    · have hn0 := (h.bracketed.func_iff hp hfb).mp hfunc
      rw [hn0] at hbt
      exact ⟨target, f.code.length, harr.offset, hbt.last h.bracketed hr (ht.trans hfunc)⟩
    · obtain ⟨g0, hg0, -, hftype, hzero⟩ := hp.bottom (fun p' c1 hr' hlt =>
        h.bracketed.inside p' c1 hr' (by have := hstep.lt; simp only at this hlt; omega))
        (List.ne_nil_of_length_pos (by simp only; omega))
      have hn0 := (h.bracketed.func_iff hp hfb).mp hfunc
      rw [hn0] at hfb
      obtain rfl : g0 = fr := Option.some.inj (hg0.symm.trans hfb)
      have hend := (hwf.types g0 hmem).2
      rw [hftype] at hend
      refine ⟨g0.endTypes, hend, ?_⟩
      rw [hzero, CtrlFrame.labelTypes, if_neg (by rw [hfunc]; decide)] at hall
      have h0 : ∀ {α : Type} (xs : List α), below 0 xs = [] := fun xs => by simp [below]
      rw [h0, h0, List.append_nil, List.append_nil] at hall
      rw [hzero, h0, List.append_nil, CtrlFrame.labelTypes, if_neg (by rw [hfunc]; decide)]
      exact hall
  · have hlive' := hstep.live_around hp hn hs.live
    obtain ⟨hlive, hval⟩ := hbt.operands hexits hr hfr' (by rw [ht]; exact hfunc) hlive'
    simp only at hval
    rw [hsame.1, hsame.2, hbase] at hval
    refine ⟨.inl ⟨target, ct, harr.synced, hlive, by rw [hval]; exact hall, ?_⟩, fun _ => ?_⟩
    · rw [hval, List.forall_mem_append]
      exact ⟨hlabG, fun t ht' => hs.good t (List.mem_of_mem_drop ht')⟩
    · rw [hval]
      exact hall.length_eq.symm

end Branch

/-! ### The step -/

/-- How a pass of the loop ends in a function that is in step with validation. -/
inductive Passes (typed : V → TypeId → Prop) (G : TypeId → Prop) (mod : Module) (f : Func)
    (jt : List JumpTable) (a : Act V) : Outcome V → Prop
  | plain {p c i imm q c' r} (hs : Synced mod f jt p c a.regs) (hops : OperandsAt typed G c a.stack)
      (hf : fetch mod f.code p = .ok (i, imm, q)) (hi : i.isControl = false)
      (hcb : onInstr mod i ⟨f.code, imm⟩ c = .ok c') (hs' : Synced mod f jt q c' r) :
      Passes typed G mod f jt a (.plain i.erase ⟨r, a.stack⟩)
  | next {a'} (h : Lands typed G mod f jt a') : Passes typed G mod f jt a (.next a')
  | finish {stack rs} (hrs : parseTypes f.fnType.resultCount f.fnType.results = .ok rs)
      (hle : rs.length ≤ stack.length) (h : List.Forall₂ typed (stack.take rs.length) rs.reverse) :
      Passes typed G mod f jt a (.finish stack)
  | trap : Passes typed G mod f jt a .trap

section Step

variable {typed : V → TypeId → Prop} {G : TypeId → Prop} {cond : V → ℕ} {f' : Func} {a : Act V}

theorem popOperand_false (cond : V → ℕ) (s : List V) : popOperand cond false s = .ok (0, s) := rfl

theorem popOperand_true (cond : V → ℕ) (v : V) (s : List V) :
    popOperand cond true (v :: s) = .ok (cond v, s) := rfl

/-- The frame of the function, at the bottom of the frames. -/
theorem Validator.Sound.bottom (h : Sound mod f cE) {p : ℕ} {c : Ctx} (hr : Reach mod f (p, c))
    (hlt : p < f.code.length) :
    ∃ fr, fromBottom c.ctrlStack 0 = some fr ∧ fr.type = .func ∧
      parseTypes f.fnType.resultCount f.fnType.results = .ok fr.endTypes := by
  have hne := h.bracketed.inside p c hr hlt
  obtain ⟨fr, hfr, ht, hft, -⟩ := hr.bottom
    (fun p' c' hr' hlt' => h.bracketed.inside p' c' hr' (by simp only at hlt'; omega)) hne
  have hend := (hr.inv.wf.types fr (mem_of_fromBottom hfr)).2
  rw [hft] at hend
  exact ⟨fr, hfr, ht, hend⟩

/-- The function is left with its results on top of the stack. -/
theorem OperandsAt.finish (hT : Typing mod f typed G) {c : Ctx} {stack : List V} {p : ℕ} {fr : CtrlFrame}
    {rs : List TypeId} (h : OperandsAt typed G c stack) (hr : Reach mod f (p, c)) (hmem : fr ∈ c.ctrlStack)
    (hrs : fr.endTypes = rs) {k : ℕ} {ts : List TypeId} (hp : Popped c k ts)
    (hm : List.Forall₂ Matches ts fr.endTypes.reverse) :
    rs.length ≤ stack.length ∧ List.Forall₂ typed (stack.take rs.length) rs.reverse := by
  subst hrs
  have hG : ∀ t ∈ fr.endTypes.reverse, G t := fun t ht => (hT.frames _ _ hr hmem).2 t (List.mem_reverse.mp ht)
  obtain ⟨hk, htop⟩ := h.top hT hp hm hG
  obtain ⟨-, -, hle⟩ := h.popped hp
  rw [List.length_reverse] at hk
  have hlen := h.typed.length_eq
  rw [hk]
  exact ⟨by omega, htop⟩

/-- At the last `end` the function is left. -/
theorem AtLast.step (hcode : f'.code = f.code) (h : AtLast typed mod f a) :
    ∃ out, actStep f' cond a = .ok out ∧ Passes typed G mod f (linkJumpTable cE.jt) a out := by
  obtain ⟨⟨e, imm, hpc, hf⟩, rs, hrs, htyped⟩ := h
  have hlen : a.stack.length = rs.length := by simpa using htyped.length_eq
  rw [← hcode] at hf
  rw [actStep_of_fetch cond hf hpc]
  refine ⟨.finish a.stack, ?_, .finish hrs hlen.ge ?_⟩
  · rw [show Instr.end_.popsOperand = false from rfl, popOperand_false, ok_bind]
    simp only [flowOf, if_true]
    rfl
  · rw [← hlen, List.take_length]
    exact htyped

end Step

/-- The interpreter takes a branch to the label of frame `fr`: a `br`, a `br_if` whose condition is
not zero, or a `br_table` whose index selects the label. -/
inductive Takes (cond : V → ℕ) (mod : Module) (f : Func) (p : ℕ) (c : Ctx) (stack : List V) : CtrlFrame → Prop
  | br {l imm q fr} (hf : fetch mod f.code p = .ok (.brOrIf .br l, imm, q)) (hfr : c.ctrlStack[l]? = some fr) :
      Takes cond mod f p c stack fr
  | brIf {l imm q fr v rest} (hf : fetch mod f.code p = .ok (.brOrIf .brIf l, imm, q))
      (hs : stack = v :: rest) (hv : cond v ≠ 0) (hfr : c.ctrlStack[l]? = some fr) : Takes cond mod f p c stack fr
  | brTable {imm q n p1 v rest l fr} (hf : fetch mod f.code p = .ok (.brTable, imm, q))
      (hn : Stream.readVu32 ⟨f.code, imm⟩ = .ok (n, ⟨f.code, p1⟩)) (hs : stack = v :: rest)
      (hl : (f.code[p1 + tableIndex f.code imm (cond v)]?).map UInt8.toNat = some l)
      (hfr : c.ctrlStack[l]? = some fr) : Takes cond mod f p c stack fr

/-- The interpreter takes a branch to label number `l`, and has popped the operands on `rest`. -/
inductive Picks (cond : V → ℕ) (mod : Module) (f : Func) (p : ℕ) (stack : List V) (l : ℕ) : List V → Prop
  | br {imm q} (hf : fetch mod f.code p = .ok (.brOrIf .br l, imm, q)) : Picks cond mod f p stack l stack
  | brIf {imm q v rest} (hf : fetch mod f.code p = .ok (.brOrIf .brIf l, imm, q)) (hs : stack = v :: rest)
      (hv : cond v ≠ 0) : Picks cond mod f p stack l rest
  | brTable {imm q n p1 v rest} (hf : fetch mod f.code p = .ok (.brTable, imm, q))
      (hn : Stream.readVu32 ⟨f.code, imm⟩ = .ok (n, ⟨f.code, p1⟩)) (hs : stack = v :: rest)
      (hl : (f.code[p1 + tableIndex f.code imm (cond v)]?).map UInt8.toNat = some l) : Picks cond mod f p stack l rest

theorem Takes.picks {cond : V → ℕ} {p : ℕ} {c : Ctx} {stack : List V} {fr : CtrlFrame}
    (h : Takes cond mod f p c stack fr) : ∃ l rest, Picks cond mod f p stack l rest ∧ c.ctrlStack[l]? = some fr := by
  cases h with
  | br hf hfr => exact ⟨_, _, .br hf, hfr⟩
  | brIf hf hs hv hfr => exact ⟨_, _, .brIf hf hs hv, hfr⟩
  | brTable hf hn hs hl hfr => exact ⟨_, _, .brTable hf hn hs hl, hfr⟩

/-- A branch from `p` to label number `l`, that of frame `fr`, has arrived at `(target, ct)`; `rest` are the operands
without the condition or index. -/
structure Branched (mod : Module) (f : Func) (p : ℕ) (c : Ctx) (l : ℕ) (fr : CtrlFrame) (rest : List V) (a' : Act V)
    (target : ℕ) (ct : Ctx) : Prop where
  stack : a'.stack = rest.take fr.labelTypes.length ++ below fr.height rest
  enough : fr.labelTypes.length + fr.height ≤ rest.length
  pc : a'.regs.pc = (target : ℕ)
  reach : Reach mod f (target, ct)
  height : fr.type ≠ .func → ct.valStack.length = a'.stack.length
  target : ∃ q c' fr', Step mod f (p, c) (q, c') ∧
    fromBottom c'.ctrlStack (c.ctrlStack.length - 1 - l) = some fr' ∧ fr'.type = fr.type ∧
    BranchTarget mod f (c.ctrlStack.length - 1 - l) (q, c') fr' target ct

/-- An accepted function whose jump table and operands can be trusted. -/
structure Trusted (typed : V → TypeId → Prop) (G : TypeId → Prop) (mod : Module) (f : Func) (cE : Ctx) : Prop where
  sound : Sound mod f cE
  fits : Fits mod f
  exits : Exits mod f
  typing : Typing mod f typed G
  ifs : ∀ p c fr, OneArmed mod f p c fr → ∀ vs, List.Forall₂ typed vs fr.startTypes.reverse →
    List.Forall₂ typed vs fr.endTypes.reverse

section Step

variable {typed : V → TypeId → Prop} {G : TypeId → Prop} (cond : V → ℕ) {f' : Func} {a : Act V}
  {p imm q : ℕ} {c c' : Ctx}

/-- The interpreter at a synced place, the code and table of the validated function filled in. -/
theorem Synced.actStep_eq {jt : List JumpTable} {i : Instr} (hcode : f'.code = f.code) (hjt : f'.jt = jt)
    (hs : Synced mod f jt p c a.regs) (hf : fetch mod f.code p = .ok (i, imm, q)) :
    actStep f' cond a = (do
      let (v, stack) ← popOperand cond i.popsOperand a.stack
      followStack jt a.regs.nextJtIdx stack (flowOf f.code i imm q a.regs.nextJtIdx v)) := by
  rw [← hcode] at hf
  rw [actStep_of_fetch cond hf hs.pc, hcode, hjt]

/-- An instruction that moves on to the next one without operands of its own. -/
theorem Trusted.next {v : ℕ} {s : List V} {idx : ℕ} {jt : List JumpTable}
    (hs' : Synced mod f jt q c' ⟨q, idx⟩) (hops : OperandsAt typed G c' s) :
    ∃ out, followStack jt v s (.next q idx) = .ok out ∧ Passes typed G mod f jt a out :=
  ⟨_, rfl, .next (.inl ⟨q, c', hs', hops⟩)⟩

theorem followStack_jump {jt : List JumpTable} {k idx pc : ℕ} {s s' : List V} {tbl : JumpTable} {unwind : Bool}
    (hslot : jt[k]? = some tbl) (hpc : tbl.pc = pc)
    (hu : (if unwind then unwindStack tbl s else .ok s) = (.ok s' : R (List V))) :
    followStack jt idx s (.jump pc k unwind) = .ok (.next ⟨⟨tbl.pc + tbl.targetOffset, tbl.nextIdx⟩, s'⟩) := by
  simp only [followStack, slotAt, hslot, ok_bind, hpc]
  cases unwind with
  | true =>
    simp only [if_true] at hu ⊢
    rw [hu]
    rfl
  | false =>
    cases hu
    rfl

variable (hcode : f'.code = f.code) (hjt : f'.jt = linkJumpTable cE.jt)
include hcode hjt

theorem Trusted.block_step (h : Trusted typed G mod f cE) {o : WasmOpcode} {ty : FuncType}
    (hs : Synced mod f (linkJumpTable cE.jt) p c a.regs) (hops : OperandsAt typed G c a.stack)
    (hf : fetch mod f.code p = .ok (.block o ty, imm, q))
    (hcb : onInstr mod (.block o ty) ⟨f.code, imm⟩ c = .ok c') :
    ∃ out, actStep f' cond a = .ok out ∧ Passes typed G mod f (linkJumpTable cE.jt) a out := by
  have hr := hs.reach.tail (step_iff.mpr ⟨_, imm, hf, hcb⟩)
  rw [hs.actStep_eq cond hcode hjt hf]
  by_cases ho : o = .if_
  · subst ho
    have hblock : onBlock .if_ ⟨f.code, imm⟩ ty c = .ok c' := hcb
    obtain ⟨v, rest, hst, hops'⟩ := hops.if_ h.typing hr hblock
    rw [hst, show (Instr.block .if_ ty).popsOperand = true from rfl, popOperand_true, ok_bind]
    by_cases hv : cond v = 0
    · obtain ⟨tbl, target, ct, hj, hif⟩ := h.sound.if_jump hr hf hcb
      obtain ⟨fr, hcs, htype, -, hval⟩ := onBlock_frame hblock
      rw [← hs.slot h.sound hf hcb (by simp [slotsOf])] at hj
      have hfr : fromBottom c'.ctrlStack c.ctrlStack.length = some fr := by rw [hcs, fromBottom_cons_length]
      have hlive : ∀ m < c.ctrlStack.length, ∀ g, fromBottom c'.ctrlStack m = some g → g.unreachable = false :=
        fun m _ g hg => hops'.live g (mem_of_fromBottom hg)
      obtain ⟨hl, hcase⟩ := hif.operands h.exits hr hfr hlive
      have htyped' := hops'.typed
      rw [hval] at htyped'
      simp only [flowOf, if_pos, hv, ne_eq, not_true_eq_false, if_false]
      refine ⟨_, followStack_jump hj.slot hj.pc rfl, .next (.inl ⟨target, ct, hj.arrives.synced, hl, ?_, ?_⟩)⟩
      · rcases hcase with hct | ⟨hct, e, ce, imm', cf, hre, hfe, hcf, hcft, hst', hen⟩
        · rw [hct]
          exact htyped'
        · rw [hct]
          have htop := List.forall₂_take fr.startTypes.reverse.length htyped'
          rw [List.take_left] at htop
          have hbot := List.forall₂_drop fr.startTypes.reverse.length htyped'
          rw [List.drop_left] at hbot
          have hend := h.ifs e ce cf ⟨hre, ⟨imm', imm', hfe⟩, hcf, hcft⟩ _ (by rw [hst']; exact htop)
          rw [hen] at hend
          have hall : List.Forall₂ typed (rest.take fr.startTypes.reverse.length ++
              rest.drop fr.startTypes.reverse.length) (fr.endTypes.reverse ++ below fr.height c'.valStack) :=
            List.rel_append hend hbot
          rwa [List.take_append_drop] at hall
      · have hmem : fr ∈ c'.ctrlStack := by rw [hcs]; exact List.mem_cons_self
        have hG := h.typing.frames _ _ hr hmem
        have hlow : ∀ t ∈ below fr.height c'.valStack, G t :=
          fun t ht => hops'.good t (List.mem_of_mem_drop ht)
        rcases hcase with hct | ⟨hct, -⟩
        · rw [hct, List.forall_mem_append]
          exact ⟨fun t ht => hG.1 t (List.mem_reverse.mp ht), hlow⟩
        · rw [hct, List.forall_mem_append]
          exact ⟨fun t ht => hG.2 t (List.mem_reverse.mp ht), hlow⟩
    · simp only [flowOf, if_pos, hv, ne_eq, not_false_eq_true]
      exact Trusted.next (hs.fall h.sound hf hcb (fun h' => by cases h') (.inr rfl)) hops'
  · rw [show (Instr.block o ty).popsOperand = false from by simp [Instr.popsOperand, ho], popOperand_false, ok_bind]
    simp only [flowOf, if_neg ho]
    exact Trusted.next (hs.fall h.sound hf hcb (fun h' => by cases h') (.inl ⟨rfl, if_neg ho⟩))
      (hops.block h.typing ho hr hcb)

theorem Trusted.else_step (h : Trusted typed G mod f cE)
    (hs : Synced mod f (linkJumpTable cE.jt) p c a.regs) (hops : OperandsAt typed G c a.stack)
    (hf : fetch mod f.code p = .ok (.else_, imm, q)) (hcb : onInstr mod .else_ ⟨f.code, imm⟩ c = .ok c') :
    ∃ out, actStep f' cond a = .ok out ∧ Passes typed G mod f (linkJumpTable cE.jt) a out := by
  have hr := hs.reach.tail (step_iff.mpr ⟨_, imm, hf, hcb⟩)
  obtain ⟨tbl, target, ct, g, rest, hj, hcs, hgt, hbt⟩ := h.sound.else_jump hr hf hcb
  rw [← hs.slot h.sound hf hcb Nat.one_pos] at hj
  obtain ⟨cf, rest0, k, ts, ps, rs, slot, hc, -, hm, hp, -⟩ := onElse_ok hcb
  have htop : cf ∈ c.ctrlStack.head? := head?_mem hc
  have hno := h.exits.at_else hs.reach hf htop
  obtain ⟨g', rest', hc1, hc1', -, hh, -, -, hen, hval⟩ := onElse_exact hs.reach.inv.wf hcb htop hno
  obtain ⟨rfl, rfl⟩ : g' = g ∧ rest' = rest := by
    rw [hcs] at hc1'
    cases hc1'
    exact ⟨rfl, rfl⟩
  have hfr : fromBottom c'.ctrlStack rest'.length = some g' := by rw [hcs, fromBottom_cons_length]
  have hlive : ∀ m < rest'.length, ∀ a, fromBottom c'.ctrlStack m = some a → a.unreachable = false := by
    intro m hm' a ha
    rw [hcs, fromBottom_cons_lt hm'] at ha
    exact hops.live a (by rw [hc1]; exact List.mem_cons_of_mem _ (mem_of_fromBottom ha))
  obtain ⟨hl, hct⟩ := hbt.operands h.exits hr hfr (by rw [hgt]; decide) hlive
  have hmem : cf ∈ c.ctrlStack := List.mem_of_mem_head? htop
  have hG : ∀ t ∈ cf.endTypes.reverse, G t :=
    fun t ht => (h.typing.frames _ _ hs.reach hmem).2 t (List.mem_reverse.mp ht)
  obtain ⟨hk, htyped⟩ := hops.top h.typing hp hm hG
  have hlen := (exact_iff hs.reach.inv.wf htop hm hp).mpr hno
  -- the operands below the frame are those of the then branch
  have hbase : below g'.height c'.valStack = c.valStack.drop k := by
    rw [hval, hh, below_append _ _ (by rw [length_below (hs.reach.inv.wf.top cf htop)]),
      below_below le_rfl (hs.reach.inv.wf.top cf htop)]
    obtain ⟨-, -, hle⟩ := hops.popped hp
    rw [drop_eq_below hle, ← hlen, List.length_drop]
  simp only at hct
  rw [CtrlFrame.labelTypes, if_neg (by rw [hgt]; decide), hen, hbase] at hct
  rw [hs.actStep_eq cond hcode hjt hf, show Instr.else_.popsOperand = false from rfl, popOperand_false, ok_bind]
  refine ⟨_, followStack_jump hj.slot hj.pc rfl, .next (.inl ⟨target, ct, hj.arrives.synced, ?_⟩)⟩
  have := hops.replace ct htyped hG hl hct
  rwa [List.take_append_drop] at this

theorem Trusted.end_step (h : Trusted typed G mod f cE)
    (hs : Synced mod f (linkJumpTable cE.jt) p c a.regs) (hops : OperandsAt typed G c a.stack)
    (hf : fetch mod f.code p = .ok (.end_, imm, q)) (hcb : onInstr mod .end_ ⟨f.code, imm⟩ c = .ok c') :
    ∃ out, actStep f' cond a = .ok out ∧ Passes typed G mod f (linkJumpTable cE.jt) a out := by
  have hr := hs.reach.tail (step_iff.mpr ⟨_, imm, hf, hcb⟩)
  obtain ⟨cf, rest, k, ts, hc, hm, hp, hc'⟩ := onEnd_ok hcb
  have hmem : cf ∈ c.ctrlStack := by rw [hc]; exact List.mem_cons_self
  have hrest : c'.ctrlStack = rest := by rw [hc', pushVals_ctrlStack]
  rw [hs.actStep_eq cond hcode hjt hf, show Instr.end_.popsOperand = false from rfl, popOperand_false, ok_bind]
  by_cases hq : q = f.code.length
  · simp only [flowOf, if_pos hq]
    obtain ⟨fr, hfr, -, hres⟩ := h.sound.bottom hs.reach hs.lt
    have hnil : rest = [] := by
      rw [← hrest]
      rw [hq] at hr
      exact h.sound.bracketed.closed c' hr
    obtain rfl : cf = fr := by
      rw [hc, hnil] at hfr
      exact Option.some.inj hfr
    obtain ⟨hle, htyped⟩ := hops.finish h.typing hs.reach hmem rfl hp hm
    exact ⟨_, rfl, .finish hres hle htyped⟩
  · simp only [flowOf, if_neg hq]
    have hG : ∀ t ∈ cf.endTypes.reverse, G t :=
      fun t ht => (h.typing.frames _ _ hs.reach hmem).2 t (List.mem_reverse.mp ht)
    obtain ⟨hk, htyped⟩ := hops.top h.typing hp hm hG
    have hlive : ∀ fr ∈ c'.ctrlStack, fr.unreachable = false := by
      rw [hrest]
      exact fun fr hfr => hops.live fr (by rw [hc]; exact List.mem_cons_of_mem _ hfr)
    have hops' := hops.replace c' htyped hG hlive (by rw [hc', pushVals_valStack])
    rw [List.take_append_drop] at hops'
    exact Trusted.next (hs.fall h.sound hf hcb (fun _ => hq) (.inl ⟨rfl, rfl⟩)) hops'

theorem Trusted.return_step (h : Trusted typed G mod f cE)
    (hs : Synced mod f (linkJumpTable cE.jt) p c a.regs) (hops : OperandsAt typed G c a.stack)
    (hf : fetch mod f.code p = .ok (.return_, imm, q)) (hcb : onInstr mod .return_ ⟨f.code, imm⟩ c = .ok c') :
    ∃ out, actStep f' cond a = .ok out ∧ Passes typed G mod f (linkJumpTable cE.jt) a out := by
  obtain ⟨fr, k, ts, c2, hlast, hm, hp, -⟩ := onReturn_ok hcb
  obtain ⟨g, hg, hgt, hres⟩ := h.sound.bottom hs.reach hs.lt
  obtain rfl : fr = g := by
    have hb : fromBottom c.ctrlStack 0 = some fr := by
      rw [fromBottom, ← List.head?_eq_getElem?, List.head?_reverse]
      exact hlast
    exact Option.some.inj (hb.symm.trans hg)
  rw [CtrlFrame.labelTypes, if_neg (by rw [hgt]; decide)] at hm
  obtain ⟨hle, htyped⟩ := hops.finish h.typing hs.reach (mem_of_fromBottom hg) rfl hp hm
  rw [hs.actStep_eq cond hcode hjt hf, show Instr.return_.popsOperand = false from rfl, popOperand_false, ok_bind]
  exact ⟨_, rfl, .finish hres hle htyped⟩

/-- A branch that is taken: the condition and the index are not on the stack any more, the
operands of the label are on those below its frame. -/
theorem Trusted.picks_step (h : Trusted typed G mod f cE) {l : ℕ} {fr : CtrlFrame} {rest : List V}
    (hs : Synced mod f (linkJumpTable cE.jt) p c a.regs) (hops : OperandsAt typed G c a.stack)
    (hpick : Picks cond mod f p a.stack l rest) (hfr : c.ctrlStack[l]? = some fr) :
    ∃ a' target ct, actStep f' cond a = .ok (.next a') ∧ Lands typed G mod f (linkJumpTable cE.jt) a' ∧
      Branched mod f p c l fr rest a' target ct := by
  obtain ⟨i, imm, q, c', hf, hcb, hr⟩ := h.sound.exists_step hs.reach hs.lt
  have hstep := step_iff.mpr ⟨i, imm, hf, hcb⟩
  rw [hs.actStep_eq cond hcode hjt hf]
  cases hpick with
  | br hf1 =>
    rw [hf] at hf1
    cases hf1
    obtain ⟨fr1, k0, ts0, tbl, target, ct, fr', hfr1, hm0, hp0, hlab, hj, hslot, hfr', ht, hbt⟩ :=
      h.sound.br_jump hs.reach hr hf hcb
    obtain rfl := Option.some.inj (hfr.symm.trans hfr1)
    rw [← hs.slot h.sound hf hcb Nat.one_pos] at hj
    have harity : u16 fr.labelTypes.length = fr.labelTypes.length :=
      Nat.mod_eq_of_lt (h.fits.arity _ _ hs.reach (List.mem_of_getElem? hfr))
    have hts0 : ts0 = [] := by
      rw [brOperands, if_neg (by decide)] at hm0
      cases hm0
      rfl
    subst hts0
    obtain rfl : k0 = 0 := (hops.popped hp0).1
    have hops0 : OperandsAt typed G { c with valStack := c.valStack.drop 0 } a.stack := hops
    obtain ⟨s', hu, hstack, hle, hlands, hval⟩ :=
      hops0.branch h.sound h.fits h.exits h.typing hs.reach hstep hp0 hfr hlab hslot rfl harity hfr' ht hbt hj.arrives
    rw [show (Instr.brOrIf .br l).popsOperand = false from rfl, popOperand_false, ok_bind]
    simp only [flowOf]
    exact ⟨_, target, ct, followStack_jump hj.slot hj.pc hu, hlands, hstack, hle, hj.arrives.offset, hj.arrives.reach,
      hval, q, c', fr', hstep, hfr', ht, hbt⟩
  | @brIf imm1 q1 v _ hf1 hst hv =>
    rw [hf] at hf1
    cases hf1
    obtain ⟨fr1, k0, ts0, tbl, target, ct, fr', hfr1, hm0, hp0, hlab, hj, hslot, hfr', ht, hbt⟩ :=
      h.sound.br_jump hs.reach hr hf hcb
    obtain rfl := Option.some.inj (hfr.symm.trans hfr1)
    rw [← hs.slot h.sound hf hcb Nat.one_pos] at hj
    have harity : u16 fr.labelTypes.length = fr.labelTypes.length :=
      Nat.mod_eq_of_lt (h.fits.arity _ _ hs.reach (List.mem_of_getElem? hfr))
    obtain ⟨t, rfl⟩ : ∃ t, ts0 = [t] := by
      rw [brOperands, if_pos rfl] at hm0
      exact List.length_eq_one_iff.mp hm0.length_eq
    rw [hst] at hops ⊢
    obtain ⟨v', rest', hst', rfl, hops1⟩ := hops.pop hp0
    obtain ⟨rfl, rfl⟩ := List.cons.inj hst'
    obtain ⟨s', hu, hstack, hle, hlands, hval⟩ :=
      hops1.branch h.sound h.fits h.exits h.typing hs.reach hstep hp0 hfr hlab hslot rfl harity hfr' ht hbt hj.arrives
    rw [show (Instr.brOrIf .brIf l).popsOperand = true from rfl, popOperand_true, ok_bind]
    simp only [flowOf, hv, and_false, if_false]
    exact ⟨_, target, ct, followStack_jump hj.slot hj.pc hu, hlands, hstack, hle, hj.arrives.offset, hj.arrives.reach,
      hval, q, c', fr', hstep, hfr', ht, hbt⟩
  | @brTable imm1 q1 n p1 v _ hf1 hn hst hl =>
    rw [hf] at hf1
    cases hf1
    have htable := tableIndex_le (cond v) hn
    obtain ⟨t, k0, l1, fr1, size, tbl, target, ct, fr', -, hp0, hfr1, hlabel, hj, hslot, hsize, hfr', ht, hbt⟩ :=
      h.sound.brTable_jump hs.reach hr hf hcb hn htable
    obtain rfl : l1 = l := by
      rw [hl] at hlabel
      exact (Option.some.inj hlabel).symm
    obtain rfl := Option.some.inj (hfr.symm.trans hfr1)
    rw [hst] at hops ⊢
    obtain ⟨v', rest', hst', rfl, hops1⟩ := hops.pop hp0
    obtain ⟨rfl, rfl⟩ := List.cons.inj hst'
    have hidx := hs.brTable_idx h.sound (by rw [hj.slot]; simp)
    obtain ⟨hsz, hlab⟩ := hsize fun g hg => hops.live g (List.mem_of_mem_head? hg)
    obtain ⟨s', hu, hstack, hle, hlands, hval⟩ :=
      hops1.branch h.sound h.fits h.exits h.typing hs.reach hstep hp0 hfr hlab hslot hsz rfl hfr' ht hbt hj.arrives
    rw [show Instr.brTable.popsOperand = true from rfl, popOperand_true, ok_bind]
    simp only [flowOf, hidx]
    exact ⟨_, target, ct, followStack_jump hj.slot hj.pc hu, hlands, hstack, hle, hj.arrives.offset, hj.arrives.reach,
      hval, q, c', fr', hstep, hfr', ht, hbt⟩

/-- The operand stack at the target of a branch is as high as validation assumes. -/
theorem Trusted.takes_step (h : Trusted typed G mod f cE) {fr : CtrlFrame}
    (hs : Synced mod f (linkJumpTable cE.jt) p c a.regs) (hops : OperandsAt typed G c a.stack)
    (ht : Takes cond mod f p c a.stack fr) :
    ∃ a' target ct, actStep f' cond a = .ok (.next a') ∧ a'.stack.length = fr.height + fr.labelTypes.length ∧
      Lands typed G mod f (linkJumpTable cE.jt) a' ∧ a'.regs.pc = (target : ℕ) ∧ Reach mod f (target, ct) ∧
      (fr.type ≠ .func → ct.valStack.length = a'.stack.length) := by
  obtain ⟨l, rest, hpick, hfr⟩ := ht.picks
  obtain ⟨a', target, ct, hstep, hlands, hb⟩ := h.picks_step cond hcode hjt hs hops hpick hfr
  refine ⟨a', target, ct, hstep, ?_, hlands, hb.pc, hb.reach, hb.height⟩
  have hle := hb.enough
  rw [hb.stack, List.length_append, List.length_take, length_below (by omega)]
  omega

theorem Trusted.br_step (h : Trusted typed G mod f cE) {o : WasmOpcode} {l : ℕ}
    (hs : Synced mod f (linkJumpTable cE.jt) p c a.regs) (hops : OperandsAt typed G c a.stack)
    (hf : fetch mod f.code p = .ok (.brOrIf o l, imm, q))
    (hcb : onInstr mod (.brOrIf o l) ⟨f.code, imm⟩ c = .ok c') :
    ∃ out, actStep f' cond a = .ok out ∧ Passes typed G mod f (linkJumpTable cE.jt) a out := by
  obtain ⟨fr, k0, ts0, k, ts, c2, hfr, hm0, hp0, hm, hp, hc2, hcb'⟩ := onBrOrIf_ok hcb
  obtain ⟨-, -, hor, -⟩ := fetch_br hf
  rcases hor with rfl | rfl
  · obtain ⟨a', target, ct, hstep, -, hlands, -⟩ := h.takes_step cond hcode hjt hs hops (.br hf hfr)
    exact ⟨_, hstep, .next hlands⟩
  · obtain ⟨t, rfl⟩ : ∃ t, ts0 = [t] := by
      rw [brOperands, if_pos rfl] at hm0
      exact List.length_eq_one_iff.mp hm0.length_eq
    obtain ⟨v, rest, hst, rfl, hops1⟩ := hops.pop hp0
    by_cases hv : cond v = 0
    · rw [hs.actStep_eq cond hcode hjt hf, hst, show (Instr.brOrIf .brIf l).popsOperand = true from rfl,
        popOperand_true, ok_bind]
      simp only [flowOf, hv, and_self, if_true]
      refine Trusted.next (hs.fall h.sound hf hcb (fun h' => by cases h') (.inr rfl)) ?_
      -- not taken: the operands of the label are popped and pushed back
      rw [if_neg (by decide)] at hcb'
      have hc' := (Except.ok.inj hcb').symm
      have hG := h.typing.label hs.reach (List.mem_of_getElem? hfr)
      obtain ⟨-, htyped⟩ := hops1.top h.typing hp hm hG
      have hlive : ∀ g ∈ c'.ctrlStack, g.unreachable = false := by
        rw [hc', pushVals_ctrlStack, hc2, pushSlot_ctrlStack, forall_fromBottom]
        intro m g hg
        obtain ⟨g0, hg0⟩ := fromBottom_lt (n := m) (s := c.ctrlStack) (by simpa using lt_length_of_fromBottom hg)
        obtain ⟨ks, hks⟩ := fromBottom_modify_addPending (l := l) (k := c.jt.length) hg0
        obtain rfl := Option.some.inj (hks.symm.trans hg)
        exact hops.live g0 (mem_of_fromBottom hg0)
      have hops' := hops1.replace c' htyped hG hlive
        (by rw [hc', pushVals_valStack, hc2, pushSlot_valStack])
      rwa [List.take_append_drop] at hops'
    · obtain ⟨a', target, ct, hstep, -, hlands, -⟩ :=
        h.takes_step cond hcode hjt hs hops (.brIf hf hst hv hfr)
      exact ⟨_, hstep, .next hlands⟩

theorem Trusted.brTable_step (h : Trusted typed G mod f cE)
    (hs : Synced mod f (linkJumpTable cE.jt) p c a.regs) (hops : OperandsAt typed G c a.stack)
    (hf : fetch mod f.code p = .ok (.brTable, imm, q)) (hcb : onInstr mod .brTable ⟨f.code, imm⟩ c = .ok c') :
    ∃ out, actStep f' cond a = .ok out ∧ Passes typed G mod f (linkJumpTable cE.jt) a out := by
  have hr := hs.reach.tail (step_iff.mpr ⟨_, imm, hf, hcb⟩)
  obtain ⟨-, n, pc1, hn, -⟩ := fetch_brTable hf
  obtain ⟨t0, k0, -, -, -, -, -, hp0, -⟩ := onBrTable_slots hs.reach.inv hcb
  obtain ⟨v, rest, hst, -, -⟩ := hops.pop hp0
  obtain ⟨t, -, l, fr, -, -, -, -, -, -, -, hfr, hlabel, -⟩ :=
    h.sound.brTable_jump hs.reach hr hf hcb hn (tableIndex_le (cond v) hn)
  obtain ⟨a', target, ct, hstep, -, hlands, -⟩ :=
    h.takes_step cond hcode hjt hs hops (.brTable hf hn hst hlabel hfr)
  exact ⟨_, hstep, .next hlands⟩

theorem Trusted.plain_step (h : Trusted typed G mod f cE) {i : Instr}
    (hs : Synced mod f (linkJumpTable cE.jt) p c a.regs) (hops : OperandsAt typed G c a.stack)
    (hf : fetch mod f.code p = .ok (i, imm, q)) (hcb : onInstr mod i ⟨f.code, imm⟩ c = .ok c')
    (hi : i.isControl = false) :
    ∃ out, actStep f' cond a = .ok out ∧ Passes typed G mod f (linkJumpTable cE.jt) a out := by
  have hpops : i.popsOperand = false := by
    cases i <;> first | rfl | cases hi
  have hflow : flowOf f.code i imm q a.regs.nextJtIdx 0 = .plain i.erase q := by
    cases i <;> first | rfl | cases hi
  have hslots : slotsOf f.code ⟨p, i, imm, q⟩ = 0 := by
    cases i <;> first | rfl | cases hi
  have hend : i = .end_ → q ≠ f.code.length := by
    rintro rfl
    cases hi
  rw [hs.actStep_eq cond hcode hjt hf, hpops, popOperand_false, ok_bind]
  simp only [hflow]
  exact ⟨_, rfl, .plain hs hops hf hi hcb (hs.fall h.sound hf hcb hend (.inl ⟨rfl, hslots⟩))⟩

/-- A function in step with validation stays so, and never leaves its code, table or stack. -/
theorem Lands.step (h : Trusted typed G mod f cE) (ha : Lands typed G mod f (linkJumpTable cE.jt) a) :
    ∃ out, actStep f' cond a = .ok out ∧ Passes typed G mod f (linkJumpTable cE.jt) a out := by
  rcases ha with ⟨p, c, hs, hops⟩ | hlast
  · obtain ⟨i, imm, q, c', hf, hcb, -⟩ := h.sound.exists_step hs.reach hs.lt
    by_cases hi : i.isControl = false
    · exact h.plain_step cond hcode hjt hs hops hf hcb hi
    · cases i with
      | unreachable =>
        rw [hs.actStep_eq cond hcode hjt hf]
        exact ⟨.trap, rfl, .trap⟩
      | block o ty => exact h.block_step cond hcode hjt hs hops hf hcb
      | else_ => exact h.else_step cond hcode hjt hs hops hf hcb
      | end_ => exact h.end_step cond hcode hjt hs hops hf hcb
      | brOrIf o l => exact h.br_step cond hcode hjt hs hops hf hcb
      | brTable => exact h.brTable_step cond hcode hjt hs hops hf hcb
      | return_ => exact h.return_step cond hcode hjt hs hops hf hcb
      | _ => exact absurd rfl hi
  · exact hlast.step hcode

end Step

end Silverfir
