import Silverfir.Heights
import Silverfir.ValueTypes

/-! Runs in which every slot carries the type of its value. The type of a result is the one the
instruction gives it; nothing the interpreter does depends on it. -/
namespace Silverfir

open InPlaceDt Validator ListStack
open Relation (ReflTransGen)

variable {mod : Module} {f f' : Func} {cE : Ctx}

/-- A slot and the type of its value. -/
abbrev Tagged := TypeId × ℕ

def HasTag (v : Tagged) (t : TypeId) : Prop := v.1 = t

/-- The results of the instruction at an offset have its result types. -/
def Tags (mod : Module) (f : Func) : PlainRel Tagged := fun pc _ args results =>
  ∃ p i imm q us, pc = ((p : ℕ) : ℤ) ∧ fetch mod f.code p = .ok (i, imm, q) ∧
    PlainTypes mod (localsOf f) i (args.map Prod.fst) us ∧ results.map Prod.fst = us.reverse

theorem forall₂_hasTag {vs : List Tagged} {ts : List TypeId} :
    List.Forall₂ HasTag vs ts ↔ vs.map Prod.fst = ts := by
  induction vs generalizing ts with
  | nil => cases ts <;> simp
  | cons v vs ih =>
    cases ts with
    | nil => simp
    | cons t ts =>
      rw [List.forall₂_cons, ih, List.map_cons, List.cons.injEq]
      rfl

/-- What the types of the operands rest on, the `if`s without `else` apart. -/
structure TypeSafe (mod : Module) (f : Func) : Prop where
  jumps : JumpSafe mod f
  fits : Fits mod f
  exits : Exits mod f
  names : NamesWasm mod f

/-- Every `if` without `else` has the same parameter and result types. -/
def IfsBalanced (mod : Module) (f : Func) : Prop :=
  ∀ p c fr, OneArmed mod f p c fr → fr.startTypes = fr.endTypes

theorem TypeSafe.typing (h : TypeSafe mod f) : Typing mod f HasTag TypeId.IsWasm where
  frames _ _ hr hfr := h.names.frame hr hfr
  conv _ _ _ ht he hm hv := hv.trans (Matches.eq_of_isWasm hm ht he)

theorem TypeSafe.trusted (h : TypeSafe mod f) (hi : IfsBalanced mod f) (hs : Sound mod f cE) :
    Trusted HasTag TypeId.IsWasm mod f cE where
  sound := hs
  fits := h.fits
  exits := h.exits
  typing := h.typing
  ifs p c fr ho vs hvs := by
    rw [← hi p c fr ho]
    exact hvs

theorem TypeSafe.respects (h : TypeSafe mod f) : Respects HasTag TypeId.IsWasm (Tags mod f) mod f where
  arity hr hf ht hrel := by
    obtain ⟨p', i', imm', q', us', hp, hf', ht', -⟩ := hrel
    obtain rfl : _ = p' := by exact_mod_cast hp
    rw [hf] at hf'
    cases hf'
    have hlen := ht'.counts.1
    rw [List.length_map] at hlen
    rw [hlen, ht.counts.1]
  typed hr hf ht hrel hts hargs := by
    obtain ⟨p', i', imm', q', us', hp, hf', ht', hres⟩ := hrel
    obtain rfl : _ = p' := by exact_mod_cast hp
    rw [hf] at hf'
    cases hf'
    have hlocals := hr.locals_eq
    simp only at hlocals
    rw [hlocals] at ht
    rw [forall₂_hasTag.mp hargs] at ht'
    rw [forall₂_hasTag, hres, ht.unique ht']
    exact ⟨rfl, ht.unique ht' ▸ h.names.plain (h.names.imm hr hf) ht hts⟩

/-- The operand types at an offset are the same in all runs. -/
theorem Lands.tags_eq (h : Trusted HasTag TypeId.IsWasm mod f cE) {a b : Act Tagged}
    (ha : Lands HasTag TypeId.IsWasm mod f (linkJumpTable cE.jt) a)
    (hb : Lands HasTag TypeId.IsWasm mod f (linkJumpTable cE.jt) b) (hpc : a.regs.pc = b.regs.pc) :
    a.stack.map Prod.fst = b.stack.map Prod.fst := by
  -- at the last `end` the operands are the results, however it was reached
  have hlast : ∀ {x : Act Tagged}, Lands HasTag TypeId.IsWasm mod f (linkJumpTable cE.jt) x → ∀ {e imm : ℕ} {rs},
      x.regs.pc = e → fetch mod f.code e = .ok (.end_, imm, f.code.length) →
      parseTypes f.fnType.resultCount f.fnType.results = .ok rs → x.stack.map Prod.fst = rs.reverse := by
    rintro x (⟨p, c, hs, hops⟩ | ⟨-, rs', hrs', htyped⟩) e imm rs hx hf hrs
    · obtain rfl : e = p := by exact_mod_cast hx.symm.trans hs.pc
      obtain ⟨i, imm', q, c', hf', hcb, hr'⟩ := h.sound.exists_step hs.reach hs.lt
      rw [hf] at hf'
      cases hf'
      obtain ⟨cf, rest, k, ts, hc, hm, hp, hc'⟩ := onEnd_ok hcb
      have htop : cf ∈ c.ctrlStack.head? := head?_mem hc
      have hlen := (exact_iff hs.reach.inv.wf htop hm hp).mpr (h.exits.at_end hs.reach hf htop)
      have hmem := List.mem_of_mem_head? htop
      have hnil : rest = [] := by
        have hcs := h.sound.bracketed.closed c' hr'
        rwa [hc', pushVals_ctrlStack] at hcs
      obtain ⟨fr, hfr, -, hres⟩ := h.sound.bottom hs.reach hs.lt
      obtain rfl : cf = fr := by
        rw [hc, hnil] at hfr
        exact Option.some.inj hfr
      have hzero : cf.height = 0 := by
        obtain ⟨g, hg, -, -, hz⟩ := hs.reach.bottom (fun p c1 hr1 hlt =>
          h.sound.bracketed.inside p c1 hr1 (by have := hs.lt; simp only at hlt; omega))
          (by rw [hc]; exact List.cons_ne_nil _ _)
        rw [hc, hnil] at hg
        cases hg
        exact hz
      obtain rfl : rs = cf.endTypes := Except.ok.inj (hrs.symm.trans hres)
      have hG : ∀ t ∈ cf.endTypes.reverse, t.IsWasm :=
        fun t ht => (h.typing.frames _ _ hs.reach hmem).2 t (List.mem_reverse.mp ht)
      obtain ⟨-, htop'⟩ := hops.top h.typing hp hm hG
      have hk : x.stack.take k = x.stack := by
        have hstack := hops.typed.length_eq
        simp only at hlen
        rw [hzero, List.length_drop] at hlen
        exact List.take_of_length_le (by omega)
      rw [hk] at htop'
      exact forall₂_hasTag.mp htop'
    · obtain rfl : rs = rs' := Except.ok.inj (hrs.symm.trans hrs')
      exact forall₂_hasTag.mp htyped
  rcases ha with ⟨p, c, hs, hops⟩ | ⟨⟨e, imm, hpa, hf⟩, rs, hrs, htyped⟩
  · rcases hb with ⟨p', c', hs', hops'⟩ | ⟨⟨e, imm, hpb, hf⟩, rs, hrs, htyped⟩
    · obtain rfl : p = p' := by exact_mod_cast (hs.pc.symm.trans hpc).trans hs'.pc
      obtain rfl := hs.reach.unique hs'.reach
      rw [forall₂_hasTag.mp hops.typed, forall₂_hasTag.mp hops'.typed]
    · rw [forall₂_hasTag.mp htyped]
      exact hlast (.inl ⟨p, c, hs, hops⟩) (hpc.trans hpb) hf hrs
  · rw [forall₂_hasTag.mp htyped]
    exact (hlast hb (hpc.symm.trans hpa) hf hrs).symm

/-- A false `if` goes behind its `else`, or behind its `end` if there is no `else`. It arrives there
with the operands it found, and these are the operands validation assumes exactly when the `if`
has the same parameter and result types. -/
theorem TypeSafe.false_if (h : TypeSafe mod f) (hs : Sound mod f cE) (hcode : f'.code = f.code)
    (hjt : f'.jt = linkJumpTable cE.jt) {cond : Tagged → ℕ} {a : Act Tagged} {p imm q : ℕ} {c : Ctx} {ty : FuncType}
    {v : Tagged} {rest : List Tagged} (hsync : Synced mod f (linkJumpTable cE.jt) p c a.regs)
    (hops : OperandsAt HasTag TypeId.IsWasm c a.stack)
    (hf : fetch mod f.code p = .ok (.block .if_ ty, imm, q)) (hst : a.stack = v :: rest) (hv : cond v = 0) :
    ∃ r, actStep f' cond a = .ok (.next ⟨r, rest⟩) ∧
      ((∃ e ce q', Reach mod f (e, ce) ∧ fetch mod f.code e = .ok (.else_, q', q') ∧ r.pc = (q' : ℕ)) ∨
        ∃ e ce fr ct, OneArmed mod f e ce fr ∧ fr.ftype = ty ∧ r.pc = ((e + 1 : ℕ) : ℤ) ∧ Reach mod f (e + 1, ct) ∧
          (rest.map Prod.fst = ct.valStack ↔ fr.startTypes = fr.endTypes)) := by
  obtain ⟨i, imm', q', c', hf', hcb, hr⟩ := hs.exists_step hsync.reach hsync.lt
  rw [hf] at hf'
  cases hf'
  have hblock : onBlock .if_ ⟨f.code, imm⟩ ty c = .ok c' := hcb
  obtain ⟨tbl, target, ct, hj, hif⟩ := hs.if_jump hr hf hcb
  rw [← hsync.slot hs hf hcb (by simp [slotsOf])] at hj
  refine ⟨⟨tbl.pc + tbl.targetOffset, tbl.nextIdx⟩, ?_, ?_⟩
  · rw [hsync.actStep_eq cond hcode hjt hf, hst, show (Instr.block .if_ ty).popsOperand = true from rfl,
      popOperand_true, ok_bind]
    simp only [flowOf, if_pos, hv, ne_eq, not_true_eq_false, if_false]
    exact followStack_jump hj.slot hj.pc rfl
  · simp only [hj.arrives.offset]
    obtain ⟨fr, hcs, -, -, hval⟩ := onBlock_frame hblock
    obtain ⟨v', rest', hst', hops'⟩ := hops.if_ h.typing hr hblock
    rw [hst] at hst'
    cases hst'
    have hfr : fromBottom c'.ctrlStack c.ctrlStack.length = some fr := by rw [hcs, fromBottom_cons_length]
    cases hif with
    | @else_ e _ ce _ cf rest1 ht hel =>
      exact .inl ⟨e, ce, target, hr.trans (Run.of_within hel.path), hel.fetch, rfl⟩
    | @exit e _ ce _ cf rest1 ht hex =>
      obtain ⟨-, -, hst1, hen1, hv1⟩ :=
        hex.operands h.exits hr hfr fun m _ g hg => hops'.live g (mem_of_fromBottom hg)
      have hftype : fr.ftype = ty := by
        obtain ⟨ps, rs, k, ts, -, -, -, -, hc'⟩ := onBlock_ok hblock
        rw [hc', pushVals_ctrlStack] at hcs
        rw [← (List.cons.inj hcs).1]
        rfl
      refine .inr ⟨e, ce, cf, ct, ⟨hex.reach hr, ⟨_, _, hex.fetch⟩, head?_mem hex.top, ht⟩, ?_, ?_, ?_, ?_⟩
      · rw [← hftype]
        exact (hex.kept hr hfr).ftype
      · rw [← hex.imm_eq]
      · rw [← hex.imm_eq]
        exact hex.reach' hr
      · rw [forall₂_hasTag.mp hops'.typed, hv1, hst1, hen1]
        constructor
        · intro he
          exact List.reverse_injective (List.append_cancel_right (hval.symm.trans he))
        · intro he
          rw [← he]
          exact hval

/-- An `if` without `else`. A false condition leads behind the `end` with the operands of the `if`,
where validation assumes the results: these have the same types exactly when the parameter types
are the result types. Where that holds of every such `if`, height and types of the operands at an
instruction are the same in all runs, whatever the conditions were. -/
theorem if_end_operands (h : validateFunc mod f = .ok f') (hs : TypeSafe mod f) :
    (∀ (cond : Tagged → ℕ) (a : Act Tagged) p c ty imm q v rest, Synced mod f f'.jt p c a.regs →
      OperandsAt HasTag TypeId.IsWasm c a.stack →
      fetch mod f.code p = .ok (.block .if_ ty, imm, q) → a.stack = v :: rest → cond v = 0 →
      ∃ r, actStep f' cond a = .ok (.next ⟨r, rest⟩) ∧
        ((∃ e ce q', Reach mod f (e, ce) ∧ fetch mod f.code e = .ok (.else_, q', q') ∧ r.pc = (q' : ℕ)) ∨
          ∃ e ce fr ct, OneArmed mod f e ce fr ∧ fr.ftype = ty ∧ r.pc = ((e + 1 : ℕ) : ℤ) ∧
            Reach mod f (e + 1, ct) ∧ (rest.map Prod.fst = ct.valStack ↔ fr.startTypes = fr.endTypes))) ∧
    (IfsBalanced mod f → ∀ (cond : Tagged → ℕ) (a b : Act Tagged),
      ReflTransGen (ActStep (Tags mod f) f' cond) Act.start a →
      ReflTransGen (ActStep (Tags mod f) f' cond) Act.start b → a.regs.pc = b.regs.pc →
      a.stack.map Prod.fst = b.stack.map Prod.fst) := by
  obtain ⟨cE, hsound, hcode, hjt⟩ := sound_of_validateFunc h hs.jumps
  constructor
  · intro cond a p c ty imm q v rest hsync hops hf hst hv
    rw [hjt] at hsync
    exact hs.false_if hsound hcode hjt hsync hops hf hst hv
  · intro hi cond a b ha hb hpc
    have htrust := hs.trusted hi hsound
    exact Lands.tags_eq htrust (htrust.run_lands hs.respects hcode hjt ha)
      (htrust.run_lands hs.respects hcode hjt hb) hpc

/-- Whether an `end` at a place that closes an `if` finds the same parameter and result types. -/
def ifCheck (mod : Module) (f : Func) (x : ℕ × Ctx) : Bool :=
  match x.2.ctrlStack, fetch mod f.code x.1 with
  | fr :: _, .ok (.end_, _, _) => fr.type != .if_ || fr.startTypes == fr.endTypes
  | _, _ => true

theorem ifsBalanced_of_check (h : (visits mod f).all (ifCheck mod f) = true) : IfsBalanced mod f := by
  rintro p c fr ⟨hr, ⟨imm, q, hf⟩, htop, ht⟩
  have hc := List.all_eq_true.mp h _ (reach_iff_visits.mp hr)
  obtain ⟨rest, hcs⟩ : ∃ rest, c.ctrlStack = fr :: rest := List.head?_eq_some_iff.mp htop
  simp only [ifCheck, hcs, hf, ht, bne_self_eq_false, Bool.false_or, beq_iff_eq] at hc
  exact hc

/-- `local.get 0; if; nop; end; end` -/
theorem if_end_operands_nop :
    let f : Func :=
      { fnType := { paramCount := 1, params := [0x7f] }, code := [0x20, 0x00, 0x04, 0x40, 0x01, 0x0b, 0x0b] }
    ∃ f', validateFunc {} f = .ok f' ∧ TypeSafe {} f ∧ IfsBalanced {} f ∧
      ∀ a b : Act Tagged, ReflTransGen (ActStep (Tags {} f) f' Prod.snd) Act.start a →
        ReflTransGen (ActStep (Tags {} f) f' Prod.snd) Act.start b → a.regs.pc = b.regs.pc →
        a.stack.map Prod.fst = b.stack.map Prod.fst := by
  intro f
  obtain ⟨f', hf'⟩ : ∃ f', validateFunc {} f = .ok f' := ⟨_, rfl⟩
  have hheight : HeightSafe {} f := heightSafe_of_check (by decide +kernel) (by decide +kernel)
  have hsafe : TypeSafe {} f := ⟨hheight.jumps, hheight.fits, hheight.exits, by decide +kernel⟩
  have hifs : IfsBalanced {} f := ifsBalanced_of_check (by decide +kernel)
  exact ⟨f', hf', hsafe, hifs, (if_end_operands hf' hsafe).2 hifs Prod.snd⟩

/-- `local.get 0; if (result i32); i32.const 7; end; drop; end` is accepted: with a false condition
there is nothing to drop. -/
theorem if_result_without_else :
    let f : Func :=
      { fnType := { paramCount := 1, params := [0x7f] }
        code := [0x20, 0x00, 0x04, 0x7f, 0x41, 0x07, 0x0b, 0x1a, 0x0b] }
    ∃ f', validateFunc {} f = .ok f' ∧ ¬ IfsBalanced {} f ∧
      ∃ a b : Act Tagged, ReflTransGen (ActStep (Tags {} f) f' Prod.snd) Act.start a ∧
        ReflTransGen (ActStep (Tags {} f) f' Prod.snd) Act.start b ∧ a.regs.pc = 7 ∧ b.regs.pc = 7 ∧
        a.stack = [] ∧ b.stack = [(.i32, 7)] := by
  intro f
  obtain ⟨f', hf', h0, h1, h2, h3, h4⟩ : ∃ f', validateFunc {} f = .ok f' ∧
      actStep f' Prod.snd (Act.start : Act Tagged) = .ok (.plain (.localGet 0) ⟨⟨2, 0⟩, []⟩) ∧
      actStep f' Prod.snd (⟨⟨2, 0⟩, [(.i32, 0)]⟩ : Act Tagged) = .ok (.next ⟨⟨7, 65535⟩, []⟩) ∧
      actStep f' Prod.snd (⟨⟨2, 0⟩, [(.i32, 1)]⟩ : Act Tagged) = .ok (.next ⟨⟨4, 1⟩, []⟩) ∧
      actStep f' Prod.snd (⟨⟨4, 1⟩, []⟩ : Act Tagged) = .ok (.plain (.i32Const 7) ⟨⟨6, 1⟩, []⟩) ∧
      actStep f' Prod.snd (⟨⟨6, 1⟩, [(.i32, 7)]⟩ : Act Tagged) = .ok (.next ⟨⟨7, 1⟩, [(.i32, 7)]⟩) :=
    ⟨_, rfl, by decide +kernel, by decide +kernel, by decide +kernel, by decide +kernel, by decide +kernel⟩
  have hget : ∀ n, ActStep (Tags {} f) f' Prod.snd Act.start ⟨⟨2, 0⟩, [(.i32, n)] ++ []⟩ := fun n =>
    .push h0 ⟨0, .localGet 0, 1, 2, [.i32], rfl, by rfl, .fixed (by rfl) .nil, rfl⟩
  have hconst : ActStep (Tags {} f) f' Prod.snd ⟨⟨4, 1⟩, []⟩ ⟨⟨6, 1⟩, [(.i32, 7)] ++ []⟩ :=
    .push h3 ⟨4, .i32Const 7, 5, 6, [.i32], rfl, by rfl, .fixed (by rfl) .nil, rfl⟩
  refine ⟨f', hf', ?_, ⟨⟨7, 65535⟩, []⟩, ⟨⟨7, 1⟩, [(.i32, 7)]⟩, ?_, ?_, rfl, rfl, rfl, rfl⟩
  · intro hi
    obtain ⟨c, fr, hv, htop, ht, hne⟩ : ∃ c fr, (visits {} f)[3]? = some (6, c) ∧ fr ∈ c.ctrlStack.head? ∧
        fr.type = .if_ ∧ fr.startTypes ≠ fr.endTypes := ⟨_, _, rfl, rfl, rfl, by decide⟩
    exact hne (hi 6 c fr ⟨reach_iff_visits.mpr (List.mem_of_getElem? hv), ⟨7, 7, by rfl⟩, htop, ht⟩)
  · exact .tail (.single (hget 0)) (.next h1)
  · exact .tail (.tail (.tail (.single (hget 1)) (.next h2)) hconst) (.next h4)

end Silverfir
