import Silverfir.Activation

/-! The height of the operand stack. Where no frame is closed with operands left over and an `if`
without `else` leaves as many operands as it takes, `sp` is at every instruction where validation
assumes it. -/
namespace Silverfir

open InPlaceDt Validator ListStack
open Relation (ReflTransGen)

variable {V : Type} {mod : Module} {f f' : Func} {cE : Ctx}

/-- Plain instructions and calls replace as many operands by as many results as their handlers
say; the values are arbitrary. -/
def Counted (mod : Module) : PlainRel V := fun _ i args results =>
  args.length = pops mod i ∧ results.length = pushes mod i

/-- What the height of the operand stack rests on. -/
structure HeightSafe (mod : Module) (f : Func) : Prop where
  jumps : JumpSafe mod f
  fits : Fits mod f
  exits : Exits mod f
  ifs : ∀ p c fr, OneArmed mod f p c fr → fr.startTypes.length = fr.endTypes.length

/-- Slots of any kind. -/
def AnySlot (_ : V) (_ : TypeId) : Prop := True

def AnyType (_ : TypeId) : Prop := True

theorem forall₂_anySlot {vs : List V} {ts : List TypeId} : List.Forall₂ AnySlot vs ts ↔ vs.length = ts.length := by
  constructor
  · exact List.Forall₂.length_eq
  · intro h
    induction vs generalizing ts with
    | nil =>
      cases ts with
      | nil => exact .nil
      | cons => simp at h
    | cons v vs ih =>
      cases ts with
      | nil => simp at h
      | cons t ts => exact .cons trivial (ih (by simpa using h))

theorem anySlot_typing : Typing mod f (AnySlot (V := V)) AnyType where
  frames _ _ _ _ := ⟨fun _ _ => trivial, fun _ _ => trivial⟩
  conv _ _ _ _ _ _ _ := trivial

theorem HeightSafe.trusted (h : HeightSafe mod f) (hs : Sound mod f cE) :
    Trusted (AnySlot (V := V)) AnyType mod f cE where
  sound := hs
  fits := h.fits
  exits := h.exits
  typing := anySlot_typing
  ifs p c fr ho vs hvs := by
    have hlen := h.ifs p c fr ho
    rw [forall₂_anySlot, List.length_reverse] at hvs ⊢
    omega

theorem respects_counted : Respects (AnySlot (V := V)) AnyType (Counted mod) mod f where
  arity _ _ ht hrel := by
    rw [hrel.1, pops_erase, ht.counts.1]
  typed _ _ ht hrel _ _ := by
    refine ⟨forall₂_anySlot.mpr ?_, fun _ _ => trivial⟩
    rw [hrel.2, pushes_erase, List.length_reverse, ht.counts.2]

/-- Along every run `sp` is where validation has it. -/
theorem HeightSafe.run_lands (h : HeightSafe mod f) (hs : Sound mod f cE) (hcode : f'.code = f.code)
    (hjt : f'.jt = linkJumpTable cE.jt) {cond : V → ℕ} {a : Act V}
    (hr : ReflTransGen (ActStep (Counted mod) f' cond) Act.start a) :
    Lands AnySlot AnyType mod f (linkJumpTable cE.jt) a :=
  (h.trusted hs).run_lands respects_counted hcode hjt hr

/-- A branch is not taken at an `end`. -/
theorem Takes.not_end {cond : V → ℕ} {p imm q : ℕ} {c : Ctx} {stack : List V} {fr : CtrlFrame}
    (h : Takes cond mod f p c stack fr) : fetch mod f.code p ≠ .ok (.end_, imm, q) := by
  intro he
  cases h with
  | br hf => rw [hf] at he; cases he
  | brIf hf => rw [hf] at he; cases he
  | brTable hf => rw [hf] at he; cases he

/-- At a branch the interpreter is in step with validation. -/
theorem Lands.at_branch {typed : V → TypeId → Prop} {G : TypeId → Prop} {jt : List JumpTable} {a : Act V}
    {cond : V → ℕ} {p : ℕ} {c : Ctx} {fr : CtrlFrame} (h : Lands typed G mod f jt a) (hpc : a.regs.pc = (p : ℕ))
    (hr : Reach mod f (p, c)) (ht : Takes cond mod f p c a.stack fr) :
    Synced mod f jt p c a.regs ∧ OperandsAt typed G c a.stack := by
  rcases h with ⟨p', c', hs, hops⟩ | ⟨⟨e, imm, hpc', hf⟩, -⟩
  · obtain rfl : p = p' := by exact_mod_cast hpc.symm.trans hs.pc
    obtain rfl := hr.unique hs.reach
    exact ⟨hs, hops⟩
  · obtain rfl : p = e := by exact_mod_cast hpc.symm.trans hpc'
    exact absurd hf ht.not_end

/-! ### A check of the conditions -/

/-- Whether frames, heights and `if`s of a place are as `HeightSafe` asks for. -/
def heightCheck (mod : Module) (f : Func) (x : ℕ × Ctx) : Bool :=
  x.2.ctrlStack.all (fun fr => fr.labelTypes.length < 2 ^ 16) && decide (x.2.valStack.length < 2 ^ 31) &&
    match x.2.ctrlStack, fetch mod f.code x.1 with
    | fr :: _, .ok (i, _, _) =>
      ((i != .end_ && i != .else_) || decide (x.2.valStack.length ≤ fr.height + fr.endTypes.length)) &&
        (i != .end_ || fr.type != .if_ || fr.startTypes.length == fr.endTypes.length)
    | _, _ => true

theorem heightSafe_of_check (hj : JumpSafe mod f) (h : (visits mod f).all (heightCheck mod f) = true) :
    HeightSafe mod f := by
  have hcheck : ∀ x, Reach mod f x → heightCheck mod f x = true :=
    fun x hx => List.all_eq_true.mp h x (reach_iff_visits.mp hx)
  refine ⟨hj, ⟨?_, ?_⟩, ?_, ?_⟩
  · intro x fr hx hfr
    have hc := hcheck x hx
    simp only [heightCheck, Bool.and_eq_true, List.all_eq_true, decide_eq_true_eq] at hc
    exact hc.1.1 fr hfr
  · intro x hx
    have hc := hcheck x hx
    simp only [heightCheck, Bool.and_eq_true, decide_eq_true_eq] at hc
    exact hc.1.2
  · rintro p c fr ⟨hr, ⟨i, imm, q, hf, hi⟩, htop⟩
    have hc := hcheck _ hr
    obtain ⟨rest, hcs⟩ : ∃ rest, c.ctrlStack = fr :: rest := List.head?_eq_some_iff.mp htop
    simp only [heightCheck, Bool.and_eq_true, hcs, hf, Bool.or_eq_true, decide_eq_true_eq, bne_iff_ne] at hc
    rcases hc.2.1 with hne | hle
    · rcases hi with rfl | rfl
      · exact absurd rfl hne.1
      · exact absurd rfl hne.2
    · exact hle
  · rintro p c fr ⟨hr, ⟨imm, q, hf⟩, htop, ht⟩
    have hc := hcheck _ hr
    obtain ⟨rest, hcs⟩ : ∃ rest, c.ctrlStack = fr :: rest := List.head?_eq_some_iff.mp htop
    simp only [heightCheck, Bool.and_eq_true, hcs, hf, Bool.or_eq_true, bne_iff_ne, beq_iff_eq, ht, ne_eq,
      not_true_eq_false, false_or] at hc
    exact hc.2.2

/-- The end types popped, a frame leaves exactly its own height, if and only if it held no more
operands than end types. And then, in every run, a branch to a label makes the operand stack as
high as its frame and the operands of the label, which is what validation assumes at the target. -/
theorem validateFunc_frame_exits (h : validateFunc mod f = .ok f') :
    ((∀ p c fr, Closes mod f p c fr → ExitExact c fr) ↔ ∀ p c fr, Closes mod f p c fr → NoLeftover c fr) ∧
    (HeightSafe mod f → ∀ (V : Type) (cond : V → ℕ) (a : Act V),
      ReflTransGen (ActStep (Counted mod) f' cond) Act.start a → ∀ p c fr, a.regs.pc = (p : ℕ) →
      Reach mod f (p, c) → Takes cond mod f p c a.stack fr →
      ∃ a' target ct, actStep f' cond a = .ok (.next a') ∧
        a'.stack.length = fr.height + fr.labelTypes.length ∧
        a'.regs.pc = (target : ℕ) ∧ Reach mod f (target, ct) ∧
        (fr.type ≠ .func → ct.valStack.length = a'.stack.length)) := by
  constructor
  · obtain ⟨e, imm, ce, cE, ha, -⟩ := validateFunc_ok.mp h
    refine forall₃_congr fun p c fr => forall_congr' fun hc => ?_
    obtain ⟨c1, hc1⟩ := hc.popVals ha
    exact exitExact_iff hc.reach.inv.wf hc.top hc1
  · intro hsafe V cond a hrun p c fr hpc hr ht
    obtain ⟨cE, hsound, hcode, hjt⟩ := sound_of_validateFunc h hsafe.jumps
    have hlands := hsafe.run_lands hsound hcode hjt hrun
    obtain ⟨hs, hops⟩ := hlands.at_branch hpc hr ht
    obtain ⟨a', target, ct, hstep, hlen, -, hpc', hr', hval⟩ :=
      (hsafe.trusted hsound).takes_step cond hcode hjt hs hops ht
    exact ⟨a', target, ct, hstep, hlen, hpc', hr', hval⟩

/-- `block; br 0; end; end` -/
theorem validateFunc_frame_exits_br :
    ∃ f', validateFunc {} { code := [0x02, 0x40, 0x0c, 0x00, 0x0b, 0x0b] } = .ok f' ∧
      HeightSafe {} { code := [0x02, 0x40, 0x0c, 0x00, 0x0b, 0x0b] } ∧
      ∃ a' target ct, actStep f' (fun v : ℕ => v) ⟨⟨2, 0⟩, []⟩ = .ok (.next a') ∧ a'.stack.length = 0 ∧
        a'.regs.pc = (target : ℕ) ∧
        Reach {} { code := [0x02, 0x40, 0x0c, 0x00, 0x0b, 0x0b] } (target, ct) ∧
        ct.valStack.length = a'.stack.length := by
  obtain ⟨f', hf', hstep⟩ : ∃ f', validateFunc {} { code := [0x02, 0x40, 0x0c, 0x00, 0x0b, 0x0b] } = .ok f' ∧
      actStep f' (fun v : ℕ => v) Act.start = .ok (.next ⟨⟨2, 0⟩, []⟩) := ⟨_, rfl, by decide +kernel⟩
  have hsafe : HeightSafe {} { code := [0x02, 0x40, 0x0c, 0x00, 0x0b, 0x0b] } :=
    heightSafe_of_check (by decide +kernel) (by decide +kernel)
  obtain ⟨c, fr, hv, hfr, hh, hl, ht⟩ :
      ∃ c fr, (visits {} { code := [0x02, 0x40, 0x0c, 0x00, 0x0b, 0x0b] })[1]? = some (2, c) ∧
        c.ctrlStack[0]? = some fr ∧ fr.height = 0 ∧ fr.labelTypes = [] ∧ fr.type ≠ .func :=
    ⟨_, _, rfl, rfl, rfl, rfl, by decide⟩
  have hr := reach_iff_visits.mpr (List.mem_of_getElem? hv)
  obtain ⟨a', target, ct, h1, h2, h3, h4, h5⟩ :=
    (validateFunc_frame_exits hf').2 hsafe ℕ (fun v => v) ⟨⟨2, 0⟩, []⟩ (.single (.next hstep)) 2 c fr rfl hr
      (.br (l := 0) (by rfl) hfr)
  rw [hh, hl] at h2
  exact ⟨f', hf', hsafe, a', target, ct, h1, h2, h3, h4, h5 ht⟩

/-- `block; i32.const 0; i32.const 1; br_if 0; end; end`: an operand is left over in the block.
Validation assumes it behind the block, and the branch takes it away. -/
theorem validateFunc_leftover :
    ∃ f', validateFunc {} { code := [0x02, 0x40, 0x41, 0x00, 0x41, 0x01, 0x0d, 0x00, 0x0b, 0x0b] } = .ok f' ∧
      (∃ c fr, Closes {} { code := [0x02, 0x40, 0x41, 0x00, 0x41, 0x01, 0x0d, 0x00, 0x0b, 0x0b] } 8 c fr ∧
        ¬ ExitExact c fr) ∧
      actStep f' (fun v : ℕ => v) ⟨⟨6, 0⟩, [1, 0]⟩ = .ok (.next ⟨⟨9, 65535⟩, []⟩) ∧
      ∃ c, Reach {} { code := [0x02, 0x40, 0x41, 0x00, 0x41, 0x01, 0x0d, 0x00, 0x0b, 0x0b] } (9, c) ∧
        c.valStack.length = 1 := by
  obtain ⟨f', hf', hstep⟩ :
      ∃ f', validateFunc {} { code := [0x02, 0x40, 0x41, 0x00, 0x41, 0x01, 0x0d, 0x00, 0x0b, 0x0b] } = .ok f' ∧
        actStep f' (fun v : ℕ => v) ⟨⟨6, 0⟩, [1, 0]⟩ = .ok (.next ⟨⟨9, 65535⟩, []⟩) := ⟨_, rfl, by decide +kernel⟩
  obtain ⟨c, fr, c1, c2, hv, hv', htop, hpop, hne, hlen⟩ :
      ∃ c fr c1 c2,
        (visits {} { code := [0x02, 0x40, 0x41, 0x00, 0x41, 0x01, 0x0d, 0x00, 0x0b, 0x0b] })[4]? = some (8, c) ∧
        (visits {} { code := [0x02, 0x40, 0x41, 0x00, 0x41, 0x01, 0x0d, 0x00, 0x0b, 0x0b] })[5]? = some (9, c2) ∧
        fr ∈ c.ctrlStack.head? ∧ popVals fr.endTypes c = .ok c1 ∧ c1.valStack.length ≠ fr.height ∧
        c2.valStack.length = 1 := ⟨_, _, _, _, rfl, rfl, rfl, rfl, by decide, rfl⟩
  have hr := reach_iff_visits.mpr (List.mem_of_getElem? hv)
  exact ⟨f', hf', ⟨c, fr, ⟨hr, ⟨.end_, 9, 9, by rfl, .inl rfl⟩, htop⟩, fun he => hne (he c1 hpop)⟩, hstep,
    c2, reach_iff_visits.mpr (List.mem_of_getElem? hv'), hlen⟩

end Silverfir
