import Silverfir.Operands
import Silverfir.Arity

/-! Runs of one call of `in_place_dt_call`. The loop handles the control instructions itself; what
a plain instruction or a call does to the operand stack is given by a relation. -/
namespace Silverfir

open InPlaceDt Validator ListStack
open Relation (ReflTransGen)

variable {V : Type} {mod : Module} {f f' : Func} {cE : Ctx}

/-- What a plain instruction at an offset can make of its operands. Both lists have the top at
the head. -/
abbrev PlainRel (V : Type) := ℤ → Instr → List V → List V → Prop

/-- One pass of the loop. -/
inductive ActStep (rel : PlainRel V) (f : Func) (cond : V → ℕ) : Act V → Act V → Prop
  | next {a a'} (h : actStep f cond a = .ok (.next a')) : ActStep rel f cond a a'
  | plain {a i r args rest results} (h : actStep f cond a = .ok (.plain i ⟨r, args ++ rest⟩))
      (hrel : rel a.regs.pc i args results) : ActStep rel f cond a ⟨r, results ++ rest⟩

/-- An instruction without operands. -/
theorem ActStep.push {rel : PlainRel V} {cond : V → ℕ} {a : Act V} {i : Instr} {r : Regs} {s results : List V}
    (h : actStep f cond a = .ok (.plain i ⟨r, s⟩)) (hrel : rel a.regs.pc i [] results) :
    ActStep rel f cond a ⟨r, results ++ s⟩ := @ActStep.plain V rel f cond a i r [] s results h hrel

/-- The start of the loop: the operand stack is empty. -/
def Act.start : Act V := ⟨Regs.start, []⟩

/-- The results of plain instructions have the types that validation gives them. -/
structure Respects (typed : V → TypeId → Prop) (G : TypeId → Prop) (rel : PlainRel V) (mod : Module)
    (f : Func) : Prop where
  arity : ∀ {p c i imm q ts us args results}, Reach mod f (p, c) → fetch mod f.code p = .ok (i, imm, q) →
    PlainTypes mod c.locals i ts us → rel (p : ℕ) i.erase args results → args.length = ts.length
  typed : ∀ {p c i imm q ts us args results}, Reach mod f (p, c) → fetch mod f.code p = .ok (i, imm, q) →
    PlainTypes mod c.locals i ts us → rel (p : ℕ) i.erase args results → (∀ t ∈ ts, G t) →
    List.Forall₂ typed args ts → List.Forall₂ typed results us.reverse ∧ ∀ t ∈ us, G t

section Run

variable {typed : V → TypeId → Prop} {G : TypeId → Prop} {cond : V → ℕ}

/-- A plain instruction takes its operands from the top of the stack. -/
theorem OperandsAt.plain {c c' : Ctx} {args rest results : List V} {i : Instr} {k : ℕ} {ts us : List TypeId}
    (h : OperandsAt typed G c (args ++ rest)) (hstep : PlainStep mod i c c' k ts us)
    (hargs : args.length = ts.length)
    (hres : (∀ t ∈ ts, G t) → List.Forall₂ typed args ts →
      List.Forall₂ typed results us.reverse ∧ ∀ t ∈ us, G t) :
    OperandsAt typed G c' (results ++ rest) := by
  obtain ⟨hk, hts, hle⟩ := h.popped hstep.popped
  have htop := List.forall₂_take k h.typed
  rw [← hts, hk, ← hargs, List.take_left] at htop
  have hgood : ∀ t ∈ ts, G t := by
    rw [hts]
    exact fun t ht => h.good t (List.mem_of_mem_take ht)
  obtain ⟨hresults, hus⟩ := hres hgood htop
  have hlive : ∀ fr ∈ c'.ctrlStack, fr.unreachable = false := by
    rw [hstep.eq, pushVals_ctrlStack]
    exact h.live
  have hrep := h.replace c' hresults (fun t ht => hus t (List.mem_reverse.mp ht)) hlive
    (by rw [hstep.eq, pushVals_valStack])
  rwa [hk, ← hargs, List.drop_left] at hrep

theorem Trusted.start_lands (h : Trusted typed G mod f cE) :
    Lands typed G mod f (linkJumpTable cE.jt) Act.start := by
  obtain ⟨c, hs⟩ := h.sound.start_synced
  obtain ⟨c0, hc0, -⟩ := hs.reach
  have hr0 : Reach mod f (0, c0) := ⟨c0, hc0, .refl⟩
  obtain rfl : c = c0 := hs.reach.unique hr0
  obtain ⟨ps, rs, -, -, -, hval, hcs, -⟩ := onDecodeBegin_ok hc0
  refine .inl ⟨0, c, hs, ?_, ?_, ?_⟩
  · rw [hcs]
    simp [newFrame]
  · rw [hval]
    exact .nil
  · rw [hval]
    simp

variable {rel : PlainRel V} {a a' : Act V}

theorem Passes.plain_inv {jt : List JumpTable} {i : Instr} (h : Passes typed G mod f jt a (.plain i a')) :
    ∃ p c i0 imm q c', Synced mod f jt p c a.regs ∧ OperandsAt typed G c a.stack ∧
      fetch mod f.code p = .ok (i0, imm, q) ∧ i0.isControl = false ∧ onInstr mod i0 ⟨f.code, imm⟩ c = .ok c' ∧
      i = i0.erase ∧ a'.stack = a.stack ∧ Synced mod f jt q c' a'.regs := by
  cases h with
  | plain hs hops hf hi hcb hs' => exact ⟨_, _, _, _, _, _, hs, hops, hf, hi, hcb, rfl, rfl, hs'⟩

/-- One pass of the loop keeps the operands in step with validation. -/
theorem Lands.actStep (h : Trusted typed G mod f cE) (hrel : Respects typed G rel mod f)
    (hcode : f'.code = f.code) (hjt : f'.jt = linkJumpTable cE.jt)
    (ha : Lands typed G mod f (linkJumpTable cE.jt) a) (hs : ActStep rel f' cond a a') :
    Lands typed G mod f (linkJumpTable cE.jt) a' := by
  obtain ⟨out, hout, hpass⟩ := ha.step cond hcode hjt h
  cases hs with
  | next hn =>
    rw [hn] at hout
    cases hout
    cases hpass with
    | next hl => exact hl
  | plain hn hr =>
    rw [hn] at hout
    cases hout
    obtain ⟨p, c, i, imm, q, c', hsync, hops, hf, hi, hcb, rfl, hstack, hsync'⟩ := hpass.plain_inv
    obtain ⟨k, ts, us, hplain⟩ := onInstr_plain hi hcb
    rw [← hstack] at hops
    rw [hsync.pc] at hr
    have hargs := hrel.arity hsync.reach hf hplain.types hr
    exact .inl ⟨q, c', hsync', hops.plain hplain hargs (hrel.typed hsync.reach hf hplain.types hr)⟩

/-- Every state of a run is in step with validation. -/
theorem Trusted.run_lands (h : Trusted typed G mod f cE) (hrel : Respects typed G rel mod f)
    (hcode : f'.code = f.code) (hjt : f'.jt = linkJumpTable cE.jt)
    (hr : ReflTransGen (ActStep rel f' cond) Act.start a) : Lands typed G mod f (linkJumpTable cE.jt) a :=
  Run.invariant (fun _ _ hs ha => ha.actStep h hrel hcode hjt hs) hr h.start_lands

end Run

end Silverfir
