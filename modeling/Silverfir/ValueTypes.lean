import Silverfir.Activation

/-! The types a module names. The pseudo types `ref` and `unknown` have codes in the binary
format; in a function where they are not named, types that the validator takes for each other
are equal. -/
namespace Silverfir

open InPlaceDt Validator ListStack
open Relation (ReflTransGen)

/-- The types of a vector of type bytes, none if it is malformed. -/
def typesOf (count : ℕ) (types : Str) : List TypeId := (parseTypes count types).toOption.getD []

def FuncType.types (ft : FuncType) : List TypeId :=
  typesOf ft.paramCount ft.params ++ typesOf ft.resultCount ft.results

/-- The types among the immediates. -/
def Instr.types : Instr → List TypeId
  | .block _ type => type.types
  | .selectT type | .refNull type => [type]
  | _ => []

/-- The types in the sections of a module, the code apart. -/
def Module.types (mod : Module) : List TypeId :=
  mod.funcTypes.flatMap (·.types) ++ mod.funcs.flatMap (·.fnType.types) ++ mod.globals.map (·.valtype) ++
    mod.tables.map (·.valtype)

/-- Every type that validation of `f` can come by. -/
def typesIn (mod : Module) (f : Func) : List TypeId :=
  f.fnType.types ++ f.localTypes ++ (instrs mod f.code).flatMap (·.instr.types) ++ mod.types

/-- No pseudo type is named. -/
def NamesWasm (mod : Module) (f : Func) : Prop := ∀ t ∈ typesIn mod f, t.IsWasm

instance (mod : Module) (f : Func) : Decidable (NamesWasm mod f) := List.decidableBAll _ _

theorem mem_typesOf {count : ℕ} {types : Str} {ts : List TypeId} (h : parseTypes count types = .ok ts)
    {t : TypeId} (ht : t ∈ ts) : t ∈ typesOf count types := by
  unfold typesOf
  rw [h]
  exact ht

theorem Validator.Matches.eq_of_isWasm {t e : TypeId} (h : Matches t e) (ht : t.IsWasm) (he : e.IsWasm) : t = e := by
  rcases h with h | rfl | rfl | ⟨rfl, -⟩
  · exact h
  · exact ht.elim
  · exact he.elim
  · exact he.elim

namespace Validator

variable {mod : Module} {f : Func}

theorem unreachable_locals {c c' : Ctx} (h : unreachable c = .ok c') : c'.locals = c.locals := by
  obtain ⟨fr, rest, -, -, rfl⟩ := unreachable_ok h
  rfl

theorem SlotRun.locals_eq {pcEnd arity : ℕ} {ls : List ℕ} {c c' : Ctx} (h : SlotRun pcEnd arity ls c c') :
    c'.locals = c.locals := by
  induction h with
  | nil => rfl
  | cons _ _ _ _ _ ih => rw [ih, pushVals_locals, pushSlot_locals]

/-- The callbacks do not touch the types of the locals. -/
theorem onInstr_locals {i : Instr} {imm : Stream} {c c' : Ctx} (h : onInstr mod i imm c = .ok c') :
    c'.locals = c.locals := by
  by_cases hi : i.isControl = false
  · obtain ⟨k, ts, us, hs⟩ := onInstr_plain hi h
    rw [hs.eq, pushVals_locals]
  · cases i with
    | unreachable => exact unreachable_locals h
    | block op type =>
      obtain ⟨ps, rs, k, ts, -, -, -, -, rfl⟩ := onBlock_ok h
      rw [pushVals_locals]
    | else_ =>
      obtain ⟨cf, rest, k, ts, ps, rs, slot, -, -, -, -, -, -, -, rfl⟩ := onElse_ok h
      rw [pushVals_locals]
    | end_ =>
      obtain ⟨cf, rest, k, ts, -, -, -, rfl⟩ := onEnd_ok h
      rw [pushVals_locals]
    | brOrIf op l =>
      obtain ⟨fr, k0, ts0, k, ts, c2, -, -, -, -, -, rfl, h'⟩ := onBrOrIf_ok h
      split at h'
      · have := unreachable_locals h'
        exact this
      · cases h'
        rw [pushVals_locals, pushSlot_locals]
    | brTable =>
      obtain ⟨t, k0, n, pc1, labels, pc2, fr, c2, c3, k, ts, -, -, -, -, hrun, -, -, -, rfl, h'⟩ := onBrTable_ok h
      exact (unreachable_locals h').trans hrun.locals_eq
    | return_ =>
      obtain ⟨fr, k, ts, c2, -, -, -, rfl, h'⟩ := onReturn_ok h
      have := unreachable_locals h'
      exact this
    | _ => exact absurd rfl hi

/-- The types of the locals. -/
def localsOf (f : Func) : List TypeId := typesOf f.fnType.paramCount f.fnType.params ++ f.localTypes

theorem Reach.locals_eq {x : ℕ × Ctx} (h : Reach mod f x) : x.2.locals = localsOf f := by
  refine h.induction (P := fun x => x.2.locals = localsOf f) (fun c hc => ?_) fun x y _ hs hx => ?_
  · obtain ⟨ps, rs, hps, -, hl, -⟩ := onDecodeBegin_ok hc
    rw [hl, localsOf, typesOf, hps]
    rfl
  · obtain ⟨i, imm, -, hcb⟩ := step_iff.mp hs
    rw [onInstr_locals hcb, hx]

/-- The function type of a frame is the one of the function or a block type of its code. -/
theorem Reach.frame_ftype {P : FuncType → Prop} (hf : P f.fnType)
    (hb : ∀ l ∈ instrs mod f.code, ∀ op type, l.instr = .block op type → P type) {x : ℕ × Ctx}
    (h : Reach mod f x) : ∀ fr ∈ x.2.ctrlStack, P fr.ftype := by
  refine h.induction (P := fun x => ∀ fr ∈ x.2.ctrlStack, P fr.ftype) (fun c hc => ?_) fun x y hx hs ih => ?_
  · obtain ⟨ps, rs, -, -, -, -, hcs, -⟩ := onDecodeBegin_ok hc
    rw [hcs, List.forall_mem_singleton]
    exact hf
  · rw [forall_fromBottom]
    intro n fr' hfr'
    obtain ⟨i, imm, hfetch, hcb⟩ := step_iff.mp hs
    by_cases hn : n < x.2.ctrlStack.length
    · obtain ⟨fr, hfr⟩ := fromBottom_lt hn
      obtain ⟨g, hg, hk⟩ := (step_effect hx.inv.wf hfetch hcb).kept hfr (lt_length_of_fromBottom hfr')
      obtain rfl := Option.some.inj (hg.symm.trans hfr')
      rw [hk.ftype]
      exact ih fr (mem_of_fromBottom hfr)
    · -- only a block opens a frame
      have hlt := lt_length_of_fromBottom hfr'
      rw [onInstr_length hcb] at hlt
      cases i with
      | block op type =>
        obtain ⟨ps, rs, k, ts, -, -, -, -, hc'⟩ := onBlock_ok hcb
        have hn' : n = x.2.ctrlStack.length := by
          simp only [Instr.depth] at hlt
          omega
        rw [hc', pushVals_ctrlStack, hn', fromBottom_cons_length] at hfr'
        cases hfr'
        exact hb _ (hx.mem_instrs hfetch) op type rfl
      | end_ =>
        simp only [Instr.depth] at hlt
        omega
      | _ => exact absurd hlt hn

end Validator

section Names

variable {mod : Module} {f : Func}

theorem NamesWasm.frame (h : NamesWasm mod f) {x : ℕ × Ctx} {fr : CtrlFrame} (hr : Reach mod f x)
    (hfr : fr ∈ x.2.ctrlStack) : (∀ t ∈ fr.startTypes, t.IsWasm) ∧ ∀ t ∈ fr.endTypes, t.IsWasm := by
  have htypes : ∀ t ∈ fr.ftype.types, t.IsWasm := by
    refine Reach.frame_ftype (P := fun ft => ∀ t ∈ ft.types, t.IsWasm) ?_ ?_ hr fr hfr
    · exact fun t ht => h t (by simp only [typesIn, List.mem_append]; tauto)
    · intro l hl op type he t ht
      refine h t ?_
      simp only [typesIn, List.mem_append, List.mem_flatMap]
      exact .inl (.inr ⟨l, hl, by rw [he]; exact ht⟩)
  obtain ⟨hps, hrs⟩ := hr.inv.wf.types fr hfr
  exact ⟨fun t ht => htypes t (List.mem_append_left _ (mem_typesOf hps ht)),
    fun t ht => htypes t (List.mem_append_right _ (mem_typesOf hrs ht))⟩

theorem NamesWasm.locals (h : NamesWasm mod f) : ∀ t ∈ localsOf f, t.IsWasm := by
  intro t ht
  refine h t ?_
  rw [localsOf, List.mem_append] at ht
  simp only [typesIn, FuncType.types, List.mem_append]
  tauto

theorem IsNumType.isWasm {t : TypeId} (h : t.IsNumType) : t.IsWasm := by
  cases t <;> trivial

theorem mem_funcSig {ft : FuncType} {ps rs : List TypeId} (h : funcSig ft = some (ps, rs)) :
    ∀ t, t ∈ ps ∨ t ∈ rs → t ∈ ft.types := by
  unfold funcSig at h
  split at h
  · next hp hr =>
    cases h
    intro t ht
    rw [List.mem_reverse] at ht
    rcases ht with ht | ht
    · exact List.mem_append_left _ (mem_typesOf hp ht)
    · exact List.mem_append_right _ (mem_typesOf hr ht)
  · cases h

/-- Where no pseudo type is named, none is pushed. -/
theorem NamesWasm.pushes (h : NamesWasm mod f) {i : Instr} {ps rs : List TypeId}
    (hi : ∀ t ∈ i.types, t.IsWasm) (hs : fixedSig mod (localsOf f) i = some (ps, rs)) : ∀ t ∈ rs, t.IsWasm := by
  have hmod : ∀ t ∈ mod.types, t.IsWasm := fun t ht => h t (List.mem_append_right _ ht)
  cases i with
  | call idx =>
    obtain ⟨fn, hfn, hsig⟩ := Option.bind_eq_some_iff.mp hs
    intro t ht
    refine hmod t ?_
    simp only [Module.types, List.mem_append, List.mem_flatMap]
    exact .inl (.inl (.inr ⟨fn, List.mem_of_getElem? hfn, mem_funcSig hsig t (.inr ht)⟩))
  | callIndirect typeIdx tableIdx =>
    obtain ⟨ft, hft, hm⟩ := Option.bind_eq_some_iff.mp hs
    obtain ⟨⟨ps', rs'⟩, hsig, he⟩ := Option.map_eq_some_iff.mp hm
    cases he
    intro t ht
    refine hmod t ?_
    simp only [Module.types, List.mem_append, List.mem_flatMap]
    exact .inl (.inl (.inl ⟨ft, List.mem_of_getElem? hft, mem_funcSig hsig t (.inr ht)⟩))
  | localGet idx | localTee idx =>
    obtain ⟨t, ht, he⟩ := Option.map_eq_some_iff.mp hs
    cases he
    rw [List.forall_mem_singleton]
    exact h.locals t (List.mem_of_getElem? ht)
  | globalGet idx =>
    obtain ⟨g, hg, he⟩ := Option.map_eq_some_iff.mp hs
    cases he
    rw [List.forall_mem_singleton]
    refine hmod _ ?_
    simp only [Module.types, List.mem_append, List.mem_map]
    exact .inl (.inr ⟨g, List.mem_of_getElem? hg, rfl⟩)
  | tableGet idx =>
    obtain ⟨tab, htab, he⟩ := Option.map_eq_some_iff.mp hs
    cases he
    rw [List.forall_mem_singleton]
    refine hmod _ ?_
    simp only [Module.types, List.mem_append, List.mem_map]
    exact .inr ⟨tab, List.mem_of_getElem? htab, rfl⟩
  | localSet | globalSet | tableSet =>
    obtain ⟨x, -, he⟩ := Option.map_eq_some_iff.mp hs
    cases he
    exact fun t ht => nomatch ht
  | memoryLoadStore op align offset =>
    obtain ⟨t, ht, he⟩ := Option.map_eq_some_iff.mp hs
    have hwasm := IsNumType.isWasm (WasmOpcode.memType_isNumType ht)
    split at he
    · cases he
      rw [List.forall_mem_singleton]
      exact hwasm
    · cases he
      exact fun u hu => nomatch hu
  | itestop op | iunop op | irelop op | ibinop op | funop op | frelop op | fbinop op | wrapop op | truncop op
  | convertop op | rankop op | reinterpretop op | extendop op | truncSat op =>
    rw [fixedSig_num mod (localsOf f) rfl] at hs
    obtain ⟨⟨a, b⟩, hsig, he⟩ := Option.map_eq_some_iff.mp hs
    cases he
    rw [List.forall_mem_singleton]
    exact IsNumType.isWasm (Instr.numSig_types hsig).2
  | selectT type | refNull type =>
    cases hs
    exact hi
  | _ =>
    first
    | (cases hs
       simp [TypeId.IsWasm])
    | cases hs

theorem NamesWasm.plain (h : NamesWasm mod f) {i : Instr} {ts us : List TypeId} (hi : ∀ t ∈ i.types, t.IsWasm)
    (ht : PlainTypes mod (localsOf f) i ts us) (hts : ∀ t ∈ ts, t.IsWasm) : ∀ t ∈ us, t.IsWasm := by
  cases ht with
  | fixed hs _ => exact h.pushes hi hs
  | @select t t1 t2 =>
    rw [List.forall_mem_singleton]
    split
    · exact hts t2 (by simp)
    · exact hts t1 (by simp)

theorem NamesWasm.imm (h : NamesWasm mod f) {p imm q : ℕ} {c : Ctx} {i : Instr} (hr : Reach mod f (p, c))
    (hf : fetch mod f.code p = .ok (i, imm, q)) : ∀ t ∈ i.types, t.IsWasm := by
  intro t ht
  refine h t ?_
  simp only [typesIn, List.mem_append, List.mem_flatMap]
  exact .inl (.inr ⟨_, hr.mem_instrs hf, ht⟩)

end Names

end Silverfir
