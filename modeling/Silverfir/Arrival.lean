import Silverfir.Targets

/-! The slots of the finished table, instruction by instruction: which slots an instruction makes
and where they lead. -/
namespace Silverfir.Validator

open ListStack
open Relation (ReflTransGen)

variable {mod : Module} {f : Func} {e0 imm0 : ℕ} {ce0 c : Ctx}

/-- A branch through a slot that waited for frame `n` arrives at the target of that frame. -/
theorem Accepts.branch_arrives (h : Accepts mod f e0 imm0 ce0 c) (hs : JumpSafe mod f)
    (hb : Bracketed mod f) (hlen : c.jt.length ≤ 65536) {x : ℕ × Ctx} (hx : Reach mod f x) {k n : ℕ}
    {fr : CtrlFrame} {slot : JumpTable} (hw : Waits k n x.2.ctrlStack)
    (hfr : fromBottom x.2.ctrlStack n = some fr) (hslot : x.2.jt[k]? = some slot)
    (hpc : fr.type = .loop → fr.pc < slot.pc) :
    ∃ tbl target ct, (linkJumpTable c.jt)[k]? = some tbl ∧ tbl.pc = slot.pc ∧
      tbl.stackOffset = slot.stackOffset ∧ tbl.arity = slot.arity ∧
      Arrives mod f (linkJumpTable c.jt) tbl target ct ∧ BranchTarget mod f n x fr target ct := by
  have hn := lt_length_of_fromBottom hfr
  obtain ⟨e, imm, ce, ce', cf, rest, hex⟩ := h.exit hb hx hn
  have hk := hex.kept hx hfr
  have htarget := h.slot_target hx hw hslot hex
  have hshort := hs.short
  have hspan := fetch_span hex.fetch
  have himm := hex.imm_eq
  have hxe : x.1 ≤ e := decodeSteps_le (Run.of_within hex.path)
  have hslotpc : slot.pc ≤ x.1 :=
    (hx.slotsBelow hs).le _ (List.mem_map.mpr ⟨slot, List.mem_of_getElem? hslot, rfl⟩)
  by_cases hloop : fr.type = .loop
  · obtain ⟨c0, fr0, s, hr0, hc0, hsn, hk0, hu0, hv0, hpath⟩ := hx.loop_opened hs hfr hloop
    have hcf : cf.type = .loop ∧ cf.pc = fr.pc := by
      cases hk with
      | same ht _ _ hpc' => exact ⟨ht.trans hloop, hpc'⟩
      | else_ ht => rw [hloop] at ht; cases ht
    have hland : landing cf imm = (fr.pc, 0) := by simp [landing, hcf.1, hcf.2]
    rw [hland] at htarget
    have hfrx : fr.pc ≤ x.1 := decodeSteps_le (Run.of_within hpath)
    have hoff := patched_offset fr.pc 0 slot (by omega) (by omega)
    have hlt := hpc hloop
    obtain ⟨tbl, h1, h2, h3, h4, h5⟩ := h.arrives hs hlen htarget hr0 (by omega) (by simpa using hoff)
      (.inl (by simp only [patched] at hoff ⊢; omega))
    exact ⟨tbl, fr.pc, c0, h1, h2, h3, h4, h5, .loop hloop hr0 hc0 hsn hk0 hu0 hv0 hpath⟩
  · have hcf : cf.type ≠ .loop := by
      cases hk with
      | same ht => rw [ht]; exact hloop
      | else_ _ ht' => rw [ht']; decide
    by_cases hfunc : fr.type = .func
    · have hn0 := (hb.func_iff hx hfr).mp hfunc
      have hcf' : cf.type = .func := by
        cases hk with
        | same ht => exact ht.trans hfunc
        | else_ ht => rw [hfunc] at ht; cases ht
      have hland : landing cf imm = (imm, -1) := by
        simp [landing, hcf', u32_eq (n := imm) (by omega)]
      rw [hland] at htarget
      have hrest : ce'.ctrlStack = [] := by
        rw [hex.rest_eq]
        exact List.length_eq_zero_iff.mp (hex.depth.trans hn0)
      have hend : imm = f.code.length := by
        by_contra hne
        exact hb.inside imm ce' (hex.reach' hx) (by omega) hrest
      have hc : ce' = c := by
        have hr' := hex.reach' hx
        rw [hend] at hr'
        exact hr'.unique h.reach_end
      have hjt : ce.jt.length = c.jt.length := by
        obtain ⟨cf', rest', k', ts, -, -, -, he⟩ := onEnd_ok hex.onEnd
        rw [← hc, he]
        simp
      have hoff := patched_offset imm (-1) slot (by omega) (by omega)
      have htgt : ((patched imm (-1) slot).pc : ℤ) + (patched imm (-1) slot).targetOffset = (e : ℤ) := by
        rw [hoff]; omega
      obtain ⟨tbl, h1, h2, h3, h4, h5⟩ := h.arrives hs hlen htarget (hex.reach hx) (by omega) htgt (.inr hjt)
      exact ⟨tbl, e, ce, h1, h2, h3, h4, h5, .func hfunc hk hex⟩
    · have hcf' : cf.type ≠ .func := by
        cases hk with
        | same ht => rw [ht]; exact hfunc
        | else_ _ ht' => rw [ht']; decide
      have hland : landing cf imm = (imm, 0) := by
        simp [landing, hcf, hcf', u32_eq (n := imm) (by omega)]
      rw [hland] at htarget
      have hn0 : n ≠ 0 := fun h0 => hfunc ((hb.func_iff hx hfr).mpr h0)
      have hopen : ce'.ctrlStack ≠ [] := by
        rw [hex.rest_eq]
        exact List.ne_nil_of_length_pos (by rw [hex.depth]; omega)
      have hlt := hb.lt_of_open (hex.reach' hx) hopen
      have hoff := patched_offset imm 0 slot (by omega) (by omega)
      obtain ⟨tbl, h1, h2, h3, h4, h5⟩ := h.arrives hs hlen htarget (hex.reach' hx) hlt (by simpa using hoff)
        (.inl (by simp only [patched] at hoff ⊢; omega))
      exact ⟨tbl, imm, ce', h1, h2, h3, h4, h5, .exit hloop hfunc hk hex⟩

/-- Where a false `if` arrives: behind its `else`, or behind its `end`. -/
inductive IfTarget (mod : Module) (f : Func) (n : ℕ) (x : ℕ × Ctx) : ℕ → Ctx → Prop
  | else_ {e imm ce ce' cf rest} (ht : cf.type = .if_) (hel : ElseAt mod f n x e imm ce ce' cf rest) :
      IfTarget mod f n x imm ce'
  | exit {e imm ce ce' cf rest} (ht : cf.type = .if_) (hex : Exit mod f n x e imm ce ce' cf rest) :
      IfTarget mod f n x imm ce'

theorem Accepts.if_arrives (h : Accepts mod f e0 imm0 ce0 c) (hs : JumpSafe mod f)
    (hb : Bracketed mod f) (hlen : c.jt.length ≤ 65536) {x : ℕ × Ctx} (hx : Reach mod f x) {k n : ℕ}
    {slot : JumpTable} (hw : IfWaits k n x.2.ctrlStack) (hslot : x.2.jt[k]? = some slot) :
    ∃ tbl target ct, (linkJumpTable c.jt)[k]? = some tbl ∧ tbl.pc = slot.pc ∧
      Arrives mod f (linkJumpTable c.jt) tbl target ct ∧ IfTarget mod f n x target ct := by
  obtain ⟨e, imm, ce, ce', cf, rest, htarget, hcf, hcase⟩ := h.if_target hb hx hw hslot
  have hshort := hs.short
  have hslotpc : slot.pc ≤ x.1 :=
    (hx.slotsBelow hs).le _ (List.mem_map.mpr ⟨slot, List.mem_of_getElem? hslot, rfl⟩)
  have finish : x.1 < imm → Reach mod f (imm, ce') → ce'.ctrlStack ≠ [] →
      ∃ tbl, (linkJumpTable c.jt)[k]? = some tbl ∧ tbl.pc = slot.pc ∧
        Arrives mod f (linkJumpTable c.jt) tbl imm ce' := by
    intro hxi hr hopen
    have hlt := hb.lt_of_open hr hopen
    rw [u32_eq (n := imm) (by omega)] at htarget
    have hoff := patched_offset imm 0 slot (by omega) (by omega)
    obtain ⟨tbl, h1, h2, -, -, h5⟩ := h.arrives hs hlen htarget hr hlt (by simpa using hoff)
      (.inl (by simp only [patched] at hoff ⊢; omega))
    exact ⟨tbl, h1, h2, h5⟩
  rcases hcase with hel | hex
  · have hxe : x.1 ≤ e := decodeSteps_le (Run.of_within hel.path)
    have hr := (hx.trans (Run.of_within hel.path)).tail hel.step
    have himm := (fetch_else hel.fetch).1
    obtain ⟨cf', rest', k', ts, ps, rs, slot', -, -, -, -, -, -, -, hc'⟩ := onElse_ok hel.onElse
    obtain ⟨tbl, h1, h2, h3⟩ := finish (by omega) hr (by rw [hc']; simp)
    exact ⟨tbl, imm, ce', h1, h2, h3, .else_ hcf hel⟩
  · have hxe : x.1 ≤ e := decodeSteps_le (Run.of_within hex.path)
    have himm := hex.imm_eq
    have hopen : ce'.ctrlStack ≠ [] := by
      rw [hex.rest_eq]
      intro h0
      have hn0 : n = 0 := by rw [← hex.depth, h0]; rfl
      have := (hb.func_iff (hex.reach hx) hex.frame).mpr hn0
      rw [hcf] at this
      cases this
    obtain ⟨tbl, h1, h2, h3⟩ := finish (by omega) (hex.reach' hx) hopen
    exact ⟨tbl, imm, ce', h1, h2, h3, .exit hcf hex⟩

/-! ### The slots an instruction makes -/

theorem waits_pushSlot {d : Ctx} (hd : PendInv (shape d)) {l : ℕ} (hl : l < d.ctrlStack.length)
    (slot : JumpTable) : Waits d.jt.length (d.ctrlStack.length - 1 - l) (pushSlot l slot d).ctrlStack := by
  have hn : d.ctrlStack.length - 1 - l < d.ctrlStack.length := by omega
  obtain ⟨fr, hfr⟩ := fromBottom_lt hn
  refine ⟨fr.addPending [d.jt.length], ?_, by simp [CtrlFrame.addPending], ?_⟩
  · rw [pushSlot_ctrlStack, fromBottom_modify, if_pos (by omega), hfr]
    rfl
  · intro ht
    have hne := hd.ifs fr (mem_of_fromBottom hfr) ht
    simp only [CtrlFrame.addPending]
    rw [List.tail_append_of_ne_nil hne]
    exact List.mem_append_right _ List.mem_cons_self

/-- The frame of a label, before and after the callback of a branch. -/
structure SlotMade (x y : Ctx) (k n : ℕ) (slot : JumpTable) : Prop where
  waits : Waits k n y.ctrlStack
  slot : y.jt[k]? = some slot
  frame : ∀ fr, fromBottom x.ctrlStack n = some fr → ∃ fr', fromBottom y.ctrlStack n = some fr' ∧
    fr'.type = fr.type ∧ fr'.pc = fr.pc

theorem SlotMade.of_effect {P : JumpTable → Prop} {x y z : Ctx} {k n : ℕ} {slot : JumpTable}
    (h : SlotMade x y k n slot) (hy : PendInv (shape y)) (he : Effect P y z)
    (hframes : z.ctrlStack.map (·.type) = y.ctrlStack.map (·.type)) : SlotMade x z k n slot := by
  have hlen : z.ctrlStack.length = y.ctrlStack.length := by
    simpa using congrArg List.length hframes
  have hn : n < y.ctrlStack.length := by
    obtain ⟨fr, hfr, -⟩ := h.waits
    exact lt_length_of_fromBottom hfr
  obtain ⟨hw, heq⟩ := he.waits hy h.waits (by omega)
  refine ⟨hw, heq.trans h.slot, ?_⟩
  intro fr hfr
  obtain ⟨g, hg, ht, hpc⟩ := h.frame fr hfr
  obtain ⟨g', hg', hk⟩ := he.kept hg (by omega)
  have htype : g'.type = g.type := by
    have hm := congrArg (fromBottom · n) hframes
    simp only [fromBottom_map, hg', hg, Option.map_some, Option.some.injEq] at hm
    exact hm
  cases hk with
  | same ht' _ _ hpc' => exact ⟨g', hg', ht'.trans ht, hpc'.trans hpc⟩
  | else_ h1 h2 => rw [h1] at htype; rw [h2] at htype; cases htype

end Silverfir.Validator
