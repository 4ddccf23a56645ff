import Silverfir.Targets
import Silverfir.ValLogRuns

/-! The slots that wait for a target: each of them is listed in one open frame, and it is given its target once. -/
namespace Silverfir.Validator

open ListStack
open Relation (ReflTransGen)

/-! ### Callbacks that give no target -/

/-- The old slots stay and wait as before, and the new ones wait. -/
structure Keeps (x y : Shape) : Prop where
  le : x.2.length ≤ y.2.length
  old : ∀ k < x.2.length, y.2[k]? = x.2[k]? ∧ (k ∈ pendings y.1 ↔ k ∈ pendings x.1)
  new : ∀ k < y.2.length, x.2.length ≤ k → k ∈ pendings y.1

section Keeps
variable {x y z : Shape} {s s' : List CtrlFrame} {jt : List JumpTable} {c c' : Ctx} {mod : Module}

theorem Keeps.of_pendings (h : pendings s' = pendings s) : Keeps (s, jt) (s', jt) where
  le := le_rfl
  old k _ := ⟨rfl, by rw [h]⟩
  new k hk hle := absurd hk (Nat.not_lt.mpr hle)

theorem Keeps.refl : (x : Shape) → Keeps x x
  | (_, _) => of_pendings rfl

theorem Keeps.trans (h : Keeps x y) (h' : Keeps y z) : Keeps x z where
  le := h.le.trans h'.le
  old k hk := by
    obtain ⟨hslot, hwait⟩ := h.old k hk
    obtain ⟨hslot', hwait'⟩ := h'.old k (lt_of_lt_of_le hk h.le)
    exact ⟨hslot'.trans hslot, hwait'.trans hwait⟩
  new k hk hle := by
    by_cases hy : k < y.2.length
    · exact (h'.old k hy).2.mpr (h.new k hy hle)
    · exact h'.new k hk (Nat.not_lt.mp hy)

/-- A new slot, listed in one frame. -/
theorem Keeps.append {slot : JumpTable} (hperm : (pendings s').Perm (jt.length :: pendings s)) :
    Keeps (s, jt) (s', jt ++ [slot]) where
  le := by
    simp only [List.length_append]
    omega
  old k hk := by
    refine ⟨getElem?_push slot hk, ?_⟩
    simp only at hk ⊢
    rw [hperm.mem_iff, List.mem_cons, or_iff_right (by omega)]
  new k hk hle := by
    simp only [List.length_append, List.length_singleton] at hk hle
    obtain rfl : k = jt.length := by omega
    rw [hperm.mem_iff]
    exact List.mem_cons_self

theorem keeps_pushSlot {l : ℕ} {slot : JumpTable} (hl : l < c.ctrlStack.length) :
    Keeps (shape c) (shape (pushSlot l slot c)) := Keeps.append (pendings_modify hl)

theorem keeps_unreachable (h : unreachable c = .ok c') : Keeps (shape c) (shape c') := by
  obtain ⟨fr, rest, hframes, -, rfl⟩ := unreachable_ok h
  unfold shape
  rw [hframes]
  exact Keeps.of_pendings rfl

theorem onBlock_keeps {op : WasmOpcode} {imm : Stream} {type : FuncType} (h : onBlock op imm type c = .ok c') :
    Keeps (shape c) (shape c') := by
  obtain ⟨ps, rs, k, ts, -, -, -, -, rfl⟩ := onBlock_ok h
  rw [pushVals_shape]
  unfold shape
  by_cases hif : op = .if_
  · simp only [if_pos hif]
    refine Keeps.append ?_
    rw [pendings_cons]
    simp [blockFrame, hif]
  · simp only [if_neg hif]
    refine Keeps.of_pendings ?_
    rw [pendings_cons]
    simp [blockFrame, hif]

theorem onBrOrIf_keeps {op : WasmOpcode} {imm : Stream} {l : ℕ} (h : onBrOrIf op imm l c = .ok c') :
    Keeps (shape c) (shape c') := by
  obtain ⟨fr, k0, ts0, k, ts, c2, hfr, -, -, -, -, hc2, h⟩ := onBrOrIf_ok h
  have hlt := (List.getElem?_eq_some_iff.mp hfr).1
  have hslot : Keeps (shape c) (shape c2) := by
    rw [hc2]
    exact keeps_pushSlot (c := { c with valStack := (c.valStack.drop k0).drop k }) hlt
  by_cases hop : op = .br
  · rw [if_pos hop] at h
    exact hslot.trans (keeps_unreachable h)
  · rw [if_neg hop] at h
    cases h
    rw [pushVals_shape]
    exact hslot

theorem SlotRun.keeps {pcEnd arity : ℕ} {ls : List ℕ} (h : SlotRun pcEnd arity ls c c') :
    Keeps (shape c) (shape c') := by
  induction h with
  | nil => exact .refl _
  | @cons l ls c c' fr k ts hfr _ _ _ _ ih =>
    have hlt := (List.getElem?_eq_some_iff.mp hfr).1
    rw [pushVals_shape] at ih
    exact (keeps_pushSlot (c := { c with valStack := c.valStack.drop k }) hlt).trans ih

/-- Only `else` and `end` give targets. -/
theorem onInstr_keeps {i : Instr} {imm : Stream} (h : onInstr mod i imm c = .ok c') (helse : i ≠ .else_)
    (hend : i ≠ .end_) : Keeps (shape c) (shape c') := by
  by_cases hplain : i.isControl = false
  · obtain ⟨k, ts, us, hs⟩ := onInstr_plain hplain h
    rw [hs.shape_eq]
    exact .refl _
  · cases i with
    | unreachable => exact keeps_unreachable h
    | block op type => exact onBlock_keeps h
    | else_ => exact absurd rfl helse
    | end_ => exact absurd rfl hend
    | brOrIf op l => exact onBrOrIf_keeps h
    | brTable =>
      obtain ⟨t, k0, n, pc1, labels, pc2, fr, c2, c3, k, ts, -, -, -, -, hrun, -, -, -, hc3, h⟩ := onBrTable_ok h
      have hcut := keeps_unreachable h
      rw [hc3] at hcut
      exact hrun.keeps.trans hcut
    | return_ =>
      obtain ⟨fr, k, ts, c2, -, -, -, hc2, h⟩ := onReturn_ok h
      have hcut := keeps_unreachable h
      rw [hc2] at hcut
      exact hcut
    | _ => exact absurd rfl hplain

end Keeps

/-! ### Targets -/

/-- The callback gives slot `k` this target: `end` to the slots of the frame that it closes, and `else` to the first
slot of the frame, which is the one of the `if`. -/
def Gives (i : Instr) (imm : ℕ) (c : Ctx) (k target : ℕ) (adj : ℤ) : Prop :=
  ∃ cf ∈ c.ctrlStack.head?,
    (i = .end_ ∧ k ∈ cf.pendingJtSlots ∧ (target, adj) = landing cf imm) ∨
      (i = .else_ ∧ k ∈ cf.pendingJtSlots.take 1 ∧ (target, adj) = (u32 imm, 0))

/-- What a callback does to slot `k`, if it gives it a target and if it does not. -/
structure SlotStep (i : Instr) (imm : ℕ) (c c' : Ctx) (k : ℕ) : Prop where
  given : ∀ target adj, Gives i imm c k target adj →
    k ∈ pendings c.ctrlStack ∧ k ∉ pendings c'.ctrlStack ∧ c'.jt[k]? = (c.jt[k]?).map (patched target adj)
  kept : (¬ ∃ target adj, Gives i imm c k target adj) →
    (k ∈ pendings c'.ctrlStack ↔ k ∈ pendings c.ctrlStack) ∧ c'.jt[k]? = c.jt[k]?

/-- The slots that a callback makes wait for their targets. -/
def NewWait (c c' : Ctx) : Prop := ∀ k < c'.jt.length, c.jt.length ≤ k → k ∈ pendings c'.ctrlStack

section Targets
variable {c c' : Ctx} {mod : Module} {imm : Stream} {k : ℕ}

theorem onEnd_slot (hpend : PendInv (shape c)) (h : onEnd imm c = .ok c') :
    NewWait c c' ∧ ∀ k < c.jt.length, SlotStep .end_ imm.p c c' k := by
  obtain ⟨cf, rest, n, ts, hframes, -, -, rfl⟩ := onEnd_ok h
  unfold shape at hpend
  rw [hframes] at hpend
  refine ⟨fun k hk hle => ?_, fun k hk => ⟨?_, fun hnone => ?_⟩⟩
  · simp only [pushVals_jt, length_closeSlots] at hk
    omega
  · rintro target adj ⟨cf', hcf', ⟨-, hmem, hland⟩ | ⟨hno, -⟩⟩
    · rw [hframes] at hcf' ⊢
      cases hcf'
      refine ⟨?_, ?_, ?_⟩
      · rw [pendings_cons]
        exact List.mem_append_left _ hmem
      · rw [pushVals_ctrlStack]
        exact fun hrest => hpend.not_mem_top hrest hmem
      · rw [pushVals_jt, closeSlots_eq, getElem?_patchSlots, if_pos hmem, ← hland]
    · cases hno
  · have hout : k ∉ cf.pendingJtSlots := fun hmem =>
      hnone ⟨_, _, cf, by rw [hframes]; rfl, Or.inl ⟨rfl, hmem, rfl⟩⟩
    rw [pushVals_ctrlStack, pushVals_jt, hframes, pendings_cons, List.mem_append, or_iff_right hout]
    exact ⟨Iff.rfl, getElem?_closeSlots_of_not_mem hout⟩

theorem onElse_slot (hpend : PendInv (shape c)) (h : onElse imm c = .ok c') :
    NewWait c c' ∧ ∀ k < c.jt.length, SlotStep .else_ imm.p c c' k := by
  obtain ⟨cf, rest, n, ts, ps, rs, slot, hframes, -, -, -, -, -, -, rfl⟩ := onElse_ok h
  unfold shape at hpend
  rw [hframes] at hpend
  -- the slots of the frame are those of the `if` and those that move to the new frame, and no other frame lists them
  have hsplit : cf.pendingJtSlots.take 1 ++ cf.pendingJtSlots.drop 1 = cf.pendingJtSlots := List.take_append_drop 1 _
  have hnodup : (cf.pendingJtSlots.take 1 ++ (cf.pendingJtSlots.drop 1 ++ pendings rest)).Nodup := by
    rw [← List.append_assoc, hsplit]
    exact hpend.nodup
  have hbefore : pendings (cf :: rest) = cf.pendingJtSlots.take 1 ++ (cf.pendingJtSlots.drop 1 ++ pendings rest) := by
    rw [pendings_cons, ← List.append_assoc, hsplit]
  have hafter : ∀ k < c.jt.length,
      (k ∈ pendings (elseFrame cf ps rs (c.valStack.length - n) c.jt.length :: rest) ↔
        k ∈ cf.pendingJtSlots.drop 1 ++ pendings rest) := by
    intro k hk
    have hne : k ≠ c.jt.length := by omega
    rw [pendings_cons, elseFrame, List.mem_append, List.mem_append, List.mem_append, List.mem_singleton]
    simp only [hne, or_false]
  refine ⟨fun k hk hle => ?_, fun k hk => ⟨?_, fun hnone => ?_⟩⟩
  · simp only [pushVals_jt, List.length_append, length_patchSlots, List.length_singleton] at hk
    obtain rfl : k = c.jt.length := by omega
    rw [pushVals_ctrlStack, pendings_cons, elseFrame]
    exact List.mem_append_left _ (List.mem_append_right _ List.mem_cons_self)
  · rintro target adj ⟨cf', hcf', ⟨hno, -⟩ | ⟨-, hmem, hland⟩⟩
    · cases hno
    · rw [hframes] at hcf' ⊢
      cases hcf'
      cases hland
      refine ⟨?_, ?_, ?_⟩
      · rw [hbefore]
        exact List.mem_append_left _ hmem
      · rw [pushVals_ctrlStack, hafter k hk]
        exact fun hrest => (List.nodup_append.mp hnodup).2.2 k hmem k hrest rfl
      · rw [pushVals_jt, getElem?_push _ (by rw [length_patchSlots]; exact hk), getElem?_patchSlots, if_pos hmem]
  · have hout : k ∉ cf.pendingJtSlots.take 1 := fun hmem =>
      hnone ⟨_, _, cf, by rw [hframes]; rfl, Or.inr ⟨rfl, hmem, rfl⟩⟩
    refine ⟨?_, ?_⟩
    · rw [pushVals_ctrlStack, hafter k hk, hframes, hbefore]
      exact ⟨List.mem_append_right _, fun hmem => (List.mem_append.mp hmem).resolve_left hout⟩
    · rw [pushVals_jt, getElem?_push _ (by rw [length_patchSlots]; exact hk), getElem?_patchSlots, if_neg hout]

/-- Every callback, seen from one slot. -/
theorem onInstr_slot {i : Instr} (hpend : PendInv (shape c)) (h : onInstr mod i imm c = .ok c') :
    NewWait c c' ∧ ∀ k < c.jt.length, SlotStep i imm.p c c' k := by
  by_cases hend : i = .end_
  · subst hend
    exact onEnd_slot hpend h
  by_cases helse : i = .else_
  · subst helse
    exact onElse_slot hpend h
  have hkeeps : Keeps (shape c) (shape c') := onInstr_keeps h helse hend
  refine ⟨fun k hk hle => hkeeps.new k hk hle, fun k hk => ⟨?_, fun _ => ?_⟩⟩
  · rintro target adj ⟨cf, -, ⟨hi, -⟩ | ⟨hi, -⟩⟩
    · exact absurd hi hend
    · exact absurd hi helse
  · obtain ⟨hslot, hwait⟩ := hkeeps.old k hk
    exact ⟨hwait, hslot⟩

end Targets

end Silverfir.Validator
