import Silverfir.Frames

/-! Runs of validation that stay inside a frame: what is open around the frame stays as it is,
slots that wait for the frame go on waiting, and the run leaves the frame through its `end`. -/
namespace Silverfir.Validator

open ListStack
open Relation (ReflTransGen)

/-- A frame and what it is later, while it is open. -/
inductive Kept (fr fr' : CtrlFrame) : Prop
  | same (ht : fr'.type = fr.type) (hf : fr'.ftype = fr.ftype) (hh : fr'.height = fr.height)
      (hpc : fr'.pc = fr.pc) (hu : fr.unreachable = true → fr'.unreachable = true)
  | else_ (ht : fr.type = .if_) (ht' : fr'.type = .else_) (hf : fr'.ftype = fr.ftype)
      (hh : fr.height ≤ fr'.height)

theorem Kept.refl (fr : CtrlFrame) : Kept fr fr := .same rfl rfl rfl rfl id

theorem Kept.trans {a b c : CtrlFrame} (h : Kept a b) (k : Kept b c) : Kept a c := by
  cases h with
  | same ht hf hh hpc hu =>
    cases k with
    | same ht2 hf2 hh2 hpc2 hu2 =>
      exact .same (ht2.trans ht) (hf2.trans hf) (hh2.trans hh) (hpc2.trans hpc) fun ha => hu2 (hu ha)
    | else_ ht2 ht2' hf2 hh2 => exact .else_ (ht.symm.trans ht2) ht2' (hf2.trans hf) (by omega)
  | else_ ht ht' hf hh =>
    cases k with
    | same ht2 hf2 hh2 => exact .else_ ht (ht2.trans ht') (hf2.trans hf) (by omega)
    | else_ ht2 => rw [ht'] at ht2; cases ht2

theorem Becomes.kept {a b : CtrlFrame} (h : Becomes a b) : Kept a b := by
  cases h with
  | stays ks u he hu => subst he; exact .same rfl rfl rfl rfl hu
  | else_ ks ht ht' hf hh => exact .else_ ht ht' hf hh

theorem Kept.ftype {a b : CtrlFrame} (h : Kept a b) : b.ftype = a.ftype := by
  cases h with
  | same _ hf => exact hf
  | else_ _ _ hf => exact hf

theorem Kept.height_le {a b : CtrlFrame} (h : Kept a b) : a.height ≤ b.height := by
  cases h with
  | same _ _ hh => exact hh.ge
  | else_ _ _ _ hh => exact hh

theorem FrameTypes.eq_of_ftype {a b : CtrlFrame} (ha : FrameTypes a) (hb : FrameTypes b)
    (h : b.ftype = a.ftype) : b.startTypes = a.startTypes ∧ b.endTypes = a.endTypes := by
  unfold FrameTypes at ha hb
  rw [h] at hb
  exact ⟨Except.ok.inj (hb.1.symm.trans ha.1), Except.ok.inj (hb.2.symm.trans ha.2)⟩

/-! ### One callback -/

section Effect
variable {P : JumpTable → Prop} {c c' : Ctx}

theorem Effect.grow (h : Effect P c c') {n : ℕ} {fr : CtrlFrame} (hn : n + 1 < c.ctrlStack.length)
    (hfr : fromBottom c.ctrlStack n = some fr) :
    ∃ ks, fromBottom c'.ctrlStack n = some (fr.addPending ks) := by
  have key : ∀ y : Shape, ReflTransGen (Run.Within (Edit P) fun x => c.ctrlStack.length ≤ x.1.length)
      (shape c) y → ∃ ks, fromBottom y.1 n = some (fr.addPending ks) := by
    intro y hy
    induction hy with
    | refl => exact ⟨[], by rw [CtrlFrame.addPending_nil]; exact hfr⟩
    | tail _ hs ih =>
      obtain ⟨ks, hks⟩ := ih
      obtain ⟨ls, hls⟩ := hs.2.grow (by have := hs.1; omega) hks
      exact ⟨ks ++ ls, by rw [hls, CtrlFrame.addPending_addPending]⟩
  exact key _ h.edits

/-- An invariant of the edits that is asked for only while frame `n` is open. -/
theorem Effect.induction (h : Effect P c c') {n : ℕ} (hn : n < c.ctrlStack.length)
    {Q : Shape → Prop} (hQ : ∀ x y, Edit P x y → n < x.1.length → Q x → n < y.1.length → Q y)
    (hc : Q (shape c)) (hn' : n < c'.ctrlStack.length) : Q (shape c') := by
  have key : ∀ y : Shape, ReflTransGen (Run.Within (Edit P) fun x => c.ctrlStack.length ≤ x.1.length)
      (shape c) y → n < y.1.length → Q y := by
    intro y hy
    induction hy with
    | refl => exact fun _ => hc
    | tail _ hs ih =>
      intro hlt
      have hx := hs.1
      exact hQ _ _ hs.2 (by omega) (ih (by omega)) hlt
  exact key _ h.edits hn'

theorem Effect.kept (h : Effect P c c') {n : ℕ} {fr : CtrlFrame}
    (hfr : fromBottom c.ctrlStack n = some fr) (hn : n < c'.ctrlStack.length) :
    ∃ fr', fromBottom c'.ctrlStack n = some fr' ∧ Kept fr fr' := by
  refine h.induction (lt_length_of_fromBottom hfr) (Q := fun x => ∃ fr', fromBottom x.1 n = some fr' ∧ Kept fr fr')
    ?_ ⟨fr, hfr, .refl fr⟩ hn
  rintro x y hxy - ⟨g, hg, hk⟩ hlt
  obtain ⟨g', hg', hb⟩ := hxy.top hg hlt
  exact ⟨g', hg', hk.trans hb.kept⟩

theorem Effect.pendInv (h : Effect P c c') (hc : PendInv (shape c)) : PendInv (shape c') :=
  Run.invariant (fun _ _ hxy hx => hxy.2.pendInv hx) h.edits hc

/-- A slot without target keeps waiting while its frame is open, and is left alone meanwhile. -/
theorem Effect.waits (h : Effect P c c') (hc : PendInv (shape c)) {k n : ℕ} (hw : Waits k n c.ctrlStack)
    (hn : n < c'.ctrlStack.length) : Waits k n c'.ctrlStack ∧ c'.jt[k]? = c.jt[k]? := by
  have hk : k < c.jt.length := hc.bound k hw.mem_pendings
  have hlt : n < c.ctrlStack.length := by
    obtain ⟨fr, hfr, -⟩ := hw
    exact lt_length_of_fromBottom hfr
  have key := h.induction hlt
    (Q := fun x => PendInv x ∧ Waits k n x.1 ∧ k < x.2.length ∧ x.2[k]? = c.jt[k]?) ?_ ⟨hc, hw, hk, rfl⟩ hn
  · exact ⟨key.2.1, key.2.2.2⟩
  · rintro x y hxy - ⟨hinv, hwx, hkx, hx⟩ hny
    have hwy := hxy.waits hwx hny
    have hinv' := hxy.pendInv hinv
    exact ⟨hinv', hwy, hinv'.bound k hwy.mem_pendings, (hxy.slot_eq hinv hkx fun _ => hwy.mem_pendings).trans hx⟩

theorem Effect.settled (h : Effect P c c') (hc : PendInv (shape c)) {k : ℕ} (hk : k < c.jt.length)
    (hp : k ∉ pendings c.ctrlStack) : k ∉ pendings c'.ctrlStack ∧ c'.jt[k]? = c.jt[k]? := by
  have key : PendInv (shape c') ∧ k ∉ pendings (shape c').1 ∧ k < (shape c').2.length ∧
    (shape c').2[k]? = c.jt[k]? := by
    refine Run.invariant (p := fun x : Shape => PendInv x ∧ k ∉ pendings x.1 ∧ k < x.2.length ∧ x.2[k]? = c.jt[k]?)
      ?_ h.edits ⟨hc, hp, hk, rfl⟩
    rintro x y ⟨-, hxy⟩ ⟨hinv, hpx, hkx, hx⟩
    have he := hxy.slot_eq hinv hkx fun hmem => absurd hmem hpx
    refine ⟨hxy.pendInv hinv, hxy.settled hkx hpx, ?_, he.trans hx⟩
    obtain ⟨news, hnews, -⟩ := hxy.pcs
    have hlen := congrArg List.length hnews
    simp only [List.length_map, List.length_append] at hlen
    omega
  exact ⟨key.2.1, key.2.2.2⟩

theorem Effect.pcs (h : Effect P c c') :
    ∃ news, c'.jt.map (·.pc) = c.jt.map (·.pc) ++ news ∧ ∀ pc ∈ news, ∃ slot, P slot ∧ slot.pc = pc := by
  refine Run.lift_preorder
    (s := fun x y : Shape => ∃ news, y.2.map (·.pc) = x.2.map (·.pc) ++ news ∧
      ∀ pc ∈ news, ∃ slot, P slot ∧ slot.pc = pc)
    ?_ ?_ (fun _ _ hxy => hxy.2.pcs) h.edits
  · exact fun x => ⟨[], by simp, by simp⟩
  · rintro x y z ⟨n1, h1, hp1⟩ ⟨n2, h2, hp2⟩
    refine ⟨n1 ++ n2, by rw [h2, h1, List.append_assoc], ?_⟩
    intro pc hpc
    rcases List.mem_append.mp hpc with hpc | hpc
    · exact hp1 pc hpc
    · exact hp2 pc hpc

end Effect

/-! ### The run of a validation -/

section Runs
variable {mod : Module} {f : Func}

theorem onDecodeBegin_ok {c : Ctx} (h : onDecodeBegin f { jt := f.jt } = .ok c) :
    ∃ ps rs, parseTypes f.fnType.paramCount f.fnType.params = .ok ps ∧
      parseTypes f.fnType.resultCount f.fnType.results = .ok rs ∧ c.locals = ps ++ f.localTypes ∧
      c.valStack = [] ∧ c.ctrlStack = [newFrame .func f.fnType ps rs 0] ∧ c.jt = f.jt := by
  simp only [onDecodeBegin, bind_eq_ok] at h
  obtain ⟨ps, hps, c1, h1, h⟩ := h
  obtain ⟨ps', rs, hps', hrs, hc1⟩ := pushCtrl_ok h1
  obtain rfl : ps = ps' := Except.ok.inj (hps.symm.trans hps')
  cases h
  refine ⟨ps, rs, hps, hrs, ?_, rfl, ?_, ?_⟩
  · rw [hc1]; simp
  · rw [hc1]; simp
  · rw [hc1]; simp

/-- What holds of every context that validation comes by. -/
structure Inv (c : Ctx) : Prop where
  wf : Wf c
  pend : PendInv (shape c)

theorem inv_begin {c : Ctx} (h : onDecodeBegin f { jt := f.jt } = .ok c) : Inv c := by
  obtain ⟨ps, rs, hps, hrs, -, hv, hc, hjt⟩ := onDecodeBegin_ok h
  constructor
  · exact .cons hc .nil (by simp) (by simp [newFrame]) ⟨hps, hrs⟩ (by simp)
  · unfold shape
    rw [hc]
    refine ⟨?_, ?_, ?_⟩
    · simp [pendings, newFrame]
    · simp [pendings, newFrame]
    · simp [newFrame]

/-- Every round, seen from the frames. -/
theorem Reach.inv {x : ℕ × Ctx} (h : Reach mod f x) : Inv x.2 := by
  refine Reach.induction (P := fun x => Inv x.2) (fun c hc => inv_begin hc) ?_ h
  rintro ⟨p, c⟩ ⟨q, c'⟩ - hs hi
  obtain ⟨i, imm, hf, hcb⟩ := step_iff.mp hs
  have he := step_effect hi.wf hf hcb
  exact ⟨he.wf, he.pendInv hi.pend⟩

theorem Reach.effect {x y : ℕ × Ctx} (h : Reach mod f x) (hs : Step mod f x y) :
    ∃ P, Effect P x.2 y.2 := by
  obtain ⟨i, imm, hf, hcb⟩ := step_iff.mp hs
  exact ⟨_, step_effect h.inv.wf hf hcb⟩

/-- A round made while frame `n` is open. -/
abbrev Above (mod : Module) (f : Func) (n : ℕ) : ℕ × Ctx → ℕ × Ctx → Prop :=
  Run.Within (Step mod f) fun x => n < x.2.ctrlStack.length

/-- The frames around an open frame only get more pending slots. -/
theorem Reach.above_grow {x y : ℕ × Ctx} {n : ℕ} (hx : Reach mod f x)
    (h : ReflTransGen (Above mod f n) x y) {m : ℕ} (hm : m < n) {fr : CtrlFrame}
    (hfr : fromBottom x.2.ctrlStack m = some fr) :
    ∃ ks, fromBottom y.2.ctrlStack m = some (fr.addPending ks) := by
  induction h with
  | refl => exact ⟨[], by rw [CtrlFrame.addPending_nil]; exact hfr⟩
  | tail hpath hs ih =>
    obtain ⟨ks, hks⟩ := ih
    obtain ⟨P, he⟩ := (hx.trans (Run.of_within hpath)).effect hs.2
    obtain ⟨ls, hls⟩ := he.grow (by have := hs.1; omega) hks
    exact ⟨ks ++ ls, by rw [hls, CtrlFrame.addPending_addPending]⟩

/-- A frame, through a run in which it stays open. -/
theorem Reach.above_kept {x y : ℕ × Ctx} {n : ℕ} (hx : Reach mod f x)
    (h : ReflTransGen (Above mod f n) x y) {fr : CtrlFrame}
    (hfr : fromBottom x.2.ctrlStack n = some fr) (hn : n < y.2.ctrlStack.length) :
    ∃ fr', fromBottom y.2.ctrlStack n = some fr' ∧ Kept fr fr' := by
  induction h with
  | refl => exact ⟨fr, hfr, .refl fr⟩
  | tail hpath hs ih =>
    obtain ⟨g, hg, hk⟩ := ih hs.1
    obtain ⟨P, he⟩ := (hx.trans (Run.of_within hpath)).effect hs.2
    obtain ⟨g', hg', hk'⟩ := he.kept hg hn
    exact ⟨g', hg', hk.trans hk'⟩

/-- Frames further up are higher. -/
theorem Wf.height_le_top {c : Ctx} (h : Wf c) {n : ℕ} {fr top : CtrlFrame}
    (hfr : fromBottom c.ctrlStack n = some fr) (htop : top ∈ c.ctrlStack.head?) :
    fr.height ≤ top.height := by
  cases hs : c.ctrlStack with
  | nil => rw [hs] at htop; simp at htop
  | cons g s =>
    obtain rfl : g = top := by rw [hs] at htop; exact Option.some.inj htop
    have hmem : fr ∈ g :: s := hs ▸ mem_of_fromBottom hfr
    rcases List.mem_cons.mp hmem with rfl | hmem
    · exact le_rfl
    · exact (h.rest hs).2.1 fr hmem

/-- The operands reach up to every frame. -/
theorem Wf.height_le {c : Ctx} (h : Wf c) {n : ℕ} {fr : CtrlFrame} (hfr : fromBottom c.ctrlStack n = some fr) :
    fr.height ≤ c.valStack.length := by
  obtain ⟨top, htop⟩ : ∃ top, top ∈ c.ctrlStack.head? := by
    have hlt := lt_length_of_fromBottom hfr
    cases hc : c.ctrlStack with
    | nil => rw [hc] at hlt; simp at hlt
    | cons a _ => exact ⟨a, rfl⟩
  exact (h.height_le_top hfr htop).trans (h.top top htop)

/-- The operands below an open frame stay. -/
theorem Reach.above_below {x y : ℕ × Ctx} {n : ℕ} (hx : Reach mod f x)
    (h : ReflTransGen (Above mod f n) x y) {fr : CtrlFrame}
    (hfr : fromBottom x.2.ctrlStack n = some fr) {m : ℕ} (hm : m ≤ fr.height) :
    below m y.2.valStack = below m x.2.valStack := by
  induction h with
  | refl => rfl
  | tail hpath hs ih =>
    rename_i b d
    have hb := hx.trans (Run.of_within hpath)
    obtain ⟨P, he⟩ := hb.effect hs.2
    obtain ⟨g, hg, hk⟩ := hx.above_kept hpath hfr hs.1
    obtain ⟨top, htop⟩ : ∃ top, top ∈ b.2.ctrlStack.head? := by
      have hlt : n < b.2.ctrlStack.length := hs.1
      cases hc : b.2.ctrlStack with
      | nil => rw [hc] at hlt; simp at hlt
      | cons a s => exact ⟨a, rfl⟩
    have hle := hb.inv.wf.height_le_top hg htop
    have hr := he.rests top htop m (by have := hk.height_le; omega)
    exact hr.1.trans ih

/-- A slot waits until its frame is closed. -/
theorem Reach.above_waits {x y : ℕ × Ctx} {k n : ℕ} (hx : Reach mod f x)
    (h : ReflTransGen (Above mod f n) x y) (hw : Waits k n x.2.ctrlStack)
    (hn : n < y.2.ctrlStack.length) : Waits k n y.2.ctrlStack ∧ y.2.jt[k]? = x.2.jt[k]? := by
  induction h with
  | refl => exact ⟨hw, rfl⟩
  | tail hpath hs ih =>
    obtain ⟨hwb, heq⟩ := ih hs.1
    have hb := hx.trans (Run.of_within hpath)
    obtain ⟨P, he⟩ := hb.effect hs.2
    obtain ⟨hwy, hy⟩ := he.waits hb.inv.pend hwb hn
    exact ⟨hwy, hy.trans heq⟩

/-- A slot with a target keeps it. -/
theorem Reach.settled {x y : ℕ × Ctx} {k : ℕ} (hx : Reach mod f x)
    (h : ReflTransGen (Step mod f) x y) (hk : k < x.2.jt.length) (hp : k ∉ pendings x.2.ctrlStack) :
    k ∉ pendings y.2.ctrlStack ∧ y.2.jt[k]? = x.2.jt[k]? := by
  induction h with
  | refl => exact ⟨hp, rfl⟩
  | tail hpath hs ih =>
    rename_i b d
    obtain ⟨hpb, heq⟩ := ih
    have hb := hx.trans hpath
    obtain ⟨P, he⟩ := hb.effect hs
    have hkb : k < b.2.jt.length := by
      have hsome : x.2.jt[k]? = some x.2.jt[k] := List.getElem?_eq_getElem hk
      rw [hsome] at heq
      exact (List.getElem?_eq_some_iff.mp heq).1
    obtain ⟨h1, h2⟩ := he.settled hb.inv.pend hkb hpb
    exact ⟨h1, h2.trans heq⟩

end Runs

end Silverfir.Validator
