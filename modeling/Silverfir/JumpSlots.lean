import Silverfir.ValidatorControl

/-! The slots of the jump table while validation runs. Every callback edits the frames and the
table in a few ways only, and a slot without target is pending in exactly one open frame. -/
namespace Silverfir.Validator

open ListStack

/-! ### Patching -/

/-- A slot with its target. -/
def patched (target : ℕ) (adj : ℤ) (slot : JumpTable) : JumpTable :=
  { slot with targetOffset := i32Sub target slot.pc + adj }

theorem patchSlots_cons (i : ℕ) (idxs : List ℕ) (target : ℕ) (adj : ℤ) (jt : List JumpTable) :
    patchSlots (i :: idxs) target adj jt = patchSlots idxs target adj (jt.modify i (patched target adj)) := rfl

@[simp] theorem length_patchSlots (idxs : List ℕ) (target : ℕ) (adj : ℤ) (jt : List JumpTable) :
    (patchSlots idxs target adj jt).length = jt.length := by
  induction idxs generalizing jt with
  | nil => rfl
  | cons i idxs ih => rw [patchSlots_cons, ih, List.length_modify]

theorem getElem?_patchSlots (idxs : List ℕ) (target : ℕ) (adj : ℤ) (jt : List JumpTable) (k : ℕ) :
    (patchSlots idxs target adj jt)[k]? =
      if k ∈ idxs then (jt[k]?).map (patched target adj) else jt[k]? := by
  induction idxs generalizing jt with
  | nil => simp [patchSlots]
  | cons i idxs ih =>
    rw [patchSlots_cons, ih, List.getElem?_modify]
    by_cases hk : i = k
    · subst hk
      cases jt[i]? <;> simp [patched]
    · have hk' : k ≠ i := fun h => hk h.symm
      cases jt[k]? <;> simp [hk, hk']

@[simp] theorem length_closeSlots (cf : CtrlFrame) (imm : ℕ) (jt : List JumpTable) :
    (closeSlots cf imm jt).length = jt.length := by
  unfold closeSlots
  split_ifs <;> simp

/-- The code offset at which a branch to `cf` arrives, when the `end` of `cf` is the byte
before offset `imm`. -/
def landing (cf : CtrlFrame) (imm : ℕ) : ℕ × ℤ :=
  if cf.type = .loop then (cf.pc, 0) else if cf.type = .func then (u32 imm, -1) else (u32 imm, 0)

theorem closeSlots_eq (cf : CtrlFrame) (imm : ℕ) (jt : List JumpTable) :
    closeSlots cf imm jt = patchSlots cf.pendingJtSlots (landing cf imm).1 (landing cf imm).2 jt := by
  unfold closeSlots landing
  split_ifs <;> rfl

/-! ### Edits -/

/-- The frames and the table of a context. -/
abbrev Shape := List CtrlFrame × List JumpTable

def shape (c : Ctx) : Shape := (c.ctrlStack, c.jt)

/-- What one callback can do to the frames and the table; `P` describes the slots it makes. -/
inductive Edit (P : JumpTable → Prop) : Shape → Shape → Prop
  | openFrame {s jt fr} (ht : fr.type ≠ .if_) (hp : fr.pendingJtSlots = []) : Edit P (s, jt) (fr :: s, jt)
  | openIf {s jt fr slot} (ht : fr.type = .if_) (hp : fr.pendingJtSlots = [jt.length]) (hs : P slot) :
      Edit P (s, jt) (fr :: s, jt ++ [slot])
  | slot {s jt l slot} (hl : l < s.length) (hs : P slot) :
      Edit P (s, jt) (s.modify l (·.addPending [jt.length]), jt ++ [slot])
  | mark {s jt fr} : Edit P (fr :: s, jt) ({ fr with unreachable := true } :: s, jt)
  | close {s jt fr} (imm : ℕ) : Edit P (fr :: s, jt) (s, closeSlots fr imm jt)
  | else_ {s jt fr fr' slot} (imm : ℕ) (ht : fr.type = .if_) (ht' : fr'.type = .else_)
      (hf : fr'.ftype = fr.ftype) (hh : fr.height ≤ fr'.height)
      (hp : fr'.pendingJtSlots = fr.pendingJtSlots.drop 1 ++ [jt.length]) (hs : P slot) :
      Edit P (fr :: s, jt) (fr' :: s, patchSlots (fr.pendingJtSlots.take 1) (u32 imm) 0 jt ++ [slot])

/-- The slots that wait for a target. -/
def pendings (s : List CtrlFrame) : List ℕ := s.flatMap (·.pendingJtSlots)

theorem pendings_cons (fr : CtrlFrame) (s : List CtrlFrame) :
    pendings (fr :: s) = fr.pendingJtSlots ++ pendings s := List.flatMap_cons

theorem pendings_modify {s : List CtrlFrame} {l k : ℕ} (hl : l < s.length) :
    (pendings (s.modify l (·.addPending [k]))).Perm (k :: pendings s) := by
  induction s generalizing l with
  | nil => simp at hl
  | cons fr s ih =>
    cases l with
    | zero =>
      rw [List.modify_zero_cons, pendings_cons, pendings_cons]
      simp only [CtrlFrame.addPending]
      rw [List.append_assoc]
      exact List.perm_middle
    | succ l =>
      rw [List.modify_succ_cons, pendings_cons, pendings_cons]
      have hperm := ih (by simpa using hl)
      exact (hperm.append_left _).trans List.perm_middle

/-- Every slot without target is pending in one frame, and an if frame has the slot of its `if`
in front. -/
structure PendInv (x : Shape) : Prop where
  nodup : (pendings x.1).Nodup
  bound : ∀ k ∈ pendings x.1, k < x.2.length
  ifs : ∀ fr ∈ x.1, fr.type = .if_ → fr.pendingJtSlots ≠ []

theorem PendInv.push {s : List CtrlFrame} {jt : List JumpTable} (h : PendInv (s, jt)) {ks : List ℕ}
    {s' : List CtrlFrame} (slot : JumpTable) (hperm : (pendings s').Perm (jt.length :: ks))
    (hks : ks.Sublist (pendings s)) : (pendings s').Nodup ∧ ∀ k ∈ pendings s', k < (jt ++ [slot]).length := by
  have hb : ∀ k ∈ ks, k < jt.length := fun k hk => h.bound k (hks.subset hk)
  constructor
  · rw [hperm.nodup_iff, List.nodup_cons]
    exact ⟨fun hk => absurd (hb _ hk) (lt_irrefl _), hks.nodup h.nodup⟩
  · intro k hk
    rw [List.length_append, List.length_singleton]
    rcases List.mem_cons.mp (hperm.mem_iff.mp hk) with rfl | hk
    · omega
    · have := hb k hk
      omega

theorem Edit.pendInv {P : JumpTable → Prop} {x y : Shape} (h : Edit P x y) (hx : PendInv x) :
    PendInv y := by
  cases h with
  | @openFrame s jt fr ht hp =>
    have he : pendings (fr :: s) = pendings s := by rw [pendings_cons, hp]; rfl
    refine ⟨by simpa only [he] using hx.nodup, by simpa only [he] using hx.bound, ?_⟩
    intro g hg hgt
    rcases List.mem_cons.mp hg with rfl | hg
    · exact absurd hgt ht
    · exact hx.ifs g hg hgt
  | @openIf s jt fr slot ht hp hs =>
    have hperm : (pendings (fr :: s)).Perm (jt.length :: pendings s) := by
      rw [pendings_cons, hp]; rfl
    obtain ⟨h1, h2⟩ := hx.push slot hperm (List.Sublist.refl _)
    refine ⟨h1, h2, ?_⟩
    intro g hg hgt
    rcases List.mem_cons.mp hg with rfl | hg
    · rw [hp]; simp
    · exact hx.ifs g hg hgt
  | @slot s jt l slot hl hs =>
    obtain ⟨h1, h2⟩ := hx.push slot (pendings_modify hl) (List.Sublist.refl _)
    refine ⟨h1, h2, ?_⟩
    intro g hg hgt
    obtain ⟨n, hn⟩ := List.mem_iff_getElem?.mp hg
    rw [List.getElem?_modify] at hn
    obtain ⟨g0, hg0, he⟩ := Option.map_eq_some_iff.mp hn
    have hmem := List.mem_of_getElem? hg0
    by_cases hln : l = n
    · rw [if_pos hln] at he
      rw [← he]
      simp [CtrlFrame.addPending]
    · rw [if_neg hln] at he
      exact he ▸ hx.ifs g0 hmem (he ▸ hgt)
  | @mark s jt fr =>
    refine ⟨hx.nodup, hx.bound, ?_⟩
    intro g hg hgt
    rcases List.mem_cons.mp hg with rfl | hg
    · exact hx.ifs fr List.mem_cons_self hgt
    · exact hx.ifs g (List.mem_cons_of_mem _ hg) hgt
  | @close s jt fr imm =>
    have hsub : (pendings s).Sublist (pendings (fr :: s)) := by
      rw [pendings_cons]
      exact List.sublist_append_right _ _
    refine ⟨hsub.nodup hx.nodup, ?_, fun g hg => hx.ifs g (List.mem_cons_of_mem _ hg)⟩
    intro k hk
    rw [length_closeSlots]
    exact hx.bound k (hsub.subset hk)
  | @else_ s jt fr fr' slot imm ht ht' hf hh hp hs =>
    have hsub : (fr.pendingJtSlots.drop 1 ++ pendings s).Sublist (pendings (fr :: s)) := by
      rw [pendings_cons]
      exact (List.drop_sublist 1 _).append_right _
    have hperm : (pendings (fr' :: s)).Perm (jt.length :: (fr.pendingJtSlots.drop 1 ++ pendings s)) := by
      rw [pendings_cons, hp, List.append_assoc]
      exact List.perm_middle
    obtain ⟨h1, h2⟩ := hx.push slot hperm hsub
    refine ⟨h1, by simpa using h2, ?_⟩
    intro g hg hgt
    rcases List.mem_cons.mp hg with rfl | hg
    · rw [ht'] at hgt; cases hgt
    · exact hx.ifs g (List.mem_cons_of_mem _ hg) hgt

/-! ### The way of one slot -/

/-- Slot `k` waits for the `end` of frame `n`; in an if frame it is not the slot of the `if`. -/
def Waits (k n : ℕ) (s : List CtrlFrame) : Prop :=
  ∃ fr, fromBottom s n = some fr ∧ k ∈ fr.pendingJtSlots ∧ (fr.type = .if_ → k ∈ fr.pendingJtSlots.tail)

/-- Slot `k` is the one of the `if` that opened frame `n`. -/
def IfWaits (k n : ℕ) (s : List CtrlFrame) : Prop :=
  ∃ fr, fromBottom s n = some fr ∧ fr.type = .if_ ∧ fr.pendingJtSlots.head? = some k

theorem mem_pendings {s : List CtrlFrame} {n k : ℕ} {fr : CtrlFrame} (h : fromBottom s n = some fr)
    (hk : k ∈ fr.pendingJtSlots) : k ∈ pendings s :=
  List.mem_flatMap.mpr ⟨fr, mem_of_fromBottom h, hk⟩

/-- A slot that is pending further down is not among those of the top frame. -/
theorem PendInv.not_mem_top {fr : CtrlFrame} {s : List CtrlFrame} {jt : List JumpTable}
    (h : PendInv (fr :: s, jt)) {k : ℕ} (hk : k ∈ pendings s) : k ∉ fr.pendingJtSlots := by
  have hnodup : (fr.pendingJtSlots ++ pendings s).Nodup := h.nodup
  intro hk'
  exact (List.nodup_append.mp hnodup).2.2 k hk' k hk rfl

theorem getElem?_push {jt : List JumpTable} {k : ℕ} (slot : JumpTable) (hk : k < jt.length) :
    (jt ++ [slot])[k]? = jt[k]? := List.getElem?_append_left hk

theorem getElem?_closeSlots_of_not_mem {cf : CtrlFrame} {imm k : ℕ} {jt : List JumpTable}
    (hk : k ∉ cf.pendingJtSlots) : (closeSlots cf imm jt)[k]? = jt[k]? := by
  rw [closeSlots_eq, getElem?_patchSlots, if_neg hk]

theorem fromBottom_modify_addPending {s : List CtrlFrame} {l n k : ℕ} {fr : CtrlFrame}
    (h : fromBottom s n = some fr) : ∃ ks, fromBottom (s.modify l (·.addPending [k])) n = some (fr.addPending ks) := by
  rw [fromBottom_modify, h]
  by_cases he : n + l + 1 = s.length
  · exact ⟨[k], by rw [if_pos he]; rfl⟩
  · exact ⟨[], by rw [if_neg he, CtrlFrame.addPending_nil]⟩

/-- Below the top frame an edit only adds pending slots. -/
theorem Edit.grow {P : JumpTable → Prop} {x y : Shape} (h : Edit P x y) {n : ℕ} {fr : CtrlFrame}
    (hn : n + 1 < x.1.length) (hfr : fromBottom x.1 n = some fr) :
    ∃ ks, fromBottom y.1 n = some (fr.addPending ks) := by
  cases h with
  | openFrame ht hp | openIf ht hp hs =>
    exact ⟨[], by rw [fromBottom_cons_lt (by simp only at hn; omega), CtrlFrame.addPending_nil]; exact hfr⟩
  | slot hl hs => exact fromBottom_modify_addPending hfr
  | mark | else_ imm ht ht' hf hh hp hs =>
    simp only [List.length_cons] at hn
    rw [fromBottom_cons_lt (by omega)] at hfr
    exact ⟨[], by rw [fromBottom_cons_lt (by omega), CtrlFrame.addPending_nil]; exact hfr⟩
  | close imm =>
    simp only [List.length_cons] at hn
    rw [fromBottom_cons_lt (by omega)] at hfr
    exact ⟨[], by rw [CtrlFrame.addPending_nil]; exact hfr⟩

/-- What an open frame can become: it gets pending slots and may be marked as unreachable, and
`else` turns an if frame into an else frame. -/
inductive Becomes (fr fr' : CtrlFrame) : Prop
  | stays (ks : List ℕ) (b : Bool) (he : fr' = { fr.addPending ks with unreachable := b })
      (hu : fr.unreachable = true → b = true)
  | else_ (ks : List ℕ) (ht : fr.type = .if_) (ht' : fr'.type = .else_) (hf : fr'.ftype = fr.ftype)
      (hh : fr.height ≤ fr'.height) (hp : fr'.pendingJtSlots = fr.pendingJtSlots.drop 1 ++ ks)

theorem Becomes.refl (fr : CtrlFrame) : Becomes fr fr :=
  .stays [] fr.unreachable (by rw [CtrlFrame.addPending_nil]) id

theorem Edit.top {P : JumpTable → Prop} {x y : Shape} (h : Edit P x y) {n : ℕ} {fr : CtrlFrame}
    (hfr : fromBottom x.1 n = some fr) (hn : n < y.1.length) :
    ∃ fr', fromBottom y.1 n = some fr' ∧ Becomes fr fr' := by
  have hlt := lt_length_of_fromBottom hfr
  cases h with
  | openFrame ht hp | openIf ht hp hs => exact ⟨fr, by rw [fromBottom_cons_lt hlt]; exact hfr, .refl fr⟩
  | slot hl hs =>
    obtain ⟨ks, hks⟩ := fromBottom_modify_addPending hfr
    exact ⟨_, hks, .stays ks fr.unreachable rfl id⟩
  | @mark s jt g =>
    by_cases he : n = s.length
    · subst he
      rw [fromBottom_cons_length] at hfr
      cases hfr
      exact ⟨_, fromBottom_cons_length _ _, .stays [] true (by rw [CtrlFrame.addPending_nil]) fun _ => rfl⟩
    · rw [fromBottom_cons, if_neg he] at hfr
      exact ⟨fr, by rw [fromBottom_cons, if_neg he]; exact hfr, .refl fr⟩
  | @close s jt g imm =>
    simp only at hn
    rw [fromBottom_cons_lt hn] at hfr
    exact ⟨fr, hfr, .refl fr⟩
  | @else_ s jt g g' slot imm ht ht' hf hh hp hs =>
    by_cases he : n = s.length
    · subst he
      rw [fromBottom_cons_length] at hfr
      cases hfr
      exact ⟨g', fromBottom_cons_length _ _, .else_ _ ht ht' hf hh hp⟩
    · rw [fromBottom_cons, if_neg he] at hfr
      exact ⟨fr, by rw [fromBottom_cons, if_neg he]; exact hfr, .refl fr⟩

/-- What an edit does to an old slot: nothing, unless the slot was pending and no longer is. -/
theorem Edit.slot_eq {P : JumpTable → Prop} {x y : Shape} (h : Edit P x y) (hx : PendInv x) {k : ℕ}
    (hk : k < x.2.length) (hp : k ∈ pendings x.1 → k ∈ pendings y.1) : y.2[k]? = x.2[k]? := by
  have hy := h.pendInv hx
  cases h with
  | openFrame ht hp => rfl
  | openIf ht hp hs => exact getElem?_push _ hk
  | slot hl hs => exact getElem?_push _ hk
  | mark => rfl
  | close imm =>
    refine getElem?_closeSlots_of_not_mem fun hmem => ?_
    exact hx.not_mem_top (hp (by rw [pendings_cons]; exact List.mem_append_left _ hmem)) hmem
  | @else_ s jt fr fr' slot imm ht ht' hf hh hp' hs =>
    rw [getElem?_push _ (by rw [length_patchSlots]; exact hk), getElem?_patchSlots, if_neg]
    intro hmem
    have hin := hp (by rw [pendings_cons]; exact List.mem_append_left _ (List.mem_of_mem_take hmem))
    rw [pendings_cons, hp', List.append_assoc] at hin
    rcases List.mem_append.mp hin with hd | hd
    · -- the slot of the `if` is not among the others of its frame
      have hnodup : fr.pendingJtSlots.Nodup := (List.nodup_append.mp hx.nodup).1
      rw [← List.take_append_drop 1 fr.pendingJtSlots] at hnodup
      exact (List.nodup_append.mp hnodup).2.2 k hmem k hd rfl
    · rcases List.mem_append.mp hd with hd | hd
      · simp only [List.mem_singleton] at hd
        simp only at hk
        omega
      · exact hx.not_mem_top hd (List.mem_of_mem_take hmem)

/-- A slot that waits for the `end` of a frame waits as long as the frame is open. -/
theorem Edit.waits {P : JumpTable → Prop} {x y : Shape} (h : Edit P x y) {k n : ℕ}
    (hw : Waits k n x.1) (hn : n < y.1.length) : Waits k n y.1 := by
  obtain ⟨fr, hfr, hk, hif⟩ := hw
  obtain ⟨fr', hy, hb⟩ := h.top hfr hn
  refine ⟨fr', hy, ?_⟩
  cases hb with
  | stays ks b he hu =>
    subst he
    refine ⟨List.mem_append_left _ hk, ?_⟩
    intro ht
    have := hif ht
    simp only [CtrlFrame.addPending]
    rw [List.tail_append_of_ne_nil (List.ne_nil_of_mem hk)]
    exact List.mem_append_left _ this
  | else_ ks ht ht' hf hh hp =>
    refine ⟨?_, fun he => by rw [ht'] at he; cases he⟩
    rw [hp, List.drop_one]
    exact List.mem_append_left _ (hif ht)

theorem Edit.ifWaits {P : JumpTable → Prop} {x y : Shape} (h : Edit P x y) {k n : ℕ} {fr' : CtrlFrame}
    (hw : IfWaits k n x.1) (hn : fromBottom y.1 n = some fr') (ht' : fr'.type = .if_) : IfWaits k n y.1 := by
  obtain ⟨fr, hfr, ht, hk⟩ := hw
  obtain ⟨g, hy, hb⟩ := h.top hfr (lt_length_of_fromBottom hn)
  obtain rfl : fr' = g := Option.some.inj (hn.symm.trans hy)
  cases hb with
  | stays ks b he hu =>
    subst he
    obtain ⟨rest, hrest⟩ := List.head?_eq_some_iff.mp hk
    exact ⟨_, hy, ht', by simp [CtrlFrame.addPending, hrest]⟩
  | else_ ks _ hg => rw [ht'] at hg; cases hg

theorem Waits.mem_pendings {k n : ℕ} {s : List CtrlFrame} (h : Waits k n s) : k ∈ pendings s := by
  obtain ⟨fr, hfr, hk, -⟩ := h
  exact Validator.mem_pendings hfr hk

theorem IfWaits.mem_pendings {k n : ℕ} {s : List CtrlFrame} (h : IfWaits k n s) : k ∈ pendings s := by
  obtain ⟨fr, hfr, -, hk⟩ := h
  exact Validator.mem_pendings hfr (List.mem_of_mem_head? hk)

/-- A slot that has its target is left alone. -/
theorem Edit.settled {P : JumpTable → Prop} {x y : Shape} (h : Edit P x y) {k : ℕ}
    (hk : k < x.2.length) (hp : k ∉ pendings x.1) : k ∉ pendings y.1 := by
  cases h with
  | openFrame ht hp' => rw [pendings_cons, hp']; exact hp
  | openIf ht hp' hs =>
    rw [pendings_cons, hp']
    simp only at hk
    simp only [List.singleton_append, List.mem_cons, not_or]
    exact ⟨by omega, hp⟩
  | slot hl hs =>
    rw [(pendings_modify hl).mem_iff, List.mem_cons, not_or]
    simp only at hk
    exact ⟨by omega, hp⟩
  | mark => exact hp
  | close imm =>
    rw [pendings_cons, List.mem_append, not_or] at hp
    exact hp.2
  | @else_ s jt fr fr' slot imm ht ht' hf hh hp' hs =>
    rw [pendings_cons, List.mem_append, not_or] at hp
    simp only at hk
    rw [pendings_cons, hp', List.mem_append, List.mem_append, List.mem_singleton, not_or, not_or]
    exact ⟨⟨fun hd => hp.1 (List.mem_of_mem_drop hd), by omega⟩, hp.2⟩

/-- The offsets of the slots never change. -/
theorem Edit.pcs {P : JumpTable → Prop} {x y : Shape} (h : Edit P x y) :
    ∃ news, y.2.map (·.pc) = x.2.map (·.pc) ++ news ∧ ∀ pc ∈ news, ∃ slot, P slot ∧ slot.pc = pc := by
  have patch : ∀ (idxs : List ℕ) (target : ℕ) (adj : ℤ) (jt : List JumpTable),
      (patchSlots idxs target adj jt).map (·.pc) = jt.map (·.pc) := by
    intro idxs target adj jt
    apply List.ext_getElem?
    intro k
    rw [List.getElem?_map, List.getElem?_map, getElem?_patchSlots]
    by_cases hk : k ∈ idxs
    · rw [if_pos hk]
      cases jt[k]? <;> rfl
    · rw [if_neg hk]
  cases h with
  | openFrame ht hp => exact ⟨[], by simp, by simp⟩
  | openIf ht hp hs | slot hl hs => exact ⟨_, List.map_append, by simpa using ⟨_, hs, rfl⟩⟩
  | mark => exact ⟨[], by simp, by simp⟩
  | close imm => exact ⟨[], by rw [closeSlots_eq, patch]; simp, by simp⟩
  | else_ imm ht ht' hf hh hp hs =>
    exact ⟨_, by rw [List.map_append, patch], by simpa using ⟨_, hs, rfl⟩⟩

end Silverfir.Validator
