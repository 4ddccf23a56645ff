import Silverfir.PendingSlots

/-! The targets of the slots over a whole run: until it is given its target a slot waits in one open frame as it was
made, and it is given its target once. -/
namespace Silverfir.Validator

open ListStack
open Relation (ReflTransGen)

variable {mod : Module} {f : Func} {x y z y' z' : ℕ × Ctx} {k n : ℕ} {target target' : ℕ} {adj adj' : ℤ}

/-- The round from `y` to `z` gives slot `k` this target. -/
def GivenAt (mod : Module) (f : Func) (k : ℕ) (y z : ℕ × Ctx) (target : ℕ) (adj : ℤ) : Prop :=
  ∃ i imm, fetch mod f.code y.1 = .ok (i, imm, z.1) ∧ onInstr mod i ⟨f.code, imm⟩ y.2 = .ok z.2 ∧
    Gives i imm y.2 k target adj

/-- Slot `k` has been given its target on the way to `x`. -/
def Given (mod : Module) (f : Func) (k : ℕ) (x : ℕ × Ctx) : Prop :=
  ∃ y z target adj, Reach mod f y ∧ GivenAt mod f k y z target adj ∧ ReflTransGen (Step mod f) z x

theorem GivenAt.step (h : GivenAt mod f k y z target adj) : Step mod f y z := by
  obtain ⟨i, imm, hfetch, hinstr, -⟩ := h
  exact step_iff.mpr ⟨i, imm, hfetch, hinstr⟩

theorem Given.trans (h : Given mod f k x) (hsteps : ReflTransGen (Step mod f) x y) : Given mod f k y := by
  obtain ⟨y0, z0, target, adj, hreach, hgiven, hpath⟩ := h
  exact ⟨y0, z0, target, adj, hreach, hgiven, hpath.trans hsteps⟩

/-! ### One round -/

/-- The slot was waiting, now it is not, and it has its target. -/
theorem GivenAt.slot (hy : Reach mod f y) (h : GivenAt mod f k y z target adj) :
    k ∈ pendings y.2.ctrlStack ∧ k ∉ pendings z.2.ctrlStack ∧ k < z.2.jt.length ∧
      z.2.jt[k]? = (y.2.jt[k]?).map (patched target adj) := by
  obtain ⟨i, imm, -, hinstr, hgives⟩ := h
  have hpend := hy.inv.pend
  have hwait : k ∈ pendings y.2.ctrlStack := by
    obtain ⟨cf, hcf, hlist⟩ := hgives
    have hmem : k ∈ cf.pendingJtSlots := by
      rcases hlist with ⟨-, hmem, -⟩ | ⟨-, hmem, -⟩
      · exact hmem
      · exact List.mem_of_mem_take hmem
    exact List.mem_flatMap.mpr ⟨cf, List.mem_of_mem_head? hcf, hmem⟩
  have hk : k < y.2.jt.length := hpend.bound k hwait
  obtain ⟨-, hout, hslot⟩ := ((onInstr_slot hpend hinstr).2 k hk).given target adj hgives
  refine ⟨hwait, hout, ?_, hslot⟩
  rw [List.getElem?_eq_getElem hk, Option.map_some] at hslot
  exact (List.getElem?_eq_some_iff.mp hslot).1

/-- A round that does not give the slot its target leaves it alone, and it goes on waiting. -/
theorem Reach.slot_kept (hy : Reach mod f y) (hstep : Step mod f y z) (hk : k < y.2.jt.length)
    (hnot : ∀ target adj, ¬ GivenAt mod f k y z target adj) :
    (k ∈ pendings z.2.ctrlStack ↔ k ∈ pendings y.2.ctrlStack) ∧ z.2.jt[k]? = y.2.jt[k]? := by
  obtain ⟨p, c⟩ := y
  obtain ⟨q, c'⟩ := z
  obtain ⟨i, imm, hfetch, hinstr⟩ := step_iff.mp hstep
  refine ((onInstr_slot hy.inv.pend hinstr).2 k hk).kept ?_
  rintro ⟨target, adj, hgives⟩
  exact hnot target adj ⟨i, imm, hfetch, hinstr, hgives⟩

/-! ### Runs -/

/-- A slot of a function without a table from before waits until it is given its target. -/
theorem Reach.waits_or_given (hjt : f.jt = []) (hx : Reach mod f x) :
    ∀ k < x.2.jt.length, k ∈ pendings x.2.ctrlStack ∨ Given mod f k x := by
  refine Reach.induction (P := fun x => ∀ k < x.2.jt.length, k ∈ pendings x.2.ctrlStack ∨ Given mod f k x) ?_ ?_ hx
  · intro c hc k hk
    obtain ⟨ps, rs, -, -, -, -, -, hc⟩ := onDecodeBegin_ok hc
    rw [hc, hjt] at hk
    cases hk
  · rintro ⟨p, c⟩ ⟨q, c'⟩ hreach hstep ih k hk
    obtain ⟨i, imm, hfetch, hinstr⟩ := step_iff.mp hstep
    obtain ⟨hnew, -⟩ := onInstr_slot hreach.inv.pend hinstr
    by_cases hold : k < c.jt.length
    · rcases ih k hold with hwait | hgiven
      · by_cases hgives : ∃ target adj, GivenAt mod f k (p, c) (q, c') target adj
        · obtain ⟨target, adj, hgives⟩ := hgives
          exact Or.inr ⟨_, _, target, adj, hreach, hgives, .refl⟩
        · have hkept := hreach.slot_kept hstep hold fun target adj h => hgives ⟨target, adj, h⟩
          exact Or.inl (hkept.1.mpr hwait)
      · exact Or.inr (hgiven.trans (.single hstep))
    · exact Or.inl (hnew k hk (Nat.not_lt.mp hold))

/-- A slot that has its target waits no more, and keeps it. -/
theorem GivenAt.settled (hy : Reach mod f y) (h : GivenAt mod f k y z target adj)
    (hx : ReflTransGen (Step mod f) z x) :
    k ∉ pendings x.2.ctrlStack ∧ x.2.jt[k]? = (y.2.jt[k]?).map (patched target adj) := by
  obtain ⟨-, hout, hk, hslot⟩ := h.slot hy
  obtain ⟨hout', hslot'⟩ := (hy.tail h.step).settled hx hk hout
  exact ⟨hout', hslot'.trans hslot⟩

/-- Until it is given its target a slot is as it was made. -/
theorem Reach.slot_untouched (hy : Reach mod f y) (hx : ReflTransGen (Step mod f) y x) (hk : k < y.2.jt.length)
    (hnot : ¬ Given mod f k x) : x.2.jt[k]? = y.2.jt[k]? := by
  induction hx with
  | refl => rfl
  | @tail b d hpath hstep ih =>
    have hb := hy.trans hpath
    have heq : b.2.jt[k]? = y.2.jt[k]? := ih fun hgiven => hnot (hgiven.trans (.single hstep))
    have hkb : k < b.2.jt.length := by
      rw [List.getElem?_eq_getElem hk] at heq
      exact (List.getElem?_eq_some_iff.mp heq).1
    have hkept := hb.slot_kept hstep hkb fun target adj hgives => hnot ⟨b, d, target, adj, hb, hgives, .refl⟩
    exact hkept.2.trans heq

/-- No slot is given a target twice. -/
theorem GivenAt.once (hy : Reach mod f y) (h : GivenAt mod f k y z target adj) (hy' : Reach mod f y')
    (h' : GivenAt mod f k y' z' target' adj') : y = y' := by
  -- what comes later finds the slot settled
  have hlate : ∀ {a b a' b' : ℕ × Ctx} {t t' : ℕ} {d d' : ℤ}, Reach mod f a → GivenAt mod f k a b t d →
      Reach mod f a' → GivenAt mod f k a' b' t' d' → ReflTransGen (Step mod f) a a' → a = a' := by
    intro a b a' b' t t' d d' ha hgives ha' hgives' hpath
    rcases ReflTransGen.cases_head hpath with heq | ⟨b1, hstep, hrest⟩
    · exact heq
    · obtain rfl : b1 = b := DecodeStep.unique hstep hgives.step
      exact absurd (hgives'.slot ha').1 (hgives.settled ha hrest).1
  rcases hy.total hy' with hpath | hpath
  · exact hlate hy h hy' h' hpath
  · exact (hlate hy' h' hy h hpath).symm

/-! ### The frame of a slot -/

/-- Frame `n`, from the bottom, lists slot `k`. -/
def Lists (k n : ℕ) (s : List CtrlFrame) : Prop := ∃ fr, fromBottom s n = some fr ∧ k ∈ fr.pendingJtSlots

theorem lists_unique {s : List CtrlFrame} (hnodup : (pendings s).Nodup) (hk : k ∈ pendings s) :
    ∃! n, Lists k n s := by
  induction s with
  | nil => cases hk
  | cons fr s ih =>
    rw [pendings_cons] at hnodup hk
    obtain ⟨-, hrest, hdisjoint⟩ := List.nodup_append.mp hnodup
    rcases List.mem_append.mp hk with hmem | hmem
    · refine ⟨s.length, ⟨fr, fromBottom_cons_length _ _, hmem⟩, ?_⟩
      rintro n ⟨fr', hfr', hmem'⟩
      by_contra hne
      rw [fromBottom_cons, if_neg hne] at hfr'
      exact hdisjoint k hmem k (mem_pendings hfr' hmem') rfl
    · obtain ⟨n, ⟨fr', hfr', hmem'⟩, hunique⟩ := ih hrest hmem
      refine ⟨n, ⟨fr', ?_, hmem'⟩, ?_⟩
      · rw [fromBottom_cons_lt (lt_length_of_fromBottom hfr')]
        exact hfr'
      · rintro m ⟨fr'', hfr'', hmem''⟩
        by_cases hm : m = s.length
        · rw [hm, fromBottom_cons_length] at hfr''
          cases hfr''
          exact absurd rfl (hdisjoint k hmem'' k hmem)
        · rw [fromBottom_cons, if_neg hm] at hfr''
          exact hunique m ⟨fr'', hfr'', hmem''⟩

/-- Slot `k` was made by the `if` that opened frame `n`, and the frame has been open since. -/
def IfMade (mod : Module) (f : Func) (k n : ℕ) (x : ℕ × Ctx) : Prop :=
  ∃ w w' type imm, Reach mod f w ∧ fetch mod f.code w.1 = .ok (.block .if_ type, imm, w'.1) ∧ Step mod f w w' ∧
    k = w.2.jt.length ∧ n = w.2.ctrlStack.length ∧ ReflTransGen (Above mod f n) w' x

theorem blocktypeOf_if {op : WasmOpcode} (h : op.case = .block) : blocktypeOf op = .if_ ↔ op = .if_ := by
  obtain rfl | rfl | rfl := WasmOpcode.block_loop_or_if h <;> simp [blocktypeOf]

/-- In front of the slots of an if frame is the slot of its `if`. -/
theorem Reach.if_slot (hx : Reach mod f x) {fr : CtrlFrame} (hfr : fromBottom x.2.ctrlStack n = some fr)
    (ht : fr.type = .if_) : ∃ k, fr.pendingJtSlots.head? = some k ∧ IfMade mod f k n x := by
  revert n fr
  refine Reach.induction (P := fun x => ∀ {n : ℕ} {fr : CtrlFrame}, fromBottom x.2.ctrlStack n = some fr →
    fr.type = .if_ → ∃ k, fr.pendingJtSlots.head? = some k ∧ IfMade mod f k n x) ?_ ?_ hx
  · intro c hc n fr hfr ht
    obtain ⟨ps, rs, -, -, -, -, hcs, -⟩ := onDecodeBegin_ok hc
    have hmem := mem_of_fromBottom hfr
    rw [hcs, List.mem_singleton] at hmem
    rw [hmem] at ht
    cases ht
  · rintro ⟨p, c⟩ ⟨q, c'⟩ hreach hstep ih n fr hfr ht
    obtain ⟨i, imm, hfetch, hinstr⟩ := step_iff.mp hstep
    by_cases hlt : n < c.ctrlStack.length
    · obtain ⟨g, hg⟩ := fromBottom_lt hlt
      obtain ⟨fr', hfr', hk⟩ := (step_effect hreach.inv.wf hfetch hinstr).kept hg (lt_length_of_fromBottom hfr)
      obtain rfl : fr' = fr := Option.some.inj (hfr'.symm.trans hfr)
      have hgt : g.type = .if_ := by
        cases hk with
        | same htype => exact htype.symm.trans ht
        | else_ hg _ => exact hg
      obtain ⟨k, hhead, w, w', type, imm', hw, hwfetch, hwstep, hkw, hnw, hpath⟩ := ih hg hgt
      have hwaits := hreach.ifOpen_waits (.single ⟨⟨g, hg, hgt⟩, hstep⟩) ⟨fr', hfr, ht⟩ ⟨g, hg, hgt, hhead⟩
      obtain ⟨fr2, hfr2, -, hhead2⟩ := hwaits.1
      obtain rfl : fr2 = fr' := Option.some.inj (hfr2.symm.trans hfr)
      exact ⟨k, hhead2, w, w', type, imm', hw, hwfetch, hwstep, hkw, hnw, hpath.tail ⟨hlt, hstep⟩⟩
    · have hlen := onInstr_length hinstr
      have hn := lt_length_of_fromBottom hfr
      obtain ⟨op, type, rfl⟩ : ∃ op type, i = .block op type := by
        cases i <;> first | exact ⟨_, _, rfl⟩ | (exfalso; simp only [Instr.depth] at hlen hn; omega)
      obtain ⟨ps, rs, j, ts, -, -, -, -, hc'⟩ := onBlock_ok hinstr
      have hcs : c'.ctrlStack =
          blockFrame op imm type ps rs (c.valStack.length - j) c.jt.length :: c.ctrlStack := by
        rw [hc']
        simp
      obtain rfl : n = c.ctrlStack.length := by
        simp only [hcs, List.length_cons] at hn
        omega
      simp only [hcs] at hfr
      rw [fromBottom_cons_length] at hfr
      obtain rfl := Option.some.inj hfr
      obtain ⟨-, -, hblock, -⟩ := fetch_block hfetch
      obtain rfl : op = .if_ := (blocktypeOf_if hblock).mp ht
      exact ⟨c.jt.length, rfl, (p, c), (q, c'), type, imm, hreach, hfetch, hstep, rfl, rfl, .refl⟩

end Silverfir.Validator
