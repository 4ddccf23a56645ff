import Silverfir.Jumps

/-! What is left on the operand stack when a frame is closed. `pop_ctrl` pops the end types and
does not compare the height that is left with the one of the frame. -/
namespace Silverfir.Validator

open ListStack
open Relation (ReflTransGen)

variable {mod : Module} {f : Func}

/-- `end` or `else` is processed at offset `p` in context `c`, and closes frame `fr`. -/
structure Closes (mod : Module) (f : Func) (p : ℕ) (c : Ctx) (fr : CtrlFrame) : Prop where
  reach : Reach mod f (p, c)
  instr : ∃ i imm q, fetch mod f.code p = .ok (i, imm, q) ∧ (i = .end_ ∨ i = .else_)
  top : fr ∈ c.ctrlStack.head?

/-- The end types popped, the stack has the height of the frame. -/
def ExitExact (c : Ctx) (fr : CtrlFrame) : Prop :=
  ∀ c1, popVals fr.endTypes c = .ok c1 → c1.valStack.length = fr.height

/-- The frame has no more operands than end types. -/
def NoLeftover (c : Ctx) (fr : CtrlFrame) : Prop := c.valStack.length ≤ fr.height + fr.endTypes.length

/-- How many operands the pops of a frame's end types leave. -/
theorem exact_iff {c : Ctx} {fr : CtrlFrame} {k : ℕ} {ts : List TypeId} (hw : Wf c)
    (hfr : fr ∈ c.ctrlStack.head?) (hm : List.Forall₂ Matches ts fr.endTypes.reverse) (hp : Popped c k ts) :
    (c.valStack.drop k).length = fr.height ↔ NoLeftover c fr := by
  have hlen : ts.length = fr.endTypes.length := by simpa using hm.length_eq
  have htop := hw.top fr hfr
  have habove := hp.above fr hfr htop
  have hle := hp.le
  unfold NoLeftover
  rw [List.length_drop]
  constructor
  · intro h
    omega
  · intro h
    by_cases hk : k < ts.length
    · obtain ⟨g, hg, -, hheight⟩ := hp.poly hk
      obtain rfl : fr = g := Option.some.inj (hfr.symm.trans hg)
      omega
    · omega

theorem exitExact_iff {c c1 : Ctx} {fr : CtrlFrame} (hw : Wf c) (hfr : fr ∈ c.ctrlStack.head?)
    (h : popVals fr.endTypes c = .ok c1) : ExitExact c fr ↔ NoLeftover c fr := by
  obtain ⟨ts, k, hm, hp, rfl⟩ := popVals_ok h
  rw [← exact_iff hw hfr hm hp]
  constructor
  · exact fun he => he _ h
  · intro he c2 h2
    rw [h] at h2
    cases h2
    exact he

theorem popVals_of_onEnd {imm : Stream} {c c' : Ctx} {fr : CtrlFrame} (h : onEnd imm c = .ok c')
    (hfr : fr ∈ c.ctrlStack.head?) : ∃ c1, popVals fr.endTypes c = .ok c1 := by
  obtain ⟨⟨cf, c0⟩, h0, -⟩ := bind_eq_ok.mp h
  unfold popCtrl at h0
  split at h0
  · simp at h0
  · next g rest hc =>
    rw [hc] at hfr
    cases hfr
    obtain ⟨c1, h1, -⟩ := bind_eq_ok.mp h0
    exact ⟨c1, h1⟩

theorem popVals_of_onElse {imm : Stream} {c c' : Ctx} {fr : CtrlFrame} (h : onElse imm c = .ok c')
    (hfr : fr ∈ c.ctrlStack.head?) : ∃ c1, popVals fr.endTypes c = .ok c1 := by
  unfold onElse at h
  split at h
  · simp [noFrame] at h
  · next g rest hc =>
    obtain ⟨⟨cf, c0⟩, h0, -⟩ := bind_eq_ok.mp (guard_eq_ok.mp h).2
    unfold popCtrl at h0
    rw [hc] at h0 hfr
    cases hfr
    obtain ⟨c1, h1, -⟩ := bind_eq_ok.mp h0
    exact ⟨c1, h1⟩

/-- In an accepted function the end types of a frame can be popped where it is closed. -/
theorem Closes.popVals {e0 imm0 : ℕ} {ce0 cE : Ctx} (ha : Accepts mod f e0 imm0 ce0 cE) {p : ℕ} {c : Ctx}
    {fr : CtrlFrame} (h : Closes mod f p c fr) : ∃ c1, popVals fr.endTypes c = .ok c1 := by
  obtain ⟨i, imm, q, hf, hi⟩ := h.instr
  have hspan := fetch_span hf
  obtain ⟨⟨q', c'⟩, hstep⟩ := ha.exists_step h.reach (by simp only; omega)
  obtain ⟨i', imm', hf', hcb⟩ := step_iff.mp hstep
  rw [hf] at hf'
  cases hf'
  rcases hi with rfl | rfl
  · exact popVals_of_onEnd hcb h.top
  · exact popVals_of_onElse hcb h.top

/-- No frame of the function is closed with operands left over. -/
def Exits (mod : Module) (f : Func) : Prop := ∀ p c fr, Closes mod f p c fr → NoLeftover c fr

theorem Exits.at_end (h : Exits mod f) {p imm q : ℕ} {c : Ctx} {fr : CtrlFrame} (hr : Reach mod f (p, c))
    (hf : fetch mod f.code p = .ok (.end_, imm, q)) (hfr : fr ∈ c.ctrlStack.head?) : NoLeftover c fr :=
  h p c fr ⟨hr, ⟨_, _, _, hf, .inl rfl⟩, hfr⟩

theorem Exits.at_else (h : Exits mod f) {p imm q : ℕ} {c : Ctx} {fr : CtrlFrame} (hr : Reach mod f (p, c))
    (hf : fetch mod f.code p = .ok (.else_, imm, q)) (hfr : fr ∈ c.ctrlStack.head?) : NoLeftover c fr :=
  h p c fr ⟨hr, ⟨_, _, _, hf, .inr rfl⟩, hfr⟩

/-- The operands after an `end`. -/
theorem onEnd_valStack {imm : Stream} {c c' : Ctx} {fr : CtrlFrame} (hw : Wf c)
    (h : onEnd imm c = .ok c') (hfr : fr ∈ c.ctrlStack.head?) (hno : NoLeftover c fr) :
    c'.valStack = fr.endTypes.reverse ++ below fr.height c.valStack := by
  obtain ⟨cf, rest, k, ts, hc, hm, hp, hc'⟩ := onEnd_ok h
  obtain rfl : fr = cf := by
    rw [hc] at hfr
    exact (Option.some.inj hfr).symm
  have hlen := (exact_iff hw hfr hm hp).mpr hno
  have hk : c.valStack.drop k = below fr.height c.valStack := by
    have htop := hw.top fr hfr
    have habove := hp.above fr hfr htop
    rw [drop_eq_below (by omega), ← hlen, List.length_drop]
  rw [hc', pushVals_valStack]
  simp only
  rw [hk]

/-- The frame and the operands after an `else`. -/
theorem onElse_exact {imm : Stream} {c c' : Ctx} {fr : CtrlFrame} (hw : Wf c) (h : onElse imm c = .ok c')
    (hfr : fr ∈ c.ctrlStack.head?) (hno : NoLeftover c fr) :
    ∃ g rest, c.ctrlStack = fr :: rest ∧ c'.ctrlStack = g :: rest ∧ g.type = .else_ ∧ g.height = fr.height ∧
      g.unreachable = false ∧ g.startTypes = fr.startTypes ∧ g.endTypes = fr.endTypes ∧
      c'.valStack = fr.startTypes.reverse ++ below fr.height c.valStack := by
  obtain ⟨cf, rest, k, ts, ps, rs, slot, hc, -, hm, hp, hps, hrs, -, hc'⟩ := onElse_ok h
  obtain rfl : fr = cf := by
    rw [hc] at hfr
    exact (Option.some.inj hfr).symm
  have hft := hw.types fr (by rw [hc]; exact List.mem_cons_self)
  obtain rfl : ps = fr.startTypes := Except.ok.inj (hps.symm.trans hft.1)
  obtain rfl : rs = fr.endTypes := Except.ok.inj (hrs.symm.trans hft.2)
  have hlen := (exact_iff hw hfr hm hp).mpr hno
  have htop := hw.top fr hfr
  have habove := hp.above fr hfr htop
  have hk : c.valStack.drop k = below fr.height c.valStack := by
    rw [drop_eq_below (by omega), ← hlen, List.length_drop]
  rw [List.length_drop] at hlen
  refine ⟨elseFrame fr fr.startTypes fr.endTypes (c.valStack.length - k) c.jt.length, rest, hc, ?_, rfl, hlen, rfl,
    rfl, rfl, ?_⟩
  · rw [hc', pushVals_ctrlStack]
  · rw [hc', pushVals_valStack]
    simp only
    rw [hk]

/-- The height of an open frame, through a run in which it stays open. -/
theorem Exits.height_eq (hex : Exits mod f) {x y : ℕ × Ctx} {n : ℕ} (hx : Reach mod f x)
    (h : ReflTransGen (Above mod f n) x y) {fr fr' : CtrlFrame}
    (hfr : fromBottom x.2.ctrlStack n = some fr) (hfr' : fromBottom y.2.ctrlStack n = some fr') :
    fr'.height = fr.height := by
  induction h generalizing fr' with
  | refl =>
    rw [hfr] at hfr'
    cases hfr'
    rfl
  | tail hpath hs ih =>
    rename_i b d
    have hb := hx.trans (Run.of_within hpath)
    obtain ⟨g, hg⟩ := fromBottom_lt hs.1
    rw [← ih hg]
    obtain ⟨i, imm, hf, hcb⟩ := step_iff.mp hs.2
    obtain ⟨g', hg', hk⟩ := (step_effect hb.inv.wf hf hcb).kept hg (lt_length_of_fromBottom hfr')
    obtain rfl : g' = fr' := Option.some.inj (hg'.symm.trans hfr')
    cases hk with
    | same _ _ hh => exact hh
    | else_ ht ht' =>
      -- only `else` turns an if frame into an else frame, and only the top one
      have hel : i = .else_ := by
        by_contra hne
        have htypes : g'.type = g.type := by
          by_cases hbl : ∃ o ty, i = .block o ty
          · obtain ⟨o, ty, rfl⟩ := hbl
            obtain ⟨ps, rs, k, ts, -, -, -, -, hc'⟩ := onBlock_ok hcb
            rw [hc', pushVals_ctrlStack, fromBottom_cons_lt hs.1, hg] at hfr'
            cases hfr'
            rfl
          · by_cases hen : i = .end_
            · subst hen
              obtain ⟨cf, rest, k, ts, hc, -, -, hc'⟩ := onEnd_ok hcb
              have hcs : d.2.ctrlStack = rest := by rw [hc', pushVals_ctrlStack]
              have hlt := lt_length_of_fromBottom hfr'
              rw [hcs] at hfr' hlt
              rw [hc, fromBottom_cons_lt hlt, hfr'] at hg
              cases hg
              rfl
            · have hm := onInstr_frames hcb (fun o ty he => hbl ⟨o, ty, he⟩) hne hen
              have hm' := congrArg (fromBottom · n) hm
              simp only [fromBottom_map, hg, hfr', Option.map_some, Option.some.injEq] at hm'
              exact hm'
        rw [ht, ht'] at htypes
        cases htypes
      subst hel
      obtain ⟨cf, rest, k, ts, ps, rs, slot, hc, hcf, -⟩ := onElse_ok hcb
      have htop : cf ∈ b.2.ctrlStack.head? := head?_mem hc
      obtain ⟨g1, rest1, hc1, hc1', -, hh, -⟩ := onElse_exact hb.inv.wf hcb htop (hex.at_else hb hf htop)
      rw [hc1] at hg
      rw [hc1'] at hfr'
      by_cases hn : n = rest1.length
      · subst hn
        rw [fromBottom_cons_length] at hg hfr'
        cases hg
        cases hfr'
        exact hh
      · have hlt : n < rest1.length := by
          have hopen : n < b.2.ctrlStack.length := hs.1
          rw [hc1, List.length_cons] at hopen
          omega
        rw [fromBottom_cons_lt hlt] at hg hfr'
        rw [hg] at hfr'
        cases hfr'
        rfl

end Silverfir.Validator
