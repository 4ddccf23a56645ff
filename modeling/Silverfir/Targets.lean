import Silverfir.Landing

/-! The targets of the slots: where the frame of a label is closed, and the place a jump to the
label arrives at. -/
namespace Silverfir.Validator

open ListStack
open Relation (ReflTransGen)

variable {mod : Module} {f : Func}

theorem fetch_block {p imm q : ℕ} {code : Str} {o : WasmOpcode} {ty : FuncType}
    (h : fetch mod code p = .ok (.block o ty, imm, q)) :
    imm = p + 1 ∧ q = p + 2 ∧ o.case = .block ∧
      ∃ b, code[p]? = some b ∧ WasmOpcode.ofByte? b.toNat = some o := by
  obtain ⟨b, op, pc, hb, hop, hi, hr⟩ := fetch_ok.mp h
  obtain rfl := decodeImm_block hi
  have hcase : o.case = .block := (decodeImm_case hi).symm
  unfold decodeImm at hi
  rw [hcase] at hi
  obtain ⟨⟨ft, pc1⟩, hbt, hi⟩ := bind_eq_ok.mp hi
  obtain ⟨u, -, -, rfl⟩ := getBlocktype_ok hbt
  cases hi
  cases hr
  exact ⟨rfl, rfl, hcase, b, hb, hop⟩

theorem blocktypeOf_loop {o : WasmOpcode} (ho : o.case = .block) :
    blocktypeOf o = .loop ↔ o = .loop := by
  revert ho
  cases o <;> simp [WasmOpcode.case, blocktypeOf]

/-- The frame of an open loop was opened right before the offset it records. -/
theorem Reach.loop_opened (hs : JumpSafe mod f) {x : ℕ × Ctx} (hx : Reach mod f x) {n : ℕ}
    {fr : CtrlFrame} (hfr : fromBottom x.2.ctrlStack n = some fr) (ht : fr.type = .loop) :
    ∃ c0 fr0 s, Reach mod f (fr.pc, c0) ∧ c0.ctrlStack = fr0 :: s ∧ s.length = n ∧ Kept fr0 fr ∧
      fr0.unreachable = false ∧ c0.valStack = fr0.startTypes.reverse ++ below fr0.height c0.valStack ∧
      ReflTransGen (Above mod f n) (fr.pc, c0) x := by
  revert n fr
  refine Reach.induction (P := fun x => ∀ {n : ℕ} {fr : CtrlFrame},
    fromBottom x.2.ctrlStack n = some fr → fr.type = .loop →
    ∃ c0 fr0 s, Reach mod f (fr.pc, c0) ∧ c0.ctrlStack = fr0 :: s ∧ s.length = n ∧ Kept fr0 fr ∧
      fr0.unreachable = false ∧ c0.valStack = fr0.startTypes.reverse ++ below fr0.height c0.valStack ∧
      ReflTransGen (Above mod f n) (fr.pc, c0) x) ?_ ?_ hx
  · intro c hc n fr hfr ht
    obtain ⟨ps, rs, -, -, -, -, hcs, -⟩ := onDecodeBegin_ok hc
    have hmem := mem_of_fromBottom hfr
    rw [hcs, List.mem_singleton] at hmem
    rw [hmem] at ht
    cases ht
  · rintro ⟨p, c⟩ ⟨q, c'⟩ hr hstep ih n fr hfr ht
    obtain ⟨i, imm, hf, hcb⟩ := step_iff.mp hstep
    by_cases hlt : n < c.ctrlStack.length
    · obtain ⟨g, hg⟩ := fromBottom_lt hlt
      obtain ⟨fr', hfr', hk⟩ := (step_effect hr.inv.wf hf hcb).kept hg (lt_length_of_fromBottom hfr)
      obtain rfl : fr' = fr := Option.some.inj (hfr'.symm.trans hfr)
      cases hk with
      | same htype hft hh hpc hu =>
        obtain ⟨c0, fr0, s, h1, h2, h3, h4, h5, h6, h7⟩ := ih hg (htype.symm.trans ht)
        rw [← hpc] at h1 h7
        exact ⟨c0, fr0, s, h1, h2, h3, h4.trans (.same htype hft hh hpc hu), h5, h6, h7.tail ⟨hlt, hstep⟩⟩
      | else_ _ ht' => rw [ht] at ht'; cases ht'
    · have hlen := onInstr_length hcb
      have hn := lt_length_of_fromBottom hfr
      obtain ⟨o, ty, rfl⟩ : ∃ o ty, i = .block o ty := by
        cases i <;> first | exact ⟨_, _, rfl⟩ | (exfalso; simp only [Instr.depth] at hlen hn; omega)
      obtain ⟨himm, hq, ho, -⟩ := fetch_block hf
      obtain ⟨ps, rs, k, ts, hps, hrs, hm, hp, hc'⟩ := onBlock_ok hcb
      have hcs : c'.ctrlStack = blockFrame o imm ty ps rs (c.valStack.length - k) c.jt.length :: c.ctrlStack := by
        rw [hc']; simp
      have hv : c'.valStack = ps.reverse ++ c.valStack.drop k := by rw [hc']; simp
      obtain rfl : n = c.ctrlStack.length := by
        simp only [hcs, List.length_cons] at hn
        omega
      simp only [hcs] at hfr
      rw [fromBottom_cons_length] at hfr
      have hfr := (Option.some.inj hfr).symm
      have hloop : o = .loop := (blocktypeOf_loop ho).mp (by rw [hfr] at ht; exact ht)
      have hspan := fetch_span hf
      have hshort := hs.short
      have hpc : fr.pc = q := by
        rw [hfr, hq]
        simp only [blockFrame, if_pos hloop]
        rw [u32_eq (n := imm) (by omega), u32_eq (by omega)]
        omega
      rw [hpc]
      refine ⟨c', fr, c.ctrlStack, hr.tail hstep, by rw [hcs, hfr], rfl, .refl fr, by rw [hfr]; rfl, ?_, .refl⟩
      have hst : fr.startTypes = ps := by rw [hfr]; rfl
      have hh : fr.height = c.valStack.length - k := by rw [hfr]; rfl
      rw [hst, hh, hv]
      congr 1
      have hlen' : (c.valStack.drop k).length = c.valStack.length - k := List.length_drop
      rw [below_append _ _ hlen'.ge, ← hlen', below_self]

/-- The round that closes frame `n`, and the way to it. -/
structure Exit (mod : Module) (f : Func) (n : ℕ) (x : ℕ × Ctx) (e imm : ℕ) (ce ce' : Ctx)
    (cf : CtrlFrame) (rest : List CtrlFrame) : Prop where
  path : ReflTransGen (Above mod f n) x (e, ce)
  fetch : fetch mod f.code e = .ok (.end_, imm, imm)
  onEnd : onEnd ⟨f.code, imm⟩ ce = .ok ce'
  top : ce.ctrlStack = cf :: rest
  depth : rest.length = n

namespace Exit

variable {n e imm : ℕ} {x : ℕ × Ctx} {ce ce' : Ctx} {cf : CtrlFrame} {rest : List CtrlFrame}

theorem step (h : Exit mod f n x e imm ce ce' cf rest) : Step mod f (e, ce) (imm, ce') :=
  step_iff.mpr ⟨.end_, imm, h.fetch, h.onEnd⟩

theorem reach (h : Exit mod f n x e imm ce ce' cf rest) (hx : Reach mod f x) : Reach mod f (e, ce) :=
  hx.trans (Run.of_within h.path)

theorem reach' (h : Exit mod f n x e imm ce ce' cf rest) (hx : Reach mod f x) :
    Reach mod f (imm, ce') := (h.reach hx).tail h.step

theorem imm_eq (h : Exit mod f n x e imm ce ce' cf rest) : imm = e + 1 := (fetch_end h.fetch).2.1

theorem frame (h : Exit mod f n x e imm ce ce' cf rest) : fromBottom ce.ctrlStack n = some cf := by
  rw [h.top, ← h.depth, fromBottom_cons_length]

theorem rest_eq (h : Exit mod f n x e imm ce ce' cf rest) : ce'.ctrlStack = rest := by
  obtain ⟨cf', rest', k, ts, hc, -, -, hce'⟩ := onEnd_ok h.onEnd
  rw [h.top] at hc
  cases hc
  rw [hce']
  simp

theorem kept (h : Exit mod f n x e imm ce ce' cf rest) (hx : Reach mod f x) {fr : CtrlFrame}
    (hfr : fromBottom x.2.ctrlStack n = some fr) : Kept fr cf := by
  obtain ⟨fr', hfr', hk⟩ := hx.above_kept h.path hfr (by rw [h.top, List.length_cons, h.depth]; omega)
  simp only [h.frame] at hfr'
  cases hfr'
  exact hk

end Exit

/-- In a bracketed function every open frame is closed by an `end`. -/
theorem Accepts.exit {e0 imm0 : ℕ} {ce0 c : Ctx} (h : Accepts mod f e0 imm0 ce0 c)
    (hb : Bracketed mod f) {x : ℕ × Ctx} (hx : Reach mod f x) {n : ℕ} (hn : n < x.2.ctrlStack.length) :
    ∃ e imm ce ce' cf rest, Exit mod f n x e imm ce ce' cf rest := by
  have hend : ¬ n < c.ctrlStack.length := by
    rw [hb.closed c h.reach_end]
    simp
  obtain ⟨⟨e, ce⟩, ⟨q, ce'⟩, hpath, hy, hstep, hy', -⟩ :=
    Run.exists_exit (p := fun y : ℕ × Ctx => n < y.2.ctrlStack.length) (h.steps hx) hn hend
  obtain ⟨i, imm, hf, hcb⟩ := step_iff.mp hstep
  have hlen := onInstr_length hcb
  simp only at hy hy'
  obtain rfl : i = .end_ := by
    cases i <;> first | rfl | (exfalso; simp only [Instr.depth] at hlen; omega)
  obtain ⟨-, himm, hq⟩ := fetch_end hf
  obtain rfl : q = imm := by omega
  obtain ⟨cf, rest, k, ts, hc, -⟩ := onEnd_ok hcb
  refine ⟨e, q, ce, ce', cf, rest, hpath, hf, hcb, hc, ?_⟩
  simp only [Instr.depth, hc, List.length_cons] at hlen hy
  omega

/-- The finished slot of a branch: its target is that of the frame it waited for. -/
theorem Accepts.slot_target {e0 imm0 : ℕ} {ce0 c : Ctx} (h : Accepts mod f e0 imm0 ce0 c)
    {x : ℕ × Ctx} (hx : Reach mod f x) {k n : ℕ} {slot : JumpTable} (hw : Waits k n x.2.ctrlStack)
    (hslot : x.2.jt[k]? = some slot) {e imm : ℕ} {ce ce' : Ctx} {cf : CtrlFrame} {rest : List CtrlFrame}
    (hex : Exit mod f n x e imm ce ce' cf rest) :
    c.jt[k]? = some (patched (landing cf imm).1 (landing cf imm).2 slot) := by
  have hce := hex.reach hx
  have hn : n < ce.ctrlStack.length := by rw [hex.top, List.length_cons, hex.depth]; omega
  obtain ⟨hwe, heq⟩ := hx.above_waits hex.path hw hn
  obtain ⟨fr, hfr, hk, -⟩ := hwe
  simp only [hex.frame] at hfr
  cases hfr
  have hce' : ce'.jt = closeSlots cf imm ce.jt := by
    obtain ⟨cf', rest', k', ts, hc, -, -, he⟩ := onEnd_ok hex.onEnd
    rw [hex.top] at hc
    cases hc
    rw [he]
    simp
  have hkj : ce.jt[k]? = some slot := heq.trans hslot
  have hpatch : ce'.jt[k]? = some (patched (landing cf imm).1 (landing cf imm).2 slot) := by
    rw [hce', closeSlots_eq, getElem?_patchSlots, if_pos hk, hkj]
    rfl
  have hpend : k ∉ pendings ce'.ctrlStack := by
    rw [hex.rest_eq]
    intro hmem
    have hinv := hce.inv.pend
    unfold shape at hinv
    rw [hex.top] at hinv
    exact hinv.not_mem_top hmem hk
  have hlt := (List.getElem?_eq_some_iff.mp hpatch).1
  have hreach' := hex.reach' hx
  have := hreach'.settled (h.steps hreach') hlt hpend
  exact this.2.trans hpatch

/-! ### The slot of an `if` -/

/-- Frame `n` is open and is an if frame. -/
def IfOpen (n : ℕ) (x : ℕ × Ctx) : Prop :=
  ∃ fr, fromBottom x.2.ctrlStack n = some fr ∧ fr.type = .if_

theorem IfOpen.lt {n : ℕ} {x : ℕ × Ctx} (h : IfOpen n x) : n < x.2.ctrlStack.length := by
  obtain ⟨fr, hfr, -⟩ := h
  exact lt_length_of_fromBottom hfr

theorem above_of_ifOpen {n : ℕ} {x y : ℕ × Ctx}
    (h : ReflTransGen (Run.Within (Step mod f) (IfOpen n)) x y) : ReflTransGen (Above mod f n) x y :=
  Relation.ReflTransGen.mono (fun _ _ hs => ⟨hs.1.lt, hs.2⟩) _ _ h

theorem fetch_else {p imm q : ℕ} {code : Str} (h : fetch mod code p = .ok (.else_, imm, q)) :
    imm = p + 1 ∧ q = p + 1 := by
  obtain ⟨b, op, pc, -, -, hi, hr⟩ := fetch_ok.mp h
  have hcase : op.case = .else_ := (decodeImm_case hi).symm
  unfold decodeImm at hi
  rw [hcase] at hi
  cases hi
  cases hr
  exact ⟨rfl, rfl⟩

/-- The slot of an `if` waits until `else` or `end`. -/
theorem Reach.ifOpen_waits {x y : ℕ × Ctx} {k n : ℕ} (hx : Reach mod f x)
    (h : ReflTransGen (Run.Within (Step mod f) (IfOpen n)) x y) (hy : IfOpen n y)
    (hw : IfWaits k n x.2.ctrlStack) : IfWaits k n y.2.ctrlStack ∧ y.2.jt[k]? = x.2.jt[k]? := by
  induction h with
  | refl => exact ⟨hw, rfl⟩
  | tail hpath hs ih =>
    rename_i b d
    obtain ⟨hwb, heq⟩ := ih hs.1
    have hb := hx.trans (Run.of_within hpath)
    obtain ⟨P, he⟩ := hb.effect hs.2
    have hkb : k < b.2.jt.length := hb.inv.pend.bound k hwb.mem_pendings
    -- the edits of one round keep an if frame that is still one afterwards
    have key := he.induction hs.1.lt
      (Q := fun z => PendInv z ∧ k < z.2.length ∧ ∃ fr, fromBottom z.1 n = some fr ∧
        (fr.type = .if_ → IfWaits k n z.1 ∧ z.2[k]? = b.2.jt[k]?) ∧ (fr.type ≠ .if_ → fr.type = .else_))
      ?_ ⟨hb.inv.pend, hkb, ?_⟩ hy.lt
    · obtain ⟨-, -, fr, hfr, hif, -⟩ := key
      obtain ⟨fr', hfr', ht'⟩ := hy
      obtain rfl : fr = fr' := Option.some.inj (hfr.symm.trans hfr')
      obtain ⟨h1, h2⟩ := hif ht'
      exact ⟨h1, h2.trans heq⟩
    · rintro z w hzw hz ⟨hinv, hkz, fr, hfr, hif, hel⟩ hw'
      obtain ⟨fr', hfr', hbec⟩ := hzw.top hfr hw'
      have hkw : k < w.2.length := by
        obtain ⟨news, hnews, -⟩ := hzw.pcs
        have := congrArg List.length hnews
        simp only [List.length_map, List.length_append] at this
        omega
      refine ⟨hzw.pendInv hinv, hkw, fr', hfr', ?_, ?_⟩
      · intro ht'
        have ht : fr.type = .if_ := by
          cases hbec with
          | stays ks u he => subst he; exact ht'
          | else_ ks ht ht2 => exact ht
        obtain ⟨h1, h2⟩ := hif ht
        have h3 := hzw.ifWaits h1 hfr' ht'
        exact ⟨h3, (hzw.slot_eq hinv hkz fun _ => h3.mem_pendings).trans h2⟩
      · intro hne
        cases hbec with
        | stays ks u he => subst he; exact hel hne
        | else_ ks ht ht2 => exact ht2
    · have hwaits := hwb
      obtain ⟨fr, hfr, ht, -⟩ := hwb
      exact ⟨fr, hfr, fun _ => ⟨hwaits, rfl⟩, fun hne => absurd ht hne⟩

/-- The round at the `else` of frame `n`, and the way to it. -/
structure ElseAt (mod : Module) (f : Func) (n : ℕ) (x : ℕ × Ctx) (e imm : ℕ) (ce ce' : Ctx)
    (cf : CtrlFrame) (rest : List CtrlFrame) : Prop where
  path : ReflTransGen (Above mod f n) x (e, ce)
  fetch : fetch mod f.code e = .ok (.else_, imm, imm)
  onElse : onElse ⟨f.code, imm⟩ ce = .ok ce'
  top : ce.ctrlStack = cf :: rest
  depth : rest.length = n

theorem ElseAt.step {n e imm : ℕ} {x : ℕ × Ctx} {ce ce' : Ctx} {cf : CtrlFrame}
    {rest : List CtrlFrame} (h : ElseAt mod f n x e imm ce ce' cf rest) :
    Step mod f (e, ce) (imm, ce') := step_iff.mpr ⟨.else_, imm, h.fetch, h.onElse⟩

/-- The finished slot of an `if`: its target is behind the `else`, or behind the `end` when
there is no `else`. -/
theorem Accepts.if_target {e0 imm0 : ℕ} {ce0 c : Ctx} (h : Accepts mod f e0 imm0 ce0 c)
    (hb : Bracketed mod f) {x : ℕ × Ctx} (hx : Reach mod f x) {k n : ℕ} {slot : JumpTable}
    (hw : IfWaits k n x.2.ctrlStack) (hslot : x.2.jt[k]? = some slot) :
    ∃ e imm ce ce' cf rest, c.jt[k]? = some (patched (u32 imm) 0 slot) ∧ cf.type = .if_ ∧
      (ElseAt mod f n x e imm ce ce' cf rest ∨ Exit mod f n x e imm ce ce' cf rest) := by
  have hopen : IfOpen n x := by
    obtain ⟨fr, hfr, ht, -⟩ := hw
    exact ⟨fr, hfr, ht⟩
  have hend : ¬ IfOpen n (f.code.length, c) := by
    intro hif
    have := hif.lt
    simp only [hb.closed c h.reach_end, List.length_nil] at this
    omega
  obtain ⟨⟨e, ce⟩, ⟨q, ce'⟩, hpath, hy, hstep, hy', -⟩ := Run.exists_exit (h.steps hx) hopen hend
  have hce := hx.trans (Run.of_within hpath)
  obtain ⟨hwe, heq⟩ := hx.ifOpen_waits hpath hy hw
  have hkj : ce.jt[k]? = some slot := heq.trans hslot
  obtain ⟨i, imm, hf, hcb⟩ := step_iff.mp hstep
  obtain ⟨fr, hfr, ht, hhead⟩ := hwe
  simp only at hfr
  have hlt := lt_length_of_fromBottom hfr
  have hlen := onInstr_length hcb
  have hpend := hce.inv.pend
  -- after any other round the frame would still be an if frame
  have hkind : i = .else_ ∨ i = .end_ := by
    by_contra hne
    rw [not_or] at hne
    refine hy' ?_
    by_cases hbl : ∃ o ty, i = .block o ty
    · obtain ⟨o, ty, rfl⟩ := hbl
      obtain ⟨ps, rs, k', ts, -, -, -, -, hc'⟩ := onBlock_ok hcb
      refine ⟨fr, ?_, ht⟩
      rw [hc']
      simp only [pushVals_ctrlStack]
      rw [fromBottom_cons_lt hlt]
      exact hfr
    · have hmap := onInstr_frames hcb (fun o ty hi => hbl ⟨o, ty, hi⟩) hne.1 hne.2
      have htype := congrArg (fromBottom · n) hmap
      simp only [fromBottom_map, hfr, Option.map_some] at htype
      obtain ⟨fr', hfr', ht'⟩ := Option.map_eq_some_iff.mp htype
      exact ⟨fr', hfr', ht'.trans ht⟩
  obtain ⟨ptail, hp⟩ := List.head?_eq_some_iff.mp hhead
  have settle : ∀ {q : ℕ} {d : Ctx} {s : JumpTable}, Reach mod f (q, d) → d.jt[k]? = some s →
      k ∉ pendings d.ctrlStack → c.jt[k]? = some s := by
    intro q d s hd hs hpd
    have := hd.settled (h.steps hd) (List.getElem?_eq_some_iff.mp hs).1 hpd
    exact this.2.trans hs
  have hreach' := hce.tail hstep
  rcases hkind with rfl | rfl
  · obtain ⟨himm, hq⟩ := fetch_else hf
    obtain rfl : q = imm := by omega
    obtain ⟨cf, rest, k', ts, ps, rs, slot', hc, htc, -, -, -, -, -, hc'⟩ := onElse_ok hcb
    have hn : n = rest.length := by
      by_contra hne
      have hlt' : n < rest.length := by
        rw [hc, List.length_cons] at hlt
        omega
      refine hy' ⟨fr, ?_, ht⟩
      rw [hc']
      simp only [pushVals_ctrlStack]
      rw [hc, fromBottom_cons_lt hlt'] at hfr
      rw [fromBottom_cons_lt hlt']
      exact hfr
    subst hn
    rw [hc, fromBottom_cons_length] at hfr
    obtain rfl : cf = fr := Option.some.inj hfr
    refine ⟨e, q, ce, ce', cf, rest, ?_, htc, .inl ⟨above_of_ifOpen hpath, hf, hcb, hc, rfl⟩⟩
    have hjt : ce'.jt = patchSlots (cf.pendingJtSlots.take 1) (u32 q) 0 ce.jt ++ [slot'] := by
      rw [hc']; simp
    have hk1 : k < ce.jt.length := (List.getElem?_eq_some_iff.mp hkj).1
    refine settle hreach' ?_ ?_
    · rw [hjt, getElem?_push _ (by rw [length_patchSlots]; exact hk1), getElem?_patchSlots, hp]
      simp [hkj]
    · have hcs : ce'.ctrlStack = elseFrame cf ps rs (ce.valStack.length - k') ce.jt.length :: rest := by
        rw [hc']; simp
      have hnodup : (cf.pendingJtSlots ++ pendings rest).Nodup := by
        have := hpend.nodup
        unfold shape at this
        rw [hc] at this
        exact this
      rw [hp, List.cons_append, List.nodup_cons, List.mem_append, not_or] at hnodup
      rw [hcs, pendings_cons]
      simp only [elseFrame, hp, List.drop_succ_cons, List.drop_zero, List.mem_append,
        List.mem_singleton, not_or]
      exact ⟨⟨hnodup.1.1, by omega⟩, hnodup.1.2⟩
  · obtain ⟨-, himm, hq⟩ := fetch_end hf
    obtain rfl : q = imm := by omega
    obtain ⟨cf, rest, k', ts, hc, -, -, hc'⟩ := onEnd_ok hcb
    have hcs : ce'.ctrlStack = rest := by rw [hc']; simp
    have hn : n = rest.length := by
      by_contra hne
      have hlt' : n < rest.length := by
        rw [hc, List.length_cons] at hlt
        omega
      refine hy' ⟨fr, ?_, ht⟩
      simp only [hcs]
      rw [hc, fromBottom_cons_lt hlt'] at hfr
      exact hfr
    subst hn
    rw [hc, fromBottom_cons_length] at hfr
    obtain rfl : cf = fr := Option.some.inj hfr
    refine ⟨e, q, ce, ce', cf, rest, ?_, ht, .inr ⟨above_of_ifOpen hpath, hf, hcb, hc, rfl⟩⟩
    have hjt : ce'.jt = closeSlots cf q ce.jt := by rw [hc']; simp
    have hkmem : k ∈ cf.pendingJtSlots := by rw [hp]; exact List.mem_cons_self
    refine settle hreach' ?_ ?_
    · have hl : landing cf q = (u32 q, 0) := by simp [landing, ht]
      rw [hjt, closeSlots_eq, getElem?_patchSlots, if_pos hkmem, hkj, hl]
      rfl
    · rw [hcs]
      intro hmem
      unfold shape at hpend
      rw [hc] at hpend
      exact hpend.not_mem_top hmem hkmem

/-! ### Arrivals -/

/-- `idx` is the slot that the code from context `c` on uses first, if it uses any. -/
def NextSlot (jt : List JumpTable) (c : Ctx) (idx : ℕ) : Prop :=
  c.jt.length < jt.length → idx = c.jt.length

/-- A jump through slot `k` arrives at the visited place `(target, ct)`. -/
structure Arrives (mod : Module) (f : Func) (jt : List JumpTable) (tbl : JumpTable) (target : ℕ)
    (ct : Ctx) : Prop where
  reach : Reach mod f (target, ct)
  lt : target < f.code.length
  offset : (tbl.pc : ℤ) + tbl.targetOffset = target
  next : NextSlot jt ct tbl.nextIdx

theorem patched_offset (target : ℕ) (adj : ℤ) (slot : JumpTable) (ht : target < 2 ^ 31)
    (hp : slot.pc < 2 ^ 31) :
    ((patched target adj slot).pc : ℤ) + (patched target adj slot).targetOffset = target + adj := by
  simp only [patched]
  rw [i32Sub_eq ht hp]
  omega

/-- A slot of the finished table, given where its target is. -/
theorem Accepts.arrives {e0 imm0 : ℕ} {ce0 c : Ctx} (h : Accepts mod f e0 imm0 ce0 c)
    (hs : JumpSafe mod f) (hlen : c.jt.length ≤ 65536) {k : ℕ} {slot : JumpTable}
    (hslot : c.jt[k]? = some slot) {target : ℕ} {ct : Ctx} (hr : Reach mod f (target, ct))
    (hlt : target < f.code.length) (ht : (slot.pc : ℤ) + slot.targetOffset = target)
    (h0 : slot.targetOffset ≠ 0 ∨ ct.jt.length = c.jt.length) :
    ∃ tbl, (linkJumpTable c.jt)[k]? = some tbl ∧ tbl.pc = slot.pc ∧
      tbl.stackOffset = slot.stackOffset ∧ tbl.arity = slot.arity ∧
      Arrives mod f (linkJumpTable c.jt) tbl target ct := by
  refine ⟨linkSlot c.jt k slot, by rw [getElem?_linkJumpTable, hslot]; rfl, rfl, rfl, rfl, hr, hlt, ht, ?_⟩
  intro hm
  rw [length_linkJumpTable] at hm
  rcases h0 with h0 | h0
  · have hshort := hs.short
    rw [linkSlot_nextIdx hslot ht (by omega) h0 (hr.splits hs (h.steps hr)) hm]
    have hfit : ct.jt.length < 2 ^ 16 := by omega
    exact Nat.mod_eq_of_lt hfit
  · omega

/-- Where a branch to a frame arrives: behind a loop's opcode, at the last `end` for the frame
of the function, and behind the `end` of any other frame. -/
inductive BranchTarget (mod : Module) (f : Func) (n : ℕ) (x : ℕ × Ctx) (fr : CtrlFrame) :
    ℕ → Ctx → Prop
  | loop {c0 fr0 s} (ht : fr.type = .loop) (hr : Reach mod f (fr.pc, c0)) (hc : c0.ctrlStack = fr0 :: s)
      (hn : s.length = n) (hk : Kept fr0 fr) (hu : fr0.unreachable = false)
      (hv : c0.valStack = fr0.startTypes.reverse ++ below fr0.height c0.valStack)
      (hpath : ReflTransGen (Above mod f n) (fr.pc, c0) x) : BranchTarget mod f n x fr fr.pc c0
  | func {e imm ce ce' cf rest} (ht : fr.type = .func) (hk : Kept fr cf)
      (hex : Exit mod f n x e imm ce ce' cf rest) : BranchTarget mod f n x fr e ce
  | exit {e imm ce ce' cf rest} (ht : fr.type ≠ .loop) (ht' : fr.type ≠ .func) (hk : Kept fr cf)
      (hex : Exit mod f n x e imm ce ce' cf rest) : BranchTarget mod f n x fr imm ce'

theorem BranchTarget.reach {n : ℕ} {x : ℕ × Ctx} {fr : CtrlFrame} {target : ℕ} {ct : Ctx}
    (h : BranchTarget mod f n x fr target ct) (hx : Reach mod f x) : Reach mod f (target, ct) := by
  cases h with
  | loop ht hr => exact hr
  | func ht hk hex => exact hex.reach hx
  | exit ht ht' hk hex => exact hex.reach' hx

/-- A visited place with an open frame is before the end of the code. -/
theorem Bracketed.lt_of_open (hb : Bracketed mod f) {p : ℕ} {c : Ctx} (hr : Reach mod f (p, c))
    (hc : c.ctrlStack ≠ []) : p < f.code.length := by
  by_contra hge
  have hle : p ≤ f.code.length := by
    obtain ⟨c0, hc0, hs⟩ := hr
    rcases ReflTransGen.cases_tail hs with heq | ⟨b, -, hbp⟩
    · simp only [Prod.mk.injEq] at heq
      omega
    · exact hbp.lt.2
  obtain rfl : p = f.code.length := by omega
  exact hc (hb.closed c hr)

/-- The frame at the bottom is the one of the function, and no other frame is. -/
theorem Bracketed.func_iff (hb : Bracketed mod f) {x : ℕ × Ctx} (hx : Reach mod f x) {n : ℕ}
    {fr : CtrlFrame} (hfr : fromBottom x.2.ctrlStack n = some fr) : fr.type = .func ↔ n = 0 := by
  have bottom : ∀ {y : ℕ × Ctx}, Reach mod f y → y.2.ctrlStack ≠ [] →
      ∃ g, fromBottom y.2.ctrlStack 0 = some g ∧ g.type = .func := by
    intro y hy hne
    have hlt := hb.lt_of_open (p := y.1) (c := y.2) hy hne
    obtain ⟨g, hg, ht, -⟩ := hy.bottom (fun p c hr hp => hb.inside p c hr (by omega)) hne
    exact ⟨g, hg, ht⟩
  constructor
  · revert n fr
    refine Reach.induction (P := fun x => ∀ {n : ℕ} {fr : CtrlFrame},
      fromBottom x.2.ctrlStack n = some fr → fr.type = .func → n = 0) ?_ ?_ hx
    · intro c hc n fr hfr _
      obtain ⟨ps, rs, -, -, -, -, hcs, -⟩ := onDecodeBegin_ok hc
      have := lt_length_of_fromBottom hfr
      simp only [hcs, List.length_singleton] at this
      omega
    · rintro ⟨p, c⟩ ⟨q, c'⟩ hr hstep ih n fr hfr ht
      obtain ⟨i, imm, hf, hcb⟩ := step_iff.mp hstep
      by_cases hlt : n < c.ctrlStack.length
      · obtain ⟨g, hg⟩ := fromBottom_lt hlt
        obtain ⟨fr', hfr', hk⟩ := (step_effect hr.inv.wf hf hcb).kept hg (lt_length_of_fromBottom hfr)
        obtain rfl : fr' = fr := Option.some.inj (hfr'.symm.trans hfr)
        cases hk with
        | same htype => exact ih hg (htype.symm.trans ht)
        | else_ _ ht' => rw [ht] at ht'; cases ht'
      · have hlen := onInstr_length hcb
        have hn := lt_length_of_fromBottom hfr
        obtain ⟨o, ty, rfl⟩ : ∃ o ty, i = .block o ty := by
          cases i <;> first | exact ⟨_, _, rfl⟩ | (exfalso; simp only [Instr.depth] at hlen hn; omega)
        obtain ⟨ps, rs, k, ts, -, -, -, -, hc'⟩ := onBlock_ok hcb
        have hcs : c'.ctrlStack = blockFrame o imm ty ps rs (c.valStack.length - k) c.jt.length :: c.ctrlStack := by
          rw [hc']; simp
        obtain rfl : n = c.ctrlStack.length := by
          simp only [hcs, List.length_cons] at hn
          omega
        simp only [hcs] at hfr
        rw [fromBottom_cons_length] at hfr
        have hbt : blocktypeOf o = .func := by
          rw [← Option.some.inj hfr] at ht
          exact ht
        unfold blocktypeOf at hbt
        split_ifs at hbt
  · rintro rfl
    have hne : x.2.ctrlStack ≠ [] := List.ne_nil_of_length_pos (lt_length_of_fromBottom hfr)
    obtain ⟨g, hg, ht⟩ := bottom hx hne
    rw [hfr] at hg
    cases hg
    exact ht

end Silverfir.Validator
