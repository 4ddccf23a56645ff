import Silverfir.Lib.Agree
import Silverfir.Linking
import Silverfir.ValLog

/-! What the log of a run says: the heights of the frames are in order at every operation on `val_stack`, and
`stack_size_max` is at least every size as long as no size exceeds 32 bits. -/
namespace Silverfir.Validator

open Relation (ReflTransGen)

/-- The heights of the frames are in order, and the operands reach up to the top frame. -/
structure Ordered (c : Ctx) : Prop where
  heights : (c.ctrlStack.map (·.height)).Pairwise (· ≥ ·)
  top : ∀ h ∈ (c.ctrlStack.map (·.height)).head?, h ≤ c.valStack.length

/-- What holds between any two operations on `val_stack`. -/
structure Logged.Fine (s : Logged) : Prop where
  ordered : Ordered s.ctx
  now : s.ctx.valStack.length ∈ s.sizes
  bound : s.ctx.stackSizeMax < 2 ^ 32
  sizes : (∀ n ∈ s.sizes, n < 2 ^ 32) → ∀ n ∈ s.sizes, n ≤ s.ctx.stackSizeMax
  pops : ∀ p ∈ s.pops, p.1 < p.2

/-- A callback with and without the log. -/
def Same (s : Logged) (c : Ctx) : Prop := s.ctx = c ∧ s.Fine

/-- A callback that returns something, with and without the log. -/
def SameWith {α : Type} (a : α × Logged) (b : α × Ctx) : Prop := a.1 = b.1 ∧ Same a.2 b.2

section Operations
variable {s : Logged} {c : Ctx} {t : TypeId} {h : ℕ}

/-- The heights matter, and how many operands there are. -/
theorem Ordered.congr (hord : Ordered s.ctx) (hmap : c.ctrlStack.map (·.height) = s.ctx.ctrlStack.map (·.height))
    (hlen : s.ctx.valStack.length ≤ c.valStack.length) : Ordered c where
  heights := hmap ▸ hord.heights
  top n hn := (hord.top n (hmap ▸ hn)).trans hlen

theorem Ordered.push (hord : Ordered c) {fr : CtrlFrame} (hfr : fr.height = c.valStack.length) :
    Ordered { c with ctrlStack := fr :: c.ctrlStack } where
  heights := by
    rw [List.map_cons, List.pairwise_cons]
    refine ⟨fun n hn => ?_, hord.heights⟩
    cases hs : c.ctrlStack.map (·.height) with
    | nil =>
      rw [hs] at hn
      cases hn
    | cons m rest =>
      have htop : m ≤ c.valStack.length := hord.top m (by rw [hs]; rfl)
      have hpair := hord.heights
      rw [hs, List.pairwise_cons] at hpair
      rw [hs] at hn
      rcases List.mem_cons.mp hn with rfl | hn
      · omega
      · have hle := hpair.1 n hn
        omega
  top n hn := by
    rw [List.map_cons, List.head?_cons, Option.mem_some_iff] at hn
    exact Nat.le_of_eq (hn.symm.trans hfr)

theorem Ordered.tail (hord : Ordered c) : Ordered { c with ctrlStack := c.ctrlStack.tail } := by
  cases hs : c.ctrlStack with
  | nil => exact ⟨List.Pairwise.nil, fun n hn => by cases hn⟩
  | cons fr rest =>
    obtain ⟨hheights, htop⟩ := hord
    rw [hs, List.map_cons, List.pairwise_cons] at hheights
    rw [hs, List.map_cons, List.head?_cons] at htop
    refine ⟨hheights.2, fun n hn => ?_⟩
    have hle := hheights.1 n (List.mem_of_mem_head? hn)
    exact le_trans hle (htop fr.height rfl)

theorem Logged.Fine.resized (hs : s.Fine) (hord : Ordered c) (hbound : c.stackSizeMax < 2 ^ 32)
    (hnew : (∀ n ∈ s.sizes, n < 2 ^ 32) → c.valStack.length < 2 ^ 32 →
      s.ctx.stackSizeMax ≤ c.stackSizeMax ∧ c.valStack.length ≤ c.stackSizeMax) : (s.resized c).Fine where
  ordered := hord
  now := List.mem_cons_self
  bound := hbound
  sizes hall n hn := by
    have hold : ∀ m ∈ s.sizes, m < 2 ^ 32 := fun m hm => hall m (List.mem_cons_of_mem _ hm)
    obtain ⟨hmax, hsize⟩ := hnew hold (hall _ List.mem_cons_self)
    rcases List.mem_cons.mp hn with rfl | hn
    · exact hsize
    · exact (hs.sizes hold n hn).trans hmax
  pops := hs.pops

theorem Logged.Fine.edit (hs : s.Fine) (hord : Ordered c) (hlen : c.valStack.length = s.ctx.valStack.length)
    (hbound : c.stackSizeMax < 2 ^ 32) (hmax : s.ctx.stackSizeMax ≤ c.stackSizeMax) : (s.edit c).Fine where
  ordered := hord
  now := hlen ▸ hs.now
  bound := hbound
  sizes hall n hn := (hs.sizes hall n hn).trans hmax
  pops := hs.pops

/-- The frames and the table change, and the heights stay. -/
theorem Logged.Fine.frames (hs : s.Fine) (hmap : c.ctrlStack.map (·.height) = s.ctx.ctrlStack.map (·.height))
    (hstack : c.valStack = s.ctx.valStack) (hmax : c.stackSizeMax = s.ctx.stackSizeMax) : (s.edit c).Fine :=
  hs.edit (hs.ordered.congr hmap (by rw [hstack])) (by rw [hstack]) (hmax ▸ hs.bound) (Nat.le_of_eq hmax.symm)

theorem pushVal_same (hs : s.Fine) (t : TypeId) : Same (s.pushVal t) (pushVal t s.ctx) := by
  refine ⟨rfl, hs.resized (hs.ordered.congr rfl ?_) ?_ fun _ hsize => ?_⟩
  · rw [pushVal_valStack, List.length_cons]
    exact Nat.le_succ _
  · unfold pushVal
    simp only
    split
    · exact Nat.mod_lt _ (by decide)
    · exact hs.bound
  · unfold pushVal at hsize ⊢
    simp only at hsize ⊢
    split
    · next hgt =>
      rw [u32, Nat.mod_eq_of_lt hsize]
      omega
    · next hle => exact ⟨le_rfl, Nat.not_lt.mp hle⟩

theorem pushVals_same (hs : s.Fine) (ts : List TypeId) : Same (s.pushVals ts) (pushVals ts s.ctx) := by
  induction ts generalizing s with
  | nil => exact ⟨rfl, hs⟩
  | cons t ts ih => exact ih (pushVal_same hs t).2

/-- `pop_val` takes the operand on top of the stack, or none. -/
theorem popVal_cases {c' : Ctx} (h : popVal c = .ok (t, c')) :
    c' = c ∨ ∃ fr rest v vs, c.ctrlStack = fr :: rest ∧ fr.height ≠ c.valStack.length ∧ c.valStack = v :: vs ∧
      c' = { c with valStack := vs } := by
  unfold popVal at h
  split at h
  · cases h
  · next fr rest hframes =>
    split_ifs at h with hpoly hempty
    · cases h
      exact Or.inl rfl
    · cases h
    · split at h
      · cases h
      · next v vs hstack =>
        cases h
        exact Or.inr ⟨fr, rest, _, vs, hframes, hempty, hstack, rfl⟩

/-- The test for equality keeps `pop_val` from the operands of the enclosing frames, since no frame begins above the
stack. -/
theorem popVal_same (hs : s.Fine) : Agree SameWith s.popVal (popVal s.ctx) := by
  unfold Logged.popVal
  cases hpop : popVal s.ctx with
  | error e => exact .error e
  | ok r =>
    obtain ⟨t, c⟩ := r
    rw [ok_bind]
    dsimp only
    rcases popVal_cases hpop with rfl | ⟨fr, rest, v, vs, hframes, hne, hstack, rfl⟩
    · rw [if_pos rfl]
      exact .ok ⟨rfl, rfl, hs⟩
    · have hlen : s.ctx.valStack.length = vs.length + 1 := by rw [hstack, List.length_cons]
      have htop : fr.height ≤ s.ctx.valStack.length := hs.ordered.top fr.height (by rw [hframes]; rfl)
      rw [if_neg (by simp only; omega)]
      have hord : Ordered { s.ctx with valStack := vs } := by
        refine ⟨hs.ordered.heights, fun n hn => ?_⟩
        simp only [hframes, List.map_cons, List.head?_cons, Option.mem_some_iff] at hn
        simp only
        omega
      have hfine : (s.resized { s.ctx with valStack := vs }).Fine := by
        refine hs.resized hord hs.bound fun hall _ => ⟨le_rfl, ?_⟩
        have hmax := hs.sizes hall _ hs.now
        simp only
        omega
      refine .ok ⟨rfl, rfl, hfine.ordered, hfine.now, hfine.bound, hfine.sizes, fun p hp => ?_⟩
      rcases List.mem_cons.mp hp with rfl | hp
      · have hheight : Logged.topHeight s.ctx = fr.height := by rw [Logged.topHeight, hframes]; rfl
        simp only [hheight]
        omega
      · exact hfine.pops p hp

theorem popValExpect_same (hs : s.Fine) (e : TypeId) : Agree SameWith (s.popValExpect e) (popValExpect e s.ctx) := by
  unfold Logged.popValExpect popValExpect
  refine (popVal_same hs).bind ?_
  rintro ⟨t, s'⟩ ⟨t', c'⟩ ⟨rfl, rfl, hs'⟩ -
  exact .ite (fun _ => .error _) fun _ => .ok ⟨rfl, rfl, hs'⟩

theorem popValsRev_same (hs : s.Fine) (es : List TypeId) : Agree SameWith (s.popValsRev es) (popValsRev es s.ctx) := by
  induction es generalizing s with
  | nil => exact .ok ⟨rfl, rfl, hs⟩
  | cons e es ih =>
    unfold Logged.popValsRev popValsRev
    refine (popValExpect_same hs e).bind ?_
    rintro ⟨t, s1⟩ ⟨t', c1⟩ ⟨rfl, rfl, hs1⟩ -
    refine (ih hs1).bind ?_
    rintro ⟨ts, s2⟩ ⟨ts', c2⟩ ⟨rfl, rfl, hs2⟩ -
    exact .ok ⟨rfl, rfl, hs2⟩

theorem popValsToVec_same (hs : s.Fine) (es : List TypeId) :
    Agree SameWith (s.popValsToVec es) (popValsToVec es s.ctx) := popValsRev_same hs es.reverse

theorem popVals_same (hs : s.Fine) (es : List TypeId) : Agree Same (s.popVals es) (popVals es s.ctx) := by
  unfold Logged.popVals popVals
  refine (popValsToVec_same hs es).bind ?_
  rintro ⟨ts, s'⟩ ⟨ts', c'⟩ ⟨rfl, rfl, hs'⟩ -
  exact .ok ⟨rfl, hs'⟩

theorem popPush_same (hs : s.Fine) (pops pushes : List TypeId) :
    Agree Same (s.popPush pops pushes) (popPush pops pushes s.ctx) := by
  unfold Logged.popPush popPush
  refine (popValsRev_same hs pops).bind ?_
  rintro ⟨ts, s'⟩ ⟨ts', c'⟩ ⟨rfl, rfl, hs'⟩ -
  exact .ok (pushVals_same hs' pushes)

theorem pushCtrl_same (hs : s.Fine) (bt : Blocktype) (ft : FuncType) :
    Agree Same (s.pushCtrl bt ft) (pushCtrl bt ft s.ctx) := by
  unfold Logged.pushCtrl pushCtrl
  refine .bind_same fun params _ => .bind_same fun results _ => .ok ?_
  refine pushVals_same (s := s.edit _) ?_ params
  exact hs.edit (hs.ordered.push rfl) rfl hs.bound le_rfl

theorem popCtrl_same (hs : s.Fine) : Agree SameWith s.popCtrl (popCtrl s.ctx) := by
  unfold Logged.popCtrl popCtrl
  cases s.ctx.ctrlStack with
  | nil => exact .error _
  | cons fr rest =>
    refine (popVals_same hs fr.endTypes).bind ?_
    rintro s' c' ⟨rfl, hs'⟩ -
    exact .ok ⟨rfl, rfl, hs'.edit hs'.ordered.tail rfl hs'.bound le_rfl⟩

theorem unreachable_same (hs : s.Fine) : Agree Same s.unreachable (unreachable s.ctx) := by
  unfold Logged.unreachable
  cases hcut : unreachable s.ctx with
  | error e => exact .error e
  | ok c =>
    obtain ⟨fr, rest, hframes, hle, rfl⟩ := unreachable_ok hcut
    rw [ok_bind]
    have hlen : (ListStack.below fr.height s.ctx.valStack).length = fr.height := ListStack.length_below hle
    refine .ok ⟨rfl, hs.resized ⟨?_, fun n hn => ?_⟩ hs.bound fun hall _ => ⟨le_rfl, ?_⟩⟩
    · have hheights := hs.ordered.heights
      rw [hframes] at hheights
      exact hheights
    · simp only [List.map_cons, List.head?_cons, Option.mem_some_iff] at hn
      simp only [hlen]
      omega
    · have hmax := hs.sizes hall _ hs.now
      simp only [hlen]
      omega

theorem pushSlot_same (hs : s.Fine) (l : ℕ) (slot : JumpTable) :
    Same (Logged.pushSlot l slot s) (pushSlot l slot s.ctx) :=
  ⟨rfl, hs.frames (pushSlot_heights l slot s.ctx) rfl rfl⟩

end Operations

/-! ### Callbacks -/

section Callbacks
variable {s : Logged} {mod : Module} {imm : Stream}

theorem onDecodeBegin_same (f : Func) :
    Agree Same (Logged.onDecodeBegin f { ctx := { jt := f.jt }, sizes := [0] }) (onDecodeBegin f { jt := f.jt }) := by
  have hstart : Logged.Fine { ctx := { jt := f.jt }, sizes := [0] } :=
    ⟨⟨List.Pairwise.nil, fun n hn => by cases hn⟩, List.mem_cons_self, Nat.two_pow_pos 32, fun _ n hn => by
      rw [List.mem_singleton.mp hn], fun p hp => by cases hp⟩
  unfold Logged.onDecodeBegin onDecodeBegin
  refine .bind_same fun params _ => ?_
  have hlocals : Logged.Fine ⟨{ locals := params ++ f.localTypes, jt := f.jt }, [0], []⟩ := hstart.frames rfl rfl rfl
  refine Agree.bind (P := Same) (pushCtrl_same hlocals .func f.fnType) ?_
  rintro s' c' ⟨rfl, hs'⟩ hpush
  obtain ⟨ps, rs, -, -, hctx⟩ := pushCtrl_ok hpush
  refine .ok ⟨rfl, hs'.resized ⟨hs'.ordered.heights, fun n hn => ?_⟩ hs'.bound fun _ _ => ⟨le_rfl, Nat.zero_le _⟩⟩
  simp only [hctx] at hn
  simp only [pushVals_ctrlStack] at hn
  cases hn
  exact le_rfl

theorem popCondition_same (hs : s.Fine) (p : Prop) [Decidable p] :
    Agree Same (s.popCondition p) (if p then popValExpect .i32 s.ctx >>= fun r => .ok r.2 else .ok s.ctx) := by
  refine .ite (fun _ => ?_) fun _ => .ok ⟨rfl, hs⟩
  refine (popValExpect_same hs .i32).bind ?_
  rintro ⟨t, s1⟩ ⟨t', c1⟩ ⟨rfl, rfl, hs1⟩ -
  exact .ok ⟨rfl, hs1⟩

theorem onBlock_same (hs : s.Fine) (op : WasmOpcode) (imm : Stream) (type : FuncType) :
    Agree Same (s.onBlock op imm type) (onBlock op imm type s.ctx) := by
  have hopen : ∀ s1 : Logged, s1.Fine → Agree Same (s1.openBlock op imm type) (do
      let paramTypes ← parseTypes type.paramCount type.params
      let c ← popVals paramTypes s1.ctx
      let c ← pushCtrl (blocktypeOf op) type c
      if op = .loop then
        .ok { c with ctrlStack := c.ctrlStack.modifyHead ({ · with pc := u32 (u32 imm.p + 1) }) }
      else if op = .if_ then .ok (pushSlot 0 { pc := u32 imm.p, stackOffset := 0, arity := 0 } c)
      else .ok c) := by
    intro s1 hs1
    unfold Logged.openBlock
    refine .bind_same fun params _ => ?_
    refine (popVals_same hs1 params).bind ?_
    rintro s2 c2 ⟨rfl, hs2⟩ -
    refine (pushCtrl_same hs2 _ type).bind ?_
    rintro s3 c3 ⟨rfl, hs3⟩ -
    refine .ite (fun _ => .ok ⟨rfl, hs3.frames ?_ rfl rfl⟩) fun _ => ?_
    · simp only
      cases s3.ctx.ctrlStack <;> rfl
    · exact .ite (fun _ => .ok (pushSlot_same hs3 _ _)) fun _ => .ok ⟨rfl, hs3⟩
  have hcond := (popCondition_same hs (op = .if_)).bind fun s1 c1 h _ => h.1 ▸ hopen s1 h.2
  unfold Logged.onBlock onBlock
  by_cases hop : op = .if_
  · simp only [if_pos hop, bind_assoc, ok_bind] at hcond ⊢
    exact hcond
  · simp only [if_neg hop, ok_bind] at hcond ⊢
    exact hcond

theorem onElse_same (hs : s.Fine) (imm : Stream) : Agree Same (s.onElse imm) (onElse imm s.ctx) := by
  unfold Logged.onElse onElse
  cases s.ctx.ctrlStack with
  | nil => exact .error _
  | cons fr rest =>
    refine .ite (fun _ => .error _) fun _ => ?_
    refine (popCtrl_same hs).bind ?_
    rintro ⟨cf, s1⟩ ⟨cf', c1⟩ ⟨rfl, rfl, hs1⟩ -
    refine (pushCtrl_same hs1 .else_ cf.ftype).bind ?_
    rintro s2 c2 ⟨rfl, hs2⟩ -
    have hmoved : (s2.edit { s2.ctx with
        jt := patchSlots (cf.pendingJtSlots.take 1) (u32 imm.p) 0 s2.ctx.jt
        ctrlStack := s2.ctx.ctrlStack.modifyHead (·.addPending (cf.pendingJtSlots.drop 1)) }).Fine := by
      refine hs2.frames ?_ rfl rfl
      simp only
      cases s2.ctx.ctrlStack <;> rfl
    dsimp only [Logged.edit] at hmoved ⊢
    generalize s2.ctx.ctrlStack.modifyHead (·.addPending (cf.pendingJtSlots.drop 1)) = frames at hmoved ⊢
    cases frames with
    | nil => exact .error _
    | cons elseFrame rest => exact .ok (pushSlot_same hmoved _ _)

theorem onEnd_same (hs : s.Fine) (imm : Stream) : Agree Same (s.onEnd imm) (onEnd imm s.ctx) := by
  unfold Logged.onEnd onEnd
  refine (popCtrl_same hs).bind ?_
  rintro ⟨cf, s1⟩ ⟨cf', c1⟩ ⟨rfl, rfl, hs1⟩ -
  refine .ok (pushVals_same (s := s1.edit _) ?_ cf.endTypes)
  exact hs1.frames rfl rfl rfl

theorem branch_same (hs : s.Fine) (op : WasmOpcode) (imm : Stream) (lth : ℕ) :
    Agree Same (s.branch op imm lth) (match s.ctx.ctrlStack[lth]? with
      | none => noFrame
      | some targetFrame => do
        let arity := u16 targetFrame.labelTypes.length
        let c := pushSlot lth
          { pc := u32 imm.p, stackOffset := stackOffsetOf s.ctx arity targetFrame.height, arity := arity } s.ctx
        let c ← popVals targetFrame.labelTypes c
        if op = .br then unreachable c else .ok (pushVals targetFrame.labelTypes c)) := by
  unfold Logged.branch
  cases s.ctx.ctrlStack[lth]? with
  | none => exact .error _
  | some fr =>
    refine (popVals_same (pushSlot_same hs lth _).2 fr.labelTypes).bind ?_
    rintro s2 c2 ⟨rfl, hs2⟩ -
    exact .ite (fun _ => unreachable_same hs2) fun _ => .ok (pushVals_same hs2 _)

theorem onBrOrIf_same (hs : s.Fine) (op : WasmOpcode) (imm : Stream) (lth : ℕ) :
    Agree Same (s.onBrOrIf op imm lth) (onBrOrIf op imm lth s.ctx) := by
  have hcond := (popCondition_same hs (op = .brIf)).bind fun s1 c1 h _ => h.1 ▸ branch_same h.2 op imm lth
  unfold Logged.onBrOrIf onBrOrIf
  refine .ite (fun _ => .error _) fun _ => ?_
  by_cases hop : op = .brIf
  · simp only [if_pos hop, bind_assoc, ok_bind] at hcond ⊢
    exact hcond
  · simp only [if_neg hop, ok_bind] at hcond ⊢
    exact hcond

theorem brTableSlots_same (hs : s.Fine) (pcEnd arity : ℕ) (ls : List ℕ) :
    Agree Same (Logged.brTableSlots pcEnd arity ls s) (brTableSlots pcEnd arity ls s.ctx) := by
  induction ls generalizing s with
  | nil => exact .ok ⟨rfl, hs⟩
  | cons l ls ih =>
    unfold Logged.brTableSlots brTableSlots
    cases s.ctx.ctrlStack[l]? with
    | none => exact .error _
    | some fr =>
      refine .ite (fun _ => .error _) fun _ => ?_
      refine (popValsToVec_same (pushSlot_same hs l _).2 fr.labelTypes).bind ?_
      rintro ⟨ts, s1⟩ ⟨ts', c1⟩ ⟨rfl, rfl, hs1⟩ -
      have hpushed : Same (s1.pushVals ts.reverse) (pushVals ts.reverse s1.ctx) := pushVals_same hs1 ts.reverse
      dsimp only
      rw [← hpushed.1]
      exact ih hpushed.2

theorem onBrTable_same (hs : s.Fine) (imm : Stream) : Agree Same (s.onBrTable imm) (onBrTable imm s.ctx) := by
  unfold Logged.onBrTable onBrTable
  refine (popValExpect_same hs .i32).bind ?_
  rintro ⟨t, s1⟩ ⟨t', c1⟩ ⟨rfl, rfl, hs1⟩ -
  refine .bind_same fun n _ => ?_
  refine .bind_same fun labels _ => ?_
  dsimp only
  cases labels.1.getLast? with
  | none => exact .error _
  | some m =>
    dsimp only
    cases s1.ctx.ctrlStack[m]? with
    | none => exact .error _
    | some fr =>
      refine (brTableSlots_same hs1 _ _ _).bind ?_
      rintro s2 c2 ⟨rfl, hs2⟩ -
      refine (popVals_same hs2 fr.labelTypes).bind ?_
      rintro s3 c3 ⟨rfl, hs3⟩ -
      exact unreachable_same hs3

theorem onReturn_same (hs : s.Fine) : Agree Same s.onReturn (onReturn s.ctx) := by
  unfold Logged.onReturn onReturn
  cases s.ctx.ctrlStack.getLast? with
  | none => exact .error _
  | some fr =>
    refine (popVals_same hs fr.labelTypes).bind ?_
    rintro s1 c1 ⟨rfl, hs1⟩ -
    exact unreachable_same hs1

theorem onCall_same (hs : s.Fine) (mod : Module) (idx : ℕ) : Agree Same (s.onCall mod idx) (onCall mod idx s.ctx) := by
  unfold Logged.onCall onCall
  cases mod.funcs[idx]? with
  | none => exact .error _
  | some fn =>
    refine .bind_same fun params _ => ?_
    refine (popVals_same hs params).bind ?_
    rintro s1 c1 ⟨rfl, hs1⟩ -
    refine .bind_same fun results _ => .ok (pushVals_same (s := s1.edit _) ?_ results)
    refine hs1.edit (hs1.ordered.congr rfl le_rfl) rfl ?_ ?_
    · simp only
      split
      · exact Nat.mod_lt _ (by decide)
      · exact hs1.bound
    · simp only
      split
      · omega
      · exact le_rfl

theorem onSelect_same (hs : s.Fine) : Agree Same s.onSelect (onSelect s.ctx) := by
  unfold Logged.onSelect onSelect
  refine (popValExpect_same hs .i32).bind ?_
  rintro ⟨t, s1⟩ ⟨t', c1⟩ ⟨rfl, rfl, hs1⟩ -
  refine (popVal_same hs1).bind ?_
  rintro ⟨t1, s2⟩ ⟨t1', c2⟩ ⟨rfl, rfl, hs2⟩ -
  refine (popVal_same hs2).bind ?_
  rintro ⟨t2, s3⟩ ⟨t2', c3⟩ ⟨rfl, rfl, hs3⟩ -
  exact .ite (fun _ => .error _) fun _ => .ite (fun _ => .error _) fun _ => .ok (pushVal_same hs3 _)

theorem onPlain_same (hs : s.Fine) {i : Instr} (hi : i.isControl = false) (hcall : ∀ f, i ≠ .call f)
    (hselect : i ≠ .select) : Agree Same (s.onPlain mod i imm) (onInstr mod i imm s.ctx) := by
  unfold Logged.onPlain
  cases hres : onInstr mod i imm s.ctx with
  | error e => exact .error e
  | ok c =>
    obtain ⟨pops, pushes, hsig, hpush⟩ := onInstr_fixed hi hcall hselect hres
    rw [ok_bind, hsig, ← hpush]
    exact popPush_same hs pops pushes

/-- The log changes nothing, and what it should say it says after every callback. -/
theorem onInstr_same (hs : s.Fine) (i : Instr) : Agree Same (s.onInstr mod i imm) (onInstr mod i imm s.ctx) := by
  cases i with
  | unreachable => exact unreachable_same hs
  | block op type => exact onBlock_same hs op imm type
  | else_ => exact onElse_same hs imm
  | end_ => exact onEnd_same hs imm
  | brOrIf op lth => exact onBrOrIf_same hs op imm lth
  | brTable => exact onBrTable_same hs imm
  | return_ => exact onReturn_same hs
  | call idx => exact onCall_same hs mod idx
  | select => exact onSelect_same hs
  | _ => exact onPlain_same hs rfl nofun nofun

end Callbacks

/-! ### Runs -/

section Runs
variable {mod : Module} {f : Func}

/-- One round of `validate_func`, with the log. -/
def LoggedStep (mod : Module) (f : Func) (x y : ℕ × Logged) : Prop :=
  ∃ i imm, fetch mod f.code x.1 = .ok (i, imm, y.1) ∧ x.2.onInstr mod i ⟨f.code, imm⟩ = .ok y.2

/-- The places of a run of `validate_func`, with the log. It begins when the function frame is opened. -/
def LoggedReach (mod : Module) (f : Func) (x : ℕ × Logged) : Prop :=
  ∃ s, Logged.onDecodeBegin f { ctx := { jt := f.jt }, sizes := [0] } = .ok s ∧ ReflTransGen (LoggedStep mod f) (0, s) x

theorem LoggedReach.fine {x : ℕ × Logged} (h : LoggedReach mod f x) : Reach mod f (x.1, x.2.ctx) ∧ x.2.Fine := by
  obtain ⟨s, hbegin, hsteps⟩ := h
  obtain ⟨c, hc, rfl, hs⟩ := (onDecodeBegin_same f).of_ok hbegin
  induction hsteps with
  | refl => exact ⟨⟨s.ctx, hc, .refl⟩, hs⟩
  | @tail x y _ hstep ih =>
    obtain ⟨hreach, hfine⟩ := ih
    obtain ⟨i, imm, hfetch, hinstr⟩ := hstep
    obtain ⟨c, hc', rfl, hs'⟩ := (onInstr_same hfine i).of_ok hinstr
    exact ⟨hreach.tail (step_iff.mpr ⟨i, imm, hfetch, hc'⟩), hs'⟩

/-- Every place of a run has its log. -/
theorem Reach.logged {x : ℕ × Ctx} (h : Reach mod f x) : ∃ s, LoggedReach mod f (x.1, s) ∧ s.ctx = x.2 := by
  obtain ⟨c, hc, hsteps⟩ := h
  induction hsteps with
  | refl =>
    obtain ⟨s, hbegin, rfl, -⟩ := (onDecodeBegin_same f).ok_of hc
    exact ⟨s, ⟨s, hbegin, .refl⟩, rfl⟩
  | @tail x y _ hstep ih =>
    obtain ⟨s, hreach, hctx⟩ := ih
    obtain ⟨p, c1⟩ := x
    obtain ⟨q, c2⟩ := y
    obtain ⟨i, imm, hfetch, hinstr⟩ := step_iff.mp hstep
    obtain rfl : s.ctx = c1 := hctx
    obtain ⟨s', hs', rfl, -⟩ := (onInstr_same hreach.fine.2 i).ok_of hinstr
    obtain ⟨s0, hbegin, hsteps⟩ := hreach
    exact ⟨s', ⟨s0, hbegin, hsteps.tail ⟨i, imm, hfetch, hs'⟩⟩, rfl⟩

end Runs

end Silverfir.Validator
