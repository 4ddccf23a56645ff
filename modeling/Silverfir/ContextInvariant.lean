import Silverfir.GivenSlots

/-! The context of the validator between two callbacks, and when `stack_size_max` is large enough for every stack that
there has been. -/
namespace Silverfir.Validator

open ListStack
open Relation (ReflTransGen)

variable {mod : Module} {f : Func}

/-- The slots of the jump table at a place of a run. -/
structure SlotsOnce (mod : Module) (f : Func) (x : ℕ × Ctx) : Prop where
  /-- A slot without target is listed in one open frame. -/
  listed : ∀ k < x.2.jt.length, ¬ Given mod f k x → ∃! n, Lists k n x.2.ctrlStack
  /-- It is as it was made. -/
  untouched : ∀ k y, Reach mod f y → ReflTransGen (Step mod f) y x → k < y.2.jt.length → ¬ Given mod f k x →
    x.2.jt[k]? = y.2.jt[k]?
  /-- A slot is given its target in one round only, and keeps it. -/
  once : ∀ k y z target adj, Reach mod f y → GivenAt mod f k y z target adj → ReflTransGen (Step mod f) z x →
    (∀ y' z' target' adj', Reach mod f y' → GivenAt mod f k y' z' target' adj' → y' = y) ∧
      x.2.jt[k]? = (y.2.jt[k]?).map (patched target adj)
  /-- The round is the `end` of the frame that lists the slot, or the `else` of an `if` frame if the slot is that of the
  `if`. -/
  source : ∀ k y z target adj, Reach mod f y → GivenAt mod f k y z target adj → ReflTransGen (Step mod f) z x →
    ∃ cf rest, y.2.ctrlStack = cf :: rest ∧ k ∈ cf.pendingJtSlots ∧
      ((∃ imm, fetch mod f.code y.1 = .ok (.end_, imm, z.1) ∧ z.2.ctrlStack = rest) ∨
        ∃ imm, fetch mod f.code y.1 = .ok (.else_, imm, z.1) ∧ cf.type = .if_ ∧ IfMade mod f k rest.length y)
  /-- An `end` gives their target to all slots that its frame lists. -/
  closed : ∀ y z imm cf rest, Reach mod f y → Step mod f y z → ReflTransGen (Step mod f) z x →
    fetch mod f.code y.1 = .ok (.end_, imm, z.1) → y.2.ctrlStack = cf :: rest →
      ∀ k ∈ cf.pendingJtSlots, Given mod f k x

theorem GivenAt.source {k target : ℕ} {adj : ℤ} {y z : ℕ × Ctx} (hy : Reach mod f y)
    (h : GivenAt mod f k y z target adj) :
    ∃ cf rest, y.2.ctrlStack = cf :: rest ∧ k ∈ cf.pendingJtSlots ∧
      ((∃ imm, fetch mod f.code y.1 = .ok (.end_, imm, z.1) ∧ z.2.ctrlStack = rest) ∨
        ∃ imm, fetch mod f.code y.1 = .ok (.else_, imm, z.1) ∧ cf.type = .if_ ∧ IfMade mod f k rest.length y) := by
  obtain ⟨i, imm, hfetch, hinstr, cf, hcf, hgives⟩ := h
  rcases hgives with ⟨rfl, hmem, -⟩ | ⟨rfl, hmem, -⟩
  · obtain ⟨cf', rest, n, ts, hframes, -, -, hz⟩ := onEnd_ok hinstr
    rw [hframes] at hcf
    cases hcf
    refine ⟨cf, rest, hframes, hmem, Or.inl ⟨imm, hfetch, ?_⟩⟩
    rw [hz, pushVals_ctrlStack]
  · obtain ⟨cf', rest, n, ts, ps, rs, slot, hframes, htype, -, -, -, -, -, -⟩ := onElse_ok hinstr
    rw [hframes] at hcf
    cases hcf
    have htop : fromBottom y.2.ctrlStack rest.length = some cf := by
      rw [hframes, fromBottom_cons_length]
    obtain ⟨k', hhead, hmade⟩ := hy.if_slot htop htype
    obtain ⟨tail, htail⟩ := List.head?_eq_some_iff.mp hhead
    have hk : k = k' := by
      rw [htail, List.take_succ_cons, List.take_zero, List.mem_singleton] at hmem
      exact hmem
    exact ⟨cf, rest, hframes, List.mem_of_mem_take hmem, Or.inr ⟨imm, hfetch, htype, hk ▸ hmade⟩⟩

theorem Reach.slotsOnce (hjt : f.jt = []) {x : ℕ × Ctx} (hx : Reach mod f x) : SlotsOnce mod f x where
  listed k hk hnot := lists_unique hx.inv.pend.nodup ((hx.waits_or_given hjt k hk).resolve_right hnot)
  untouched k y hy hpath hk hnot := hy.slot_untouched hpath hk hnot
  once k y z target adj hy h hpath :=
    ⟨fun y' z' target' adj' hy' h' => h'.once hy' hy h, (h.settled hy hpath).2⟩
  source k y z target adj hy h _ := h.source hy
  closed y z imm cf rest hy hstep hpath hfetch hframes k hk := by
    obtain ⟨p, c⟩ := y
    obtain ⟨q, c'⟩ := z
    obtain ⟨i, imm', hfetch', hinstr⟩ := step_iff.mp hstep
    obtain ⟨rfl, rfl, -⟩ : Instr.end_ = i ∧ imm = imm' ∧ q = q := by
      simpa using hfetch.symm.trans hfetch'
    refine ⟨_, _, (landing cf imm).1, (landing cf imm).2, hy, ⟨.end_, imm, hfetch, hinstr, cf, ?_, ?_⟩, hpath⟩
    · rw [hframes]
      rfl
    · exact Or.inl ⟨rfl, hk, rfl⟩

/-- What holds between two callbacks. -/
structure ContextInv (mod : Module) (f : Func) (x : ℕ × Logged) : Prop where
  /-- The heights of the frames do not decrease from bottom to top, and that of the top frame is at most the size of
  `val_stack`. -/
  ordered : Ordered x.2.ctx
  /-- `stack_size_max` is at least every size that `val_stack` has had. -/
  sizes : ∀ n ∈ x.2.sizes, n ≤ x.2.ctx.stackSizeMax
  slots : SlotsOnce mod f (x.1, x.2.ctx)
  /-- Each operand that was popped was above the height of its frame. -/
  pops : ∀ p ∈ x.2.pops, p.1 < p.2

/-- `stack_size_max` has 32 bits and `val_stack` is as long as there is memory, and else all is as it should be. -/
theorem context_invariant (hjt : f.jt = []) {x : ℕ × Logged} (hx : LoggedReach mod f x) :
    ContextInv mod f x ↔ ∀ n ∈ x.2.sizes, n < 2 ^ 32 := by
  obtain ⟨hreach, hfine⟩ := hx.fine
  constructor
  · intro h n hn
    exact lt_of_le_of_lt (h.sizes n hn) hfine.bound
  · intro hall
    exact ⟨hfine.ordered, hfine.sizes hall, hreach.slotsOnce hjt, hfine.pops⟩

/-- A block that is left early. -/
def oneBranch : Func := { code := [0x02, 0x40, 0x41, 0x01, 0x0d, 0x00, 0x0b, 0x0b] }

/-- The log after the `end` of the block. -/
def branchClosed : Logged where
  ctx :=
    { ctrlStack := [newFrame .func {} [] [] 0], stackSizeMax := 1,
      jt := [{ pc := 5, targetOffset := 2, stackOffset := 0, arity := 0 }] }
  sizes := [0, 1, 0, 0]
  pops := [(0, 1)]

theorem oneBranch_reach : LoggedReach {} oneBranch (7, branchClosed) := by
  refine ⟨_, rfl, ?_⟩
  refine ReflTransGen.head (b := (2, _)) ⟨.block .block {}, 1, rfl, rfl⟩ ?_
  refine ReflTransGen.head (b := (4, _)) ⟨.i32Const 1, 3, rfl, rfl⟩ ?_
  refine ReflTransGen.head (b := (6, _)) ⟨.brOrIf .brIf 0, 5, rfl, rfl⟩ ?_
  exact .single ⟨.end_, 7, rfl, rfl⟩

theorem context_invariant_branch : ContextInv {} oneBranch (7, branchClosed) :=
  (context_invariant rfl oneBranch_reach).mpr (by decide)
/-! ### A stack of more operands than fit 32 bits -/

/-- A function with as many results as a type may have. -/
def manyResults : FuncType := { resultCount := 65535, results := List.replicate 65535 0x7f }

/-- `call 0`, that many times. -/
def calls : ℕ → Str
  | 0 => []
  | n + 1 => 0x10 :: 0x00 :: calls n

/-- It calls itself before it gives up. -/
def manyCalls : Func := { fnType := manyResults, code := calls 65538 ++ [0x00, 0x0b] }

def manyModule : Module := { funcTypes := [manyResults], funcs := [manyCalls] }

theorem getElem?_calls {n j : ℕ} (h : j < n) (rest : Str) :
    (calls n ++ rest)[2 * j]? = some 0x10 ∧ (calls n ++ rest)[2 * j + 1]? = some 0x00 := by
  induction n generalizing j with
  | zero => exact absurd h (Nat.not_lt_zero j)
  | succ n ih =>
    cases j with
    | zero => exact ⟨rfl, rfl⟩
    | succ j => exact ih (Nat.lt_of_succ_lt_succ h)

theorem fetch_calls {n j : ℕ} (h : j < n) (rest : Str) :
    fetch mod (calls n ++ rest) (2 * j) = .ok (.call 0, 2 * j + 1, 2 * (j + 1)) := by
  obtain ⟨hop, himm⟩ := getElem?_calls h rest
  refine fetch_ok.mpr ⟨0x10, .call, ⟨calls n ++ rest, 2 * (j + 1)⟩, hop, rfl, ?_, rfl⟩
  have hread := readVu32_one_byte himm (by decide)
  unfold decodeImm WasmOpcode.case readU32Instr
  rw [hread]
  rfl

theorem parseTypesLoop_replicate {n p count : ℕ} (h : p + count ≤ n) :
    parseTypesLoop count ⟨List.replicate n 0x7f, p⟩ = .ok (List.replicate count .i32) := by
  induction count generalizing p with
  | zero => rfl
  | succ count ih =>
    have hbyte : (List.replicate n (0x7f : UInt8))[p]? = some 0x7f := by
      rw [List.getElem?_replicate, if_pos (by omega)]
    have hread : Stream.readVi7 ⟨List.replicate n 0x7f, p⟩ = .ok (-1, ⟨List.replicate n 0x7f, p + 1⟩) := by
      simp only [Stream.readVi7, Stream.byteAt?, Nat.add_zero, hbyte]
      rfl
    have htype : TypeId.ofI8? (-1) = some .i32 := by decide
    rw [parseTypesLoop, hread, ok_bind]
    simp only [htype]
    rw [ih (by omega)]
    rfl

theorem parseTypes_manyResults :
    parseTypes manyResults.resultCount manyResults.results = .ok (List.replicate 65535 .i32) :=
  parseTypesLoop_replicate le_rfl

/-- Each call leaves its results on the stack. -/
theorem onInstr_manyCalls (imm : Stream) (c : Ctx) : ∃ c', onInstr manyModule (.call 0) imm c = .ok c' ∧
    c'.valStack.length = c.valStack.length + 65535 ∧ c'.ctrlStack = c.ctrlStack := by
  have hcall : onInstr manyModule (.call 0) imm c = onCall manyModule 0 c := rfl
  have hfn : manyModule.funcs[0]? = some manyCalls := rfl
  have hparams : parseTypes manyCalls.fnType.paramCount manyCalls.fnType.params = .ok [] := rfl
  have hresults : parseTypes manyCalls.fnType.resultCount manyCalls.fnType.results =
      .ok (List.replicate 65535 .i32) := parseTypes_manyResults
  have hpop : popVals [] c = .ok c := rfl
  rw [hcall, onCall]
  simp only [hfn]
  rw [hparams, ok_bind, hpop, ok_bind, hresults, ok_bind]
  refine ⟨_, rfl, ?_, ?_⟩
  · rw [pushVals_valStack, List.length_append, List.length_reverse, List.length_replicate, Nat.add_comm]
  · rw [pushVals_ctrlStack]

/-- The validator comes by every call. -/
theorem reach_manyCalls {j : ℕ} (h : j ≤ 65538) : ∃ c, Reach manyModule manyCalls (2 * j, c) ∧
    c.valStack.length = j * 65535 ∧ c.ctrlStack.length = 1 := by
  induction j with
  | zero =>
    have hparams : parseTypes manyCalls.fnType.paramCount manyCalls.fnType.params = .ok [] := rfl
    have hresults : parseTypes manyCalls.fnType.resultCount manyCalls.fnType.results =
        .ok (List.replicate 65535 .i32) := parseTypes_manyResults
    have hbegin : ∃ c, onDecodeBegin manyCalls { jt := manyCalls.jt } = .ok c ∧ c.valStack.length = 0 ∧
        c.ctrlStack.length = 1 := by
      unfold onDecodeBegin pushCtrl
      rw [hparams, hresults]
      exact ⟨_, rfl, rfl, rfl⟩
    obtain ⟨c, hc, hstack, hframes⟩ := hbegin
    exact ⟨c, ⟨c, hc, .refl⟩, by rw [hstack, Nat.zero_mul], hframes⟩
  | succ j ih =>
    obtain ⟨c, hreach, hstack, hframes⟩ := ih (by omega)
    obtain ⟨c', hcall, hstack', hframes'⟩ := onInstr_manyCalls ⟨manyCalls.code, 2 * j + 1⟩ c
    refine ⟨c', hreach.tail (step_iff.mpr ⟨.call 0, 2 * j + 1, fetch_calls (by omega) _, hcall⟩), ?_, ?_⟩
    · rw [hstack', hstack]
      omega
    · rw [hframes', hframes]

/-- After the last call `stack_size_max` is too small. -/
theorem manyCalls_outgrow : ∃ s, LoggedReach manyModule manyCalls (131076, s) ∧ s.ctx.ctrlStack ≠ [] ∧
    ¬ ContextInv manyModule manyCalls (131076, s) := by
  obtain ⟨c, hreach, hstack, hframes⟩ := reach_manyCalls le_rfl
  obtain ⟨s, hlogged, rfl⟩ := hreach.logged
  have hfine := hlogged.fine.2
  refine ⟨s, hlogged, fun hnil => ?_, fun hinv => ?_⟩
  · rw [hnil] at hframes
    cases hframes
  · have hle := hinv.sizes _ hfine.now
    have hbound : s.ctx.stackSizeMax < 2 ^ 32 := hfine.bound
    simp only at hle hstack
    omega

end Silverfir.Validator
