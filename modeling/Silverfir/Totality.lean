import Silverfir.Defined
import Silverfir.Nesting
import Silverfir.Parser

/-! When `validate_func` has an outcome. The decoder always stops; a round has no defined result
when it reads a frame after the last one was closed, when a `br_table` has `2^32` labels, and
when a block type names one of the two pseudo types. -/
namespace Silverfir

namespace Validator

/-- A frame is open and the operands reach up to it. -/
def Open (c : Ctx) : Prop := ∃ fr ∈ c.ctrlStack.head?, fr.height ≤ c.valStack.length

/-- A context of which only the operands differ from those of `c`. -/
def OpenAs (c c' : Ctx) : Prop := Open c' ∧ c'.ctrlStack = c.ctrlStack

theorem OpenAs.trans {a b c : Ctx} (h : OpenAs a b) (k : OpenAs b c) : OpenAs a c := ⟨k.1, k.2.trans h.2⟩

theorem Open.pushVals {c : Ctx} (h : Open c) (ts : List TypeId) : Open (pushVals ts c) := by
  obtain ⟨fr, hfr, hle⟩ := h
  exact ⟨fr, by rwa [pushVals_ctrlStack], by simp; omega⟩

theorem Open.pushSlot {c : Ctx} (h : Open c) (l : ℕ) (slot : JumpTable) : Open (pushSlot l slot c) := by
  obtain ⟨fr, hfr, hle⟩ := h
  cases hc : c.ctrlStack with
  | nil => simp [hc] at hfr
  | cons g s =>
    obtain rfl : g = fr := by simpa [hc] using hfr
    cases l with
    | zero => exact ⟨g.addPending [c.jt.length], by simp [hc], hle⟩
    | succ l => exact ⟨g, by simp [hc], hle⟩

theorem popVal_safe {c : Ctx} (h : Open c) : Safe (popVal c) fun r => OpenAs c r.2 := by
  obtain ⟨fr, hfr, hle⟩ := h
  unfold popVal
  split
  · next hc => simp [hc] at hfr
  · next g rest hc =>
    obtain rfl : g = fr := by simpa [hc] using hfr
    split_ifs with h1 h2
    · exact .ok ⟨⟨g, hfr, hle⟩, rfl⟩
    · exact .err _ _
    · split
      · next hv => simp only [hv, List.length_nil] at hle h2; omega
      · next t s hv =>
        simp only [hv, List.length_cons] at hle h2
        exact .ok ⟨⟨g, hfr, by simp only; omega⟩, rfl⟩

theorem popValExpect_safe {c : Ctx} (h : Open c) (e : TypeId) :
    Safe (popValExpect e c) fun r => OpenAs c r.2 := by
  refine (popVal_safe h).bind fun r hr => ?_
  dsimp only
  split
  · exact .err _ _
  · exact .ok hr

theorem popValsRev_safe {c : Ctx} (h : Open c) (es : List TypeId) :
    Safe (popValsRev es c) fun r => OpenAs c r.2 := by
  induction es generalizing c with
  | nil => exact .ok ⟨h, rfl⟩
  | cons e es ih =>
    refine (popValExpect_safe h e).bind fun r hr => (ih hr.1).bind fun q hq => ?_
    exact .ok (hr.trans hq)

theorem popVals_safe {c : Ctx} (h : Open c) (es : List TypeId) :
    Safe (popVals es c) fun c' => OpenAs c c' :=
  (popValsRev_safe h es.reverse).bind fun _ hr => .ok hr

theorem popPush_safe {c : Ctx} (h : Open c) (pops pushes : List TypeId) :
    Defined (popPush pops pushes c) :=
  ((popValsRev_safe h pops).bind fun _ _ => Safe.ok (P := fun _ => True) trivial).1

theorem pushCtrl_safe (bt : Blocktype) (ft : FuncType) (c : Ctx) :
    Safe (pushCtrl bt ft c) fun c' => c'.ctrlStack ≠ [] := by
  refine (defined_parseTypes _ _).safe.bind fun _ _ => (defined_parseTypes _ _).safe.bind fun _ _ => ?_
  exact .ok (by simp)

theorem popCtrl_safe {c : Ctx} (h : Open c) : Defined (popCtrl c) := by
  unfold popCtrl
  split
  · simp
  · exact ((popVals_safe h _).bind fun _ _ => Safe.ok (P := fun _ => True) trivial).1

theorem unreachable_safe {c : Ctx} (h : Open c) : Defined (unreachable c) := by
  obtain ⟨fr, hfr, -⟩ := h
  unfold unreachable
  split
  · next hc => simp [hc] at hfr
  · simp

/-! With no open frame every pop reads outside the stack of frames. -/

theorem popVal_closed {c : Ctx} (h : c.ctrlStack = []) : popVal c = noFrame := by
  unfold popVal
  rw [h]

theorem popValExpect_closed {c : Ctx} (h : c.ctrlStack = []) (e : TypeId) : popValExpect e c = noFrame := by
  unfold popValExpect
  rw [popVal_closed h]
  rfl

theorem popValsRev_closed {c : Ctx} (h : c.ctrlStack = []) (es : List TypeId) :
    Defined (popValsRev es c) ↔ es = [] := by
  cases es with
  | nil => simp [popValsRev]
  | cons e es =>
    simp only [popValsRev, popValExpect_closed h, reduceCtorEq, iff_false]
    exact not_defined_undef _

theorem popVals_closed {c : Ctx} (h : c.ctrlStack = []) (es : List TypeId) :
    Defined (popVals es c) ↔ es = [] := by
  simp [popVals, popValsToVec, popValsRev_closed h]

theorem popPush_closed {c : Ctx} (h : c.ctrlStack = []) (pops pushes : List TypeId) :
    Defined (popPush pops pushes c) ↔ pops = [] := by
  simp [popPush, popValsRev_closed h]

/-! ### Callbacks with a frame open -/

section Opened
variable {c : Ctx} (h : Open c)
include h

theorem onBlock_open (op : WasmOpcode) (imm : Stream) (type : FuncType) : Defined (onBlock op imm type c) := by
  have tail : ∀ {c1 : Ctx}, Open c1 → ∀ (ps : List TypeId) (k : Ctx → R Ctx), (∀ c3, Defined (k c3)) →
      Defined (do
        let c2 ← popVals ps c1
        let c3 ← pushCtrl (blocktypeOf op) type c2
        k c3) := by
    intro c1 h1 ps k hk
    exact ((popVals_safe h1 ps).bind (S := fun _ => True) fun c2 _ =>
      (pushCtrl_safe _ _ _).bind fun c3 _ => (hk c3).safe).1
  by_cases hop : op = .if_
  · simp only [onBlock, if_pos hop]
    refine ((popValExpect_safe h .i32).bind (S := fun _ => True) fun r hr => Defined.safe ?_).1
    simp only [ok_bind, defined_bind (x := parseTypes _ _), defined_parseTypes, true_and]
    exact fun ps _ => tail hr.1 ps _ fun c3 => by simp
  · simp only [onBlock, if_neg hop, ok_bind, defined_bind (x := parseTypes _ _), defined_parseTypes, true_and]
    exact fun ps _ => tail h ps _ fun c3 => by simp

theorem onElse_open (imm : Stream) : Defined (onElse imm c) := by
  unfold onElse
  split
  · next hc =>
    obtain ⟨fr, hfr, -⟩ := h
    simp [hc] at hfr
  · split
    · simp
    · refine ((popCtrl_safe h).safe.bind (S := fun _ => True) fun r _ => ?_).1
      refine (pushCtrl_safe _ _ _).bind fun c2 h2 => Defined.safe ?_
      obtain ⟨fr, rest, hc2⟩ := List.exists_cons_of_ne_nil h2
      simp [hc2]

theorem onEnd_open (imm : Stream) : Defined (onEnd imm c) := by
  simp [onEnd, popCtrl_safe h]

theorem onBrOrIf_open (op : WasmOpcode) (imm : Stream) (lth : ℕ) : Defined (onBrOrIf op imm lth c) := by
  have tail : ∀ {c1 : Ctx}, OpenAs c c1 → ∀ (slot : JumpTable) (ts : List TypeId),
      Defined (do
        let c2 ← popVals ts (pushSlot lth slot c1)
        if op = .br then unreachable c2 else .ok (pushVals ts c2)) := by
    intro c1 h1 slot ts
    refine ((popVals_safe (h1.1.pushSlot _ _) _).bind (S := fun _ => True) fun c2 h2 => Defined.safe ?_).1
    simp [unreachable_safe h2.1]
  unfold onBrOrIf
  split
  · simp
  · next hlt =>
    obtain ⟨fr, hfr⟩ : ∃ fr, c.ctrlStack[lth]? = some fr :=
      ⟨c.ctrlStack[lth], List.getElem?_eq_getElem (by omega)⟩
    by_cases hop : op = .brIf
    · simp only [if_pos hop]
      refine ((popValExpect_safe h .i32).bind (S := fun _ => True) fun r hr => Defined.safe ?_).1
      rw [ok_bind, hr.2, hfr]
      exact tail hr _ _
    · simp only [if_neg hop, ok_bind, hfr]
      exact tail ⟨h, rfl⟩ _ _

theorem onReturn_open : Defined (onReturn c) := by
  obtain ⟨fr, hfr, -⟩ := id h
  unfold onReturn
  split
  · next hnone =>
    rw [List.getLast?_eq_none_iff] at hnone
    simp [hnone] at hfr
  · exact ((popVals_safe h _).bind (S := fun _ => True) fun c2 h2 => (unreachable_safe h2.1).safe).1

theorem brTableSlots_open {pcEnd arity : ℕ} {ls : List ℕ} (hl : ∀ l ∈ ls, l < c.ctrlStack.length) :
    Safe (brTableSlots pcEnd arity ls c) Open := by
  induction ls generalizing c with
  | nil => exact .ok h
  | cons l ls ih =>
    unfold brTableSlots
    split
    · next hnone =>
      rw [List.getElem?_eq_none_iff] at hnone
      have := hl l (by simp)
      omega
    · split
      · exact .err _ _
      · refine (popValsRev_safe (h.pushSlot _ _) _).bind fun r hr => ih (hr.1.pushVals _) fun l' hl' => ?_
        rw [pushVals_ctrlStack, hr.2, pushSlot_ctrlStack, List.length_modify]
        exact hl l' (List.mem_cons_of_mem _ hl')

end Opened

theorem brTableLabels_defined (frames n : ℕ) (pc : Stream) : Defined (brTableLabels frames n pc) := by
  induction n generalizing pc with
  | zero => exact defined_ok _
  | succ n ih => simp [brTableLabels, ih]

/-- `table_len + 1` wraps to zero. -/
def NoLabels (imm : Stream) : Prop := ∃ pc, imm.readVu32 = .ok (2 ^ 32 - 1, pc)

/-- The callback of `br_table` has a frame for its labels unless there are `2^32` of them. -/
theorem onBrTable_open {c : Ctx} (h : Open c) (imm : Stream) :
    Defined (onBrTable imm c) ↔ ¬ ((∃ r, popValExpect .i32 c = .ok r) ∧ NoLabels imm) := by
  simp only [onBrTable, defined_bind, (popValExpect_safe h .i32).1, Stream.defined_readVu32,
    brTableLabels_defined, true_and]
  constructor
  · rintro hd ⟨⟨r, hr⟩, pc, hn⟩
    have hwrap : (2 ^ 32 - 1 + 1) % 2 ^ 32 = 0 := by decide
    have hl : brTableLabels r.2.ctrlStack.length ((2 ^ 32 - 1 + 1) % 2 ^ 32) pc = .ok ([], pc) := by
      rw [hwrap, brTableLabels]
    exact not_defined_undef _ (hd r hr (2 ^ 32 - 1, pc) hn ([], pc) hl)
  · rintro hno r hr ⟨n, pc⟩ hn ⟨labels, pcEnd⟩ hl
    obtain ⟨hlen, hlt, -⟩ := brTableLabels_ok hl
    have hr' := (popValExpect_safe h .i32).2 r hr
    dsimp only at hlen ⊢
    split
    · next hnone =>
      rw [List.getLast?_eq_none_iff] at hnone
      rw [hnone, List.length_nil] at hlen
      have hn' := Stream.readVu32_lt hn
      obtain rfl : n = 2 ^ 32 - 1 := by omega
      exact absurd ⟨⟨r, hr⟩, pc, hn⟩ hno
    · next m hm =>
      have hmlt := hlt m (List.mem_of_getLast? hm)
      split
      · next hnone =>
        rw [List.getElem?_eq_none_iff] at hnone
        omega
      · refine ((brTableSlots_open hr'.1 hlt).bind (S := fun _ => True) fun c2 h2 => ?_).1
        exact (popVals_safe h2 _).bind fun c3 h3 => (unreachable_safe h3.1).safe

/-- An `i32` or a value of unknown type can be popped. -/
def TopIsI32 (c : Ctx) : Prop :=
  ∃ fr ∈ c.ctrlStack.head?,
    (fr.unreachable = true ∧ fr.height = c.valStack.length) ∨
      (fr.height ≠ c.valStack.length ∧ ∃ t ∈ c.valStack.head?, t = .i32 ∨ t = .unknown)

theorem popValExpect_i32 {c : Ctx} : (∃ r, popValExpect .i32 c = .ok r) ↔ TopIsI32 c := by
  unfold popValExpect popVal TopIsI32
  cases hc : c.ctrlStack with
  | nil => simp [noFrame, undef, bind, Except.bind]
  | cons fr rest =>
    simp only [List.head?_cons, Option.mem_some_iff, exists_eq_left']
    split_ifs with h1 h2
    · simp [h1]
    · simp only [err, error_bind, reduceCtorEq, exists_false, h2, ne_eq, not_true_eq_false, false_and,
        or_false, and_true, false_iff]
      exact fun hu => h1 ⟨hu, h2⟩
    · cases hv : c.valStack with
      | nil =>
        rw [hv] at h1
        simpa [undef, bind, Except.bind] using h1
      | cons t s =>
        have hh : fr.height ≠ s.length + 1 := by simpa [hv] using h2
        simp only [ok_bind, List.length_cons, hh, and_false, false_or, ne_eq, not_false_iff, true_and,
          List.head?_cons, Option.mem_some_iff, exists_eq_left', reduceCtorEq, false_and, and_true]
        split_ifs with h3
        · simp only [err_ne_ok, exists_false, false_iff]
          tauto
        · simp only [Except.ok.injEq, exists_eq', true_iff]
          tauto

/-! ### Plain instructions, and callbacks with no frame open -/

end Validator

/-- The type has parameters that `parse_types` reads. -/
def FuncType.takesParams (ft : FuncType) : Bool :=
  match parseTypes ft.paramCount ft.params with
  | .ok (_ :: _) => true
  | _ => false

/-- The size that the alignment of a memory access is compared with. -/
def WasmOpcode.accessSize (op : WasmOpcode) : ℕ :=
  if op.memType = some .i32 ∨ op.memType = some .f32 then 4 else 8

/-- The callback gets past its index checks and then looks at a frame. -/
def Instr.readsFrame (mod : Module) (locals : List TypeId) : Instr → Bool
  | .unreachable | .else_ | .brTable | .return_ | .callIndirect _ _ | .drop | .select | .selectT _
  | .memoryGrow | .refIsNull => true
  | .block op type => op == .if_ || type.takesParams
  | .call idx => (mod.funcs[idx]?).any (·.fnType.takesParams)
  | .localSet idx | .localTee idx => (locals[idx]?).isSome
  | .globalSet idx => (mod.globals[idx]?).isSome
  | .tableGet idx | .tableSet idx | .tableGrow idx | .tableFill idx => (mod.tables[idx]?).isSome
  | .memoryLoadStore op align _ => mod.memories.length != 0 && align ≤ op.accessSize
  | .memoryInit idx => (mod.data[idx]?).isSome && mod.memories.length != 0
  | .memoryCopy | .memoryFill => mod.memories.length != 0
  | .tableInit e t =>
    (mod.tables[t]?).any fun tab => (mod.elements[e]?).any fun elem => tab.valtype == elem.valtype
  | .tableCopy dst src =>
    (mod.tables[src]?).any fun tabX => (mod.tables[dst]?).any fun tabY => tabX.valtype == tabY.valtype
  | i => i.numArity.isSome

/-- A numeric instruction or a memory access has an opcode of its group. -/
def Instr.Fits : Instr → Prop
  | .memoryLoadStore op _ _ => op.memType ≠ none
  | i => i.numArity ≠ none → i.numSig ≠ none

theorem decodeImmFc_fits {op : WasmOpcodeFc} {i : Instr} {pc imm pc' : Stream}
    (h : decodeImmFc op pc = .ok (i, imm, pc')) : i.Fits := by
  unfold decodeImmFc at h
  split at h
  all_goals try simp only [readU32Instr, readU32U32Instr, bind_eq_ok] at h
  case h_10 =>
    obtain ⟨_, _, _, _, h⟩ := h
    split at h <;> cases h
    exact fun hn => absurd rfl hn
  all_goals first
    | (cases h; exact fun _ => Option.some_ne_none _)
    | (obtain ⟨_, _, h⟩ := h; cases h; exact fun hn => absurd rfl hn)
    | (obtain ⟨_, _, _, _, h⟩ := h; cases h; exact fun hn => absurd rfl hn)

/-- The opcodes of the numeric groups and of the memory accesses have a signature. -/
theorem WasmOpcode.sig_of_case (op : WasmOpcode) :
    match op.case with
    | .memoryLoadStore => op.memType ≠ none
    | .itestop => (Instr.itestop op).numSig ≠ none
    | .iunop => (Instr.iunop op).numSig ≠ none
    | .irelop => (Instr.irelop op).numSig ≠ none
    | .ibinop => (Instr.ibinop op).numSig ≠ none
    | .funop => (Instr.funop op).numSig ≠ none
    | .frelop => (Instr.frelop op).numSig ≠ none
    | .fbinop => (Instr.fbinop op).numSig ≠ none
    | .wrapop => (Instr.wrapop op).numSig ≠ none
    | .truncop => (Instr.truncop op).numSig ≠ none
    | .convertop => (Instr.convertop op).numSig ≠ none
    | .rankop => (Instr.rankop op).numSig ≠ none
    | .reinterpretop => (Instr.reinterpretop op).numSig ≠ none
    | .extendop => (Instr.extendop op).numSig ≠ none
    | _ => True := by
  cases op <;> first | exact trivial | exact Option.some_ne_none _

theorem decodeImm_fits {mod : Module} {op : WasmOpcode} {i : Instr} {pc imm pc' : Stream}
    (h : decodeImm mod op pc = .ok (i, imm, pc')) : i.Fits := by
  unfold decodeImm at h
  split at h
  all_goals rename_i hc
  all_goals try simp only [readU32Instr, readU32U32Instr, bind_eq_ok] at h
  case h_13 =>
    obtain ⟨_, _, h⟩ := h
    split at h
    · simp at h
    · obtain ⟨_, _, h⟩ := bind_eq_ok.mp h
      cases h
      exact fun hn => absurd rfl hn
  case h_21 =>
    obtain ⟨_, _, _, _, h⟩ := h
    cases h
    have hsig := op.sig_of_case
    rw [hc] at hsig
    exact hsig
  case h_44 =>
    obtain ⟨_, _, h⟩ := h
    split at h
    · simp at h
    · exact decodeImmFc_fits h
  all_goals first
    | (cases h; exact fun hn => absurd rfl hn)
    | (obtain ⟨_, _, _, _, h⟩ := h; cases h; exact fun hn => absurd rfl hn)
    | (obtain ⟨_, _, h⟩ := h; cases h; exact fun hn => absurd rfl hn)
    | (cases h; exact fun _ => by simpa only [hc] using op.sig_of_case)

namespace Validator

theorem needMem0_defined {mod : Module} {k : R Ctx} :
    Defined (needMem0 mod k) ↔ (mod.memories.length ≠ 0 → Defined k) := by
  simp [needMem0]

/-- A frame is open above the operands, or none is. -/
def OpenOrClosed (c : Ctx) : Prop := Open c ∨ c.ctrlStack = []

theorem not_open {c : Ctx} (h : c.ctrlStack = []) : ¬ Open c := by
  rintro ⟨fr, hfr, -⟩
  simp [h] at hfr

theorem onMemoryLoadStore_eq {mod : Module} {op : WasmOpcode} {align : ℕ} {c : Ctx} {t : TypeId}
    (h : op.memType = some t) :
    onMemoryLoadStore mod op align c =
      needMem0 mod (if op.isLoad then memLoad align op.accessSize t c else memStore align op.accessSize t c) := by
  cases op <;> first | (cases h; rfl) | cases h

theorem onInstr_num {mod : Module} {i : Instr} {imm : Stream} {c : Ctx} {n : ℕ} {a b : TypeId}
    (hn : i.numArity = some n) (hs : i.numSig = some (a, b)) :
    onInstr mod i imm c = popPush (List.replicate n a) [b] c := by
  cases i with
  | itestop op =>
    cases hn
    cases hs
    simp only [onInstr, onItestop]
    split <;> rfl
  | wrapop op =>
    cases hn
    cases hs
    rfl
  | iunop op | funop op | truncop op | convertop op | rankop op | reinterpretop op | extendop op | truncSat op
  | irelop op | ibinop op | frelop op | fbinop op =>
    cases hn
    simp only [Instr.numSig] at hs
    split at hs <;> cases hs <;> rfl
  | _ => cases hn

section Plain
variable {mod : Module} {c : Ctx} {i : Instr} {imm : Stream} (hc : OpenOrClosed c)
include hc

theorem popVal_defined : Defined (popVal c) ↔ Open c := by
  rcases hc with h | h
  · exact iff_of_true (popVal_safe h).1 h
  · rw [popVal_closed h]
    exact iff_of_false (not_defined_undef _) (not_open h)

theorem popValExpect_defined (e : TypeId) : Defined (popValExpect e c) ↔ Open c := by
  rcases hc with h | h
  · exact iff_of_true (popValExpect_safe h e).1 h
  · rw [popValExpect_closed h]
    exact iff_of_false (not_defined_undef _) (not_open h)

theorem popVals_defined (es : List TypeId) : Defined (popVals es c) ↔ (es ≠ [] → Open c) := by
  rcases hc with h | h
  · exact iff_of_true (popVals_safe h es).1 fun _ => h
  · rw [popVals_closed h]
    exact ⟨fun he hne => absurd he hne, fun hne => by_contra fun he => not_open h (hne he)⟩

theorem popPush_defined (pops pushes : List TypeId) :
    Defined (popPush pops pushes c) ↔ (pops ≠ [] → Open c) := by
  rcases hc with h | h
  · exact iff_of_true (popPush_safe h _ _) fun _ => h
  · rw [popPush_closed h]
    exact ⟨fun he hne => absurd he hne, fun hne => by_contra fun he => not_open h (hne he)⟩

theorem onCall_defined (idx : ℕ) :
    Defined (onCall mod idx c) ↔ ((mod.funcs[idx]?).any (·.fnType.takesParams) = true → Open c) := by
  unfold onCall
  cases mod.funcs[idx]? with
  | none => simp
  | some fn =>
    simp only [defined_bind, defined_parseTypes, true_and, popVals_defined hc, Option.any_some, FuncType.takesParams]
    constructor
    · intro h ht
      split at ht
      · next t ts hps => exact (h _ hps).1 (by simp)
      · cases ht
    · intro h ps hps
      refine ⟨fun hne => h ?_, fun _ _ => by simp⟩
      obtain ⟨t, ts, rfl⟩ := List.exists_cons_of_ne_nil hne
      rw [hps]

theorem onCallIndirect_defined (t tab : ℕ) : Defined (onCallIndirect mod t tab c) ↔ Open c := by
  constructor
  · intro h
    exact (popValExpect_defined hc .i32).mp (defined_bind.mp h).1
  · intro h
    refine ((popValExpect_safe h .i32).bind (S := fun _ => True) fun r hr => Defined.safe ?_).1
    dsimp only
    split
    · simp
    · split
      · simp
      · simp [(popVals_safe hr.1 _).1]

theorem onSelect_defined : Defined (onSelect c) ↔ Open c := by
  constructor
  · intro h
    exact (popValExpect_defined hc .i32).mp (defined_bind.mp h).1
  · intro h
    refine ((popValExpect_safe h .i32).bind (S := fun _ => True) fun r hr =>
      (popVal_safe hr.1).bind fun r1 hr1 => (popVal_safe hr1.1).bind fun r2 _ => Defined.safe ?_).1
    simp

theorem onMemoryLoadStore_defined {op : WasmOpcode} (hop : op.memType ≠ none) (align : ℕ) :
    Defined (onMemoryLoadStore mod op align c) ↔
      (mod.memories.length ≠ 0 ∧ align ≤ op.accessSize → Open c) := by
  obtain ⟨t, ht⟩ := Option.ne_none_iff_exists'.mp hop
  rw [onMemoryLoadStore_eq ht, needMem0_defined, and_imp]
  refine imp_congr_right fun _ => ?_
  split <;> simp [memLoad, memStore, popPush_defined hc]

/-- The callback of a plain instruction has an outcome unless it looks for a frame and none is open. -/
theorem onInstr_plain_defined (hi : i.isControl = false) (hfit : i.Fits) :
    Defined (onInstr mod i imm c) ↔ (i.readsFrame mod c.locals = true → Open c) := by
  have hpush := popPush_defined hc
  cases i with
  | unreachable | block | else_ | end_ | brOrIf | brTable | return_ => simp [Instr.isControl] at hi
  | call idx => exact onCall_defined hc idx
  | callIndirect => simp [onInstr, Instr.readsFrame, onCallIndirect_defined hc]
  | drop => simp [onInstr, onDrop, Instr.readsFrame, popVal_defined hc]
  | select => simp [onInstr, Instr.readsFrame, onSelect_defined hc]
  | memoryLoadStore op align offset =>
    simp [onInstr, Instr.readsFrame, onMemoryLoadStore_defined hc hfit]
  | localGet idx | localSet idx | localTee idx =>
    cases h : c.locals[idx]? <;>
      simp [onInstr, onLocalGet, onLocalSet, onLocalTee, withIdx, Instr.readsFrame, Instr.numArity, h, hpush]
  | globalGet idx | globalSet idx =>
    cases h : mod.globals[idx]? <;>
      simp [onInstr, onGlobalGet, onGlobalSet, withIdx, Instr.readsFrame, Instr.numArity, h, hpush]
  | tableGet idx | tableSet idx | tableGrow idx | tableSize idx | tableFill idx =>
    cases h : mod.tables[idx]? <;>
      simp [onInstr, onTableGet, onTableSet, onTableGrow, onTableSize, onTableFill, withIdx, Instr.readsFrame,
        Instr.numArity, h, hpush]
  | refFunc idx =>
    cases h : mod.funcs[idx]? <;> simp [onInstr, onRefFunc, withIdx, Instr.readsFrame, Instr.numArity, h, hpush]
  | dataDrop idx =>
    cases h : mod.data[idx]? <;> simp [onInstr, onDataDrop, withIdx, Instr.readsFrame, Instr.numArity, h]
  | elemDrop idx =>
    cases h : mod.elements[idx]? <;> simp [onInstr, onElemDrop, withIdx, Instr.readsFrame, Instr.numArity, h]
  | memoryInit idx =>
    cases h : mod.data[idx]? <;>
      simp [onInstr, onMemoryInit, withIdx, needMem0_defined, Instr.readsFrame, h, hpush]
  | memoryCopy | memoryFill =>
    simp [onInstr, onMemoryCopy, needMem0_defined, Instr.readsFrame, hpush]
  | tableInit e t =>
    cases h : mod.tables[t]? <;> cases h' : mod.elements[e]? <;>
      simp [onInstr, onTableInit, withIdx, Instr.readsFrame, h, h', hpush]
  | tableCopy dst src =>
    cases h : mod.tables[src]? <;> cases h' : mod.tables[dst]? <;>
      simp [onInstr, onTableCopy, withIdx, Instr.readsFrame, h, h', hpush]
  | nop | opcodeFd | selectT | memorySize | memoryGrow | i32Const | i64Const | f32Const | f64Const | refNull
  | refIsNull =>
    simp [onInstr, onSelectT, pop1Push, Instr.readsFrame, Instr.numArity, hpush]
  | itestop | wrapop | iunop | funop | truncop | convertop | rankop | reinterpretop | extendop | truncSat
  | irelop | ibinop | frelop | fbinop =>
    obtain ⟨⟨a, b⟩, hs⟩ := Option.ne_none_iff_exists'.mp (hfit (by simp [Instr.numArity]))
    rw [onInstr_num rfl hs, hpush]
    simp [Instr.readsFrame, Instr.numArity]

theorem onBlock_closed (h : c.ctrlStack = []) (op : WasmOpcode) (type : FuncType) :
    Defined (onBlock op imm type c) ↔ (op = .if_ ∨ type.takesParams = true → Open c) := by
  by_cases hop : op = .if_
  · simp only [hop, true_or, true_imp_iff, onBlock, if_true]
    constructor
    · intro hd
      exact (popValExpect_defined hc .i32).mp (defined_bind.mp hd).1
    · exact fun ho => absurd ho (not_open h)
  · simp only [hop, false_or, onBlock, if_neg, ok_bind, not_false_iff, defined_bind (x := parseTypes _ _),
      defined_parseTypes, true_and]
    constructor
    · intro hd ht
      unfold FuncType.takesParams at ht
      split at ht
      · next t ts hps => exact (popVals_defined hc _).mp (defined_bind.mp (hd _ hps)).1 (by simp)
      · cases ht
    · intro hd ps hps
      have hnil : ps = [] := by
        by_contra hne
        obtain ⟨t, ts, rfl⟩ := List.exists_cons_of_ne_nil hne
        exact not_open h (hd (by simp [FuncType.takesParams, hps]))
      refine (((popVals_closed h ps).mpr hnil).safe.bind (S := fun _ => True) fun c2 _ =>
        (pushCtrl_safe _ _ _).bind fun c3 _ => Defined.safe ?_).1
      simp

/-- When the callback of an instruction has an outcome. -/
theorem onInstr_defined (hfit : i.Fits) :
    Defined (onInstr mod i imm c) ↔
      (i.readsFrame mod c.locals = true → Open c) ∧ (i = .brTable → ¬ (TopIsI32 c ∧ NoLabels imm)) := by
  have htop : TopIsI32 c → Open c := fun h =>
    (popValExpect_defined hc .i32).mp (by
      obtain ⟨r, hr⟩ := popValExpect_i32.mpr h
      rw [hr]
      exact defined_ok r)
  by_cases hi : i.isControl = false
  · have hne : i ≠ .brTable := by
      rintro rfl
      cases hi
    rw [onInstr_plain_defined hc hi hfit]
    exact ⟨fun h => ⟨h, fun he => absurd he hne⟩, fun h => h.1⟩
  · rcases hc with h | h
    · -- a frame is open
      have hno : i ≠ .brTable → (Defined (onInstr mod i imm c) ↔
          (i.readsFrame mod c.locals = true → Open c) ∧ (i = .brTable → ¬ (TopIsI32 c ∧ NoLabels imm))) := by
        intro hne
        refine iff_of_true ?_ ⟨fun _ => h, fun he => absurd he hne⟩
        cases i with
        | unreachable => exact unreachable_safe h
        | block op type => exact onBlock_open h op imm type
        | else_ => exact onElse_open h imm
        | end_ => exact onEnd_open h imm
        | brOrIf op lth => exact onBrOrIf_open h op imm lth
        | brTable => exact absurd rfl hne
        | return_ => exact onReturn_open h
        | _ => exact absurd rfl hi
      by_cases he : i = .brTable
      · subst he
        simp only [onInstr, onBrTable_open h, popValExpect_i32, h, imp_true_iff, true_and, true_imp_iff]
      · exact hno he
    · -- the last frame was closed
      have hn := not_open h
      cases i with
      | unreachable => simp [onInstr, onUnreachable, unreachable, h, noFrame, hn, Instr.readsFrame]
      | block op type => simp [onInstr, onBlock_closed (.inr h) h, Instr.readsFrame]
      | else_ => simp [onInstr, onElse, h, noFrame, hn, Instr.readsFrame]
      | end_ => simp [onInstr, onEnd, popCtrl, h, Instr.readsFrame, Instr.numArity]
      | brOrIf op lth => simp [onInstr, onBrOrIf, h, Instr.readsFrame, Instr.numArity]
      | brTable =>
        refine iff_of_false (fun hd => hn ?_) fun hr => hn (hr.1 rfl)
        exact (popValExpect_defined (.inr h) .i32).mp (defined_bind.mp hd).1
      | return_ => simp [onInstr, onReturn, h, hn, Instr.readsFrame]
      | _ => exact absurd rfl hi

end Plain

end Validator

/-! ### Rounds -/

open Relation (ReflTransGen)

section Decode
variable {σ : Type} {mod : Module} {cb : OpDecoderCallbacks σ} {code : Str}

theorem decodeRound_defined {p : ℕ} {x : σ} :
    Defined (decodeRound mod cb ⟨code, p⟩ x) ↔
      ∀ b op, code[p]? = some b → WasmOpcode.ofByte? b.toNat = some op →
        Defined (decodeImm mod op ⟨code, p + 1⟩) ∧
          ∀ i imm pc, decodeImm mod op ⟨code, p + 1⟩ = .ok (i, imm, pc) → Defined (cb.onInstr i imm x) := by
  simp only [decodeRound, defined_bind, Stream.defined_readU8, true_and]
  constructor
  · intro h b op hb hop
    have hread : Stream.readU8 ⟨code, p⟩ = .ok (b.toNat, ⟨code, p + 1⟩) := by
      simp [Stream.readU8, Stream.byteAt?, hb, Stream.advance]
    have h1 := h _ hread
    simp only [hop, decodeOpcode, defined_bind] at h1
    exact ⟨h1.1.1, fun i imm pc hi => (h1.1.2 _ hi).1⟩
  · rintro h ⟨n, st⟩ hn
    obtain ⟨hbyte, rfl⟩ := Stream.readU8_ok hn
    obtain ⟨b, hb, rfl⟩ := Option.map_eq_some_iff.mp hbyte
    dsimp only
    split
    · simp
    · next op hop =>
      obtain ⟨h1, h2⟩ := h b op hb hop
      simp only [decodeOpcode, defined_bind, defined_decodeRest, defined_ok, imp_true_iff, and_true]
      exact ⟨h1, fun x hx => h2 _ _ _ hx⟩

/-- The loop stops, and it has an outcome when every round it gets to has one. -/
theorem decodeLoop_defined {n p : ℕ} {x : σ} (hp : p ≤ code.length) (hn : code.length < p + n) :
    Defined (decodeLoop mod cb n ⟨code, p⟩ x) ↔
      ∀ q y, ReflTransGen (DecodeStep mod cb code) (p, x) (q, y) → Defined (decodeRound mod cb ⟨code, q⟩ y) := by
  induction n generalizing p x with
  | zero => omega
  | succ n ih =>
    rw [decodeLoop, defined_bind]
    have head : ∀ {fin q y}, decodeRound mod cb ⟨code, p⟩ x = .ok (y, ⟨code, q⟩, fin) →
        ∀ r z, ReflTransGen (DecodeStep mod cb code) (p, x) (r, z) →
          (p, x) = (r, z) ∨ ReflTransGen (DecodeStep mod cb code) (q, y) (r, z) := by
      intro fin q y hr r z hs
      have hstep : DecodeStep mod cb code (p, x) (q, y) := ⟨fin, hr⟩
      rcases ReflTransGen.cases_head hs with he | ⟨w, hw, hs⟩
      · exact .inl he
      · rw [hw.unique hstep] at hs
        exact .inr hs
    constructor
    · rintro ⟨h0, h⟩ r z hs
      cases hr : decodeRound mod cb ⟨code, p⟩ x with
      | error e =>
        rcases ReflTransGen.cases_head hs with he | ⟨w, ⟨fin, hw⟩, -⟩
        · cases he
          exact h0
        · rw [hr] at hw
          cases hw
      | ok a =>
        obtain ⟨y, st, fin⟩ := a
        obtain ⟨i, imm, q, hf, hcb, rfl, hfin⟩ := decodeRound_ok.mp hr
        rcases head hr r z hs with he | hs
        · cases he
          exact h0
        · have hspan := fetch_span hf
          have h1 := h _ hr
          dsimp only at h1
          split at h1
          · next hend =>
            -- behind the last byte there is no opcode
            have hq : q = code.length := by
              rw [hfin, Bool.and_eq_true] at hend
              exact beq_iff_eq.mp hend.2
            have hr' : r = q := by
              rcases ReflTransGen.cases_head hs with he | ⟨w, hw, -⟩
              · cases he
                rfl
              · have := hw.lt
                simp only at this
                omega
            rw [decodeRound_defined]
            intro b op hb
            rw [hr', hq, List.getElem?_eq_none le_rfl] at hb
            cases hb
          · exact (ih hspan.2.2 (by omega)).mp h1 r z hs
    · intro h
      refine ⟨h p x .refl, ?_⟩
      rintro ⟨y, st, fin⟩ hr
      obtain ⟨i, imm, q, hf, hcb, rfl, hfin⟩ := decodeRound_ok.mp hr
      have hspan := fetch_span hf
      dsimp only
      split
      · exact defined_ok _
      · exact (ih hspan.2.2 (by omega)).mpr fun r z hs => h r z (.head ⟨fin, hr⟩ hs)

end Decode

open Validator

/-- The rounds in which `validate_func` reads outside an object. -/
inductive Stray (mod : Module) (code : Str) (p : ℕ) (c : ValidatorContext) : Prop
  /-- A block type is one of the pseudo types. -/
  | blocktype {b t : UInt8} {op : WasmOpcode} (hb : code[p]? = some b) (hop : WasmOpcode.ofByte? b.toNat = some op)
      (hc : op.case = .block) (ht : code[p + 1]? = some t) (hp : pseudoTypeByte t)
  /-- An instruction behind the `end` of the function looks for a frame. -/
  | closed {b : UInt8} {op : WasmOpcode} {i : Instr} {imm pc : Stream} (hb : code[p]? = some b)
      (hop : WasmOpcode.ofByte? b.toNat = some op) (hi : decodeImm mod op ⟨code, p + 1⟩ = .ok (i, imm, pc))
      (hr : i.readsFrame mod c.locals = true) (hc : c.ctrlStack = [])
  /-- A `br_table` has `2^32` labels. -/
  | labels (hb : code[p]? = some 0x0e) (hn : NoLabels ⟨code, p + 1⟩) (ht : TopIsI32 c)

theorem Validator.Reach.openOrClosed {mod : Module} {f : Func} {p : ℕ} {c : ValidatorContext} (h : Reach mod f (p, c)) :
    OpenOrClosed c := by
  have htop := h.inv.wf.top
  cases hc : c.ctrlStack with
  | nil => exact .inr hc
  | cons fr rest => exact .inl ⟨fr, by simp [hc], htop fr (by simp [hc])⟩

/-- A round has an outcome unless it is one of these. -/
theorem decodeRound_stray {mod : Module} {f : Func} {p : ℕ} {c : ValidatorContext} (h : Reach mod f (p, c)) :
    Defined (decodeRound mod (callbacks mod f) ⟨f.code, p⟩ c) ↔ ¬ Stray mod f.code p c := by
  have hoc := h.openOrClosed
  rw [decodeRound_defined]
  constructor
  · intro hd hs
    cases hs with
    | blocktype hb hop hc ht hp => exact defined_decodeImm.mp (hd _ _ hb hop).1 hc _ ht hp
    | closed hb hop hi hr hc =>
      have hcb := (onInstr_defined hoc (decodeImm_fits hi)).mp ((hd _ _ hb hop).2 _ _ _ hi)
      exact not_open hc (hcb.1 hr)
    | labels hb hn ht =>
      have hi : decodeImm mod .brTable ⟨f.code, p + 1⟩ = .ok (.brTable, ⟨f.code, p + 1⟩, ⟨f.code, p + 1⟩) := rfl
      have hcb : Defined (onInstr mod .brTable ⟨f.code, p + 1⟩ c) := (hd _ _ hb rfl).2 _ _ _ hi
      exact ((onInstr_defined hoc (decodeImm_fits hi)).mp hcb).2 rfl ⟨ht, hn⟩
  · intro hno b op hb hop
    refine ⟨defined_decodeImm.mpr fun hc t ht hp => hno (.blocktype hb hop hc ht hp), fun i imm pc hi => ?_⟩
    refine (onInstr_defined hoc (decodeImm_fits hi)).mpr ⟨fun hr => ?_, ?_⟩
    · rcases hoc with ho | hc
      · exact ho
      · exact absurd (.closed hb hop hi hr hc) hno
    · rintro rfl ⟨ht, hn⟩
      have hcase : op.case = .brTable := (decodeImm_case hi).symm
      obtain rfl := WasmOpcode.eq_brTable hcase
      have hbyte : b = 0x0e := by
        have : WasmOpcode.brTable.code = b.toNat := WasmOpcode.code_of_ofByte? hop
        exact UInt8.toNat_inj.mp this.symm
      cases hi
      exact hno (.labels (hbyte ▸ hb) hn ht)

theorem onDecodeBegin_defined (f : Func) (c : ValidatorContext) : Defined (onDecodeBegin f c) := by
  simp only [onDecodeBegin, defined_bind, defined_parseTypes, defined_ok, imp_true_iff, and_true, true_and]
  exact fun ps _ => (pushCtrl_safe _ _ _).1

/-- A module with one function of type `[] -> []` and the code `code`. -/
def bodyModule (code : Str) : Str :=
  [0x00, 0x61, 0x73, 0x6d, 1, 0, 0, 0, 1, 4, 1, 0x60, 0, 0, 3, 2, 1, 0, 10, UInt8.ofNat (code.length + 3), 1,
    UInt8.ofNat (code.length + 1), 0] ++ code

/-- `end drop end`, `block` with the type `unknown`, and `i32.const 0` before a `br_table` of `2^32`
labels, each with what goes wrong. -/
def strayBodies : List (Str × String) :=
  [([0x0b, 0x1a, 0x0b], "vec_back: ctrl_stack is empty"),
    ([0x02, 0x47, 0x0b, 0x0b], "to_func_type: index outside s_block_types"),
    ([0x41, 0x00, 0x0e, 0xff, 0xff, 0xff, 0xff, 0x0f, 0x0b], "on_br_table: assert(m_frame)")]

end Silverfir
