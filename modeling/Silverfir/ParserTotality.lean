import Silverfir.AssertedParser
import Silverfir.SectionCounts
import Silverfir.Defined

/-! The parser and its assertions. The only one that a binary can violate is that of `stream_slice` about the size, in
the code section: the sizes of the other slices are compared with zero before. -/
namespace Silverfir

/-! ### Readers -/

section Readers
variable {st : Stream}

theorem defined_map {α β : Type} {x : R α} {f : α → β} (h : Defined x) : Defined (x.map f) := by
  cases x with
  | ok a => exact defined_ok _
  | error e =>
    intro w hw
    cases hw
    exact h w rfl

theorem defined_slice {n : ℕ} : Defined (st.slice n) ↔ n ≠ 0 := by
  rw [Stream.slice]
  by_cases hn : n = 0
  · simp [hn]
  · simp [hn]

/-- A loop is defined where every round that it comes to is. -/
theorem defined_times {σ : Type} {f : σ → R σ} {n : ℕ} {s : σ} :
    Defined (Loop.times f n s) ↔ ∀ k < n, ∀ t, Loop.times f k s = .ok t → Defined (f t) := by
  constructor
  · intro h k hk t ht w hw
    exact h w (Loop.times_error_iff.mpr ⟨k, hk, t, ht, hw⟩)
  · intro h w hw
    obtain ⟨k, hk, t, ht, hround⟩ := Loop.times_error_iff.mp hw
    exact h k hk t ht w hround

theorem defined_atEnd (msg : String) : Defined (atEnd msg st) := by simp [atEnd]

theorem defined_reserve (v : VecId) (ps : ParseState) : Defined (ps.reserve v) := by simp [ParseState.reserve]

theorem defined_parseName : Defined (parseName st) := by
  simp only [parseName, defined_bind, Stream.defined_readVu32, true_and, defined_ite, defined_ok, implies_true]
  rintro ⟨nameLen, st1⟩ - hne
  refine ⟨defined_slice.mpr hne, ?_⟩
  rintro ⟨name, st2⟩ -
  simp

theorem defined_parseLimits (maxCap : ℕ) : Defined (parseLimits maxCap st) := by
  simp [parseLimits, parseMax]

theorem defined_skipImm (op : WasmOpcode) : Defined (skipImm op st) := by
  cases op with
  | i32Const | i64Const | f32Const | f64Const | refNull | refFunc | globalGet =>
    exact defined_map (by simp [Stream.readF32, Stream.readF64])
  | _ => exact defined_ok _

theorem defined_skipConstExpr (n : ℕ) : Defined (skipConstExpr n st) := by
  induction n generalizing st with
  | zero => exact Stream.defined_notEnough
  | succ n ih =>
    simp only [skipConstExpr, defined_bind, Stream.defined_readU8, true_and]
    rintro ⟨opcode, st1⟩ -
    dsimp only
    split
    · exact defined_ok _
    · exact defined_bind.mpr ⟨defined_skipImm _, fun _ _ => ih⟩
    · exact ih

theorem defined_parseConstExpr : Defined (parseConstExpr st) := by
  simp only [parseConstExpr, defined_bind, defined_skipConstExpr, defined_ok, implies_true, true_and]

theorem defined_checkTypes (n : ℕ) : Defined (checkTypes n st) := by
  induction n generalizing st with
  | zero => exact defined_ok _
  | succ n ih => exact defined_bind.mpr ⟨defined_readType _ _ _, fun _ _ => ih⟩

theorem defined_parseResultType (msg : String) : Defined (parseResultType msg st) := by
  simp [parseResultType, defined_checkTypes]

theorem defined_parseFuncType : Defined (parseFuncType st) := by
  simp [parseFuncType, defined_parseResultType]

theorem defined_parseTypeidx (funcTypes : List FuncType) : Defined (parseTypeidx funcTypes st) := by
  simp only [parseTypeidx, defined_bind, Stream.defined_readVu32, true_and]
  rintro ⟨typeidx, st1⟩ -
  dsimp only
  split <;> simp

theorem defined_parseTableType (msg : String) : Defined (parseTableType msg st) := by
  simp [parseTableType, defined_parseLimits]

theorem defined_parseGlobalType (msg mutMsg : String) : Defined (parseGlobalType msg mutMsg st) := by
  simp [parseGlobalType]

theorem defined_parseImport (mod : Module) : Defined (parseImport mod st) := by
  simp only [parseImport, defined_bind, defined_parseName, Stream.defined_readU8, true_and]
  rintro ⟨module, st1⟩ - ⟨field, st2⟩ - ⟨kind, st3⟩ -
  dsimp only
  split <;> simp [defined_parseTypeidx, defined_parseTableType, defined_parseLimits, defined_parseGlobalType]

theorem defined_markExport (kind : ExternalKind) (idx : ℕ) (mod : Module) : Defined (markExport kind idx mod) := by
  cases kind <;> simp [markExport]

theorem defined_parseExport (mod : Module) : Defined (parseExport mod st) := by
  simp only [parseExport, defined_bind, defined_parseName, Stream.defined_readU8, true_and]
  rintro ⟨name, st1⟩ - ⟨kind, st2⟩ -
  dsimp only
  split
  · exact defined_err _ _
  · simp [defined_markExport]

theorem defined_parseElemType (kind : ElemKind) : Defined (parseElemType kind st) := by
  simp only [parseElemType, defined_ite, defined_bind, Stream.defined_readVi7, Stream.defined_readU8, true_and,
    defined_ok, implies_true, and_true]
  intro _
  refine ⟨fun _ => ?_, fun _ => ?_⟩
  · rintro ⟨t, st1⟩ -
    dsimp only
    split <;> simp
  · rintro ⟨externalKind, st1⟩ -
    simp

theorem defined_parseElemOffset (kind : ElemKind) (elem : Element) : Defined (parseElemOffset kind elem st) := by
  simp [parseElemOffset, parseElemTableidx, defined_parseConstExpr]

theorem defined_parseExprs (count : ℕ) : Defined (parseExprs count st) := by
  refine defined_times.mpr fun k _ t _ => ?_
  simp [defined_parseConstExpr]

theorem defined_parseFuncidxs (funcCount count : ℕ) : Defined (parseFuncidxs funcCount count st) := by
  refine defined_times.mpr fun k _ t _ => ?_
  simp

theorem defined_parseElemItems (i : ℕ) (kind : ElemKind) (elem : Element) (ps : ParseState) :
    Defined (parseElemItems i kind elem ps st) := by
  simp [parseElemItems, defined_reserve, defined_parseExprs, defined_parseFuncidxs]

theorem defined_parseElement {i : ℕ} {ps : ParseState} (h : i < ps.mod.elements.length) :
    Defined (parseElement i ps st) := by
  simp [parseElement, List.getElem?_eq_getElem h, defined_parseElemOffset, defined_parseElemType,
    defined_parseElemItems]

theorem defined_countLocals (groups : ℕ) : Defined (countLocals groups st) := by
  refine defined_times.mpr fun k _ t _ => ?_
  simp

theorem defined_parseLocals (isFixed : Bool) (groups : ℕ) (fn : Func) : Defined (parseLocals isFixed groups fn st) := by
  refine defined_times.mpr fun k _ t _ => ?_
  simp

/-- An entry of the code section is a function of the module, and has a size. -/
theorem defined_parseCode {i : ℕ} {ps : ParseState} (h : i < ps.mod.funcs.length) :
    Defined (parseCode i ps st) ↔ ∀ st', st.readVu32 ≠ .ok (0, st') := by
  simp only [parseCode, List.getElem?_eq_getElem h, defined_bind, Stream.defined_readVu32, true_and, defined_slice,
    defined_countLocals, defined_parseLocals, defined_ite, defined_err, defined_reserve, defined_ok, implies_true,
    and_true]
  constructor
  · intro hall st' hread
    exact hall _ hread rfl
  · rintro hne ⟨codeSize, st'⟩ hread rfl
    exact hne st' hread

theorem defined_parseData : Defined (parseData st) := by
  simp only [parseData, parseMemidx, parseDataOffset, parseBytes, defined_bind, defined_ite, Stream.defined_readVu32,
    defined_err, defined_ok, defined_parseConstExpr, defined_slice, implies_true, and_true, true_and]
  intros
  assumption

end Readers

/-! ### Sections -/

section Sections
variable {ps : ParseState} {st : Stream}

theorem defined_eachEntry {f : Module × Stream → R (Module × Stream)} (hf : ∀ x, Defined (f x)) (count : ℕ)
    (mod : Module) : Defined (eachEntry f count mod st) :=
  defined_times.mpr fun _ _ t _ => hf t

theorem defined_parseSectionStart : Defined (parseSectionStart ps st) := by
  simp only [parseSectionStart, defined_bind, Stream.defined_readVu32, true_and]
  rintro ⟨idx, st1⟩ -
  dsimp only
  split <;> simp [defined_atEnd]

theorem resizeElements_length {count : ℕ} {ps' : ParseState} (h : resizeElements count ps = .ok ps') :
    ps'.mod.elements.length = count := by
  rw [resizeElements] at h
  split at h
  · next hle =>
    cases h
    exact List.length_take_of_le hle
  · next hle =>
    obtain ⟨capacity, -, h⟩ := bind_eq_ok.mp h
    cases h
    rw [List.length_append, List.length_replicate]
    omega

theorem defined_resizeElements (count : ℕ) : Defined (resizeElements count ps) := by
  simp [resizeElements, growElements]

theorem parseElement_length {i : ℕ} {ps' : ParseState} {st' : Stream} (h : parseElement i ps st = .ok (ps', st')) :
    ps'.mod.elements.length = ps.mod.elements.length := by
  simp only [parseElement, bind_eq_ok, guard_eq_ok] at h
  obtain ⟨⟨kind, st1⟩, -, -, h⟩ := h
  split at h
  · simp at h
  · simp only [bind_eq_ok] at h
    obtain ⟨⟨elem1, st2⟩, -, ⟨valtype, st3⟩, -, ⟨ps1, elem2, st4⟩, hitems, h⟩ := h
    cases h
    obtain ⟨hmod, -⟩ := parseElemItems_keeps hitems
    simp only [ParseState.setMod, List.length_set, hmod]

/-- The segments are there before they are parsed. -/
theorem defined_parseSectionElement : Defined (parseSectionElement ps st) := by
  simp only [parseSectionElement, defined_bind, Stream.defined_readVu32, true_and, defined_resizeElements,
    defined_atEnd, defined_ok, implies_true, and_true]
  rintro ⟨count, st1⟩ - ps1 hresize
  have hlength : ps1.mod.elements.length = count := resizeElements_length hresize
  refine defined_times.mpr fun k hk x hx => ?_
  have hinv : x.1 = 0 + k ∧ x.2.1.mod.elements.length = count := by
    refine Loop.counted (P := fun i (x : ℕ × ParseState × Stream) => x.1 = i ∧ x.2.1.mod.elements.length = count)
      ?_ hx ⟨rfl, hlength⟩
    rintro i ⟨_, ps2, st2⟩ ⟨j, ps3, st3⟩ ⟨rfl, hlen⟩ hround
    obtain ⟨⟨ps4, st4⟩, helem, hround⟩ := bind_eq_ok.mp hround
    cases hround
    exact ⟨rfl, (parseElement_length helem).trans hlen⟩
  have hlt : x.1 < x.2.1.mod.elements.length := by
    rw [hinv.1, hinv.2, Nat.zero_add]
    exact hk
  exact defined_bind.mpr ⟨defined_parseElement hlt, fun _ _ => defined_ok _⟩

theorem parseCode_length {i : ℕ} {ps' : ParseState} {st' : Stream} (h : parseCode i ps st = .ok (ps', st')) :
    ps'.mod.funcs.length = ps.mod.funcs.length := by
  rw [parseCode] at h
  split at h
  · simp at h
  · simp only [bind_eq_ok, guard_eq_ok] at h
    obtain ⟨⟨codeSize, st1⟩, -, ⟨code, st2⟩, -, ⟨groups, code1⟩, -, x, -, ⟨fn, code2⟩, -, -, ps1, hres, h⟩ := h
    cases h
    obtain ⟨-, rfl⟩ := reserve_ok hres
    exact List.length_set

/-- A round of the loop over the entries of the code section. -/
def codeRound (x : ℕ × ParseState × Stream) : R (ℕ × ParseState × Stream) := do
  let (ps, st) ← parseCode x.1 x.2.1 x.2.2
  .ok (x.1 + 1, ps, st)

/-- The code section comes to an entry of the size zero: there are as many entries as functions, and those before it
are accepted. -/
def EmptyEntry (ps : ParseState) (st : Stream) : Prop :=
  ∃ count st1 k x st2, st.readVu32 = .ok (count, st1) ∧
    u32 (count + ps.mod.importedFuncCount) = ps.mod.funcs.length ∧ k < count ∧
    Loop.times codeRound k (ps.mod.importedFuncCount, ps, st1) = .ok x ∧ x.2.2.readVu32 = .ok (0, st2)

theorem defined_parseSectionCode (himported : ps.mod.importedFuncCount ≤ ps.mod.funcs.length) :
    Defined (parseSectionCode ps st) ↔ ¬ EmptyEntry ps st := by
  have hround : ∀ {count k : ℕ} {st1 : Stream} {x : ℕ × ParseState × Stream}, st.readVu32 = .ok (count, st1) →
      u32 (count + ps.mod.importedFuncCount) = ps.mod.funcs.length → k < count →
      Loop.times codeRound k (ps.mod.importedFuncCount, ps, st1) = .ok x →
      (Defined (codeRound x) ↔ ∀ st2, x.2.2.readVu32 ≠ .ok (0, st2)) := by
    intro count k st1 x hread hcount hk hx
    have hinv : x.1 = ps.mod.importedFuncCount + k ∧ x.2.1.mod.funcs.length = ps.mod.funcs.length := by
      refine Loop.counted (P := fun i (x : ℕ × ParseState × Stream) =>
        x.1 = i ∧ x.2.1.mod.funcs.length = ps.mod.funcs.length) ?_ hx ⟨rfl, rfl⟩
      rintro i ⟨_, ps2, st2⟩ ⟨j, ps3, st3⟩ ⟨rfl, hlen⟩ hround
      obtain ⟨⟨ps4, st4⟩, hcode, hround⟩ := bind_eq_ok.mp hround
      cases hround
      exact ⟨rfl, (parseCode_length hcode).trans hlen⟩
    have hsmall : count < 2 ^ 32 := Stream.readVu32_lt hread
    have hlt : x.1 < x.2.1.mod.funcs.length := by
      rw [hinv.1, hinv.2]
      unfold u32 at hcount
      -- a sum that wraps is below the number of imports
      omega
    rw [codeRound, defined_bind, defined_parseCode hlt]
    exact and_iff_left fun _ _ => defined_ok _
  have hloop : Defined (parseSectionCode ps st) ↔ ∀ count st1, st.readVu32 = .ok (count, st1) →
      u32 (count + ps.mod.importedFuncCount) = ps.mod.funcs.length →
      Defined (Loop.times codeRound count (ps.mod.importedFuncCount, ps, st1)) := by
    simp only [parseSectionCode, defined_bind, Stream.defined_readVu32, true_and, defined_ite, defined_err,
      defined_atEnd, defined_ok, implies_true, and_true, Decidable.not_not, Prod.forall]
    rfl
  rw [hloop]
  constructor
  · rintro hall ⟨count, st1, k, x, st2, hread, hcount, hk, hx, hzero⟩
    have hdefined := defined_times.mp (hall count st1 hread hcount) k hk x hx
    exact (hround hread hcount hk hx).mp hdefined st2 hzero
  · intro hno count st1 hread hcount
    refine defined_times.mpr fun k hk x hx => (hround hread hcount hk hx).mpr fun st2 hzero => hno ?_
    exact ⟨count, st1, k, x, st2, hread, hcount, hk, hx, hzero⟩

theorem defined_parseSection {sec : SectionId} (hsec : sec ≠ .code) : Defined (parseSection sec ps st) := by
  cases sec with
  | custom => exact defined_ok _
  | start => exact defined_parseSectionStart
  | element => exact defined_parseSectionElement
  | code => exact absurd rfl hsec
  | dataCount => simp [parseSection, parseSectionDataCount, defined_atEnd]
  | type => simp [parseSection, parseSectionType, defined_reserve, defined_atEnd, defined_eachEntry,
    defined_parseFuncType]
  | import_ => simp [parseSection, parseSectionImport, defined_atEnd, defined_eachEntry, defined_parseImport]
  | function =>
    simp [parseSection, parseSectionFunction, defined_reserve, defined_atEnd, defined_eachEntry, defined_parseTypeidx]
  | table =>
    simp [parseSection, parseSectionTable, defined_reserve, defined_atEnd, defined_eachEntry, defined_parseTableType]
  | memory =>
    simp [parseSection, parseSectionMemory, defined_reserve, defined_atEnd, defined_eachEntry, defined_parseLimits]
  | global =>
    simp [parseSection, parseSectionGlobal, defined_reserve, defined_atEnd, defined_eachEntry, defined_parseGlobalType,
      defined_parseConstExpr]
  | export_ =>
    simp [parseSection, parseSectionExport, defined_reserve, defined_atEnd, defined_eachEntry, defined_parseExport]
  | data => simp [parseSection, parseSectionData, defined_reserve, defined_atEnd, defined_eachEntry, defined_parseData]

end Sections

/-! ### Modules -/

/-- Where the cursor goes for a section: custom sections may be anywhere. -/
def SectionId.next (current id : ℕ) : Option (ℕ × SectionId) :=
  if id = 0 then some (current, .custom) else find current id

/-- The loop over the sections comes to a code section with an empty entry. The sections before it are skipped as
empty, or accepted. -/
inductive ComesToEmpty : ℕ → ParseState → Stream → Prop
  | code {current current' id len ps st st1 st2 st3 content} (hid : Stream.readVu7 st = .ok (id, st1))
      (hlen : st1.readVu32 = .ok (len, st2)) (hnext : SectionId.next current id = some (current', .code))
      (hcontent : st2.slice len = .ok (content, st3)) (h : EmptyEntry ps content) : ComesToEmpty current ps st
  | skipped {current current' id ps st st1 st2 sec} (hid : Stream.readVu7 st = .ok (id, st1))
      (hlen : st1.readVu32 = .ok (0, st2)) (hnext : SectionId.next current id = some (current', sec))
      (h : ComesToEmpty current' ps st2) : ComesToEmpty current ps st
  | parsed {current current' id len ps ps' st st1 st2 st3 content sec} (hid : Stream.readVu7 st = .ok (id, st1))
      (hlen : st1.readVu32 = .ok (len, st2)) (hnext : SectionId.next current id = some (current', sec))
      (hcontent : st2.slice len = .ok (content, st3)) (hsec : parseSection sec ps content = .ok ps')
      (h : ComesToEmpty current' ps' st3) : ComesToEmpty current ps st

/-- In the file there is, behind the header, an entry of a code section whose size is zero, and the parser comes to
it. -/
def HasEmptyEntry (bin : Str) : Prop :=
  ∃ st1 st2, (Stream.from_ bin).readU32 = .ok (0x6D736100, st1) ∧ st1.readU32 = .ok (1, st2) ∧
    ComesToEmpty 0 { mod := { formatVersion := 1 } } st2

section Modules
variable {current current' id len : ℕ} {ps ps' : ParseState} {st : Stream} {sec : SectionId}

theorem Between.skip (h : Between (current, ps)) (hnext : SectionId.next current id = some (current', sec)) :
    Between (current', ps) := by
  rw [SectionId.next] at hnext
  split at hnext
  · cases hnext
    exact h
  · next hid => exact h.round (.empty (s := ⟨id, []⟩) hid hnext rfl)

theorem Between.accept {content st' : Stream} (h : Between (current, ps))
    (hnext : SectionId.next current id = some (current', sec)) (hcontent : st.slice len = .ok (content, st'))
    (hsec : parseSection sec ps content = .ok ps') : Between (current', ps') := by
  obtain ⟨hfrom, hlen, hne⟩ := slice_content hcontent
  rw [SectionId.next] at hnext
  split at hnext
  · cases hnext
    cases hsec
    exact h
  · next hid =>
    rw [hfrom] at hsec
    refine h.round (.parsed (s := ⟨id, content.s⟩) hid hnext ?_ hsec)
    intro hnil
    have hnil : content.s = [] := hnil
    rw [hnil] at hlen
    exact hne hlen.symm

/-- The header of a section takes two bytes at least, and its content is not empty. -/
theorem defined_parseSections {n : ℕ} (h : Between (current, ps)) (hn : st.remaining < n) :
    Defined (parseSections n current ps st) ↔ ¬ ComesToEmpty current ps st := by
  induction n generalizing current ps st with
  | zero => exact absurd hn (Nat.not_lt_zero _)
  | succ n ih =>
    rw [parseSections]
    by_cases hend : st.remaining = 0
    · rw [if_pos hend]
      refine iff_of_true (defined_ok _) fun hcomes => ?_
      have hread : ∀ {id : ℕ} {st1 : Stream}, st.readVu7 = .ok (id, st1) → False := fun hid => by
        have hlt := (Stream.reads_readVu7 hid).remaining_lt
        omega
      cases hcomes with
      | code hid | skipped hid | parsed hid => exact hread hid
    · rw [if_neg hend]
      have hfold : ∀ id, (if id = 0 then some (current, SectionId.custom) else SectionId.find current id) =
          SectionId.next current id := fun _ => rfl
      simp only [defined_bind, Stream.defined_readVu7, Stream.defined_readVu32, true_and, Prod.forall, hfold]
      have hless : ∀ {id len : ℕ} {st1 st2 : Stream}, st.readVu7 = .ok (id, st1) → st1.readVu32 = .ok (len, st2) →
          st2.remaining < n := by
        intro id len st1 st2 hid hlen
        have hlt1 := (Stream.reads_readVu7 hid).remaining_lt
        have hlt2 := (Stream.reads_readVu32 hlen).remaining_lt
        omega
      have hslice : ∀ {len : ℕ} {st1 st2 content : Stream}, st1.slice len = .ok (content, st2) →
          st2.remaining ≤ st1.remaining := fun hcontent =>
        (Stream.reads_slice hcontent).1.remaining_lt.le
      constructor
      · intro hall hcomes
        cases hcomes with
        | code hid hlen hnext hcontent hempty =>
          have hround := hall _ _ hid _ _ hlen
          obtain ⟨-, -, hne⟩ := slice_content hcontent
          rw [hnext] at hround
          simp only [if_neg hne, defined_bind] at hround
          exact (defined_parseSectionCode h.imported_le).mp (hround.2 _ hcontent).1 hempty
        | skipped hid hlen hnext hrest =>
          have hround := hall _ _ hid _ _ hlen
          rw [hnext] at hround
          simp only [if_true] at hround
          exact (ih (h.skip hnext) (hless hid hlen)).mp hround hrest
        | parsed hid hlen hnext hcontent hsec hrest =>
          have hround := hall _ _ hid _ _ hlen
          obtain ⟨-, -, hne⟩ := slice_content hcontent
          rw [hnext] at hround
          simp only [if_neg hne, defined_bind] at hround
          have hlt := (hslice hcontent).trans_lt (hless hid hlen)
          exact (ih (h.accept hnext hcontent hsec) hlt).mp ((hround.2 _ hcontent).2 _ hsec) hrest
      · intro hno id st1 hid len st2 hlen
        cases hnext : SectionId.next current id with
        | none => exact defined_err _ _
        | some found =>
          obtain ⟨current', sec⟩ := found
          dsimp only
          by_cases hzero : len = 0
          · rw [if_pos hzero]
            rw [hzero] at hlen
            exact (ih (h.skip hnext) (hless hid hlen)).mpr fun hrest => hno (.skipped hid hlen hnext hrest)
          · rw [if_neg hzero, defined_bind]
            refine ⟨defined_slice.mpr hzero, ?_⟩
            rintro ⟨content, st3⟩ hcontent
            refine defined_bind.mpr ⟨?_, fun ps' hsec => ?_⟩
            · by_cases hcode : sec = .code
              · rw [hcode] at hnext ⊢
                exact (defined_parseSectionCode h.imported_le).mpr fun hempty =>
                  hno (.code hid hlen hnext hcontent hempty)
              · exact defined_parseSection hcode
            · have hlt := (hslice hcontent).trans_lt (hless hid hlen)
              exact (ih (h.accept hnext hcontent hsec) hlt).mpr fun hrest =>
                hno (.parsed hid hlen hnext hcontent hsec hrest)

theorem defined_parseModule (bin : Str) : Defined (parseModule bin) ↔ ¬ HasEmptyEntry bin := by
  have hstart : Between (0, { mod := { formatVersion := 1 } }) :=
    ⟨ParseState.sound_empty 1, fun e he => by simp at he, fun ft hft => by simp at hft⟩
  rw [parseModule]
  by_cases hempty : bin = []
  · rw [if_pos hempty]
    refine iff_of_true (defined_err _ _) ?_
    rintro ⟨st1, st2, hmagic, -⟩
    rw [hempty] at hmagic
    cases hmagic
  · rw [if_neg hempty]
    simp only [defined_bind, Stream.readU32, Stream.defined_readFixed, true_and, defined_ite, defined_err, defined_ok,
      implies_true, and_true, Prod.forall, Decidable.not_not]
    constructor
    · rintro hall ⟨st1, st2, hmagic, hversion, hcomes⟩
      exact (defined_parseSections hstart (Nat.lt_succ_self _)).mp (hall _ st1 hmagic rfl _ st2 hversion rfl) hcomes
    · rintro hno magic st1 hmagic rfl version st2 hversion rfl
      exact (defined_parseSections hstart (Nat.lt_succ_self _)).mpr fun hcomes =>
        hno ⟨st1, st2, hmagic, hversion, hcomes⟩

theorem defined_until {α β : Type} {mem : Allocator} {S : α → β → Prop} {x : R α} {y : R β}
    (h : Lockstep.Until (Starved mem) SameFault S x y) (hy : Defined y) : Defined x := by
  cases h with
  | ok _ => exact defined_ok _
  | @error e e' he =>
    intro w hw
    cases hw
    rcases he with rfl | ⟨w1, w2, -, rfl⟩
    · exact hy w rfl
    · exact hy w2 rfl
  | stop hstop =>
    intro w hw
    cases hw
    obtain ⟨-, msg, hmsg⟩ := hstop
    cases hmsg

/-- The other direction, where no allocation fails. -/
theorem defined_without {α β : Type} {mem : Allocator} {S : α → β → Prop} {x : R α} {y : R β}
    (h : Lockstep.Until (Starved mem) SameFault S x y) (hmem : ∀ k, mem k = true) (hx : Defined x) : Defined y := by
  cases h with
  | ok _ => exact defined_ok _
  | @error e e' he =>
    intro w hw
    cases hw
    rcases he with rfl | ⟨w1, w2, rfl, -⟩
    · exact hx w rfl
    · exact hx w1 rfl
  | stop hstop =>
    obtain ⟨⟨k, hk⟩, -⟩ := hstop
    rw [hmem k] at hk
    cases hk

/-- Whatever allocations fail, the parser gives a result or an error, and no assertion is violated on the way,
exactly where it does not come to an entry of a code section with the size zero. -/
theorem parseModule_total (bin : Str) :
    (∀ mem, Defined (Asserted.parseModule mem bin)) ↔ ¬ HasEmptyEntry bin := by
  rw [← defined_parseModule]
  constructor
  · intro hall
    have huntil := @Asserted.parseModule_until (fun _ => true) bin
    exact defined_without huntil (fun _ => rfl) (hall _)
  · intro hdefined mem
    exact defined_until (Asserted.parseModule_until bin) hdefined

/-- A module with one function, whose entry in the code section has the size zero. -/
def emptyEntry : Str :=
  [0x00, 0x61, 0x73, 0x6d, 0x01, 0x00, 0x00, 0x00, 0x01, 0x04, 0x01, 0x60, 0x00, 0x00, 0x03, 0x02, 0x01, 0x00,
    0x0a, 0x02, 0x01, 0x00]

theorem emptyEntry_undefined : ¬ ∀ bin mem, Defined (Asserted.parseModule mem bin) := by
  intro hall
  exact hall emptyEntry (fun _ => true) "stream_slice: assert(size)" rfl

end Modules

end Silverfir
