import Silverfir.SectionOrder
import Silverfir.CodeEntries

/-! The counts that sections have in common: functions and their code, data segments and their
number. What the parser makes of them depends on which of the sections have a content. -/
namespace Silverfir

/-! ### What the sections say -/

/-- The number a section starts with. -/
def RawSection.number? (s : RawSection) : Option ℕ :=
  match (Stream.from_ s.content).readVu32 with
  | .ok (n, _) => some n
  | .error _ => none

/-- The numbers that the sections with this id start with. -/
def numbers (id : ℕ) (ss : List RawSection) : List ℕ := (ss.filter fun s => s.id = id).filterMap RawSection.number?

/-- There is such a section, and it is not empty. -/
def Filled (id : ℕ) (ss : List RawSection) : Prop := ∃ s ∈ ss, s.id = id ∧ s.content ≠ []

/-- The entries of the code sections. -/
def entriesOf (ss : List RawSection) : List CodeEntry :=
  (ss.filter fun s => s.id = 10).flatMap fun s => codeEntries s.content

section Snoc
variable {id : ℕ} {done : List RawSection} {s : RawSection}

theorem RawSection.number?_empty (h : s.content = []) : s.number? = none := by
  rw [number?, h]
  rfl

theorem codeEntries_nil : codeEntries [] = [] := rfl

theorem numbers_snoc (h : s.id = id) : numbers id (done ++ [s]) = numbers id done ++ s.number?.toList := by
  rw [numbers, List.filter_append, List.filterMap_append, List.filter_cons_of_pos (by simpa using h), List.filter_nil]
  cases hn : s.number? <;> simp [numbers, hn]

theorem numbers_other (h : s.id ≠ id ∨ s.content = []) : numbers id (done ++ [s]) = numbers id done := by
  by_cases hid : s.id = id
  · have hempty := h.resolve_left (not_not_intro hid)
    rw [numbers_snoc hid, RawSection.number?_empty hempty]
    exact List.append_nil _
  · rw [numbers, List.filter_append, List.filter_cons_of_neg (by simpa using hid), List.filter_nil, List.append_nil]
    rfl

theorem entriesOf_snoc (h : s.id = 10) : entriesOf (done ++ [s]) = entriesOf done ++ codeEntries s.content := by
  rw [entriesOf, List.filter_append, List.flatMap_append, List.filter_cons_of_pos (by simpa using h), List.filter_nil,
    List.flatMap_singleton]
  rfl

theorem entriesOf_other (h : s.id ≠ 10 ∨ s.content = []) : entriesOf (done ++ [s]) = entriesOf done := by
  by_cases hid : s.id = 10
  · have hempty := h.resolve_left (not_not_intro hid)
    rw [entriesOf_snoc hid, hempty, codeEntries_nil, List.append_nil]
  · rw [entriesOf, List.filter_append, List.filter_cons_of_neg (by simpa using hid), List.filter_nil, List.append_nil]
    rfl

theorem filled_snoc : Filled id (done ++ [s]) ↔ Filled id done ∨ s.id = id ∧ s.content ≠ [] := by
  unfold Filled
  constructor
  · rintro ⟨s', hmem, hs'⟩
    rcases List.mem_append.mp hmem with hmem | hmem
    · exact Or.inl ⟨s', hmem, hs'⟩
    · rw [List.mem_singleton.mp hmem] at hs'
      exact Or.inr hs'
  · rintro (⟨s', hmem, hs'⟩ | hs)
    · exact ⟨s', List.mem_append_left _ hmem, hs'⟩
    · exact ⟨s, List.mem_append_right _ (List.mem_singleton.mpr rfl), hs⟩

theorem filled_other (h : s.id ≠ id ∨ s.content = []) : Filled id (done ++ [s]) ↔ Filled id done := by
  rw [filled_snoc]
  constructor
  · rintro (hf | ⟨hid, hne⟩)
    · exact hf
    · exact absurd hid (h.resolve_right hne)
  · exact Or.inl

end Snoc

/-- An invariant that looks at the sections so far. -/
theorem SectionRun.history {P : List RawSection → ℕ × ParseState → Prop} {x z : ℕ × ParseState} {ss : List RawSection}
    (h : SectionRun x ss z) (hP : ∀ done x s y, SectionRound x s y → P done x → P (done ++ [s]) y) (hx : P [] x) :
    P ss z := by
  have key : ∀ done, P done x → P (done ++ ss) z := by
    clear hx
    induction h with
    | nil =>
      intro done hdone
      rw [List.append_nil]
      exact hdone
    | @cons x y z s ss hround _ ih =>
      intro done hdone
      rw [List.append_cons]
      exact ih (done ++ [s]) (hP done x s y hround hdone)
  exact key [] hx

/-! ### What the sections change -/

/-- A function apart from its linkage. -/
def Func.unlinked (f : Func) : Func := { f with linkage := {} }

/-- The functions apart from their linkage, with how many of them are imported. -/
def Module.funcPart (mod : Module) : List Func × ℕ := (mod.funcs.map Func.unlinked, mod.importedFuncCount)

/-- The data segments, and how many there should be. -/
def Module.dataPart (mod : Module) : List Data × Option ℕ := (mod.data, mod.dataCount)

theorem markExport_parts {kind : ExternalKind} {idx : ℕ} {mod mod' : Module} (h : markExport kind idx mod = .ok mod') :
    mod'.funcPart = mod.funcPart ∧ mod'.dataPart = mod.dataPart := by
  cases kind with
  | func =>
    obtain ⟨-, h⟩ := guard_eq_ok.mp h
    cases h
    refine ⟨?_, rfl⟩
    unfold Module.funcPart
    congr 1
    apply List.ext_getElem?
    intro k
    rw [List.getElem?_map, List.getElem?_map, List.getElem?_modify]
    cases mod.funcs[k]? with
    | none => rfl
    | some f =>
      change some (Func.unlinked _) = some (Func.unlinked f)
      split <;> rfl
  | table | memory | global =>
    obtain ⟨-, h⟩ := guard_eq_ok.mp h
    cases h
    exact ⟨rfl, rfl⟩

section Sections
variable {ps ps' : ParseState} {st : Stream}

/-- What no entry changes, the loop over the entries does not change. -/
theorem eachEntry_keeps {β : Type} (g : Module → β) {f : Module × Stream → R (Module × Stream)}
    (hf : ∀ mod st mod' st', f (mod, st) = .ok (mod', st') → g mod' = g mod) {count : ℕ} {mod mod' : Module}
    {st st' : Stream} (h : eachEntry f count mod st = .ok (mod', st')) : g mod' = g mod :=
  eachEntry_invariant (P := fun m => g m = g mod) (fun m s m' s' hm hround => (hf m s m' s' hround).trans hm) h rfl

theorem parseImport_dataPart {mod mod' : Module} {st st' : Stream} (h : parseImport mod st = .ok (mod', st')) :
    mod'.dataPart = mod.dataPart := by
  simp only [parseImport, bind_eq_ok] at h
  obtain ⟨⟨module, st1⟩, -, ⟨field, st2⟩, -, ⟨kind, st3⟩, -, h⟩ := h
  split at h
  · simp only [bind_eq_ok] at h
    obtain ⟨⟨ft, st4⟩, -, h⟩ := h
    cases h
    rfl
  · simp only [bind_eq_ok] at h
    obtain ⟨⟨valtype, lim, st4⟩, -, h⟩ := h
    cases h
    rfl
  · simp only [bind_eq_ok] at h
    obtain ⟨⟨lim, st4⟩, -, h⟩ := h
    cases h
    rfl
  · simp only [bind_eq_ok] at h
    obtain ⟨⟨valtype, mut_, st4⟩, -, h⟩ := h
    cases h
    rfl
  · simp at h

theorem parseElement_parts {i : ℕ} {st' : Stream} (h : parseElement i ps st = .ok (ps', st')) :
    ps'.mod.funcPart = ps.mod.funcPart ∧ ps'.mod.dataPart = ps.mod.dataPart := by
  simp only [parseElement, bind_eq_ok, guard_eq_ok] at h
  obtain ⟨⟨kind, st1⟩, -, -, h⟩ := h
  split at h
  · simp at h
  · simp only [bind_eq_ok] at h
    obtain ⟨⟨elem1, st2⟩, -, ⟨valtype, st3⟩, -, ⟨ps1, elem2, st4⟩, hitems, h⟩ := h
    cases h
    obtain ⟨hmod, -⟩ := parseElemItems_keeps hitems
    rw [ParseState.setMod, hmod]
    exact ⟨rfl, rfl⟩

/-- A section that is not about functions, code or data. -/
def SectionId.Apart (sec : SectionId) : Prop :=
  sec ≠ .import_ ∧ sec ≠ .function ∧ sec ≠ .code ∧ sec ≠ .dataCount ∧ sec ≠ .data

theorem parseSection_apart {sec : SectionId} (hsec : sec.Apart) (h : parseSection sec ps st = .ok ps') :
    ps'.mod.funcPart = ps.mod.funcPart ∧ ps'.mod.dataPart = ps.mod.dataPart := by
  have hpair : ∀ {m m' : Module}, (m'.funcPart, m'.dataPart) = (m.funcPart, m.dataPart) →
      m'.funcPart = m.funcPart ∧ m'.dataPart = m.dataPart := fun heq => Prod.mk.inj heq
  obtain ⟨himport, hfunction, hcode, hdataCount, hdata⟩ := hsec
  cases sec with
  | custom =>
    cases h
    exact ⟨rfl, rfl⟩
  | type =>
    simp only [parseSection, parseSectionType, bind_eq_ok] at h
    obtain ⟨⟨count, st1⟩, -, ps1, hres, ⟨mod, st2⟩, heach, -, -, h⟩ := h
    cases h
    obtain ⟨-, rfl⟩ := reserve_ok hres
    refine hpair (eachEntry_keeps (fun m => (m.funcPart, m.dataPart)) (fun m s m' s' hround => ?_) heach)
    simp only [bind_eq_ok] at hround
    obtain ⟨⟨ft, s1⟩, -, hround⟩ := hround
    cases hround
    rfl
  | table =>
    simp only [parseSection, parseSectionTable, bind_eq_ok] at h
    obtain ⟨⟨count, st1⟩, -, ps1, hres, ⟨mod, st2⟩, heach, -, -, h⟩ := h
    cases h
    obtain ⟨-, rfl⟩ := reserve_ok hres
    refine hpair (eachEntry_keeps (fun m => (m.funcPart, m.dataPart)) (fun m s m' s' hround => ?_) heach)
    simp only [bind_eq_ok] at hround
    obtain ⟨⟨valtype, lim, s1⟩, -, hround⟩ := hround
    cases hround
    rfl
  | memory =>
    simp only [parseSection, parseSectionMemory, bind_eq_ok] at h
    obtain ⟨⟨count, st1⟩, -, ps1, hres, ⟨mod, st2⟩, heach, -, -, h⟩ := h
    cases h
    obtain ⟨-, rfl⟩ := reserve_ok hres
    refine hpair (eachEntry_keeps (fun m => (m.funcPart, m.dataPart)) (fun m s m' s' hround => ?_) heach)
    simp only [bind_eq_ok] at hround
    obtain ⟨⟨lim, s1⟩, -, hround⟩ := hround
    cases hround
    rfl
  | global =>
    simp only [parseSection, parseSectionGlobal, bind_eq_ok] at h
    obtain ⟨⟨count, st1⟩, -, ps1, hres, ⟨mod, st2⟩, heach, -, -, h⟩ := h
    cases h
    obtain ⟨-, rfl⟩ := reserve_ok hres
    refine hpair (eachEntry_keeps (fun m => (m.funcPart, m.dataPart)) (fun m s m' s' hround => ?_) heach)
    simp only [bind_eq_ok] at hround
    obtain ⟨⟨valtype, mut_, s1⟩, -, ⟨expr, s2⟩, -, hround⟩ := hround
    cases hround
    rfl
  | export_ =>
    simp only [parseSection, parseSectionExport, bind_eq_ok] at h
    obtain ⟨⟨count, st1⟩, -, ps1, hres, ⟨mod, st2⟩, heach, -, -, h⟩ := h
    cases h
    obtain ⟨-, rfl⟩ := reserve_ok hres
    refine hpair (eachEntry_keeps (fun m => (m.funcPart, m.dataPart)) (fun m s m' s' hround => ?_) heach)
    simp only [parseExport, bind_eq_ok] at hround
    obtain ⟨⟨name, s1⟩, -, ⟨kind, s2⟩, -, hround⟩ := hround
    split at hround
    · simp at hround
    · simp only [bind_eq_ok] at hround
      obtain ⟨⟨idx, s3⟩, -, mod1, hmark, hround⟩ := hround
      cases hround
      obtain ⟨hfuncs, hdatas⟩ := markExport_parts hmark
      exact Prod.ext hfuncs hdatas
  | start =>
    simp only [parseSection, parseSectionStart, bind_eq_ok] at h
    obtain ⟨⟨idx, st1⟩, -, h⟩ := h
    split at h
    · simp at h
    · obtain ⟨-, h⟩ := guard_eq_ok.mp h
      obtain ⟨-, -, h⟩ := bind_eq_ok.mp h
      cases h
      exact ⟨rfl, rfl⟩
  | element =>
    simp only [parseSection, parseSectionElement, bind_eq_ok] at h
    obtain ⟨⟨count, st1⟩, -, ps1, hresize, ⟨n, ps2, st2⟩, hloop, -, -, h⟩ := h
    cases h
    have hstart : ps1.mod.funcPart = ps.mod.funcPart ∧ ps1.mod.dataPart = ps.mod.dataPart := by
      rw [resizeElements] at hresize
      split at hresize
      · cases hresize
        exact ⟨rfl, rfl⟩
      · obtain ⟨capacity, -, hresize⟩ := bind_eq_ok.mp hresize
        cases hresize
        exact ⟨rfl, rfl⟩
    refine Loop.invariant (P := fun s : ℕ × ParseState × Stream =>
      s.2.1.mod.funcPart = ps.mod.funcPart ∧ s.2.1.mod.dataPart = ps.mod.dataPart) ?_ hloop hstart
    rintro ⟨i, ps3, st3⟩ ⟨i', ps4, st4⟩ ⟨hfuncs, hdatas⟩ hround
    obtain ⟨⟨ps5, st5⟩, helem, hround⟩ := bind_eq_ok.mp hround
    cases hround
    obtain ⟨hfuncs', hdatas'⟩ := parseElement_parts helem
    exact ⟨hfuncs'.trans hfuncs, hdatas'.trans hdatas⟩
  | import_ => exact absurd rfl himport
  | function => exact absurd rfl hfunction
  | code => exact absurd rfl hcode
  | dataCount => exact absurd rfl hdataCount
  | data => exact absurd rfl hdata

theorem parseSectionImport_dataPart (h : parseSectionImport ps st = .ok ps') : ps'.mod.dataPart = ps.mod.dataPart := by
  simp only [parseSectionImport, bind_eq_ok] at h
  obtain ⟨⟨count, st1⟩, -, ⟨mod, st2⟩, heach, -, -, h⟩ := h
  cases h
  exact eachEntry_keeps Module.dataPart (fun m s m' s' hround => parseImport_dataPart hround) heach

/-- A function as the function section makes it. -/
structure Func.Unwritten (f : Func) : Prop where
  code : f.code = []
  localTypes : f.localTypes = []
  localCount : f.localCount = f.fnType.paramCount

theorem Func.unwritten_unlinked (f : Func) : f.unlinked.Unwritten ↔ f.Unwritten :=
  ⟨fun h => ⟨h.code, h.localTypes, h.localCount⟩, fun h => ⟨h.code, h.localTypes, h.localCount⟩⟩

theorem parseSectionFunction_adds {s : RawSection} (h : parseSectionFunction ps (.from_ s.content) = .ok ps') :
    ∃ fns, s.number? = some fns.length ∧ (∀ f ∈ fns, f.Unwritten) ∧
      ps'.mod = { ps.mod with funcs := ps.mod.funcs ++ fns } := by
  simp only [parseSectionFunction, bind_eq_ok] at h
  obtain ⟨⟨count, st1⟩, hvu, ps1, hres, ⟨mod, st2⟩, heach, -, -, h⟩ := h
  cases h
  obtain ⟨-, rfl⟩ := reserve_ok hres
  have hadds : ∃ fns : List Func, fns.length = 0 + count ∧ (∀ f ∈ fns, f.Unwritten) ∧
      mod = { ps.mod with funcs := ps.mod.funcs ++ fns } := by
    refine Loop.counted (P := fun i (s : Module × Stream) => ∃ fns : List Func, fns.length = i ∧
      (∀ f ∈ fns, f.Unwritten) ∧
      s.1 = { ps.mod with funcs := ps.mod.funcs ++ fns }) ?_ heach ⟨[], rfl, by simp, by rw [List.append_nil]⟩
    rintro i ⟨m, s1⟩ ⟨m', s2⟩ ⟨fns, hlen, hall, hm⟩ hround
    obtain ⟨⟨ft, s3⟩, -, hround⟩ := bind_eq_ok.mp hround
    cases hround
    dsimp only at hm
    subst hm
    refine ⟨fns ++ [{ fnType := ft, localCount := ft.paramCount }], by simp [hlen], fun f hf => ?_, by simp⟩
    rcases List.mem_append.mp hf with hf | hf
    · exact hall f hf
    · rw [List.mem_singleton.mp hf]
      exact ⟨rfl, rfl, rfl⟩
  obtain ⟨fns, hlen, hall, hmod⟩ := hadds
  refine ⟨fns, ?_, hall, hmod⟩
  rw [RawSection.number?, hvu, hlen, Nat.zero_add]

theorem parseSectionDataCount_sets {s : RawSection} (h : parseSectionDataCount ps (.from_ s.content) = .ok ps') :
    ∃ n, s.number? = some n ∧ ps' = ps.setMod { ps.mod with dataCount := some n } := by
  simp only [parseSectionDataCount, bind_eq_ok] at h
  obtain ⟨⟨n, st1⟩, hvu, -, -, h⟩ := h
  cases h
  refine ⟨n, ?_, rfl⟩
  rw [RawSection.number?, hvu]

theorem parseSectionData_adds {s : RawSection} (h : parseSectionData ps (.from_ s.content) = .ok ps') :
    ∃ ds : List Data, (∀ n ∈ ps.mod.dataCount, n = ds.length) ∧ VecId.data ∉ ps.fixed ∧
      ps' = { ps with
        mod := { ps.mod with data := ps.mod.data ++ ds, dataCount := some ds.length }
        fixed := VecId.data :: ps.fixed } := by
  simp only [parseSectionData, bind_eq_ok, guard_eq_ok] at h
  obtain ⟨⟨count, st1⟩, -, hcount, ps1, hres, ⟨mod, st2⟩, heach, -, -, h⟩ := h
  cases h
  obtain ⟨hfixed, rfl⟩ := reserve_ok hres
  have hadds : ∃ ds : List Data, ds.length = 0 + count ∧
      mod = { ps.mod with data := ps.mod.data ++ ds, dataCount := some count } := by
    refine Loop.counted (P := fun i (s : Module × Stream) => ∃ ds : List Data, ds.length = i ∧
      s.1 = { ps.mod with data := ps.mod.data ++ ds, dataCount := some count }) ?_ heach
        ⟨[], rfl, by rw [List.append_nil]⟩
    rintro i ⟨m, s1⟩ ⟨m', s2⟩ ⟨ds, hlen, hm⟩ hround
    obtain ⟨⟨d, s3⟩, -, hround⟩ := bind_eq_ok.mp hround
    cases hround
    dsimp only at hm
    subst hm
    exact ⟨ds ++ [d], by simp [hlen], by simp⟩
  obtain ⟨ds, hlen, hmod⟩ := hadds
  rw [Nat.zero_add] at hlen
  refine ⟨ds, fun n hn => ?_, hfixed, ?_⟩
  · rw [Option.mem_def] at hn
    simp only [hn, Option.any_some, decide_eq_true_eq, Decidable.not_not] at hcount
    rw [hcount, hlen]
  · rw [ParseState.setMod, hmod, hlen]

end Sections

/-! ### From section to section -/

/-- What holds between two sections whatever they are. -/
structure Between (x : ℕ × ParseState) : Prop where
  sound : x.2.Sound x.1
  elems : ElemsRef x.2.mod
  types : ∀ ft ∈ x.2.mod.funcTypes, ft.Checked

theorem markExport_funcTypes {kind : ExternalKind} {idx : ℕ} {mod mod' : Module}
    (h : markExport kind idx mod = .ok mod') :
    mod'.funcTypes = mod.funcTypes := by
  cases kind <;> (obtain ⟨-, h⟩ := guard_eq_ok.mp h; cases h; rfl)

theorem types_checked {mod mod' : Module} (h : Relation.ReflTransGen Records mod mod')
    (hmod : ∀ ft ∈ mod.funcTypes, ft.Checked) : ∀ ft ∈ mod'.funcTypes, ft.Checked := by
  induction h with
  | refl => exact hmod
  | tail _ hstep ih =>
    cases hstep with
    | funcType hft =>
      intro ft hmem
      rcases List.mem_append.mp hmem with hmem | hmem
      · exact ih ft hmem
      · rw [List.mem_singleton.mp hmem]
        exact hft
    | @export_ mod1 _ _ _ hmark =>
      have htypes := markExport_funcTypes hmark
      exact fun ft hmem => ih ft (htypes ▸ hmem)
    | _ => exact ih

theorem Between.round {x y : ℕ × ParseState} {s : RawSection} (hround : SectionRound x s y)
    (h : Between x) : Between y := by
  cases hround with
  | custom hid => exact h
  | empty hid hfind hempty => exact ⟨h.sound.later (SectionId.find_order hfind).1, h.elems, h.types⟩
  | parsed hid hfind hne hsec =>
    obtain ⟨hle, horder⟩ := SectionId.find_order hfind
    have hrun := parseSection_records h.elems hsec
    exact ⟨parseSection_sound (h.sound.later hle) horder hsec, h.elems.records_run hrun, types_checked hrun h.types⟩

theorem Between.imported_le {x : ℕ × ParseState} (h : Between x) :
    x.2.mod.importedFuncCount ≤ x.2.mod.funcs.length := by
  have hle := (h.sound.mod.indexed.imported .func).le_length
  rwa [Module.linkages_length] at hle

theorem Between.onlyImports {x : ℕ × ParseState} (h : Between x) (hx : x.1 ≤ 2) :
    x.2.mod.funcs.length = x.2.mod.importedFuncCount := h.sound.mod.onlyImports hx .func

theorem Between.paramCount_lt {x : ℕ × ParseState} (h : Between x) {f : Func} (hf : f ∈ x.2.mod.funcs) :
    f.fnType.paramCount < 2 ^ 32 := by
  have hle := (h.types _ (h.sound.mod.indexed.fnType f hf)).params_le
  have hmax : resultTypeCountMax < 2 ^ 32 := by decide
  omega

/-- A function that has got its entry. -/
structure Func.WrittenBy (f : Func) (e : CodeEntry) : Prop where
  code : f.code = e.body
  localTypes : f.localTypes = e.localTypes
  localCount : f.localCount = u32 (f.fnType.paramCount + e.localCount)

theorem CodeEntry.write_written (e : CodeEntry) {f : Func} (hf : f.Unwritten) : (e.write f).WrittenBy e := by
  refine ⟨rfl, ?_, ?_⟩
  · unfold CodeEntry.write
    rw [hf.localTypes, List.nil_append]
  · unfold CodeEntry.write
    rw [hf.localCount]

/-- The functions that are not imported: as many as the function section says, and with code once a
code section has been read. -/
structure FuncsCounted (done : List RawSection) (x : ℕ × ParseState) : Prop where
  own : x.2.mod.funcs.length = x.2.mod.importedFuncCount + (numbers 3 done).sum
  unwritten : ¬ Filled 10 done → ∀ k f, x.2.mod.importedFuncCount ≤ k → x.2.mod.funcs[k]? = some f → f.Unwritten
  late : Filled 10 done → 11 ≤ x.1
  entries : Filled 10 done → (entriesOf done).length = (numbers 3 done).sum
  written : ∀ k e, (entriesOf done)[k]? = some e → e.Accepted ∧
    VecId.localTypes (x.2.mod.importedFuncCount + k) ∈ x.2.fixed ∧
    ∃ f, x.2.mod.funcs[x.2.mod.importedFuncCount + k]? = some f ∧ f.WrittenBy e

theorem entriesOf_unfilled {ss : List RawSection} (h : ¬ Filled 10 ss) : entriesOf ss = [] := by
  rw [entriesOf, List.flatMap_eq_nil_iff]
  intro s hs
  obtain ⟨hmem, hid⟩ := List.mem_filter.mp hs
  have hempty : s.content = [] := by
    by_contra hne
    exact h ⟨s, hmem, of_decide_eq_true hid, hne⟩
  rw [hempty, codeEntries_nil]

section Funcs
variable {done : List RawSection} {x y : ℕ × ParseState} {s : RawSection}

/-- A section that is not one of functions or code, or that is empty. -/
theorem FuncsCounted.skip (h : FuncsCounted done x) (hfunction : s.id ≠ 3 ∨ s.content = [])
    (hcode : s.id ≠ 10 ∨ s.content = []) (hle : x.1 ≤ y.1) (hfuncs : y.2.mod.funcPart = x.2.mod.funcPart)
    (hfixed : Filled 10 done → ∀ v ∈ x.2.fixed, v ∈ y.2.fixed)
    (hsame : Filled 10 done → y.2.mod.funcs = x.2.mod.funcs) : FuncsCounted (done ++ [s]) y := by
  obtain ⟨hmap, himported⟩ := Prod.mk.inj hfuncs
  have hlen : y.2.mod.funcs.length = x.2.mod.funcs.length := by
    rw [← List.length_map Func.unlinked, hmap, List.length_map]
  refine ⟨?_, fun hno k f hk hf => ?_, fun hyes => ?_, fun hyes => ?_, fun k e he => ?_⟩
  · rw [hlen, himported, numbers_other hfunction]
    exact h.own
  · rw [filled_other hcode] at hno
    have hget : (x.2.mod.funcs.map Func.unlinked)[k]? = some f.unlinked := by
      rw [← hmap, List.getElem?_map, hf]
      rfl
    rw [List.getElem?_map] at hget
    obtain ⟨f', hf', heq⟩ := Option.map_eq_some_iff.mp hget
    rw [← Func.unwritten_unlinked, ← heq, Func.unwritten_unlinked]
    exact h.unwritten hno k f' (himported ▸ hk) hf'
  · exact (h.late ((filled_other hcode).mp hyes)).trans hle
  · rw [entriesOf_other hcode, numbers_other hfunction]
    exact h.entries ((filled_other hcode).mp hyes)
  · rw [entriesOf_other hcode] at he
    have hfilled : Filled 10 done := by
      by_contra hno
      rw [entriesOf_unfilled hno] at he
      simp at he
    obtain ⟨haccepted, hfix, f, hf, hwritten⟩ := h.written k e he
    rw [himported, hsame hfilled]
    exact ⟨haccepted, hfixed hfilled _ hfix, f, hf, hwritten⟩

theorem FuncsCounted.import_ (h : FuncsCounted done x) (hid : s.id = 2) (hx : Between x) (hy : Between y)
    (hx2 : x.1 ≤ 2)
    (hy2 : y.1 ≤ 2) : FuncsCounted (done ++ [s]) y := by
  have hunfilled : ¬ Filled 10 done := fun hyes => by
    have := h.late hyes
    omega
  have hnone : (numbers 3 done).sum = 0 := by
    have hown := h.own
    have honly := hx.onlyImports hx2
    omega
  have hcode : s.id ≠ 10 ∨ s.content = [] := Or.inl (by omega)
  have hsame : ¬ Filled 10 (done ++ [s]) := fun hyes => hunfilled ((filled_other hcode).mp hyes)
  refine ⟨?_, fun _ k f hk hf => ?_, fun hyes => absurd hyes hsame, fun hyes => absurd hyes hsame, fun k e he => ?_⟩
  · rw [numbers_other (Or.inl (by omega)), hnone]
    exact hy.onlyImports hy2
  · have hlt := (List.getElem?_eq_some_iff.mp hf).1
    have honly := hy.onlyImports hy2
    omega
  · rw [entriesOf_unfilled hsame] at he
    simp at he

theorem FuncsCounted.function (h : FuncsCounted done x) (hid : s.id = 3) (hx3 : x.1 ≤ 3)
    (hsec : parseSectionFunction x.2 (.from_ s.content) = .ok y.2) : FuncsCounted (done ++ [s]) y := by
  obtain ⟨fns, hnumber, hfns, hmod⟩ := parseSectionFunction_adds hsec
  have hunfilled : ¬ Filled 10 done := fun hyes => by
    have := h.late hyes
    omega
  have hcode : s.id ≠ 10 ∨ s.content = [] := Or.inl (by omega)
  have hsame : ¬ Filled 10 (done ++ [s]) := fun hyes => hunfilled ((filled_other hcode).mp hyes)
  refine ⟨?_, fun _ k f hk hf => ?_, fun hyes => absurd hyes hsame, fun hyes => absurd hyes hsame, fun k e he => ?_⟩
  · rw [hmod, numbers_snoc hid, hnumber, List.length_append, h.own, List.sum_append]
    simp only [Option.toList_some, List.sum_cons, List.sum_nil, Nat.add_zero]
    omega
  · rw [hmod] at hk hf
    rcases Nat.lt_or_ge k x.2.mod.funcs.length with hlt | hge
    · rw [List.getElem?_append_left hlt] at hf
      exact h.unwritten hunfilled k f hk hf
    · rw [List.getElem?_append_right hge] at hf
      exact hfns f (List.mem_of_getElem? hf)
  · rw [entriesOf_unfilled hsame] at he
    simp at he

/-- Once there is code for a function, its vector of locals is fixed, and no second code section has
an entry for it. -/
theorem FuncsCounted.code (h : FuncsCounted done x) (hid : s.id = 10) (hne : s.content ≠ []) (hx : Between x)
    (hy : 11 ≤ y.1) (hsec : parseSectionCode x.2 (.from_ s.content) = .ok y.2) : FuncsCounted (done ++ [s]) y := by
  have hfn : ∀ k f, x.2.mod.importedFuncCount ≤ k → x.2.mod.funcs[k]? = some f → u32 f.localCount = f.localCount := by
    intro k f hk hf
    by_cases hfilled : Filled 10 done
    · have hlt := (List.getElem?_eq_some_iff.mp hf).1
      have hown := h.own
      have hentry : k - x.2.mod.importedFuncCount < (entriesOf done).length := by
        rw [h.entries hfilled]
        omega
      obtain ⟨-, -, f', hf', hwritten⟩ := h.written _ _ (List.getElem?_eq_getElem hentry)
      rw [Nat.add_sub_cancel' hk, hf] at hf'
      cases hf'
      rw [hwritten.localCount]
      exact Nat.mod_mod _ _
    · rw [(h.unwritten hfilled k f hk hf).localCount]
      exact Nat.mod_eq_of_lt (hx.paramCount_lt (List.mem_of_getElem? hf))
  obtain ⟨hnumber, haccepted, hmod, hkept, hfixed⟩ := parseSectionCode_entries hx.imported_le hfn hsec
  have hown := h.own
  have hnumbers : numbers 3 (done ++ [s]) = numbers 3 done := numbers_other (Or.inl (by omega))
  have hlength : (codeEntries s.content).length = (numbers 3 done).sum := by omega
  have hnow : Filled 10 (done ++ [s]) := filled_snoc.mpr (Or.inr ⟨hid, hne⟩)
  -- either no code has been read before, or there is none to read
  have hcases : entriesOf done = [] ∨ entriesOf done ≠ [] ∧ codeEntries s.content = [] := by
    by_contra hboth
    simp only [not_or, not_and] at hboth
    obtain ⟨hold, hnew⟩ := hboth
    have hnew := hnew hold
    obtain ⟨-, hmem, -⟩ := h.written 0 _ (List.getElem?_eq_getElem (List.length_pos_iff.mpr hold))
    exact (hfixed 0 (List.length_pos_iff.mpr hnew)).1 hmem
  have hentries : (entriesOf (done ++ [s])).length = (numbers 3 done).sum := by
    rw [entriesOf_snoc hid, List.length_append]
    rcases hcases with hnone | ⟨hold, hempty⟩
    · rw [hnone, List.length_nil]
      omega
    · have hfilled : Filled 10 done := by
        by_contra hno
        exact hold (entriesOf_unfilled hno)
      rw [hempty, List.length_nil, Nat.add_zero]
      exact h.entries hfilled
  refine ⟨?_, fun hno => absurd hnow hno, fun _ => hy, fun _ => hentries.trans (by rw [hnumbers]), fun k e he => ?_⟩
  · rw [hmod, hnumbers]
    simp only [writeEntries_length]
    exact hown
  · rw [entriesOf_snoc hid] at he
    rw [hmod]
    dsimp only
    rcases hcases with hnone | ⟨-, hempty⟩
    · rw [hnone, List.nil_append] at he
      have hlt := (List.getElem?_eq_some_iff.mp he).1
      have hget : x.2.mod.importedFuncCount + k < x.2.mod.funcs.length := by omega
      refine ⟨haccepted e (List.mem_of_getElem? he), (hfixed k hlt).2,
        e.write x.2.mod.funcs[x.2.mod.importedFuncCount + k], ?_, ?_⟩
      · rw [writeEntries_get, List.getElem?_eq_getElem hget, he]
        rfl
      · apply e.write_written
        by_cases hfilled : Filled 10 done
        · have hzero := h.entries hfilled
          rw [hnone, List.length_nil] at hzero
          omega
        · exact h.unwritten hfilled _ _ (Nat.le_add_right _ _) (List.getElem?_eq_getElem hget)
    · rw [hempty, List.append_nil] at he
      obtain ⟨hacc, hmem, hwritten⟩ := h.written k e he
      rw [hempty]
      exact ⟨hacc, hkept _ hmem, hwritten⟩

theorem FuncsCounted.round (h : FuncsCounted done x) (hround : SectionRound x s y) (hx : Between x) (hy : Between y) :
    FuncsCounted (done ++ [s]) y := by
  cases hround with
  | custom hid => exact h.skip (Or.inl (by omega)) (Or.inl (by omega)) le_rfl rfl (fun _ _ hv => hv) fun _ => rfl
  | empty hid hfind hempty =>
    exact h.skip (Or.inr hempty) (Or.inr hempty) (SectionId.find_order hfind).1 rfl (fun _ _ hv => hv) fun _ => rfl
  | @parsed current ps _ current' sec ps' hid hfind hne hsec =>
    obtain ⟨hle, horder⟩ := SectionId.find_order hfind
    have hrank := SectionId.rank_eq horder
    have hsid := SectionId.find_id hfind
    have hlate : Filled 10 done → 11 ≤ sec.rank := fun hfilled => by
      have := h.late hfilled
      dsimp only at this
      omega
    by_cases hapart : sec.Apart
    · have hearly : ¬ Filled 10 done := by
        intro hfilled
        have hrank11 := hlate hfilled
        obtain ⟨-, -, hcode, -, hdata⟩ := hapart
        cases sec <;> first | exact absurd rfl hcode | exact absurd rfl hdata | exact absurd hrank11 (by decide)
      have hnot : s.id ≠ 3 ∧ s.id ≠ 10 := by
        rw [← hsid]
        obtain ⟨-, hfunction, hcode, -⟩ := hapart
        cases sec <;> first | exact absurd rfl hcode | exact absurd rfl hfunction | exact ⟨by decide, by decide⟩
      exact h.skip (Or.inl hnot.1) (Or.inl hnot.2) hle (parseSection_apart hapart hsec).1
        (fun hfilled => absurd hfilled hearly) fun hfilled => absurd hfilled hearly
    · cases sec with
      | import_ =>
        rw [SectionId.rank] at hrank
        exact h.import_ hsid.symm hx hy (by dsimp only; omega) (by dsimp only; omega)
      | function =>
        rw [SectionId.rank] at hrank
        exact h.function hsid.symm (by dsimp only; omega) hsec
      | code => exact h.code hsid.symm hne hx (by dsimp only; rw [hrank, SectionId.rank]) hsec
      | dataCount =>
        obtain ⟨n, -, rfl⟩ := parseSectionDataCount_sets (s := s) hsec
        have hnot : s.id ≠ 3 ∧ s.id ≠ 10 := by
          rw [← hsid]
          exact ⟨by decide, by decide⟩
        exact h.skip (Or.inl hnot.1) (Or.inl hnot.2) hle rfl (fun _ _ hv => hv) fun _ => rfl
      | data =>
        obtain ⟨ds, -, -, rfl⟩ := parseSectionData_adds (s := s) hsec
        have hnot : s.id ≠ 3 ∧ s.id ≠ 10 := by
          rw [← hsid]
          exact ⟨by decide, by decide⟩
        exact h.skip (Or.inl hnot.1) (Or.inl hnot.2) hle rfl (fun _ _ hv => List.mem_cons_of_mem _ hv) fun _ => rfl
      | custom | type | table | memory | global | export_ | start | element =>
        refine absurd ⟨?_, ?_, ?_, ?_, ?_⟩ hapart <;> intro heq <;> cases heq

end Funcs

/-- The data segments: none before the data section, and then as many as it was said last. -/
structure DataCounted (done : List RawSection) (x : ℕ × ParseState) : Prop where
  unfilled : ¬ Filled 11 done → x.2.mod.data = [] ∧ x.2.mod.dataCount = (numbers 12 done).getLast?
  late : Filled 11 done → 12 ≤ x.1
  fixed : Filled 11 done → VecId.data ∈ x.2.fixed
  counted : Filled 11 done → ∀ n ∈ (numbers 12 done).getLast?, n = x.2.mod.data.length

section Data
variable {done : List RawSection} {x y : ℕ × ParseState} {s : RawSection}

theorem parseSectionCode_dataPart {ps ps' : ParseState} {st : Stream} (h : parseSectionCode ps st = .ok ps') :
    ps'.mod.dataPart = ps.mod.dataPart := by
  simp only [parseSectionCode, bind_eq_ok, guard_eq_ok] at h
  obtain ⟨⟨count, st1⟩, -, -, ⟨n, ps1, st2⟩, hloop, -, -, h⟩ := h
  cases h
  refine Loop.invariant (P := fun s : ℕ × ParseState × Stream => s.2.1.mod.dataPart = ps.mod.dataPart) ?_ hloop rfl
  rintro ⟨i, ps2, st3⟩ ⟨i', ps3, st4⟩ hps hround
  obtain ⟨⟨ps4, st5⟩, hcode, hround⟩ := bind_eq_ok.mp hround
  cases hround
  rw [parseCode] at hcode
  split at hcode
  · simp at hcode
  · simp only [bind_eq_ok, guard_eq_ok] at hcode
    obtain ⟨⟨size, s1⟩, -, ⟨code, s2⟩, -, ⟨groups, code1⟩, -, ⟨total, code2⟩, -, ⟨fn1, code3⟩, -, -, ps5, hres,
      hcode⟩ := hcode
    cases hcode
    obtain ⟨-, rfl⟩ := reserve_ok hres
    exact hps

/-- A section that is not one of data, or that is empty. -/
theorem DataCounted.skip (h : DataCounted done x) (hcount : s.id ≠ 12 ∨ s.content = [])
    (hdata : s.id ≠ 11 ∨ s.content = []) (hle : x.1 ≤ y.1) (hsame : y.2.mod.dataPart = x.2.mod.dataPart)
    (hfixed : Filled 11 done → VecId.data ∈ y.2.fixed) : DataCounted (done ++ [s]) y := by
  obtain ⟨hdatas, hnumber⟩ := Prod.mk.inj hsame
  refine ⟨fun hno => ?_, fun hyes => ?_, fun hyes => ?_, fun hyes => ?_⟩
  · rw [filled_other hdata] at hno
    rw [hdatas, hnumber, numbers_other hcount]
    exact h.unfilled hno
  · exact (h.late ((filled_other hdata).mp hyes)).trans hle
  · exact hfixed ((filled_other hdata).mp hyes)
  · rw [hdatas, numbers_other hcount]
    exact h.counted ((filled_other hdata).mp hyes)

theorem DataCounted.dataCount (h : DataCounted done x) (hid : s.id = 12) (hx : x.1 ≤ 10)
    (hsec : parseSectionDataCount x.2 (.from_ s.content) = .ok y.2) : DataCounted (done ++ [s]) y := by
  obtain ⟨n, hnumber, hy⟩ := parseSectionDataCount_sets hsec
  have hunfilled : ¬ Filled 11 done := fun hyes => by
    have := h.late hyes
    omega
  have hsame : ¬ Filled 11 (done ++ [s]) := fun hyes => hunfilled ((filled_other (Or.inl (by omega))).mp hyes)
  refine ⟨fun _ => ?_, fun hyes => absurd hyes hsame, fun hyes => absurd hyes hsame, fun hyes => absurd hyes hsame⟩
  rw [hy, numbers_snoc hid, hnumber, Option.toList_some, List.getLast?_concat]
  exact ⟨(h.unfilled hunfilled).1, rfl⟩

theorem DataCounted.data (h : DataCounted done x) (hid : s.id = 11) (hne : s.content ≠ []) (hy12 : 12 ≤ y.1)
    (hsec : parseSectionData x.2 (.from_ s.content) = .ok y.2) : DataCounted (done ++ [s]) y := by
  obtain ⟨ds, hcount, hfree, hy⟩ := parseSectionData_adds hsec
  have hunfilled : ¬ Filled 11 done := fun hyes => hfree (h.fixed hyes)
  obtain ⟨hnone, hnumber⟩ := h.unfilled hunfilled
  have hnow : Filled 11 (done ++ [s]) := filled_snoc.mpr (Or.inr ⟨hid, hne⟩)
  refine ⟨fun hno => absurd hnow hno, fun _ => hy12, fun _ => ?_, fun _ n hn => ?_⟩
  · rw [hy]
    exact List.mem_cons_self
  · rw [numbers_other (Or.inl (by omega)), ← hnumber] at hn
    rw [hy]
    dsimp only
    rw [hnone, List.nil_append]
    exact hcount n hn

theorem DataCounted.round (h : DataCounted done x) (hround : SectionRound x s y) : DataCounted (done ++ [s]) y := by
  cases hround with
  | custom hid => exact h.skip (Or.inl (by omega)) (Or.inl (by omega)) le_rfl rfl h.fixed
  | empty hid hfind hempty =>
    exact h.skip (Or.inr hempty) (Or.inr hempty) (SectionId.find_order hfind).1 rfl h.fixed
  | @parsed current ps _ current' sec ps' hid hfind hne hsec =>
    obtain ⟨hle, horder⟩ := SectionId.find_order hfind
    have hrank := SectionId.rank_eq horder
    have hsid := SectionId.find_id hfind
    have hlate : Filled 11 done → 12 ≤ sec.rank := fun hfilled => by
      have := h.late hfilled
      dsimp only at this
      omega
    by_cases hsecs : sec = .dataCount ∨ sec = .data
    · rcases hsecs with rfl | rfl
      · rw [SectionId.rank] at hrank
        exact h.dataCount hsid.symm (by dsimp only; omega) hsec
      · exact h.data hsid.symm hne (by dsimp only; rw [hrank, SectionId.rank]) hsec
    · have hnot : s.id ≠ 12 ∧ s.id ≠ 11 := by
        rw [← hsid]
        cases sec <;> first
          | exact absurd (Or.inl rfl) hsecs
          | exact absurd (Or.inr rfl) hsecs
          | exact ⟨by decide, by decide⟩
      have hsame : ps'.mod.dataPart = ps.mod.dataPart := by
        by_cases hapart : sec.Apart
        · exact (parseSection_apart hapart hsec).2
        · cases sec with
          | import_ => exact parseSectionImport_dataPart hsec
          | function =>
            obtain ⟨fns, -, -, hmod⟩ := parseSectionFunction_adds (s := s) hsec
            rw [hmod]
            rfl
          | code => exact parseSectionCode_dataPart hsec
          | dataCount => exact absurd (Or.inl rfl) hsecs
          | data => exact absurd (Or.inr rfl) hsecs
          | custom | type | table | memory | global | export_ | start | element =>
            refine absurd ⟨?_, ?_, ?_, ?_, ?_⟩ hapart <;> intro heq <;> cases heq
      refine h.skip (Or.inl hnot.1) (Or.inl hnot.2) hle hsame fun hfilled => ?_
      have hrank12 := hlate hfilled
      cases sec <;> first | exact absurd (Or.inr rfl) hsecs | exact absurd hrank12 (by decide)

end Data

/-- Of every binary that is accepted. -/
theorem parseModule_counted {bin : Str} {mod : Module} (h : parseModule bin = .ok mod) :
    ∃ ss ps current, sectionsOf bin = .ok ss ∧ Between (current, ps) ∧ FuncsCounted ss (current, ps) ∧
      DataCounted ss (current, ps) ∧
      ps.mod = mod := by
  obtain ⟨ss, ps, current, version, hss, hrun, hmod⟩ := parseModule_run h
  have hno : ∀ id, ¬ Filled id [] := fun id hfilled => by
    obtain ⟨s, hs, -⟩ := hfilled
    simp at hs
  have hinv : Between (current, ps) ∧ FuncsCounted ss (current, ps) ∧ DataCounted ss (current, ps) := by
    refine hrun.history (P := fun done x => Between x ∧ FuncsCounted done x ∧ DataCounted done x) ?_ ⟨?_, ?_, ?_⟩
    · rintro done x s y hround ⟨hbase, hfuncs, hdatas⟩
      have hnext := hbase.round hround
      exact ⟨hnext, hfuncs.round hround hbase hnext, hdatas.round hround⟩
    · exact ⟨ParseState.sound_empty version, fun e he => by simp at he, fun ft hft => by simp at hft⟩
    · refine ⟨rfl, fun _ k f _ hf => by simp at hf, fun hyes => absurd hyes (hno 10),
        fun hyes => absurd hyes (hno 10), ?_⟩
      intro k e he
      simp [entriesOf] at he
    · exact ⟨fun _ => ⟨rfl, rfl⟩, fun hyes => absurd hyes (hno 11), fun hyes => absurd hyes (hno 11),
        fun hyes => absurd hyes (hno 11)⟩
  exact ⟨ss, ps, current, hss, hinv.1, hinv.2.1, hinv.2.2, hmod⟩

/-! ### The counts -/

/-- Every function has the code of the entry at its place, and there are as many data segments as a
data count section says. -/
structure CountsAgree (ss : List RawSection) (mod : Module) : Prop where
  code : ∀ i f, mod.importedFuncCount ≤ i → mod.funcs[i]? = some f →
    f.code ≠ [] ∧ ∃ e, (entriesOf ss)[i - mod.importedFuncCount]? = some e ∧ f.code = e.body
  data : ∀ n ∈ numbers 12 ss, n = mod.data.length

/-- The parser comes to the section where it compares. -/
structure CountsCompared (ss : List RawSection) : Prop where
  code : (∀ n ∈ numbers 3 ss, n = 0) ∨ Filled 10 ss
  data : (∀ n ∈ numbers 12 ss, n = 0) ∨ Filled 11 ss
  last : ∀ m ∈ numbers 12 ss, ∀ n ∈ numbers 12 ss, m = n

/-- The counts agree exactly if the sections that compare them are there with a content, where there
is something to compare. -/
theorem parseModule_counts (bin : Str) (mod : Module) (h : parseModule bin = .ok mod) :
    ∃ ss, sectionsOf bin = .ok ss ∧ (CountsAgree ss mod ↔ CountsCompared ss) := by
  obtain ⟨ss, ps, current, hss, -, hfuncs, hdatas, rfl⟩ := parseModule_counted h
  have hown := hfuncs.own
  dsimp only at hown
  refine ⟨ss, hss, fun hagree => ⟨?_, ?_, ?_⟩, fun hcompared => ⟨fun i f hi hf => ?_, fun n hn => ?_⟩⟩
  · by_cases hfilled : Filled 10 ss
    · exact Or.inr hfilled
    · left
      -- the first function of the module has no code
      have hzero : (numbers 3 ss).sum = 0 := by
        by_contra hpos
        have hlt : ps.mod.importedFuncCount < ps.mod.funcs.length := by omega
        have hget := List.getElem?_eq_getElem hlt
        exact (hagree.code _ _ le_rfl hget).1 (hfuncs.unwritten hfilled _ _ le_rfl hget).code
      exact List.sum_eq_zero_iff.mp hzero
  · by_cases hfilled : Filled 11 ss
    · exact Or.inr hfilled
    · left
      intro n hn
      have hdata := (hdatas.unfilled hfilled).1
      dsimp only at hdata
      rw [hagree.data n hn, hdata, List.length_nil]
  · intro m hm n hn
    rw [hagree.data m hm, hagree.data n hn]
  · have hlt := (List.getElem?_eq_some_iff.mp hf).1
    have hfilled : Filled 10 ss := by
      refine hcompared.code.resolve_left fun hall => ?_
      have hzero := List.sum_eq_zero_iff.mpr hall
      omega
    have hentries := hfuncs.entries hfilled
    have hentry : i - ps.mod.importedFuncCount < (entriesOf ss).length := by omega
    obtain ⟨haccepted, -, f', hf', hwritten⟩ := hfuncs.written _ _ (List.getElem?_eq_getElem hentry)
    rw [Nat.add_sub_cancel' hi] at hf'
    cases hf.symm.trans hf'
    exact ⟨hwritten.code ▸ haccepted.body, _, List.getElem?_eq_getElem hentry, hwritten.code⟩
  · have hne : numbers 12 ss ≠ [] := List.ne_nil_of_mem hn
    have hlast := List.getLast?_eq_getLast_of_ne_nil hne
    have heq := hcompared.last n hn _ (List.getLast_mem hne)
    by_cases hfilled : Filled 11 ss
    · rw [heq]
      exact hdatas.counted hfilled _ hlast
    · have hdata := (hdatas.unfilled hfilled).1
      dsimp only at hdata
      rw [hdata, List.length_nil]
      exact hcompared.data.resolve_right hfilled n hn

/-- One function, and no code section. -/
def missingCode : Str := [0x00, 0x61, 0x73, 0x6d, 1, 0, 0, 0, 1, 4, 1, 0x60, 0, 0, 3, 2, 1, 0]

/-- What the parser makes of it. -/
def missingCodeModule : Module :=
  { formatVersion := 1
    funcTypes := [{}]
    funcs := [{}] }

theorem parse_missingCode : parseModule missingCode = .ok missingCodeModule := by decide +kernel

theorem parseModule_counts_missing : ∃ mod, parseModule missingCode = .ok mod ∧
    ∃ ss, sectionsOf missingCode = .ok ss ∧ (CountsAgree ss mod ↔ CountsCompared ss) :=
  ⟨_, parse_missingCode, parseModule_counts missingCode _ parse_missingCode⟩

/-- The number of entries is compared where the code section is parsed, so a module without one may
have functions without code. -/
theorem missing_code_accepted : ¬ ∀ bin mod, parseModule bin = .ok mod →
    ∃ ss, sectionsOf bin = .ok ss ∧ CountsAgree ss mod := by
  intro hall
  obtain ⟨ss, -, hagree⟩ := hall _ _ parse_missingCode
  exact (hagree.code 0 {} (Nat.le_refl 0) rfl).1 rfl

end Silverfir
