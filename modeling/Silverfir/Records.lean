import Silverfir.Parser
import Silverfir.Fetch

/-! What the parser records: every change it makes to a module puts in one entry, which has passed
its checks. A property of parsed modules has to be looked at once for each kind of entry. -/
namespace Silverfir

open Relation (ReflTransGen)

/-- Limits that `parse_limits` admits. -/
structure Limits.Ok (maxCap : ℕ) (lim : Limits) : Prop where
  min_le : lim.min ≤ lim.max
  max_le : lim.max ≤ maxCap

/-- The bytes of a result type: `count` value types. -/
def ResultType (count : ℕ) (types : Str) : Prop :=
  types.length = count ∧ ∀ b ∈ types, ∃ t, TypeId.ofI8? (Stream.i7Value b.toNat) = some t ∧ t.isValueType

structure FuncType.Checked (ft : FuncType) : Prop where
  params : ResultType ft.paramCount ft.params
  results : ResultType ft.resultCount ft.results
  params_le : ft.paramCount ≤ resultTypeCountMax
  results_le : ft.resultCount ≤ resultTypeCountMax

/-- One entry is put into the module. -/
inductive Records : Module → Module → Prop
  | funcType {mod ft} (h : ft.Checked) : Records mod { mod with funcTypes := mod.funcTypes ++ [ft] }
  | importFunc {mod ft path} (h : ft ∈ mod.funcTypes) :
      Records mod { mod with
        funcs := mod.funcs ++ [{ fnType := ft, linkage := { imported := true }, path := path }]
        importedFuncCount := mod.importedFuncCount + 1 }
  | importTable {mod valtype lim path} (ht : valtype.isRef) (hl : lim.Ok u32Max) :
      Records mod { mod with
        tables := mod.tables ++ [{ valtype := valtype, lim := lim, linkage := { imported := true }, path := path }]
        importedTableCount := mod.importedTableCount + 1 }
  | importMemory {mod lim path} (hl : lim.Ok wasmMemMaxPages) :
      Records mod { mod with
        memories := mod.memories ++ [{ lim := lim, linkage := { imported := true }, path := path }]
        importedMemCount := mod.importedMemCount + 1 }
  | importGlobal {mod valtype mut_ path} (ht : valtype.isValueType) :
      Records mod { mod with
        globals := mod.globals ++ [{ valtype := valtype, mut_ := mut_, linkage := { imported := true }, path := path }]
        importedGlobalCount := mod.importedGlobalCount + 1 }
  | func {mod ft} (h : ft ∈ mod.funcTypes) :
      Records mod { mod with funcs := mod.funcs ++ [{ fnType := ft, localCount := ft.paramCount }] }
  | table {mod valtype lim} (ht : valtype.isRef) (hl : lim.Ok u32Max) :
      Records mod { mod with tables := mod.tables ++ [{ valtype := valtype, lim := lim }] }
  | memory {mod lim} (hl : lim.Ok wasmMemMaxPages) :
      Records mod { mod with memories := mod.memories ++ [{ lim := lim }] }
  | global {mod valtype mut_ expr} (ht : valtype.isValueType) :
      Records mod { mod with globals := mod.globals ++ [{ valtype := valtype, mut_ := mut_, expr := expr }] }
  | export_ {mod mod' kind idx name} (h : markExport kind idx mod = .ok mod') :
      Records mod { mod' with exports := mod'.exports ++ [⟨name, kind, idx⟩] }
  | start {mod idx} : Records mod { mod with startFuncidx := some idx }
  | elements {mod elements} (ht : ∀ e ∈ elements, e.valtype.isRef) : Records mod { mod with elements := elements }
  | code {mod i fn types code localCount} (hi : mod.importedFuncCount ≤ i) (hfn : mod.funcs[i]? = some fn)
      (ht : ∀ t ∈ types, t.isValueType) :
      Records mod { mod with
        funcs := mod.funcs.set i
          { fn with localTypes := fn.localTypes ++ types, localCount := localCount, code := code } }
  | data {mod data dataCount} : Records mod { mod with data := data, dataCount := dataCount }

/-! ### The readers -/

theorem parseLimits_ok {maxCap : ℕ} {st st' : Stream} {lim : Limits} (h : parseLimits maxCap st = .ok (lim, st')) :
    lim.Ok maxCap := by
  simp only [parseLimits, bind_eq_ok, guard_eq_ok] at h
  obtain ⟨⟨flag, st1⟩, -, -, ⟨min, st2⟩, -, ⟨max, st3⟩, hmax, hle, h⟩ := h
  cases h
  refine ⟨Nat.not_lt.mp hle, ?_⟩
  rw [parseMax] at hmax
  by_cases hflag : flag = 0x1
  · rw [if_pos hflag] at hmax
    obtain ⟨⟨m, st4⟩, -, hmax⟩ := bind_eq_ok.mp hmax
    by_cases hm : m ≤ maxCap
    · simp only [hm, if_true, Except.ok.injEq, Prod.mk.injEq] at hmax
      rw [← hmax.1]
      exact hm
    · simp [hm] at hmax
  · rw [if_neg hflag] at hmax
    cases hmax
    exact Nat.le_refl _

theorem parseTableType_ok {msg : String} {st st' : Stream} {valtype : TypeId} {lim : Limits}
    (h : parseTableType msg st = .ok (valtype, lim, st')) : valtype.isRef ∧ lim.Ok u32Max := by
  simp only [parseTableType, bind_eq_ok] at h
  obtain ⟨⟨t, st1⟩, ht, ⟨l, st2⟩, hl, h⟩ := h
  cases h
  exact ⟨(readType_ok ht).1, parseLimits_ok hl⟩

theorem parseGlobalType_ok {msg mutMsg : String} {st st' : Stream} {valtype : TypeId} {mut_ : Bool}
    (h : parseGlobalType msg mutMsg st = .ok (valtype, mut_, st')) : valtype.isValueType := by
  simp only [parseGlobalType, bind_eq_ok, guard_eq_ok] at h
  obtain ⟨⟨t, st1⟩, ht, ⟨m, st2⟩, -, -, h⟩ := h
  cases h
  exact (readType_ok ht).1

theorem checkTypes_ok {n : ℕ} {st st' : Stream} (h : checkTypes n st = .ok st') :
    ResultType n ((st.s.drop st.p).take n) := by
  induction n generalizing st with
  | zero => exact ⟨by simp, by simp⟩
  | succ n ih =>
    simp only [checkTypes, bind_eq_ok] at h
    obtain ⟨⟨t, st1⟩, ht, h⟩ := h
    obtain ⟨hval, m, hm, hof⟩ := readType_ok ht
    obtain ⟨u, hu, -, rfl, rfl⟩ := Stream.readVi7_ok hm
    simp only [Stream.byteAt?, Nat.add_zero, Option.map_eq_some_iff] at hu
    obtain ⟨b, hb, rfl⟩ := hu
    obtain ⟨hlen, hall⟩ := ih h
    have hcons : st.s.drop st.p = b :: st.s.drop (st.p + 1) := by
      obtain ⟨hlt, hget⟩ := List.getElem?_eq_some_iff.mp hb
      rw [List.drop_eq_getElem_cons hlt, hget]
    rw [hcons, List.take_succ_cons]
    refine ⟨congrArg (· + 1) hlen, fun c hc => ?_⟩
    obtain rfl | hc := List.mem_cons.mp hc
    · exact ⟨t, hof, hval⟩
    · exact hall c hc

theorem parseResultType_ok {msg : String} {st st' : Stream} {count : ℕ} {types : Str}
    (h : parseResultType msg st = .ok (count, types, st')) :
    ResultType count types ∧ count ≤ resultTypeCountMax := by
  simp only [parseResultType, bind_eq_ok, guard_eq_ok] at h
  obtain ⟨⟨n, st1⟩, -, hle, st2, hst2, h⟩ := h
  cases h
  exact ⟨checkTypes_ok hst2, Nat.not_lt.mp hle⟩

theorem parseFuncType_checked {st st' : Stream} {ft : FuncType}
    (h : parseFuncType st = .ok (ft, st')) : ft.Checked := by
  simp only [parseFuncType, bind_eq_ok, guard_eq_ok] at h
  obtain ⟨⟨form, st1⟩, -, -, ⟨pc, ps, st2⟩, hp, ⟨rc, rs, st3⟩, hr, h⟩ := h
  cases h
  obtain ⟨hp, hple⟩ := parseResultType_ok hp
  obtain ⟨hr, hrle⟩ := parseResultType_ok hr
  exact ⟨hp, hr, hple, hrle⟩

theorem parseTypeidx_mem {types : List FuncType} {st st' : Stream} {ft : FuncType}
    (h : parseTypeidx types st = .ok (ft, st')) : ft ∈ types := by
  simp only [parseTypeidx, bind_eq_ok] at h
  obtain ⟨⟨i, st1⟩, -, h⟩ := h
  split at h
  · simp at h
  · next ft' hft =>
    cases h
    exact List.mem_of_getElem? hft

theorem parseLocals_ok {isFixed : Bool} {groups : ℕ} {fn fn' : Func} {code code' : Stream}
    (h : parseLocals isFixed groups fn code = .ok (fn', code')) :
    ∃ types localCount, (∀ t ∈ types, t.isValueType) ∧
      fn' = { fn with localTypes := fn.localTypes ++ types, localCount := localCount } := by
  refine Loop.invariant (P := fun s : Func × Stream => ∃ types localCount, (∀ t ∈ types, t.isValueType) ∧
    s.1 = { fn with localTypes := fn.localTypes ++ types, localCount := localCount }) ?_ h
    ⟨[], fn.localCount, by simp, by simp⟩
  rintro ⟨f, c⟩ ⟨f', c'⟩ ⟨types, n, htypes, hf⟩ hround
  simp only [bind_eq_ok] at hround
  obtain ⟨⟨k, c1⟩, -, ⟨t, c2⟩, ht, hround⟩ := hround
  obtain ⟨-, hround⟩ := guard_eq_ok.mp hround
  cases hround
  simp only at hf
  subst hf
  refine ⟨types ++ List.replicate k t, u32 (n + k), fun t' ht' => ?_, by simp only [List.append_assoc]⟩
  obtain ht' | ht' := List.mem_append.mp ht'
  · exact htypes t' ht'
  · rw [List.eq_of_mem_replicate ht']
    exact (readType_ok ht).1

theorem parseElemType_ok {kind : ElemKind} {st st' : Stream} {t : TypeId} (h : parseElemType kind st = .ok (t, st')) :
    t.isRef := by
  rw [parseElemType] at h
  split at h
  · split at h
    · simp only [bind_eq_ok] at h
      obtain ⟨⟨n, st1⟩, -, h⟩ := h
      split at h
      · simp at h
      · obtain ⟨hr, h⟩ := guard_eq_ok.mp h
        cases h
        simpa using hr
    · simp only [bind_eq_ok, guard_eq_ok] at h
      obtain ⟨⟨n, st1⟩, -, -, h⟩ := h
      cases h
      rfl
  · cases h
    rfl

/-! ### The sections -/

/-- A section whose rounds record one entry each. -/
theorem eachEntry_records {f : Module × Stream → R (Module × Stream)}
    (hf : ∀ mod st mod' st', f (mod, st) = .ok (mod', st') → Records mod mod') {count : ℕ} {mod mod' : Module}
    {st st' : Stream} (h : eachEntry f count mod st = .ok (mod', st')) : ReflTransGen Records mod mod' :=
  Loop.invariant (P := fun s => ReflTransGen Records mod s.1)
    (fun s s' hs hround => hs.tail (hf s.1 s.2 s'.1 s'.2 hround)) h .refl

theorem reserve_ok {v : VecId} {ps ps' : ParseState} (h : ps.reserve v = .ok ps') :
    v ∉ ps.fixed ∧ ps' = { ps with fixed := v :: ps.fixed } := by
  obtain ⟨hv, hps⟩ := guard_eq_ok.mp h
  cases hps
  exact ⟨hv, rfl⟩

theorem parseImport_records {mod mod' : Module} {st st' : Stream} (h : parseImport mod st = .ok (mod', st')) :
    Records mod mod' := by
  simp only [parseImport, bind_eq_ok] at h
  obtain ⟨⟨module, st1⟩, -, ⟨field, st2⟩, -, ⟨kind, st3⟩, -, h⟩ := h
  split at h
  · simp only [bind_eq_ok] at h
    obtain ⟨⟨ft, st4⟩, hft, h⟩ := h
    cases h
    exact .importFunc (parseTypeidx_mem hft)
  · simp only [bind_eq_ok] at h
    obtain ⟨⟨valtype, lim, st4⟩, htab, h⟩ := h
    cases h
    exact .importTable (parseTableType_ok htab).1 (parseTableType_ok htab).2
  · simp only [bind_eq_ok] at h
    obtain ⟨⟨lim, st4⟩, hlim, h⟩ := h
    cases h
    exact .importMemory (parseLimits_ok hlim)
  · simp only [bind_eq_ok] at h
    obtain ⟨⟨valtype, mut_, st4⟩, hglob, h⟩ := h
    cases h
    exact .importGlobal (parseGlobalType_ok hglob)
  · simp at h

theorem parseExport_records {mod mod' : Module} {st st' : Stream} (h : parseExport mod st = .ok (mod', st')) :
    Records mod mod' := by
  simp only [parseExport, bind_eq_ok] at h
  obtain ⟨⟨name, st1⟩, -, ⟨kind, st2⟩, -, h⟩ := h
  split at h
  · simp at h
  · simp only [bind_eq_ok] at h
    obtain ⟨⟨idx, st3⟩, -, mod1, hmark, h⟩ := h
    cases h
    exact .export_ hmark

section Sections
variable {ps ps' : ParseState} {st : Stream}

/-- The elements of a module have reference types. -/
def ElemsRef (mod : Module) : Prop := ∀ e ∈ mod.elements, e.valtype.isRef

theorem resizeElements_records {count : ℕ} (hs : ElemsRef ps.mod) (h : resizeElements count ps = .ok ps') :
    Records ps.mod ps'.mod ∧ ElemsRef ps'.mod := by
  rw [resizeElements] at h
  split at h
  · cases h
    have hmem : ∀ e ∈ ps.mod.elements.take count, e.valtype.isRef := fun e he => hs e (List.mem_of_mem_take he)
    exact ⟨.elements hmem, hmem⟩
  · obtain ⟨capacity, -, h⟩ := bind_eq_ok.mp h
    cases h
    have hmem :
        ∀ e ∈ ps.mod.elements ++ List.replicate (count - ps.mod.elements.length) ({} : Element), e.valtype.isRef := by
      intro e he
      obtain he | he := List.mem_append.mp he
      · exact hs e he
      · rw [List.eq_of_mem_replicate he]
        rfl
    exact ⟨.elements hmem, hmem⟩

theorem parseElemItems_keeps {i : ℕ} {kind : ElemKind} {elem elem' : Element} {st st' : Stream}
    (h : parseElemItems i kind elem ps st = .ok (ps', elem', st')) :
    ps'.mod = ps.mod ∧ elem'.valtype = elem.valtype := by
  simp only [parseElemItems, bind_eq_ok] at h
  obtain ⟨⟨n, st1⟩, -, h⟩ := h
  split at h
  · simp only [bind_eq_ok] at h
    obtain ⟨ps1, hres, ⟨exprs, st2⟩, -, h⟩ := h
    cases h
    obtain ⟨-, rfl⟩ := reserve_ok hres
    exact ⟨rfl, rfl⟩
  · simp only [bind_eq_ok] at h
    obtain ⟨ps1, hres, ⟨idxs, st2⟩, -, h⟩ := h
    cases h
    obtain ⟨-, rfl⟩ := reserve_ok hres
    exact ⟨rfl, rfl⟩

theorem parseElement_records {i : ℕ} {st st' : Stream} (hs : ElemsRef ps.mod)
    (h : parseElement i ps st = .ok (ps', st')) : Records ps.mod ps'.mod ∧ ElemsRef ps'.mod := by
  simp only [parseElement, bind_eq_ok, guard_eq_ok] at h
  obtain ⟨⟨kind, st1⟩, -, -, h⟩ := h
  split at h
  · simp at h
  · simp only [bind_eq_ok] at h
    obtain ⟨⟨elem1, st2⟩, -, ⟨valtype, st3⟩, hty, ⟨ps1, elem2, st4⟩, hitems, h⟩ := h
    cases h
    obtain ⟨hmod, hval⟩ := parseElemItems_keeps hitems
    have hmem : ∀ e ∈ ps.mod.elements.set i elem2, e.valtype.isRef := by
      intro e he
      obtain he | rfl := List.mem_or_eq_of_mem_set he
      · exact hs e he
      · rw [hval]
        exact parseElemType_ok hty
    rw [ParseState.setMod, hmod]
    exact ⟨.elements hmem, hmem⟩

theorem parseCode_records {i : ℕ} {st st' : Stream} (hi : ps.mod.importedFuncCount ≤ i)
    (h : parseCode i ps st = .ok (ps', st')) :
    Records ps.mod ps'.mod ∧ ps'.mod.importedFuncCount = ps.mod.importedFuncCount := by
  rw [parseCode] at h
  split at h
  · simp at h
  · next fn hfn =>
    simp only [bind_eq_ok, guard_eq_ok] at h
    obtain ⟨⟨size, st1⟩, -, ⟨code, st2⟩, -, ⟨groups, code1⟩, -, ⟨total, code2⟩, -, ⟨fn1, code3⟩, hlocals, -,
      ps1, hres, h⟩ := h
    cases h
    obtain ⟨-, rfl⟩ := reserve_ok hres
    obtain ⟨types, localCount, htypes, rfl⟩ := parseLocals_ok hlocals
    exact ⟨.code hi hfn htypes, rfl⟩

/-- The loops that count the entries and change the state of the parser. -/
theorem rounds_record (f : ℕ → ParseState → Stream → R (ParseState × Stream)) {P : ℕ → Module → Prop}
    (hf : ∀ i ps st ps' st', P i ps.mod → f i ps st = .ok (ps', st') → Records ps.mod ps'.mod ∧ P (i + 1) ps'.mod)
    {count i j : ℕ} {st st' : Stream}
    (h : Loop.times (fun s : ℕ × ParseState × Stream => do
      let r ← f s.1 s.2.1 s.2.2
      (.ok (s.1 + 1, r.1, r.2) : R (ℕ × ParseState × Stream))) count (i, ps, st) = .ok (j, ps', st'))
    (hP : P i ps.mod) :
    ReflTransGen Records ps.mod ps'.mod ∧ P j ps'.mod := by
  refine Loop.invariant
    (P := fun s : ℕ × ParseState × Stream => ReflTransGen Records ps.mod s.2.1.mod ∧ P s.1 s.2.1.mod) ?_ h ⟨.refl, hP⟩
  rintro ⟨i, ps1, st1⟩ ⟨i', ps2, st2⟩ ⟨hrun, hps1⟩ hround
  simp only [bind_eq_ok] at hround
  obtain ⟨⟨ps3, st3⟩, hstep, hround⟩ := hround
  cases hround
  obtain ⟨hrec, hps3⟩ := hf i ps1 st1 ps3 st3 hps1 hstep
  exact ⟨hrun.tail hrec, hps3⟩

theorem markExport_elements {kind : ExternalKind} {idx : ℕ} {mod mod' : Module}
    (h : markExport kind idx mod = .ok mod') :
    mod'.elements = mod.elements := by
  cases kind <;> (obtain ⟨-, h⟩ := guard_eq_ok.mp h; cases h; rfl)

theorem ElemsRef.records {mod mod' : Module} (h : Records mod mod') (hs : ElemsRef mod) : ElemsRef mod' := by
  cases h with
  | elements ht => exact ht
  | @export_ mod1 _ _ _ hmark =>
    have hmod1 : mod1.elements = mod.elements := markExport_elements hmark
    exact fun e he => hs e (hmod1 ▸ he)
  | _ => exact hs

theorem ElemsRef.records_run {mod mod' : Module} (h : ReflTransGen Records mod mod') (hs : ElemsRef mod) :
    ElemsRef mod' := by
  induction h with
  | refl => exact hs
  | tail _ hstep ih => exact ih.records hstep

/-- A section records entries, whatever it is. -/
theorem parseSection_records {sec : SectionId} (hs : ElemsRef ps.mod) (h : parseSection sec ps st = .ok ps') :
    ReflTransGen Records ps.mod ps'.mod := by
  cases sec with
  | custom =>
    cases h
    exact .refl
  | type =>
    simp only [parseSection, parseSectionType, bind_eq_ok] at h
    obtain ⟨⟨count, st1⟩, -, ps1, hres, ⟨mod, st2⟩, heach, -, -, h⟩ := h
    cases h
    obtain ⟨-, rfl⟩ := reserve_ok hres
    refine eachEntry_records (fun m s m' s' hround => ?_) heach
    simp only [bind_eq_ok] at hround
    obtain ⟨⟨ft, s1⟩, hft, hround⟩ := hround
    cases hround
    exact .funcType (parseFuncType_checked hft)
  | import_ =>
    simp only [parseSection, parseSectionImport, bind_eq_ok] at h
    obtain ⟨⟨count, st1⟩, -, ⟨mod, st2⟩, heach, -, -, h⟩ := h
    cases h
    exact eachEntry_records (fun m s m' s' hround => parseImport_records hround) heach
  | function =>
    simp only [parseSection, parseSectionFunction, bind_eq_ok] at h
    obtain ⟨⟨count, st1⟩, -, ps1, hres, ⟨mod, st2⟩, heach, -, -, h⟩ := h
    cases h
    obtain ⟨-, rfl⟩ := reserve_ok hres
    refine eachEntry_records (fun m s m' s' hround => ?_) heach
    simp only [bind_eq_ok] at hround
    obtain ⟨⟨ft, s1⟩, hft, hround⟩ := hround
    cases hround
    exact .func (parseTypeidx_mem hft)
  | table =>
    simp only [parseSection, parseSectionTable, bind_eq_ok] at h
    obtain ⟨⟨count, st1⟩, -, ps1, hres, ⟨mod, st2⟩, heach, -, -, h⟩ := h
    cases h
    obtain ⟨-, rfl⟩ := reserve_ok hres
    refine eachEntry_records (fun m s m' s' hround => ?_) heach
    simp only [bind_eq_ok] at hround
    obtain ⟨⟨valtype, lim, s1⟩, htab, hround⟩ := hround
    cases hround
    exact .table (parseTableType_ok htab).1 (parseTableType_ok htab).2
  | memory =>
    simp only [parseSection, parseSectionMemory, bind_eq_ok] at h
    obtain ⟨⟨count, st1⟩, -, ps1, hres, ⟨mod, st2⟩, heach, -, -, h⟩ := h
    cases h
    obtain ⟨-, rfl⟩ := reserve_ok hres
    refine eachEntry_records (fun m s m' s' hround => ?_) heach
    simp only [bind_eq_ok] at hround
    obtain ⟨⟨lim, s1⟩, hlim, hround⟩ := hround
    cases hround
    exact .memory (parseLimits_ok hlim)
  | global =>
    simp only [parseSection, parseSectionGlobal, bind_eq_ok] at h
    obtain ⟨⟨count, st1⟩, -, ps1, hres, ⟨mod, st2⟩, heach, -, -, h⟩ := h
    cases h
    obtain ⟨-, rfl⟩ := reserve_ok hres
    refine eachEntry_records (fun m s m' s' hround => ?_) heach
    simp only [bind_eq_ok] at hround
    obtain ⟨⟨valtype, mut_, s1⟩, hglob, ⟨expr, s2⟩, -, hround⟩ := hround
    cases hround
    exact .global (parseGlobalType_ok hglob)
  | export_ =>
    simp only [parseSection, parseSectionExport, bind_eq_ok] at h
    obtain ⟨⟨count, st1⟩, -, ps1, hres, ⟨mod, st2⟩, heach, -, -, h⟩ := h
    cases h
    obtain ⟨-, rfl⟩ := reserve_ok hres
    exact eachEntry_records (fun m s m' s' hround => parseExport_records hround) heach
  | start =>
    simp only [parseSection, parseSectionStart, bind_eq_ok] at h
    obtain ⟨⟨idx, st1⟩, -, h⟩ := h
    split at h
    · simp at h
    · obtain ⟨-, h⟩ := guard_eq_ok.mp h
      obtain ⟨-, -, h⟩ := bind_eq_ok.mp h
      cases h
      exact .single .start
  | element =>
    simp only [parseSection, parseSectionElement, bind_eq_ok] at h
    obtain ⟨⟨count, st1⟩, -, ps1, hresize, ⟨n, ps2, st2⟩, hloop, -, -, h⟩ := h
    cases h
    obtain ⟨hrec, hps1⟩ := resizeElements_records hs hresize
    obtain ⟨hrun, -⟩ := rounds_record parseElement (P := fun _ => ElemsRef)
      (fun i _ _ _ _ hP hstep => parseElement_records hP hstep) hloop hps1
    exact .head hrec hrun
  | dataCount =>
    simp only [parseSection, parseSectionDataCount, bind_eq_ok] at h
    obtain ⟨⟨count, st1⟩, -, -, -, h⟩ := h
    cases h
    exact .single .data
  | code =>
    simp only [parseSection, parseSectionCode, bind_eq_ok, guard_eq_ok] at h
    obtain ⟨⟨count, st1⟩, -, -, ⟨n, ps2, st2⟩, hloop, -, -, h⟩ := h
    cases h
    obtain ⟨hrun, -⟩ := rounds_record parseCode (P := fun i mod => mod.importedFuncCount ≤ i)
      (fun i _ _ _ _ hi hstep => ⟨(parseCode_records hi hstep).1, by
        rw [(parseCode_records hi hstep).2]
        exact hi.trans (Nat.le_succ i)⟩) hloop le_rfl
    exact hrun
  | data =>
    simp only [parseSection, parseSectionData, bind_eq_ok, guard_eq_ok] at h
    obtain ⟨⟨count, st1⟩, -, -, ps1, hres, ⟨mod, st2⟩, heach, -, -, h⟩ := h
    cases h
    obtain ⟨-, rfl⟩ := reserve_ok hres
    refine .head (Records.data) (eachEntry_records (fun m s m' s' hround => ?_) heach)
    simp only [bind_eq_ok] at hround
    obtain ⟨⟨d, s1⟩, -, hround⟩ := hround
    cases hround
    exact .data

theorem parseSections_records {n current : ℕ} (hs : ElemsRef ps.mod) (h : parseSections n current ps st = .ok ps') :
    ReflTransGen Records ps.mod ps'.mod := by
  induction n generalizing current ps st with
  | zero =>
    cases h
    exact .refl
  | succ n ih =>
    rw [parseSections] at h
    split at h
    · cases h
      exact .refl
    · simp only [bind_eq_ok] at h
      obtain ⟨⟨id, st1⟩, -, ⟨len, st2⟩, -, h⟩ := h
      split at h
      · simp at h
      · split at h
        · exact ih hs h
        · simp only [bind_eq_ok] at h
          obtain ⟨⟨content, st3⟩, -, ps1, hsec, h⟩ := h
          have hrun := parseSection_records hs hsec
          exact hrun.trans (ih (hs.records_run hrun) h)

end Sections

/-- A parsed module is built entry by entry. -/
theorem parseModule_records {bin : Str} {mod : Module} (h : parseModule bin = .ok mod) :
    ReflTransGen Records { formatVersion := 1 } mod := by
  rw [parseModule] at h
  obtain ⟨-, h⟩ := guard_eq_ok.mp h
  simp only [bind_eq_ok, guard_eq_ok, Decidable.not_not] at h
  obtain ⟨⟨magic, st1⟩, -, -, ⟨version, st2⟩, -, hv, ps, hps, h⟩ := h
  cases h
  have hnone : ElemsRef { formatVersion := version } := by simp [ElemsRef]
  have hrun := parseSections_records hnone hps
  simp only at hv
  rwa [hv] at hrun

/-- What every entry keeps holds of a parsed module. -/
theorem parseModule_induction {P : Module → Prop} (hempty : P { formatVersion := 1 })
    (hstep : ∀ mod mod', Records mod mod' → P mod → P mod') {bin : Str} {mod : Module}
    (h : parseModule bin = .ok mod) : P mod := by
  have hrun := parseModule_records h
  clear h
  induction hrun with
  | refl => exact hempty
  | tail _ hrec ih => exact hstep _ _ hrec ih

end Silverfir
