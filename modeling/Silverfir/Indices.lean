import Silverfir.Records
import Silverfir.Lib.Stack

/-! The indices in a module that the parser accepts. What is checked when a section is read stays
true while the sections after it are read. -/
namespace Silverfir

open ListStack (map_modify)

/-- The size of an index space. -/
def Module.space (mod : Module) : ExternalKind → ℕ
  | .func => mod.funcs.length
  | .table => mod.tables.length
  | .memory => mod.memories.length
  | .global => mod.globals.length

/-- The linkage of the entries of an index space. -/
def Module.linkages (mod : Module) : ExternalKind → List Linkage
  | .func => mod.funcs.map (·.linkage)
  | .table => mod.tables.map (·.linkage)
  | .memory => mod.memories.map (·.linkage)
  | .global => mod.globals.map (·.linkage)

/-- `imported_func_count` and its siblings. -/
def Module.importedCount (mod : Module) : ExternalKind → ℕ
  | .func => mod.importedFuncCount
  | .table => mod.importedTableCount
  | .memory => mod.importedMemCount
  | .global => mod.importedGlobalCount

theorem Module.linkages_length (mod : Module) (kind : ExternalKind) : (mod.linkages kind).length = mod.space kind := by
  cases kind <;> exact List.length_map _

/-- The first `n` entries are imported, the others are not. -/
def ImportedFirst (ls : List Linkage) (n : ℕ) : Prop :=
  ∃ m, ls.map (·.imported) = List.replicate n true ++ List.replicate m false

namespace ImportedFirst

variable {ls : List Linkage} {n : ℕ}

theorem nil : ImportedFirst [] 0 := ⟨0, rfl⟩

theorem append_own (h : ImportedFirst ls n) {l : Linkage} (hl : l.imported = false) : ImportedFirst (ls ++ [l]) n := by
  obtain ⟨m, hm⟩ := h
  refine ⟨m + 1, ?_⟩
  rw [List.map_append, hm, List.append_assoc, List.replicate_succ', List.map_singleton, hl]

theorem append_import (h : ImportedFirst ls n) (hn : ls.length = n) {l : Linkage} (hl : l.imported = true) :
    ImportedFirst (ls ++ [l]) (n + 1) := by
  obtain ⟨m, hm⟩ := h
  have hlen := congrArg List.length hm
  simp only [List.length_map, List.length_append, List.length_replicate] at hlen
  obtain rfl : m = 0 := by omega
  refine ⟨0, ?_⟩
  rw [List.map_append, hm, List.replicate_zero, List.append_nil, List.append_nil, List.replicate_succ',
    List.map_singleton, hl]

theorem congr (h : ImportedFirst ls n) {ls' : List Linkage} (hls : ls'.map (·.imported) = ls.map (·.imported)) :
    ImportedFirst ls' n := by
  obtain ⟨m, hm⟩ := h
  exact ⟨m, hls.trans hm⟩

theorem le_length (h : ImportedFirst ls n) : n ≤ ls.length := by
  obtain ⟨m, hm⟩ := h
  have hlen := congrArg List.length hm
  simp only [List.length_map, List.length_append, List.length_replicate] at hlen
  omega

theorem imported_iff (h : ImportedFirst ls n) {i : ℕ} {l : Linkage} (hl : ls[i]? = some l) :
    l.imported = true ↔ i < n := by
  obtain ⟨m, hm⟩ := h
  have hi : (ls.map (·.imported))[i]? = some l.imported := by rw [List.getElem?_map, hl, Option.map_some]
  rw [hm] at hi
  by_cases hin : i < n
  · rw [List.getElem?_append_left (by simpa using hin), List.getElem?_replicate_of_lt hin] at hi
    simp_all
  · rw [List.getElem?_append_right (by simpa using hin), List.getElem?_replicate] at hi
    split at hi
    · simp_all
    · cases hi

end ImportedFirst

/-- The indices of a module are in range. -/
structure Module.Indexed (mod : Module) : Prop where
  exports : ∀ exp ∈ mod.exports, exp.externalIdx < mod.space exp.externalKind
  start : ∀ i, mod.startFuncidx = some i → ∃ fn, mod.funcs[i]? = some fn ∧ fn.fnType = {}
  funcidx : ∀ elem ∈ mod.elements, ∀ i ∈ elem.vFuncidx, i < mod.funcs.length
  fnType : ∀ fn ∈ mod.funcs, fn.fnType ∈ mod.funcTypes
  dataLen : ∀ elem ∈ mod.elements, elem.dataLen = elem.vFuncidx.length ∨ elem.dataLen = elem.vExpr.length
  imported : ∀ kind, ImportedFirst (mod.linkages kind) (mod.importedCount kind)

/-- What holds of the module between two sections; `current` is `current_order_idx`. Up to
the import section there are only imports. -/
structure Module.Sound (current : ℕ) (mod : Module) : Prop where
  indexed : mod.Indexed
  empty : ∀ ft ∈ mod.funcTypes, (ft.paramCount = 0 → ft.params = []) ∧ (ft.resultCount = 0 → ft.results = [])
  onlyImports : current ≤ 2 → ∀ kind, mod.space kind = mod.importedCount kind

/-- A vector of items that is not fixed has not been filled. -/
def ParseState.Unfilled (ps : ParseState) : Prop :=
  ∀ i elem, ps.mod.elements[i]? = some elem →
    (VecId.vFuncidx i ∉ ps.fixed → elem.vFuncidx = []) ∧ (VecId.vExpr i ∉ ps.fixed → elem.vExpr = [])

structure ParseState.Sound (current : ℕ) (ps : ParseState) : Prop where
  mod : ps.mod.Sound current
  unfilled : ps.Unfilled

theorem Module.Sound.later {current current' : ℕ} {mod : Module} (h : mod.Sound current) (hle : current ≤ current') :
    mod.Sound current' where
  indexed := h.indexed
  empty := h.empty
  onlyImports := fun hc => h.onlyImports (by omega)

theorem ParseState.Sound.later {current current' : ℕ} {ps : ParseState} (h : ps.Sound current)
    (hle : current ≤ current') : ps.Sound current' := ⟨h.mod.later hle, h.unfilled⟩

/-! ### Entries -/

/-- The index spaces only grow, and the functions keep their places and types. -/
theorem Module.Indexed.grow {mod mod' : Module} (h : mod.Indexed) (hexports : mod'.exports = mod.exports)
    (hstart : mod'.startFuncidx = mod.startFuncidx) (helems : mod'.elements = mod.elements)
    (hspace : ∀ kind, mod.space kind ≤ mod'.space kind)
    (hkeep : ∀ (i : ℕ) (fn : Func), mod.funcs[i]? = some fn → ∃ fn', mod'.funcs[i]? = some fn' ∧ fn'.fnType = fn.fnType)
    (htypes : ∀ fn ∈ mod'.funcs, fn.fnType ∈ mod'.funcTypes)
    (himp : ∀ kind, ImportedFirst (mod'.linkages kind) (mod'.importedCount kind)) : mod'.Indexed := by
  refine ⟨?_, ?_, ?_, htypes, ?_, himp⟩
  · intro exp hexp
    rw [hexports] at hexp
    exact Nat.lt_of_lt_of_le (h.exports exp hexp) (hspace _)
  · intro i hi
    rw [hstart] at hi
    obtain ⟨fn, hfn, hty⟩ := h.start i hi
    obtain ⟨fn', hfn', hty'⟩ := hkeep i fn hfn
    exact ⟨fn', hfn', hty'.trans hty⟩
  · intro elem helem i hi
    rw [helems] at helem
    exact Nat.lt_of_lt_of_le (h.funcidx elem helem i hi) (hspace .func)
  · intro elem helem
    rw [helems] at helem
    exact h.dataLen elem helem

/-- `mod'` is `mod` with one entry more at the end of an index space, and the same otherwise. -/
structure Module.Pushed (mod : Module) (kind : ExternalKind) (l : Linkage) (mod' : Module) : Prop where
  exports : mod'.exports = mod.exports
  start : mod'.startFuncidx = mod.startFuncidx
  elements : mod'.elements = mod.elements
  funcTypes : mod'.funcTypes = mod.funcTypes
  funcs : mod'.funcs = mod.funcs ∨ ∃ fn, mod'.funcs = mod.funcs ++ [fn] ∧ fn.fnType ∈ mod.funcTypes
  linkages : mod'.linkages kind = mod.linkages kind ++ [l]
  count : mod'.importedCount kind = mod.importedCount kind + if l.imported then 1 else 0
  others : ∀ kind' ≠ kind, mod'.linkages kind' = mod.linkages kind' ∧ mod'.importedCount kind' = mod.importedCount kind'

section Entries
variable {current : ℕ} {mod : Module}

theorem Module.Sound.push_funcType (h : mod.Sound current) {ft : FuncType}
    (hft : (ft.paramCount = 0 → ft.params = []) ∧ (ft.resultCount = 0 → ft.results = [])) :
    { mod with funcTypes := mod.funcTypes ++ [ft] }.Sound current where
  indexed := { h.indexed with fnType := fun fn hfn => List.mem_append_left _ (h.indexed.fnType fn hfn) }
  empty := by
    intro ft' hmem
    obtain hmem | hmem := List.mem_append.mp hmem
    · exact h.empty ft' hmem
    · rw [List.mem_singleton.mp hmem]
      exact hft
  onlyImports := h.onlyImports

theorem Module.Sound.push {mod' : Module} {kind : ExternalKind} {l : Linkage} (h : mod.Sound current)
    (hp : mod.Pushed kind l mod') (hl : if l.imported then current ≤ 2 else 2 < current) : mod'.Sound current := by
  have hspace : ∀ kind', mod.space kind' ≤ mod'.space kind' := by
    intro kind'
    rw [← linkages_length, ← linkages_length]
    by_cases hk : kind' = kind
    · rw [hk, hp.linkages, List.length_append]
      omega
    · rw [(hp.others kind' hk).1]
  have himp : ∀ kind', ImportedFirst (mod'.linkages kind') (mod'.importedCount kind') := by
    intro kind'
    by_cases hk : kind' = kind
    · rw [hk, hp.linkages, hp.count]
      cases himported : l.imported with
      | false => exact (h.indexed.imported kind).append_own himported
      | true =>
        rw [himported, if_pos rfl] at hl
        refine (h.indexed.imported kind).append_import ?_ himported
        rw [linkages_length, h.onlyImports hl]
    · rw [(hp.others kind' hk).1, (hp.others kind' hk).2]
      exact h.indexed.imported kind'
  refine ⟨h.indexed.grow hp.exports hp.start hp.elements hspace ?_ ?_ himp, ?_, ?_⟩
  · intro i fn hfn
    refine ⟨fn, ?_, rfl⟩
    obtain hf | ⟨fn', hf, -⟩ := hp.funcs
    · rw [hf, hfn]
    · rw [hf, List.getElem?_append_left (List.getElem?_eq_some_iff.mp hfn).1, hfn]
  · intro fn hfn
    rw [hp.funcTypes]
    obtain hf | ⟨fn', hf, hft⟩ := hp.funcs
    · exact h.indexed.fnType fn (hf ▸ hfn)
    · rw [hf] at hfn
      obtain hfn | hfn := List.mem_append.mp hfn
      · exact h.indexed.fnType fn hfn
      · rw [List.mem_singleton.mp hfn]
        exact hft
  · rw [hp.funcTypes]
    exact h.empty
  · intro hc kind'
    rw [← linkages_length]
    by_cases hk : kind' = kind
    · cases himported : l.imported with
      | false =>
        rw [himported] at hl
        simp only [Bool.false_eq_true, if_false] at hl
        omega
      | true =>
        rw [hk, hp.linkages, hp.count, List.length_append, linkages_length, h.onlyImports hc, himported]
        rfl
    · rw [(hp.others kind' hk).1, (hp.others kind' hk).2, linkages_length]
      exact h.onlyImports hc kind'

/-- The entries are changed in place, but not their types and not what is imported. -/
theorem Module.Indexed.revise {mod' : Module} (h : mod.Indexed) (hexports : mod'.exports = mod.exports)
    (hstart : mod'.startFuncidx = mod.startFuncidx) (helems : mod'.elements = mod.elements)
    (htypes : mod'.funcTypes = mod.funcTypes) (hfuncs : mod'.funcs.map (·.fnType) = mod.funcs.map (·.fnType))
    (himp : ∀ kind, (mod'.linkages kind).map (·.imported) = (mod.linkages kind).map (·.imported))
    (hcount : mod'.importedCount = mod.importedCount) :
    mod'.Indexed ∧ ∀ kind, mod'.space kind = mod.space kind := by
  have hspace : ∀ kind, mod'.space kind = mod.space kind := by
    intro kind
    have hlen := congrArg List.length (himp kind)
    rw [List.length_map, List.length_map, linkages_length, linkages_length] at hlen
    exact hlen
  refine ⟨h.grow hexports hstart helems (fun kind => (hspace kind).ge) ?_ ?_ ?_, hspace⟩
  · intro i fn hfn
    have hi : (mod'.funcs.map (·.fnType))[i]? = some fn.fnType := by
      rw [hfuncs, List.getElem?_map, hfn, Option.map_some]
    rw [List.getElem?_map] at hi
    obtain ⟨fn', hfn', hty⟩ := Option.map_eq_some_iff.mp hi
    exact ⟨fn', hfn', hty⟩
  · intro fn hfn
    have hmem : fn.fnType ∈ mod.funcs.map (·.fnType) := hfuncs ▸ List.mem_map_of_mem hfn
    obtain ⟨fn0, hfn0, hty⟩ := List.mem_map.mp hmem
    rw [htypes, ← hty]
    exact h.fnType fn0 hfn0
  · intro kind
    rw [hcount]
    exact (h.imported kind).congr (himp kind)

theorem Module.Sound.revise {mod' : Module} (h : mod.Sound current) (hexports : mod'.exports = mod.exports)
    (hstart : mod'.startFuncidx = mod.startFuncidx) (helems : mod'.elements = mod.elements)
    (htypes : mod'.funcTypes = mod.funcTypes) (hfuncs : mod'.funcs.map (·.fnType) = mod.funcs.map (·.fnType))
    (himp : ∀ kind, (mod'.linkages kind).map (·.imported) = (mod.linkages kind).map (·.imported))
    (hcount : mod'.importedCount = mod.importedCount) : mod'.Sound current := by
  obtain ⟨hindexed, hspace⟩ := h.indexed.revise hexports hstart helems htypes hfuncs himp hcount
  refine ⟨hindexed, ?_, ?_⟩
  · rw [htypes]
    exact h.empty
  · intro hc kind
    rw [hspace, hcount]
    exact h.onlyImports hc kind

end Entries

/-! ### Sections of entries -/

/-- An invariant of every entry is an invariant of the section. -/
theorem eachEntry_invariant {f : Module × Stream → R (Module × Stream)} {P : Module → Prop}
    (hf : ∀ mod st mod' st', P mod → f (mod, st) = .ok (mod', st') → P mod') {count : ℕ} {mod mod' : Module}
    {st st' : Stream} (h : eachEntry f count mod st = .ok (mod', st')) (hP : P mod) : P mod' :=
  Loop.invariant (P := fun s => P s.1) (fun s s' hs hfs => hf s.1 s.2 s'.1 s'.2 hs hfs) h hP

theorem ParseState.Unfilled.mono {ps ps' : ParseState} (h : ps.Unfilled) (hfixed : ∀ v ∈ ps.fixed, v ∈ ps'.fixed)
    (helems : ps'.mod.elements = ps.mod.elements) : ps'.Unfilled := by
  intro i elem helem
  obtain ⟨hidx, hexpr⟩ := h i elem (helems ▸ helem)
  exact ⟨fun hv => hidx fun hmem => hv (hfixed _ hmem), fun hv => hexpr fun hmem => hv (hfixed _ hmem)⟩

/-- A section that leaves the elements alone. -/
theorem ParseState.Sound.of_entries {current current' : ℕ} {ps ps' : ParseState} {mod : Module} (h : ps.Sound current)
    (hfixed : ∀ v ∈ ps.fixed, v ∈ ps'.fixed) (hmod : mod.Sound current') (helems : mod.elements = ps.mod.elements) :
    (ps'.setMod mod).Sound current' :=
  ⟨hmod, h.unfilled.mono hfixed helems⟩

/-- The position of a section in `order`. -/
def SectionId.rank : SectionId → ℕ
  | .custom => 0
  | .type => 1
  | .import_ => 2
  | .function => 3
  | .table => 4
  | .memory => 5
  | .global => 6
  | .export_ => 7
  | .start => 8
  | .element => 9
  | .dataCount => 10
  | .code => 11
  | .data => 12

theorem SectionId.rank_eq {i : ℕ} {sec : SectionId} (h : order[i]? = some sec) : i = sec.rank := by
  have hall : ∀ j : Fin order.length, (order[j.val]?.map rank) = some j.val := by decide
  have hi := hall ⟨i, (List.getElem?_eq_some_iff.mp h).1⟩
  simp only [h, Option.map_some, Option.some.injEq] at hi
  exact hi.symm

theorem SectionId.find_order {current id current' : ℕ} {sec : SectionId} (h : find current id = some (current', sec)) :
    current ≤ current' ∧ order[current']? = some sec := by
  rw [find, Option.bind_eq_some_iff] at h
  obtain ⟨i, -, h⟩ := h
  obtain ⟨sec', hsec, hpair⟩ := Option.map_eq_some_iff.mp h
  cases hpair
  exact ⟨by omega, hsec⟩

section Sections
variable {current : ℕ} {ps ps' : ParseState} {st : Stream}

theorem parseResultType_empty {msg : String} {st st' : Stream} {count : ℕ} {types : Str}
    (h : parseResultType msg st = .ok (count, types, st')) (hc : count = 0) : types = [] := by
  simp only [parseResultType, bind_eq_ok, guard_eq_ok] at h
  obtain ⟨⟨n, st1⟩, -, -, st2, -, h⟩ := h
  cases h
  rw [hc, List.take_zero]

theorem parseFuncType_empty {st st' : Stream} {ft : FuncType} (h : parseFuncType st = .ok (ft, st')) :
    (ft.paramCount = 0 → ft.params = []) ∧ (ft.resultCount = 0 → ft.results = []) := by
  simp only [parseFuncType, bind_eq_ok, guard_eq_ok] at h
  obtain ⟨⟨form, st1⟩, -, -, ⟨pc, ps, st2⟩, hp, ⟨rc, rs, st3⟩, hr, h⟩ := h
  cases h
  exact ⟨parseResultType_empty hp, parseResultType_empty hr⟩

theorem parseSectionType_sound (hs : ps.Sound current) (h : parseSectionType ps st = .ok ps') : ps'.Sound current := by
  simp only [parseSectionType, bind_eq_ok] at h
  obtain ⟨⟨count, st1⟩, -, ps1, hres, ⟨mod, st2⟩, heach, -, -, h⟩ := h
  cases h
  obtain ⟨-, rfl⟩ := reserve_ok hres
  have hinv : mod.Sound current ∧ mod.elements = ps.mod.elements := by
    refine eachEntry_invariant (P := fun m => m.Sound current ∧ m.elements = ps.mod.elements) ?_ heach ⟨hs.mod, rfl⟩
    rintro m s m' s' ⟨hm, he⟩ hround
    simp only [bind_eq_ok] at hround
    obtain ⟨⟨ft, s1⟩, hft, hround⟩ := hround
    cases hround
    exact ⟨hm.push_funcType (parseFuncType_empty hft), he⟩
  exact hs.of_entries (fun v hv => List.mem_cons_of_mem _ hv) hinv.1 hinv.2

theorem parseImport_pushed {mod mod' : Module} {st st' : Stream} (h : parseImport mod st = .ok (mod', st')) :
    ∃ kind, mod.Pushed kind { imported := true } mod' := by
  simp only [parseImport, bind_eq_ok] at h
  obtain ⟨⟨module, st1⟩, -, ⟨field, st2⟩, -, ⟨kind, st3⟩, -, h⟩ := h
  split at h
  · simp only [bind_eq_ok] at h
    obtain ⟨⟨ft, st4⟩, hft, h⟩ := h
    cases h
    refine ⟨.func, ⟨rfl, rfl, rfl, rfl, .inr ⟨_, rfl, parseTypeidx_mem hft⟩, by simp [Module.linkages], rfl, ?_⟩⟩
    intro kind' hne
    cases kind' <;> first | exact absurd rfl hne | exact ⟨rfl, rfl⟩
  · simp only [bind_eq_ok] at h
    obtain ⟨⟨valtype, lim, st4⟩, -, h⟩ := h
    cases h
    refine ⟨.table, ⟨rfl, rfl, rfl, rfl, .inl rfl, by simp [Module.linkages], rfl, ?_⟩⟩
    intro kind' hne
    cases kind' <;> first | exact absurd rfl hne | exact ⟨rfl, rfl⟩
  · simp only [bind_eq_ok] at h
    obtain ⟨⟨lim, st4⟩, -, h⟩ := h
    cases h
    refine ⟨.memory, ⟨rfl, rfl, rfl, rfl, .inl rfl, by simp [Module.linkages], rfl, ?_⟩⟩
    intro kind' hne
    cases kind' <;> first | exact absurd rfl hne | exact ⟨rfl, rfl⟩
  · simp only [bind_eq_ok] at h
    obtain ⟨⟨valtype, mut_, st4⟩, -, h⟩ := h
    cases h
    refine ⟨.global, ⟨rfl, rfl, rfl, rfl, .inl rfl, by simp [Module.linkages], rfl, ?_⟩⟩
    intro kind' hne
    cases kind' <;> first | exact absurd rfl hne | exact ⟨rfl, rfl⟩
  · simp at h

theorem parseSectionImport_sound (hs : ps.Sound current) (hc : current ≤ 2) (h : parseSectionImport ps st = .ok ps') :
    ps'.Sound current := by
  simp only [parseSectionImport, bind_eq_ok] at h
  obtain ⟨⟨count, st1⟩, -, ⟨mod, st2⟩, heach, -, -, h⟩ := h
  cases h
  have hinv : mod.Sound current ∧ mod.elements = ps.mod.elements := by
    refine eachEntry_invariant (P := fun m => m.Sound current ∧ m.elements = ps.mod.elements) ?_ heach ⟨hs.mod, rfl⟩
    rintro m s m' s' ⟨hm, he⟩ hround
    obtain ⟨kind, hp⟩ := parseImport_pushed hround
    exact ⟨hm.push hp hc, hp.elements.trans he⟩
  exact hs.of_entries (fun v hv => hv) hinv.1 hinv.2

/-- A section of definitions: every round puts one entry into the index space `kind`. -/
theorem definitions_sound (kind : ExternalKind) {v : VecId} {count : ℕ} {mod : Module} {st1 st2 : Stream}
    {ps1 : ParseState} {f : Module × Stream → R (Module × Stream)} (hs : ps.Sound current) (hc : 2 < current)
    (hf : ∀ m s m' s', f (m, s) = .ok (m', s') → m.Pushed kind {} m')
    (hres : ps.reserve v = .ok ps1) (heach : eachEntry f count ps1.mod st1 = .ok (mod, st2)) :
    (ps1.setMod mod).Sound current := by
  obtain ⟨-, rfl⟩ := reserve_ok hres
  have hinv : mod.Sound current ∧ mod.elements = ps.mod.elements := by
    refine eachEntry_invariant (P := fun m => m.Sound current ∧ m.elements = ps.mod.elements) ?_ heach ⟨hs.mod, rfl⟩
    rintro m s m' s' ⟨hm, he⟩ hround
    have hp := hf m s m' s' hround
    exact ⟨hm.push hp hc, hp.elements.trans he⟩
  exact hs.of_entries (fun v hv => List.mem_cons_of_mem _ hv) hinv.1 hinv.2

theorem parseSectionFunction_sound (hs : ps.Sound current) (hc : 2 < current)
    (h : parseSectionFunction ps st = .ok ps') : ps'.Sound current := by
  simp only [parseSectionFunction, bind_eq_ok] at h
  obtain ⟨⟨count, st1⟩, -, ps1, hres, ⟨mod, st2⟩, heach, -, -, h⟩ := h
  cases h
  refine definitions_sound .func hs hc (fun m s m' s' hround => ?_) hres heach
  simp only [bind_eq_ok] at hround
  obtain ⟨⟨ft, s1⟩, hft, hround⟩ := hround
  cases hround
  refine ⟨rfl, rfl, rfl, rfl, .inr ⟨_, rfl, parseTypeidx_mem hft⟩, by simp [Module.linkages], rfl, ?_⟩
  intro kind' hne
  cases kind' <;> first | exact absurd rfl hne | exact ⟨rfl, rfl⟩

theorem parseSectionTable_sound (hs : ps.Sound current) (hc : 2 < current)
    (h : parseSectionTable ps st = .ok ps') : ps'.Sound current := by
  simp only [parseSectionTable, bind_eq_ok] at h
  obtain ⟨⟨count, st1⟩, -, ps1, hres, ⟨mod, st2⟩, heach, -, -, h⟩ := h
  cases h
  refine definitions_sound .table hs hc (fun m s m' s' hround => ?_) hres heach
  simp only [bind_eq_ok] at hround
  obtain ⟨⟨valtype, lim, s1⟩, -, hround⟩ := hround
  cases hround
  refine ⟨rfl, rfl, rfl, rfl, .inl rfl, by simp [Module.linkages], rfl, ?_⟩
  intro kind' hne
  cases kind' <;> first | exact absurd rfl hne | exact ⟨rfl, rfl⟩

theorem parseSectionMemory_sound (hs : ps.Sound current) (hc : 2 < current)
    (h : parseSectionMemory ps st = .ok ps') : ps'.Sound current := by
  simp only [parseSectionMemory, bind_eq_ok] at h
  obtain ⟨⟨count, st1⟩, -, ps1, hres, ⟨mod, st2⟩, heach, -, -, h⟩ := h
  cases h
  refine definitions_sound .memory hs hc (fun m s m' s' hround => ?_) hres heach
  simp only [bind_eq_ok] at hround
  obtain ⟨⟨lim, s1⟩, -, hround⟩ := hround
  cases hround
  refine ⟨rfl, rfl, rfl, rfl, .inl rfl, by simp [Module.linkages], rfl, ?_⟩
  intro kind' hne
  cases kind' <;> first | exact absurd rfl hne | exact ⟨rfl, rfl⟩

theorem parseSectionGlobal_sound (hs : ps.Sound current) (hc : 2 < current)
    (h : parseSectionGlobal ps st = .ok ps') : ps'.Sound current := by
  simp only [parseSectionGlobal, bind_eq_ok] at h
  obtain ⟨⟨count, st1⟩, -, ps1, hres, ⟨mod, st2⟩, heach, -, -, h⟩ := h
  cases h
  refine definitions_sound .global hs hc (fun m s m' s' hround => ?_) hres heach
  simp only [bind_eq_ok] at hround
  obtain ⟨⟨valtype, mut_, s1⟩, -, ⟨expr, s2⟩, -, hround⟩ := hround
  cases hround
  refine ⟨rfl, rfl, rfl, rfl, .inl rfl, by simp [Module.linkages], rfl, ?_⟩
  intro kind' hne
  cases kind' <;> first | exact absurd rfl hne | exact ⟨rfl, rfl⟩

/-- An export marks its entry, and changes nothing else. -/
theorem markExport_sound {kind : ExternalKind} {idx : ℕ} {mod mod' : Module} (hs : mod.Sound current)
    (h : markExport kind idx mod = .ok mod') :
    mod'.Sound current ∧ idx < mod'.space kind ∧ mod'.exports = mod.exports ∧ mod'.elements = mod.elements := by
  cases kind with
  | func =>
    obtain ⟨hidx, h⟩ := guard_eq_ok.mp h
    cases h
    refine ⟨hs.revise rfl rfl rfl rfl (map_modify (fun _ => by rfl) _ _) ?_ rfl, ?_, rfl, rfl⟩
    · intro kind
      cases kind with
      | func => simp only [Module.linkages, List.map_map]; exact map_modify (fun _ => by rfl) _ _
      | table | memory | global => rfl
    · simpa [Module.space] using hidx
  | table =>
    obtain ⟨hidx, h⟩ := guard_eq_ok.mp h
    cases h
    refine ⟨hs.revise rfl rfl rfl rfl rfl ?_ rfl, ?_, rfl, rfl⟩
    · intro kind
      cases kind with
      | table => simp only [Module.linkages, List.map_map]; exact map_modify (fun _ => by rfl) _ _
      | func | memory | global => rfl
    · simpa [Module.space] using hidx
  | memory =>
    obtain ⟨hidx, h⟩ := guard_eq_ok.mp h
    cases h
    refine ⟨hs.revise rfl rfl rfl rfl rfl ?_ rfl, ?_, rfl, rfl⟩
    · intro kind
      cases kind with
      | memory => simp only [Module.linkages, List.map_map]; exact map_modify (fun _ => by rfl) _ _
      | func | table | global => rfl
    · simpa [Module.space] using hidx
  | global =>
    obtain ⟨hidx, h⟩ := guard_eq_ok.mp h
    cases h
    refine ⟨hs.revise rfl rfl rfl rfl rfl ?_ rfl, ?_, rfl, rfl⟩
    · intro kind
      cases kind with
      | global => simp only [Module.linkages, List.map_map]; exact map_modify (fun _ => by rfl) _ _
      | func | table | memory => rfl
    · simpa [Module.space] using hidx

theorem parseExport_sound {mod mod' : Module} {st st' : Stream} (hs : mod.Sound current)
    (h : parseExport mod st = .ok (mod', st')) : mod'.Sound current ∧ mod'.elements = mod.elements := by
  simp only [parseExport, bind_eq_ok] at h
  obtain ⟨⟨name, st1⟩, -, ⟨kind, st2⟩, -, h⟩ := h
  split at h
  · simp at h
  · next kind' hkind =>
    simp only [bind_eq_ok] at h
    obtain ⟨⟨idx, st3⟩, -, mod1, hmark, h⟩ := h
    cases h
    obtain ⟨hmod1, hidx, hexports, helems⟩ := markExport_sound hs hmark
    refine ⟨⟨{ hmod1.indexed with exports := fun exp hexp => ?_ }, hmod1.empty, hmod1.onlyImports⟩, helems⟩
    obtain hexp | hexp := List.mem_append.mp hexp
    · exact hmod1.indexed.exports exp hexp
    · rw [List.mem_singleton.mp hexp]
      exact hidx

theorem parseSectionExport_sound (hs : ps.Sound current) (h : parseSectionExport ps st = .ok ps') :
    ps'.Sound current := by
  simp only [parseSectionExport, bind_eq_ok] at h
  obtain ⟨⟨count, st1⟩, -, ps1, hres, ⟨mod, st2⟩, heach, -, -, h⟩ := h
  cases h
  obtain ⟨-, rfl⟩ := reserve_ok hres
  have hinv : mod.Sound current ∧ mod.elements = ps.mod.elements := by
    refine eachEntry_invariant (P := fun m => m.Sound current ∧ m.elements = ps.mod.elements) ?_ heach ⟨hs.mod, rfl⟩
    rintro m s m' s' ⟨hm, he⟩ hround
    obtain ⟨hm', he'⟩ := parseExport_sound hm hround
    exact ⟨hm', he'.trans he⟩
  exact hs.of_entries (fun v hv => List.mem_cons_of_mem _ hv) hinv.1 hinv.2

theorem parseSectionStart_sound (hs : ps.Sound current) (h : parseSectionStart ps st = .ok ps') :
    ps'.Sound current := by
  simp only [parseSectionStart, bind_eq_ok] at h
  obtain ⟨⟨idx, st1⟩, -, h⟩ := h
  split at h
  · simp at h
  · next fn hfn =>
    obtain ⟨hty, h⟩ := guard_eq_ok.mp h
    obtain ⟨-, -, h⟩ := bind_eq_ok.mp h
    cases h
    refine hs.of_entries (fun v hv => hv) ⟨{ hs.mod.indexed with start := fun i hi => ?_ }, hs.mod.empty,
      hs.mod.onlyImports⟩ rfl
    cases hi
    refine ⟨fn, hfn, ?_⟩
    obtain ⟨hp, hr⟩ : fn.fnType.paramCount = 0 ∧ fn.fnType.resultCount = 0 := by omega
    obtain ⟨hps, hrs⟩ := hs.mod.empty _ (hs.mod.indexed.fnType fn (List.mem_of_getElem? hfn))
    have hparams := hps hp
    have hresults := hrs hr
    cases hft : fn.fnType with
    | mk pc rc params results => simp_all

/-! ### Element segments -/

/-- A change of the elements alone. -/
theorem Module.Sound.with_elements {mod : Module} (h : mod.Sound current) {elements : List Element}
    (hidx : ∀ elem ∈ elements, ∀ i ∈ elem.vFuncidx, i < mod.funcs.length)
    (hlen : ∀ elem ∈ elements, elem.dataLen = elem.vFuncidx.length ∨ elem.dataLen = elem.vExpr.length) :
    { mod with elements := elements }.Sound current :=
  ⟨{ h.indexed with funcidx := hidx, dataLen := hlen }, h.empty, h.onlyImports⟩

theorem resizeElements_sound {count : ℕ} (hs : ps.Sound current) (h : resizeElements count ps = .ok ps') :
    ps'.Sound current := by
  rw [resizeElements] at h
  split at h
  · cases h
    refine ⟨hs.mod.with_elements ?_ ?_, fun i elem helem => ?_⟩
    · exact fun elem helem => hs.mod.indexed.funcidx elem (List.mem_of_mem_take helem)
    · exact fun elem helem => hs.mod.indexed.dataLen elem (List.mem_of_mem_take helem)
    · simp only [ParseState.setMod, List.getElem?_take] at helem
      split at helem
      · exact hs.unfilled i elem helem
      · cases helem
  · obtain ⟨capacity, -, h⟩ := bind_eq_ok.mp h
    cases h
    refine ⟨hs.mod.with_elements ?_ ?_, fun i elem helem => ?_⟩
    · intro elem helem
      obtain helem | helem := List.mem_append.mp helem
      · exact hs.mod.indexed.funcidx elem helem
      · rw [List.eq_of_mem_replicate helem]
        simp
    · intro elem helem
      obtain helem | helem := List.mem_append.mp helem
      · exact hs.mod.indexed.dataLen elem helem
      · rw [List.eq_of_mem_replicate helem]
        exact .inl rfl
    · by_cases hi : i < ps.mod.elements.length
      · simp only [List.getElem?_append_left hi] at helem
        obtain ⟨hidx, hexpr⟩ := hs.unfilled i elem helem
        constructor
        · exact fun hv => hidx fun hmem => hv (List.mem_filter.mpr ⟨hmem, by simpa using hi⟩)
        · exact fun hv => hexpr fun hmem => hv (List.mem_filter.mpr ⟨hmem, by simpa using hi⟩)
      · simp only [List.getElem?_append_right (Nat.not_lt.mp hi)] at helem
        rw [List.eq_of_mem_replicate (List.mem_of_getElem? helem)]
        exact ⟨fun _ => rfl, fun _ => rfl⟩

theorem parseElemOffset_items {kind : ElemKind} {elem elem' : Element} {st st' : Stream}
    (h : parseElemOffset kind elem st = .ok (elem', st')) :
    elem'.vFuncidx = elem.vFuncidx ∧ elem'.vExpr = elem.vExpr := by
  simp only [parseElemOffset, bind_eq_ok] at h
  obtain ⟨⟨tableidx, st1⟩, -, h⟩ := h
  split at h
  · simp only [bind_eq_ok] at h
    obtain ⟨⟨expr, st2⟩, -, h⟩ := h
    cases h
    exact ⟨rfl, rfl⟩
  · cases h
    exact ⟨rfl, rfl⟩

theorem parseExprs_length {count : ℕ} {st st' : Stream} {exprs : List Str}
    (h : parseExprs count st = .ok (exprs, st')) : exprs.length = count := by
  have hinv := Loop.counted (P := fun i (s : List Str × Stream) => s.1.length = i) (i := 0) ?_ h rfl
  · rwa [Nat.zero_add] at hinv
  · rintro i ⟨es, s⟩ ⟨es', s'⟩ hlen hround
    simp only [bind_eq_ok] at hround
    obtain ⟨⟨expr, s1⟩, -, hround⟩ := hround
    cases hround
    simp only [List.length_append, List.length_singleton]
    exact congrArg (· + 1) hlen

theorem parseFuncidxs_ok {funcCount count : ℕ} {st st' : Stream} {idxs : List ℕ}
    (h : parseFuncidxs funcCount count st = .ok (idxs, st')) :
    idxs.length = count ∧ ∀ i ∈ idxs, i < funcCount := by
  have hinv := Loop.counted
    (P := fun i (s : List ℕ × Stream) => s.1.length = i ∧ ∀ j ∈ s.1, j < funcCount) (i := 0) ?_ h ⟨rfl, by simp⟩
  · rwa [Nat.zero_add] at hinv
  · rintro i ⟨is, s⟩ ⟨is', s'⟩ ⟨hlen, hlt⟩ hround
    simp only [bind_eq_ok, guard_eq_ok] at hround
    obtain ⟨⟨idx, s1⟩, -, hidx, hround⟩ := hround
    cases hround
    refine ⟨by simpa using hlen, fun j hj => ?_⟩
    obtain hj | hj := List.mem_append.mp hj
    · exact hlt j hj
    · rw [List.mem_singleton.mp hj]
      exact Nat.not_le.mp hidx

/-- The items of a segment fill the vector of their form. -/
theorem parseElemItems_ok {i : ℕ} {kind : ElemKind} {elem elem' : Element} {st st' : Stream}
    (h : parseElemItems i kind elem ps st = .ok (ps', elem', st')) :
    ps'.mod = ps.mod ∧ ∃ n,
      (VecId.vExpr i ∉ ps.fixed ∧ ps'.fixed = .vExpr i :: ps.fixed ∧ elem'.vFuncidx = elem.vFuncidx ∧
        ∃ exprs, exprs.length = n ∧ elem'.vExpr = elem.vExpr ++ exprs ∧ elem'.dataLen = n) ∨
      (VecId.vFuncidx i ∉ ps.fixed ∧ ps'.fixed = .vFuncidx i :: ps.fixed ∧ elem'.vExpr = elem.vExpr ∧
        ∃ idxs, idxs.length = n ∧ (∀ j ∈ idxs, j < ps.mod.funcs.length) ∧
          elem'.vFuncidx = elem.vFuncidx ++ idxs ∧ elem'.dataLen = n) := by
  simp only [parseElemItems, bind_eq_ok] at h
  obtain ⟨⟨n, st1⟩, -, h⟩ := h
  split at h
  · simp only [bind_eq_ok] at h
    obtain ⟨ps1, hres, ⟨exprs, st2⟩, hexprs, h⟩ := h
    cases h
    obtain ⟨hv, rfl⟩ := reserve_ok hres
    exact ⟨rfl, n, .inl ⟨hv, rfl, rfl, exprs, parseExprs_length hexprs, rfl, rfl⟩⟩
  · simp only [bind_eq_ok] at h
    obtain ⟨ps1, hres, ⟨idxs, st2⟩, hidxs, h⟩ := h
    cases h
    obtain ⟨hv, rfl⟩ := reserve_ok hres
    obtain ⟨hlen, hlt⟩ := parseFuncidxs_ok hidxs
    exact ⟨rfl, n, .inr ⟨hv, rfl, rfl, idxs, hlen, hlt, rfl, rfl⟩⟩

theorem parseElement_sound {i : ℕ} {st st' : Stream} (hs : ps.Sound current)
    (h : parseElement i ps st = .ok (ps', st')) : ps'.Sound current := by
  simp only [parseElement, bind_eq_ok, guard_eq_ok] at h
  obtain ⟨⟨kind, st1⟩, -, -, h⟩ := h
  split at h
  · simp at h
  · next elem helem =>
    simp only [bind_eq_ok] at h
    obtain ⟨⟨elem1, st2⟩, hoff, ⟨valtype, st3⟩, -, ⟨ps1, elem2, st4⟩, hitems, h⟩ := h
    cases h
    obtain ⟨hidx1, hexpr1⟩ := parseElemOffset_items hoff
    obtain ⟨hmod, n, hcases⟩ := parseElemItems_ok hitems
    simp only [hidx1, hexpr1] at hcases
    obtain ⟨hidxE, hexprE⟩ := hs.unfilled i elem helem
    have holdIdx := hs.mod.indexed.funcidx elem (List.mem_of_getElem? helem)
    -- The new segment is well formed, whichever of its vectors was filled.
    have hnew : (∀ j ∈ elem2.vFuncidx, j < ps.mod.funcs.length) ∧
        (elem2.dataLen = elem2.vFuncidx.length ∨ elem2.dataLen = elem2.vExpr.length) := by
      obtain ⟨hv, -, hf, exprs, hlen, he, hdl⟩ | ⟨hv, -, he, idxs, hlen, hlt, hf, hdl⟩ := hcases
      · rw [hf, he, hexprE hv, hdl, ← hlen]
        exact ⟨holdIdx, .inr rfl⟩
      · rw [hf, he, hidxE hv, hdl, ← hlen]
        exact ⟨hlt, .inl rfl⟩
    have hmem : ∀ e ∈ ps.mod.elements.set i elem2, e ∈ ps.mod.elements ∨ e = elem2 :=
      fun e he => List.mem_or_eq_of_mem_set he
    refine ⟨?_, fun j e hj => ?_⟩
    · rw [ParseState.setMod, hmod]
      refine hs.mod.with_elements (fun e he => ?_) (fun e he => ?_)
      · obtain he | rfl := hmem e he
        · exact hs.mod.indexed.funcidx e he
        · exact hnew.1
      · obtain he | rfl := hmem e he
        · exact hs.mod.indexed.dataLen e he
        · exact hnew.2
    · simp only [ParseState.setMod, hmod, List.getElem?_set] at hj
      split at hj
      · next hij =>
        subst hij
        split at hj
        · cases hj
          obtain ⟨-, hfix, hf, -⟩ | ⟨-, hfix, he, -⟩ := hcases
          · refine ⟨fun hv => ?_, fun hv => ?_⟩
            · rw [hf]
              exact hidxE fun hmem => hv (by simp [ParseState.setMod, hfix, hmem])
            · exact absurd (by simp [ParseState.setMod, hfix]) hv
          · refine ⟨fun hv => ?_, fun hv => ?_⟩
            · exact absurd (by simp [ParseState.setMod, hfix]) hv
            · rw [he]
              exact hexprE fun hmem => hv (by simp [ParseState.setMod, hfix, hmem])
        · cases hj
      · obtain ⟨hidxJ, hexprJ⟩ := hs.unfilled j e hj
        have hsub : ∀ v ∈ ps.fixed, v ∈ ps1.fixed := by
          intro v hv
          obtain ⟨-, hfix, -⟩ | ⟨-, hfix, -⟩ := hcases <;> (rw [hfix]; exact List.mem_cons_of_mem _ hv)
        exact ⟨fun hv => hidxJ fun hmem => hv (hsub _ hmem), fun hv => hexprJ fun hmem => hv (hsub _ hmem)⟩

theorem parseSectionElement_sound (hs : ps.Sound current) (h : parseSectionElement ps st = .ok ps') :
    ps'.Sound current := by
  simp only [parseSectionElement, bind_eq_ok] at h
  obtain ⟨⟨count, st1⟩, -, ps1, hresize, ⟨n, ps2, st2⟩, hloop, -, -, h⟩ := h
  cases h
  have hps1 := resizeElements_sound hs hresize
  refine Loop.invariant (P := fun s : ℕ × ParseState × Stream => s.2.1.Sound current) ?_ hloop ?_
  · rintro ⟨i, ps3, st3⟩ ⟨i', ps4, st4⟩ hps3 hround
    simp only [bind_eq_ok] at hround
    obtain ⟨⟨ps5, st5⟩, helem, hround⟩ := hround
    cases hround
    exact parseElement_sound hps3 helem
  · exact ⟨hps1.mod, hps1.unfilled.mono (fun v hv => List.mem_cons_of_mem _ hv) rfl⟩

/-! ### Code and data -/

theorem parseLocals_keeps {isFixed : Bool} {groups : ℕ} {fn fn' : Func} {code code' : Stream}
    (h : parseLocals isFixed groups fn code = .ok (fn', code')) :
    fn'.fnType = fn.fnType ∧ fn'.linkage = fn.linkage := by
  refine Loop.invariant (P := fun s : Func × Stream => s.1.fnType = fn.fnType ∧
    s.1.linkage = fn.linkage) ?_ h ⟨rfl, rfl⟩
  rintro ⟨f, c⟩ ⟨f', c'⟩ hf hround
  simp only [bind_eq_ok] at hround
  obtain ⟨⟨n, c1⟩, -, ⟨t, c2⟩, -, hround⟩ := hround
  obtain ⟨-, hround⟩ := guard_eq_ok.mp hround
  cases hround
  exact hf

theorem map_set_eq {α β : Type} {g : α → β} {xs : List α} {i : ℕ} {x y : α} (hx : xs[i]? = some x) (hg : g y = g x) :
    (xs.set i y).map g = xs.map g := by
  apply List.ext_getElem?
  intro j
  rw [List.getElem?_map, List.getElem?_map, List.getElem?_set]
  by_cases hij : i = j
  · subst hij
    rw [if_pos rfl, if_pos (List.getElem?_eq_some_iff.mp hx).1, hx, Option.map_some, Option.map_some, hg]
  · rw [if_neg hij]

theorem parseCode_sound {i : ℕ} {st st' : Stream} (hs : ps.Sound current) (h : parseCode i ps st = .ok (ps', st')) :
    ps'.Sound current := by
  rw [parseCode] at h
  split at h
  · simp at h
  · next fn hfn =>
    simp only [bind_eq_ok, guard_eq_ok] at h
    obtain ⟨⟨size, st1⟩, -, ⟨code, st2⟩, -, ⟨groups, code1⟩, -, ⟨total, code2⟩, -, ⟨fn1, code3⟩, hlocals, -,
      ps1, hres, h⟩ := h
    cases h
    obtain ⟨-, rfl⟩ := reserve_ok hres
    obtain ⟨hty, hlink⟩ := parseLocals_keeps hlocals
    refine hs.of_entries (fun v hv => List.mem_cons_of_mem _ hv)
      (hs.mod.revise rfl rfl rfl rfl (map_set_eq hfn hty) (fun kind => ?_) rfl) rfl
    cases kind with
    | func =>
      simp only [Module.linkages, List.map_map]
      exact map_set_eq hfn (congrArg Linkage.imported hlink)
    | table | memory | global => rfl

theorem parseSectionCode_sound (hs : ps.Sound current) (h : parseSectionCode ps st = .ok ps') : ps'.Sound current := by
  simp only [parseSectionCode, bind_eq_ok, guard_eq_ok] at h
  obtain ⟨⟨count, st1⟩, -, -, ⟨n, ps2, st2⟩, hloop, -, -, h⟩ := h
  cases h
  refine Loop.invariant (P := fun s : ℕ × ParseState × Stream => s.2.1.Sound current) ?_ hloop hs
  rintro ⟨i, ps3, st3⟩ ⟨i', ps4, st4⟩ hps3 hround
  simp only [bind_eq_ok] at hround
  obtain ⟨⟨ps5, st5⟩, hcode, hround⟩ := hround
  cases hround
  exact parseCode_sound hps3 hcode

/-- The data segments are read into fields of their own. -/
theorem Module.Sound.with_data {mod : Module} (h : mod.Sound current) (data : List Data) (dataCount : Option ℕ) :
    { mod with data := data, dataCount := dataCount }.Sound current :=
  ⟨{ h.indexed with }, h.empty, h.onlyImports⟩

theorem parseSectionData_sound (hs : ps.Sound current) (h : parseSectionData ps st = .ok ps') : ps'.Sound current := by
  simp only [parseSectionData, bind_eq_ok, guard_eq_ok] at h
  obtain ⟨⟨count, st1⟩, -, -, ps1, hres, ⟨mod, st2⟩, heach, -, -, h⟩ := h
  cases h
  obtain ⟨-, rfl⟩ := reserve_ok hres
  have hinv : mod.Sound current ∧ mod.elements = ps.mod.elements := by
    refine eachEntry_invariant (P := fun m => m.Sound current ∧ m.elements = ps.mod.elements) ?_ heach
      ⟨hs.mod.with_data _ _, rfl⟩
    rintro m s m' s' ⟨hm, he⟩ hround
    simp only [bind_eq_ok] at hround
    obtain ⟨⟨d, s1⟩, -, hround⟩ := hround
    cases hround
    exact ⟨hm.with_data _ _, he⟩
  exact hs.of_entries (fun v hv => List.mem_cons_of_mem _ hv) hinv.1 hinv.2

theorem parseSectionDataCount_sound (hs : ps.Sound current) (h : parseSectionDataCount ps st = .ok ps') :
    ps'.Sound current := by
  simp only [parseSectionDataCount, bind_eq_ok] at h
  obtain ⟨⟨count, st1⟩, -, -, -, h⟩ := h
  cases h
  exact hs.of_entries (fun v hv => hv) (hs.mod.with_data _ _) rfl

theorem parseSection_sound {sec : SectionId} (hs : ps.Sound current) (hsec : SectionId.order[current]? = some sec)
    (h : parseSection sec ps st = .ok ps') : ps'.Sound current := by
  have hrank := SectionId.rank_eq hsec
  cases sec with
  | custom =>
    cases h
    exact hs
  | type => exact parseSectionType_sound hs h
  | import_ => exact parseSectionImport_sound hs (by simp [hrank, SectionId.rank]) h
  | function => exact parseSectionFunction_sound hs (by simp [hrank, SectionId.rank]) h
  | table => exact parseSectionTable_sound hs (by simp [hrank, SectionId.rank]) h
  | memory => exact parseSectionMemory_sound hs (by simp [hrank, SectionId.rank]) h
  | global => exact parseSectionGlobal_sound hs (by simp [hrank, SectionId.rank]) h
  | export_ => exact parseSectionExport_sound hs h
  | start => exact parseSectionStart_sound hs h
  | element => exact parseSectionElement_sound hs h
  | dataCount => exact parseSectionDataCount_sound hs h
  | code => exact parseSectionCode_sound hs h
  | data => exact parseSectionData_sound hs h

/-- The sections come in their order, some of them more than once. -/
theorem parseSections_sound {n : ℕ} (hs : ps.Sound current) (h : parseSections n current ps st = .ok ps') :
    ∃ current', ps'.Sound current' := by
  induction n generalizing current ps st with
  | zero =>
    cases h
    exact ⟨current, hs⟩
  | succ n ih =>
    rw [parseSections] at h
    split at h
    · cases h
      exact ⟨current, hs⟩
    · simp only [bind_eq_ok] at h
      obtain ⟨⟨id, st1⟩, -, ⟨len, st2⟩, -, h⟩ := h
      split at h
      · simp at h
      · next current' sec hfind =>
        have hstep : ∀ {ps1 : ParseState} {content : Stream},
            parseSection sec ps content = .ok ps1 → ps1.Sound current' := by
          intro ps1 content hsec
          split at hfind
          · cases hfind
            cases hsec
            exact hs
          · obtain ⟨hle, horder⟩ := SectionId.find_order hfind
            exact parseSection_sound (hs.later hle) horder hsec
        split at h
        · refine ih ?_ h
          split at hfind
          · cases hfind
            exact hs
          · exact hs.later (SectionId.find_order hfind).1
        · simp only [bind_eq_ok] at h
          obtain ⟨⟨content, st3⟩, -, ps1, hsec, h⟩ := h
          exact ih (hstep hsec) h

end Sections

theorem ParseState.sound_empty (version : ℕ) : ParseState.Sound 0 { mod := { formatVersion := version } } := by
  refine ⟨⟨⟨?_, ?_, ?_, ?_, ?_, ?_⟩, ?_, ?_⟩, ?_⟩
  · simp
  · simp
  · simp
  · simp
  · simp
  · intro kind
    cases kind <;> exact ImportedFirst.nil
  · simp
  · intro _ kind
    cases kind <;> rfl
  · intro i elem helem
    simp at helem

theorem parseModule_sound {bin : Str} {mod : Module} (h : parseModule bin = .ok mod) :
    ∃ current, mod.Sound current := by
  rw [parseModule] at h
  obtain ⟨-, h⟩ := guard_eq_ok.mp h
  simp only [bind_eq_ok, guard_eq_ok] at h
  obtain ⟨⟨magic, st1⟩, -, -, ⟨version, st2⟩, -, -, ps, hps, h⟩ := h
  cases h
  obtain ⟨current, hs⟩ := parseSections_sound (ParseState.sound_empty _) hps
  exact ⟨current, hs.mod⟩

/-- Every index in a module that the parser accepts is in range, and the imports come first. -/
theorem parseModule_indexed (bin : Str) (mod : Module) (h : parseModule bin = .ok mod) : mod.Indexed := by
  obtain ⟨current, hs⟩ := parseModule_sound h
  exact hs.indexed

/-- Two element sections: the second one fills the other vector of its only segment. -/
def twoElementSections : Str :=
  [0x00, 0x61, 0x73, 0x6d, 1, 0, 0, 0,
    1, 4, 1, 0x60, 0, 0,
    2, 6, 1, 1, 0x61, 0, 0, 0,
    3, 2, 1, 0,
    7, 5, 1, 1, 0x62, 0, 1,
    8, 1, 1,
    9, 7, 1, 0, 0x41, 0, 0x0b, 1, 0,
    9, 8, 1, 4, 0x41, 0, 0x0b, 2, 0x0b, 0x0b]

theorem parseModule_indexed_two : ∃ mod, parseModule twoElementSections = .ok mod ∧ mod.Indexed := by
  refine ⟨_, by rfl, parseModule_indexed twoElementSections _ (by rfl)⟩

end Silverfir
