import Silverfir.Records
import Mathlib.Data.List.Basic

/-! The entries of a code section, read on their own, and what the parser makes of them. -/
namespace Silverfir

/-- A run of locals of one type. -/
structure LocalGroup where
  count : ℕ
  valtype : TypeId
  deriving DecidableEq, Repr

structure CodeEntry where
  groups : List LocalGroup
  body : Str
  deriving DecidableEq, Repr

def CodeEntry.localCount (e : CodeEntry) : ℕ := (e.groups.map (·.count)).sum

def CodeEntry.localTypes (e : CodeEntry) : List TypeId := e.groups.flatMap fun g => List.replicate g.count g.valtype

def readGroups : ℕ → Stream → R (List LocalGroup × Stream)
  | 0, st => .ok ([], st)
  | n + 1, st => do
    let (count, st) ← st.readVu32
    let (valtype, st) ← readType TypeId.isValueType "Invalid value type" st
    let (rest, st) ← readGroups n st
    .ok (⟨count, valtype⟩ :: rest, st)

/-- The size of an entry, its groups of locals, and what is left of it. -/
def readCodeEntry (st : Stream) : R (CodeEntry × Stream) := do
  let (codeSize, st) ← st.readVu32
  let (code, st) ← st.slice codeSize
  let (groupCount, code) ← code.readVu32
  let (groups, code) ← readGroups groupCount code
  .ok (⟨groups, code.s.drop code.p⟩, st)

/-- As many entries as can be read. -/
def readCodeEntries : ℕ → Stream → List CodeEntry
  | 0, _ => []
  | n + 1, st =>
    match readCodeEntry st with
    | .ok (e, st) => e :: readCodeEntries n st
    | .error _ => []

/-- The entries of a code section with this content. -/
def codeEntries (content : Str) : List CodeEntry :=
  match (Stream.from_ content).readVu32 with
  | .ok (count, st) => readCodeEntries count st
  | .error _ => []

/-- What an entry makes of its function. -/
def CodeEntry.write (e : CodeEntry) (fn : Func) : Func :=
  { fn with
    localTypes := fn.localTypes ++ e.localTypes
    localCount := u32 (fn.localCount + e.localCount)
    code := e.body }

/-- An entry whose locals are not too many, and which has a body. -/
structure CodeEntry.Accepted (e : CodeEntry) : Prop where
  locals : e.localCount ≤ u32Max
  body : e.body ≠ []

theorem CodeEntry.localTypes_length (e : CodeEntry) : e.localTypes.length = e.localCount := by
  rw [localTypes, localCount, List.length_flatMap]
  congr 1
  exact List.map_congr_left fun g _ => List.length_replicate

/-- The entries go to the functions from `i` on. -/
def writeEntries : ℕ → List CodeEntry → List Func → List Func
  | _, [], funcs => funcs
  | i, e :: es, funcs => writeEntries (i + 1) es (funcs.modify i e.write)

theorem writeEntries_below {i k : ℕ} (hk : k < i) (es : List CodeEntry) (funcs : List Func) :
    (writeEntries i es funcs)[k]? = funcs[k]? := by
  induction es generalizing i funcs with
  | nil => rfl
  | cons e es ih =>
    rw [writeEntries, ih (by omega), List.getElem?_modify_ne _ _ (by omega)]

theorem writeEntries_get (i k : ℕ) (es : List CodeEntry) (funcs : List Func) :
    (writeEntries i es funcs)[i + k]? = (funcs[i + k]?).map fun f => (es[k]?.map fun e => e.write f).getD f := by
  induction es generalizing i k funcs with
  | nil =>
    rw [writeEntries]
    cases funcs[i + k]? <;> rfl
  | cons e es ih =>
    cases k with
    | zero =>
      rw [writeEntries, writeEntries_below (by omega), List.getElem?_modify]
      simp
    | succ k =>
      have hshift : i + (k + 1) = i + 1 + k := by omega
      rw [writeEntries, hshift, ih, List.getElem?_modify_ne _ _ (by omega), List.getElem?_cons_succ]

@[simp] theorem writeEntries_length (i : ℕ) (es : List CodeEntry) (funcs : List Func) :
    (writeEntries i es funcs).length = funcs.length := by
  induction es generalizing i funcs with
  | nil => rfl
  | cons e es ih => rw [writeEntries, ih, List.length_modify]

/-! ### The two passes over the locals -/

theorem countLocals_groups {n total : ℕ} {st st' : Stream} {gs : List LocalGroup} {code : Stream}
    (h : readGroups n code = .ok (gs, st')) (hcount : countLocals n code = .ok (total, st)) :
    (gs.map (·.count)).sum = total ∧ total ≤ u32Max := by
  have key : ∀ start, start ≤ u32Max → Loop.times (fun x => do
      let r ← Stream.readVu32 x.2
      let r' ← r.2.readVi7
      if x.1 + r.1 > u32Max then err .malformed "Too many locals" else .ok (x.1 + r.1, r'.2))
      n (start, code) = .ok (total, st) → start + (gs.map (·.count)).sum = total ∧ total ≤ u32Max := by
    intro start hstart hloop
    clear hcount
    induction n generalizing code gs start with
    | zero =>
      cases h
      cases hloop
      exact ⟨rfl, hstart⟩
    | succ n ih =>
      obtain ⟨⟨total1, code1⟩, hround, hloop⟩ := Loop.times_succ_ok.mp hloop
      simp only [readGroups, bind_eq_ok] at h
      obtain ⟨⟨count, st1⟩, hvu, ⟨valtype, st2⟩, htype, ⟨rest, st3⟩, hrest, h⟩ := h
      cases h
      simp only [bind_eq_ok, guard_eq_ok] at hround
      obtain ⟨⟨count', c1⟩, hvu', ⟨v, c2⟩, hvi, hle, hround⟩ := hround
      rw [hvu] at hvu'
      cases hvu'
      obtain ⟨-, m, hm, -⟩ := readType_ok htype
      rw [hm] at hvi
      cases hvi
      cases hround
      obtain ⟨hsum, htotal⟩ := ih hrest (start + count) (Nat.not_lt.mp hle) hloop
      refine ⟨?_, htotal⟩
      rw [List.map_cons, List.sum_cons, ← hsum]
      exact (Nat.add_assoc start count _).symm
  have hsum := key 0 (Nat.zero_le _) hcount
  rwa [Nat.zero_add] at hsum

theorem parseLocals_groups {n : ℕ} {fn fn' : Func} {code code' : Stream} (hfn : u32 fn.localCount = fn.localCount)
    (h : parseLocals false n fn code = .ok (fn', code')) :
    ∃ gs, readGroups n code = .ok (gs, code') ∧
      fn' = { fn with
        localTypes := fn.localTypes ++ gs.flatMap fun g => List.replicate g.count g.valtype
        localCount := u32 (fn.localCount + (gs.map (·.count)).sum) } := by
  unfold parseLocals at h
  induction n generalizing fn code with
  | zero =>
    cases h
    refine ⟨[], rfl, ?_⟩
    rw [List.flatMap_nil, List.append_nil, List.map_nil, List.sum_nil, Nat.add_zero, hfn]
  | succ n ih =>
    obtain ⟨⟨fn1, code1⟩, hround, h⟩ := Loop.times_succ_ok.mp h
    simp only [bind_eq_ok] at hround
    obtain ⟨⟨count, c1⟩, hvu, ⟨valtype, c2⟩, htype, hround⟩ := hround
    obtain ⟨-, hround⟩ := guard_eq_ok.mp hround
    cases hround
    have hwrapped : u32 (u32 (fn.localCount + count)) = u32 (fn.localCount + count) := Nat.mod_mod _ _
    obtain ⟨gs, hgs, hfn'⟩ := ih hwrapped h
    refine ⟨⟨count, valtype⟩ :: gs, ?_, ?_⟩
    · rw [readGroups, hvu, ok_bind]
      dsimp only
      rw [htype, ok_bind]
      dsimp only
      rw [hgs]
      rfl
    · rw [hfn', List.flatMap_cons, List.map_cons, List.sum_cons, List.append_assoc]
      dsimp only
      congr 1
      unfold u32
      rw [Nat.mod_add_mod, Nat.add_assoc]

/-! ### The section -/

section Section
variable {ps ps' : ParseState}

theorem parseCode_entry {i : ℕ} {st st' : Stream} {fn : Func} (hget : ps.mod.funcs[i]? = some fn)
    (hfn : u32 fn.localCount = fn.localCount) (h : parseCode i ps st = .ok (ps', st')) :
    ∃ e, readCodeEntry st = .ok (e, st') ∧ e.Accepted ∧ VecId.localTypes i ∉ ps.fixed ∧
      ps' = { ps with
        mod := { ps.mod with funcs := ps.mod.funcs.modify i e.write }
        fixed := VecId.localTypes i :: ps.fixed } := by
  simp only [parseCode, hget, bind_eq_ok, guard_eq_ok] at h
  obtain ⟨⟨size, st1⟩, hsize, ⟨code, st2⟩, hslice, ⟨groups, code1⟩, hgroups, ⟨total, code2⟩, hcount,
    ⟨fn1, code3⟩, hlocals,
    hbody, ps1, hres, h⟩ := h
  cases h
  obtain ⟨hfixed, rfl⟩ := reserve_ok hres
  rw [decide_eq_false hfixed] at hlocals
  obtain ⟨gs, hgs, rfl⟩ := parseLocals_groups hfn hlocals
  obtain ⟨hsum, htotal⟩ := countLocals_groups hgs hcount
  refine ⟨⟨gs, code3.s.drop code3.p⟩, ?_, ⟨?_, ?_⟩, hfixed, ?_⟩
  · rw [readCodeEntry, hsize, ok_bind]
    dsimp only
    rw [hslice, ok_bind]
    dsimp only
    rw [hgroups, ok_bind]
    dsimp only
    rw [hgs]
    rfl
  · exact hsum.trans_le htotal
  · intro hnil
    apply hbody
    rw [Stream.remaining, ← List.length_drop]
    exact List.length_eq_zero_iff.mpr hnil
  · rw [ParseState.setMod]
    congr 2
    obtain ⟨hlt, hval⟩ := List.getElem?_eq_some_iff.mp hget
    rw [List.modify_eq_set_getElem?, hget]
    rfl

/-- The rounds from the function `i` on. -/
theorem codeRounds {n i j : ℕ} {st st' : Stream} (hfuncs : i + n ≤ ps.mod.funcs.length)
    (hfn : ∀ k f, i ≤ k → ps.mod.funcs[k]? = some f → u32 f.localCount = f.localCount)
    (h : Loop.times (fun (i, ps, st) => do
      let (ps, st) ← parseCode i ps st
      .ok (i + 1, ps, st)) n (i, ps, st) = .ok (j, ps', st')) :
    let es := readCodeEntries n st
    es.length = n ∧ (∀ e ∈ es, e.Accepted) ∧
      ps'.mod = { ps.mod with funcs := writeEntries i es ps.mod.funcs } ∧
      (∀ v ∈ ps.fixed, v ∈ ps'.fixed) ∧ ∀ k < n, VecId.localTypes (i + k) ∉ ps.fixed ∧
        VecId.localTypes (i + k) ∈ ps'.fixed := by
  induction n generalizing i ps st with
  | zero =>
    cases h
    exact ⟨rfl, by simp [readCodeEntries], rfl, fun _ hv => hv, fun k hk => absurd hk (Nat.not_lt_zero k)⟩
  | succ n ih =>
    obtain ⟨⟨i1, ps1, st1⟩, hround, h⟩ := Loop.times_succ_ok.mp h
    obtain ⟨⟨ps2, st2⟩, hcode, hround⟩ := bind_eq_ok.mp hround
    cases hround
    have hlt : i < ps.mod.funcs.length := by omega
    obtain ⟨e, he, haccepted, hfree, rfl⟩ := parseCode_entry (List.getElem?_eq_getElem hlt)
      (hfn i _ le_rfl (List.getElem?_eq_getElem hlt)) hcode
    have hfn' : ∀ k f, i + 1 ≤ k → (ps.mod.funcs.modify i e.write)[k]? = some f → u32 f.localCount = f.localCount := by
      intro k f hk hf
      rw [List.getElem?_modify_ne _ _ (by omega)] at hf
      exact hfn k f (by omega) hf
    obtain ⟨hlen, hall, hmod, hkept, hfixed⟩ := ih (by rw [List.length_modify]; omega) hfn' h
    rw [readCodeEntries, he]
    refine ⟨congrArg (· + 1) hlen, ?_, ?_, fun v hv => hkept v (List.mem_cons_of_mem _ hv), fun k hk => ?_⟩
    · exact List.forall_mem_cons.mpr ⟨haccepted, hall⟩
    · rw [hmod, writeEntries]
    · cases k with
      | zero => exact ⟨hfree, hkept _ List.mem_cons_self⟩
      | succ k =>
        obtain ⟨hout, hin⟩ := hfixed k (by omega)
        have hshift : i + (k + 1) = i + 1 + k := by omega
        rw [hshift]
        exact ⟨fun hmem => hout (List.mem_cons_of_mem _ hmem), hin⟩

/-- Every function of the module gets the entry at its place. -/
theorem parseSectionCode_entries {content : Str} (himported : ps.mod.importedFuncCount ≤ ps.mod.funcs.length)
    (hfn : ∀ k f, ps.mod.importedFuncCount ≤ k → ps.mod.funcs[k]? = some f → u32 f.localCount = f.localCount)
    (h : parseSectionCode ps (.from_ content) = .ok ps') :
    let es := codeEntries content
    ps.mod.importedFuncCount + es.length = ps.mod.funcs.length ∧ (∀ e ∈ es, e.Accepted) ∧
      ps'.mod = { ps.mod with funcs := writeEntries ps.mod.importedFuncCount es ps.mod.funcs } ∧
      (∀ v ∈ ps.fixed, v ∈ ps'.fixed) ∧ ∀ k < es.length, VecId.localTypes (ps.mod.importedFuncCount + k) ∉ ps.fixed ∧
        VecId.localTypes (ps.mod.importedFuncCount + k) ∈ ps'.fixed := by
  simp only [parseSectionCode, bind_eq_ok, guard_eq_ok, Decidable.not_not] at h
  obtain ⟨⟨count, st1⟩, hvu, hnumber, ⟨j, ps1, st2⟩, hloop, -, -, h⟩ := h
  cases h
  have hsmall : count < 2 ^ 32 := Stream.readVu32_lt hvu
  have hcount : ps.mod.importedFuncCount + count = ps.mod.funcs.length := by
    dsimp only at hnumber
    unfold u32 at hnumber
    -- a sum that wraps is below the number of imports
    omega
  obtain ⟨hlen, hall, hmod, hkept, hfixed⟩ := codeRounds hcount.le hfn hloop
  have hentries : codeEntries content = readCodeEntries count st1 := by
    rw [codeEntries, hvu]
  rw [hentries]
  refine ⟨hlen.symm ▸ hcount, hall, hmod, hkept, fun k hk => hfixed k (hlen ▸ hk)⟩

end Section

end Silverfir
