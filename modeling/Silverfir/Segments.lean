import Silverfir.Sections

/-! The parsers of the element, code and data sections on the content of their section. -/
namespace Silverfir

open Grammar

namespace Binary.Module

/-! ### Element segments -/

section Elements
variable {kind : ElemKind} {offset : ConstExpr} {i : ℕ} {elem : Silverfir.Element} {ps : ParseState} {u w : Str}

theorem elemOffset_zero (hpassive : kind.passive = false) (htable : kind.tableIdx = false) (offset : ConstExpr) :
    ReadsValue (parseElemOffset kind {}) { mode := .active, tableidx := 0, offsetExpr := offset.code } offset.code := by
  obtain ⟨passive, tableIdx, expr⟩ := kind
  subst hpassive htable
  exact (parseConstExpr_reads offset).result fun st => rfl

theorem elemOffset_table (hpassive : kind.passive = false) (htable : kind.tableIdx = true) {table : ℕ}
    (h : U32 table u) (offset : ConstExpr) :
    ReadsValue (parseElemOffset kind {}) { mode := .active, tableidx := table, offsetExpr := offset.code }
      (u ++ offset.code) := by
  obtain ⟨passive, tableIdx, expr⟩ := kind
  subst hpassive htable
  have hread : ReadsValue (parseElemTableidx ⟨false, true, expr⟩) table u := readVu32_reads h
  refine hread.bind ?_
  exact (parseConstExpr_reads offset).result fun st => rfl

theorem elemOffset_passive (hpassive : kind.passive = true) :
    ReadsValue (parseElemOffset kind {}) { mode := kind.mode } [] := by
  obtain ⟨passive, tableIdx, expr⟩ := kind
  subst hpassive
  exact Reads.pure _

theorem elemType_none (hpassive : kind.passive = false) (htable : kind.tableIdx = false) :
    ReadsValue (parseElemType kind) .funcref [] := by
  obtain ⟨passive, tableIdx, expr⟩ := kind
  subst hpassive htable
  exact Reads.pure _

theorem elemType_kind (hsome : (kind.passive || kind.tableIdx) = true) (hexpr : kind.expr = false) :
    ReadsValue (parseElemType kind) .funcref [0x00] := by
  unfold parseElemType
  refine Reads.then_ hsome ?_
  rw [hexpr]
  refine Reads.else_ Bool.false_ne_true ?_
  exact (readU8_reads 0x00).result fun st => rfl

theorem elemType_ref (hsome : (kind.passive || kind.tableIdx) = true) (hexpr : kind.expr = true) (t : RefType) :
    ReadsValue (parseElemType kind) t.typeId [t.byte] := by
  unfold parseElemType
  refine Reads.then_ hsome ?_
  refine Reads.then_ hexpr ?_
  exact (readVi7_reads t.byte_small).result fun st => by cases t <;> rfl

theorem elemItems_exprs {exprs : List ConstExpr} (h : Vector ConstExpr.Encodes exprs w) (hexpr : kind.expr = true)
    (hv : VecId.vExpr i ∉ ps.fixed) :
    Reads (parseElemItems i kind elem ps)
      (fun st => ({ ps with fixed := VecId.vExpr i :: ps.fixed },
        { elem with dataLen := exprs.length, vExpr := elem.vExpr ++ exprs.map (·.code) }, st)) w := by
  cases h with
  | @mk l ws count items =>
    have hloop : ReadsValue (parseExprs exprs.length) (exprs.map (·.code)) ws := by
      unfold parseExprs
      refine Reads.rounds (g := fun codes (st : Stream) => (codes, st))
        (s := fun pre : List ConstExpr => pre.map (·.code)) (fun pre e post w _ he => ?_) items
      rw [he, List.map_append]
      exact (parseConstExpr_reads e).result fun st => rfl
    unfold parseElemItems
    refine (readVu32_reads count).bind ?_
    dsimp only
    refine Reads.then_ hexpr ?_
    simp only [reserve_of hv, ok_bind]
    exact hloop.result fun st => rfl

theorem elemItems_funcs {idxs : List ℕ} (h : Vector U32 idxs w) (hexpr : kind.expr = false)
    (hidxs : ∀ idx ∈ idxs, idx < ps.mod.funcs.length) (hv : VecId.vFuncidx i ∉ ps.fixed) :
    Reads (parseElemItems i kind elem ps)
      (fun st => ({ ps with fixed := VecId.vFuncidx i :: ps.fixed },
        { elem with dataLen := idxs.length, vFuncidx := elem.vFuncidx ++ idxs }, st)) w := by
  cases h with
  | @mk l ws count items =>
    have hloop : ReadsValue (parseFuncidxs ps.mod.funcs.length idxs.length) idxs ws := by
      unfold parseFuncidxs
      refine Reads.rounds (g := fun idxs (st : Stream) => (idxs, st)) (s := id)
        (fun pre idx post w hsplit hidx => ?_) items
      have hlt : idx < ps.mod.funcs.length := by
        apply hidxs
        rw [hsplit]
        exact List.mem_append_right _ List.mem_cons_self
      exact (readVu32_reads hidx).result fun st => if_neg (Nat.not_le.mpr hlt)
    unfold parseElemItems
    refine (readVu32_reads count).bind ?_
    dsimp only
    refine Reads.else_ (by rw [hexpr]; exact Bool.false_ne_true) ?_
    simp only [reserve_of hv, ok_bind]
    exact hloop.result fun st => rfl

/-- What follows the number of the form. -/
def elementForm (i : ℕ) (ps : ParseState) (kind : ElemKind) (st : Stream) : R (ParseState × Stream) := do
  let (elem, st) ← parseElemOffset kind {} st
  let (valtype, st) ← parseElemType kind st
  let (ps, elem, st) ← parseElemItems i kind { elem with valtype := valtype } ps st
  .ok (ps.setMod { ps.mod with elements := ps.mod.elements.set i elem }, st)

/-- One form of segment after the other. -/
theorem parseElement_reads {e : Elem} (h : e.Encodes w) (hget : ps.mod.elements[i]? = some {})
    (hinit : e.init.Within ps.mod.funcs.length) (hexprs : VecId.vExpr i ∉ ps.fixed)
    (hfuncs : VecId.vFuncidx i ∉ ps.fixed) :
    ∃ v ∈ [VecId.vExpr i, VecId.vFuncidx i], Reads (parseElement i ps)
      (fun st => ({ ps with
        mod := { ps.mod with elements := ps.mod.elements.set i e.recorded }
        fixed := v :: ps.fixed }, st)) w := by
  have hform : ∀ (b : UInt8) {w : Str} {out : Stream → ParseState × Stream}, b.toNat ≤ 7 →
      Reads (elementForm i ps (ElemKind.ofByte b.toNat)) out w →
      Reads (parseElement i ps) out ([b] ++ w) := by
    intro b w out hb hrest
    unfold parseElement
    refine (readU8_reads b).bind ?_
    refine Reads.else_ (Nat.not_lt.mpr hb) ?_
    dsimp only
    rw [hget]
    exact hrest
  cases h with
  | @activeFuncs offset idxs v hv =>
    refine ⟨.vFuncidx i, by simp, hform 0x00 (by decide) ?_⟩
    refine (elemOffset_zero rfl rfl offset).bind ?_
    refine (elemType_none rfl rfl).skip ?_
    exact (elemItems_funcs hv rfl hinit hfuncs).result fun st => rfl
  | @passiveFuncs idxs v hv =>
    refine ⟨.vFuncidx i, by simp, hform 0x01 (by decide) ?_⟩
    refine (elemOffset_passive rfl).skip ?_
    refine (elemType_kind rfl rfl).bind ?_
    exact (elemItems_funcs hv rfl hinit hfuncs).result fun st => rfl
  | @activeTableFuncs table offset idxs u v htable hv =>
    refine ⟨.vFuncidx i, by simp, hform 0x02 (by decide) ?_⟩
    rw [← List.append_assoc u]
    refine (elemOffset_table rfl rfl htable offset).bind ?_
    refine (elemType_kind rfl rfl).bind ?_
    exact (elemItems_funcs hv rfl hinit hfuncs).result fun st => rfl
  | @declarativeFuncs idxs v hv =>
    refine ⟨.vFuncidx i, by simp, hform 0x03 (by decide) ?_⟩
    refine (elemOffset_passive rfl).skip ?_
    refine (elemType_kind rfl rfl).bind ?_
    exact (elemItems_funcs hv rfl hinit hfuncs).result fun st => rfl
  | @activeExprs offset exprs v hv =>
    refine ⟨.vExpr i, by simp, hform 0x04 (by decide) ?_⟩
    refine (elemOffset_zero rfl rfl offset).bind ?_
    refine (elemType_none rfl rfl).skip ?_
    exact (elemItems_exprs hv rfl hexprs).result fun st => rfl
  | @passiveExprs type exprs v hv =>
    refine ⟨.vExpr i, by simp, hform 0x05 (by decide) ?_⟩
    refine (elemOffset_passive rfl).skip ?_
    refine (elemType_ref rfl rfl type).bind ?_
    exact (elemItems_exprs hv rfl hexprs).result fun st => rfl
  | @activeTableExprs type table offset exprs u v htable hv =>
    refine ⟨.vExpr i, by simp, hform 0x06 (by decide) ?_⟩
    rw [← List.append_assoc u]
    refine (elemOffset_table rfl rfl htable offset).bind ?_
    refine (elemType_ref rfl rfl type).bind ?_
    exact (elemItems_exprs hv rfl hexprs).result fun st => rfl
  | @declarativeExprs type exprs v hv =>
    refine ⟨.vExpr i, by simp, hform 0x07 (by decide) ?_⟩
    refine (elemOffset_passive rfl).skip ?_
    refine (elemType_ref rfl rfl type).bind ?_
    exact (elemItems_exprs hv rfl hexprs).result fun st => rfl

/-- The entries of `elements` are there before they are read. -/
theorem resizeElements_empty (count : ℕ) (hempty : ps.mod.elements = []) (hv : VecId.elements ∉ ps.fixed) :
    ∃ ps', resizeElements count ps = .ok ps' ∧
      ps'.mod = { ps.mod with elements := List.replicate count {} } ∧ ps'.fixed ⊆ ps.fixed := by
  unfold resizeElements
  rw [hempty]
  dsimp only
  by_cases hcount : count ≤ 0
  · have hzero : count = 0 := Nat.le_zero.mp hcount
    refine ⟨_, if_pos hcount, ?_, List.Subset.refl _⟩
    rw [hzero]
    rfl
  · rw [List.length_nil, if_neg hcount]
    have hgrow : ∃ capacity, growElements count ps = .ok capacity := by
      unfold growElements
      split_ifs
      · exact ⟨_, rfl⟩
      · exact ⟨_, rfl⟩
    obtain ⟨capacity, hcapacity⟩ := hgrow
    rw [hcapacity, ok_bind]
    exact ⟨_, rfl, rfl, List.filter_sublist.subset⟩

end Elements

/-- The segments read so far, and blank ones for the others. -/
def withElements (s : Module) (n : ℕ) (pre : List Elem) : Silverfir.Module :=
  { s.recorded with elements := pre.map Elem.recorded ++ List.replicate (n - pre.length) {} }

theorem withElements_snoc {s : Module} {n : ℕ} {pre : List Elem} (hn : pre.length < n) (e : Elem) :
    (s.withElements n pre).elements[pre.length]? = some {} ∧
      s.withElements n (pre ++ [e]) =
        { s.withElements n pre with elements := (s.withElements n pre).elements.set pre.length e.recorded } := by
  obtain ⟨k, hk⟩ : ∃ k, n - pre.length = k + 1 := ⟨n - pre.length - 1, by omega⟩
  have hrest : n - (pre ++ [e]).length = k := by
    rw [List.length_append, List.length_singleton]
    omega
  unfold withElements
  rw [hk, hrest, List.replicate_succ]
  constructor
  · rw [List.getElem?_append_right (by rw [List.length_map]), List.length_map, Nat.sub_self, List.getElem?_cons_zero]
  · rw [List.set_append_right (s := pre.map Elem.recorded) (h := by rw [List.length_map])]
    simp

/-- One segment more is written. -/
def elementRound : ℕ × ParseState × Stream → R (ℕ × ParseState × Stream)
  | (i, ps, st) => do
    let (ps, st) ← parseElement i ps st
    .ok (i + 1, ps, st)

theorem elementSection {s : Module} {es : List Elem} {w : Str} {ps : ParseState} (h : Vector Elem.Encodes es w)
    (hinit : ∀ e ∈ es, e.init.Within (s.count .func)) (hmod : ps.mod = ({ s with elems := [] } : Module).recorded)
    (hv : ∀ v ∈ ps.fixed, v ≠ .elements ∧ ∀ i, v ≠ .vExpr i ∧ v ≠ .vFuncidx i) :
    ∃ ps', Finishes (parseSectionElement ps) ps' w ∧ ps'.mod = ({ s with elems := es } : Module).recorded ∧
      ∀ v ∈ ps'.fixed, v ∈ ps.fixed ∨ v = .elements ∨ ∃ i, v = .vExpr i ∨ v = .vFuncidx i := by
  cases h with
  | @mk l ws count items =>
    have hempty : ps.mod.elements = [] := by rw [hmod]; rfl
    obtain ⟨ps₁, hresize, hmod₁, hfixed₁⟩ :=
      resizeElements_empty es.length hempty fun hmem => (hv _ hmem).1 rfl
    have hround : ∀ pre e post w (s₂ : ℕ × ParseState), es = pre ++ e :: post → e.Encodes w →
        (s₂.1 = pre.length ∧ s₂.2.mod = s.withElements es.length pre ∧
          ∀ v ∈ s₂.2.fixed, v ∈ ps.fixed ∨ v = .elements ∨ ∃ i < pre.length, v = .vExpr i ∨ v = .vFuncidx i) →
        ∃ s₃ : ℕ × ParseState, (s₃.1 = (pre ++ [e]).length ∧ s₃.2.mod = s.withElements es.length (pre ++ [e]) ∧
          ∀ v ∈ s₃.2.fixed, v ∈ ps.fixed ∨ v = .elements ∨ ∃ i < (pre ++ [e]).length, v = .vExpr i ∨ v = .vFuncidx i) ∧
          Reads (fun st => (do
            let r ← parseElement s₂.1 s₂.2 st
            .ok (s₂.1 + 1, r) : R (ℕ × ParseState × Stream))) (fun st => (s₃.1, s₃.2, st)) w := by
      rintro pre e post w ⟨i, ps₂⟩ hsplit he ⟨hi, hmod₂, hfixed₂⟩
      dsimp only at hi hmod₂ hfixed₂
      subst hi
      have hlt : pre.length < es.length := by
        rw [hsplit, List.length_append, List.length_cons]
        omega
      have hmem : e ∈ es := by
        rw [hsplit]
        exact List.mem_append_right _ List.mem_cons_self
      have hfuncs : ps₂.mod.funcs.length = s.count .func := by
        rw [length_recorded, hmod₂]
        rfl
      have hnew : ∀ v, v = VecId.vExpr pre.length ∨ v = VecId.vFuncidx pre.length → v ∉ ps₂.fixed := by
        intro v hpre hmem
        rcases hfixed₂ v hmem with hold | rfl | ⟨j, hj, hvj⟩
        · rcases hpre with rfl | rfl
          · exact ((hv _ hold).2 _).1 rfl
          · exact ((hv _ hold).2 _).2 rfl
        · rcases hpre with h | h <;> cases h
        · rcases hpre with rfl | rfl <;> rcases hvj with h | h <;> cases h <;> omega
      obtain ⟨hget, hset⟩ := withElements_snoc hlt e
      rw [← hmod₂] at hget
      have hin := hinit e hmem
      rw [← hfuncs] at hin
      obtain ⟨v, hvnew, hreads⟩ := parseElement_reads he hget hin (hnew _ (Or.inl rfl)) (hnew _ (Or.inr rfl))
      refine ⟨(pre.length + 1, _), ⟨?_, ?_, ?_⟩, hreads.result fun st => rfl⟩
      · rw [List.length_append, List.length_singleton]
      · rw [hset, ← hmod₂]
      · intro v' hv'
        rw [List.length_append, List.length_singleton]
        rcases List.mem_cons.mp hv' with rfl | hold
        · refine Or.inr (Or.inr ⟨pre.length, Nat.lt_succ_self _, ?_⟩)
          rcases List.mem_cons.mp hvnew with h | h
          · exact Or.inl h
          · exact Or.inr (List.mem_singleton.mp h)
        · rcases hfixed₂ v' hold with h | h | ⟨j, hj, h⟩
          · exact Or.inl h
          · exact Or.inr (Or.inl h)
          · exact Or.inr (Or.inr ⟨j, Nat.lt_succ_of_lt hj, h⟩)
    have hloop := Reads.times (f := elementRound)
      (g := fun (s : ℕ × ParseState) st => (s.1, s.2, st)) hround items
      (s := (0, { ps₁ with fixed := VecId.elements :: ps₁.fixed })) ?_
    · obtain ⟨⟨i, ps'⟩, ⟨-, hmod', hfixed'⟩, hreads⟩ := hloop
      refine ⟨ps', ?_, ?_, ?_⟩
      · unfold parseSectionElement
        refine (readVu32_reads count).finishes ?_
        dsimp only
        rw [hresize]
        refine hreads.last fun st hleft => ?_
        dsimp only
        rw [atEnd_of hleft]
        rfl
      · rw [hmod']
        unfold withElements
        rw [Nat.sub_self, List.replicate_zero, List.append_nil]
        rfl
      · intro v hv'
        rcases hfixed' v hv' with h | h | ⟨i, -, h⟩
        · exact Or.inl h
        · exact Or.inr (Or.inl h)
        · exact Or.inr (Or.inr ⟨i, h⟩)
    · refine ⟨rfl, ?_, ?_⟩
      · dsimp only
        rw [hmod₁, hmod]
        rfl
      · intro v hv'
        rcases List.mem_cons.mp hv' with rfl | hold
        · exact Or.inr (Or.inl rfl)
        · exact Or.inl (hfixed₁ hold)

/-! ### Code -/

section Codes

theorem countLocals_reads {gs : List Locals} {w : Str} (h : Items Locals.Encodes gs w)
    (hsum : (gs.map (·.count)).sum ≤ u32Max) : ReadsValue (countLocals gs.length) (gs.map (·.count)).sum w := by
  unfold countLocals
  refine Reads.rounds (g := fun total (code : Stream) => (total, code))
    (s := fun pre : List Locals => (pre.map (·.count)).sum) (fun pre x post w hsplit hx => ?_) h
  rw [hsplit, List.map_append, List.map_cons, List.sum_append, List.sum_cons] at hsum
  rw [List.map_append, List.map_singleton, List.sum_append, List.sum_singleton]
  cases hx with
  | @mk count type v hcount =>
    refine (readVu32_reads hcount).bind ?_
    refine (readVi7_reads type.byte_small).result fun st => if_neg ?_
    dsimp only at hsum ⊢
    omega

theorem addLocals_snoc (fn : Silverfir.Func) (pre : List Locals) (g : Locals) :
    addLocals (pre ++ [g]) fn =
      { addLocals pre fn with
        localTypes := (addLocals pre fn).localTypes ++ List.replicate g.count g.type.typeId
        localCount := u32 ((addLocals pre fn).localCount + g.count) } := by
  have htypes : localTypes (pre ++ [g]) = localTypes pre ++ List.replicate g.count g.type.typeId := by
    unfold localTypes
    rw [List.flatMap_append, List.flatMap_singleton]
  unfold addLocals
  rw [htypes, List.length_append, List.length_replicate, List.append_assoc]
  congr 1
  unfold u32
  rw [Nat.mod_add_mod, Nat.add_assoc]

theorem parseLocals_reads {gs : List Locals} {w : Str} (h : Items Locals.Encodes gs w) {fn : Silverfir.Func}
    (hfn : u32 fn.localCount = fn.localCount) : ReadsValue (parseLocals false gs.length fn) (addLocals gs fn) w := by
  have hstart : addLocals [] fn = fn := by
    unfold addLocals
    change { fn with localTypes := fn.localTypes ++ [], localCount := u32 (fn.localCount + 0) } = fn
    rw [List.append_nil, Nat.add_zero, hfn]
  have hloop : ReadsValue (parseLocals false gs.length (addLocals [] fn)) (addLocals gs fn) w := by
    unfold parseLocals
    refine Reads.rounds (g := fun fn (code : Stream) => (fn, code)) (s := fun pre => addLocals pre fn)
      (fun pre g post w _ hg => ?_) h
    rw [addLocals_snoc]
    cases hg with
    | @mk count type v hcount =>
      refine (readVu32_reads hcount).bind ?_
      refine (readValType_reads _ type).result fun st => if_neg ?_
      exact fun hc => Bool.false_ne_true hc.1
  rw [hstart] at hloop
  exact hloop

theorem parseCode_reads {c : Code} {w : Str} {i : ℕ} {ps : ParseState} {fn : Silverfir.Func} (h : c.Encodes w)
    (hget : ps.mod.funcs[i]? = some fn) (hsum : (c.locals.map (·.count)).sum ≤ u32Max)
    (hfn : u32 fn.localCount = fn.localCount) (hv : VecId.localTypes i ∉ ps.fixed) :
    ReadsValue (parseCode i ps)
      { ps with
        mod := { ps.mod with funcs := ps.mod.funcs.set i { addLocals c.locals fn with code := c.body } }
        fixed := VecId.localTypes i :: ps.fixed } w := by
  cases h with
  | @mk l v hlocals hsize =>
    have hne : v ++ c.body ≠ [] := fun hnil => c.body_ne (List.append_eq_nil_iff.mp hnil).2
    unfold parseCode
    rw [hget]
    dsimp only
    refine (readVu32_reads hsize).bind ?_
    refine (slice_reads hne).result fun st => ?_
    cases hlocals with
    | @mk l' ws count items =>
      have hstart : Cursor.left (Stream.from_ (l' ++ ws ++ c.body)) = l' ++ (ws ++ c.body) := List.append_assoc _ _ _
      have hgroups := left_behind hstart
      have hbody := left_behind hgroups
      have hcount := readVu32_reads count _ _ hstart
      have htotal := countLocals_reads items hsum _ _ hgroups
      have hlocals := parseLocals_reads items hfn _ _ hgroups
      generalize Cursor.advance (Cursor.advance (Stream.from_ (l' ++ ws ++ c.body)) l'.length) ws.length = code
        at hbody htotal hlocals
      have hremaining : code.remaining ≠ 0 := by
        unfold Stream.remaining
        rw [← List.length_drop, ← left_eq, hbody]
        exact mt List.eq_nil_of_length_eq_zero c.body_ne
      dsimp only
      rw [hcount, ok_bind]
      dsimp only
      rw [htotal, ok_bind, decide_eq_false hv, hlocals, ok_bind]
      dsimp only
      rw [if_neg hremaining, reserve_of hv, ok_bind, ← left_eq, hbody]
      rfl

/-- The code of the next function. -/
theorem recorded_code {s : Module} {pre : List Code} (hlt : pre.length < s.funcs.length) (c : Code) :
    ∃ fn typeidx, ({ s with codes := pre } : Module).recorded.funcs[s.importedFuncs.length + pre.length]? = some fn ∧
      fn.localCount = (s.funcType typeidx).paramCount ∧
      ({ s with codes := pre ++ [c] } : Module).recorded =
        let mod := ({ s with codes := pre } : Module).recorded
        { mod with
          funcs := mod.funcs.set (s.importedFuncs.length + pre.length)
            { addLocals c.locals fn with code := c.body } } := by
  have hdefined : ∀ codes : List Code, ({ s with codes := codes } : Module).definedFuncs =
      s.funcs.mapIdx fun j typeidx => s.definedFunc typeidx codes[j]? := fun codes => rfl
  have hfuncs : ∀ (codes : List Code) (i : ℕ), ({ s with codes := codes } : Module).recorded.funcs[i]? =
      ((s.importedFuncs ++ s.funcs.mapIdx fun j typeidx => s.definedFunc typeidx codes[j]?)[i]?).map fun f =>
        if isExported s.exports .func i then f.marked else f := by
    intro codes i
    dsimp only [recorded]
    rw [getElem?_marks, hdefined]
    rfl
  set i := s.importedFuncs.length + pre.length with hi
  have hnone : pre[pre.length]? = none := List.getElem?_eq_none (Nat.le_refl _)
  have hsome : (pre ++ [c])[pre.length]? = some c := by
    rw [List.getElem?_append_right (Nat.le_refl _), Nat.sub_self]
    rfl
  have hat : ∀ codes : List Code,
      (s.importedFuncs ++ s.funcs.mapIdx fun j typeidx => s.definedFunc typeidx codes[j]?)[i]? =
        some (s.definedFunc s.funcs[pre.length] codes[pre.length]?) := by
    intro codes
    rw [List.getElem?_append_right (by omega), hi, Nat.add_sub_cancel_left, List.getElem?_mapIdx,
      List.getElem?_eq_getElem hlt]
    rfl
  let fn := s.definedFunc s.funcs[pre.length] none
  refine ⟨if isExported s.exports .func i then fn.marked else fn, s.funcs[pre.length], ?_, ?_, ?_⟩
  · rw [hfuncs, hat, hnone, Option.map_some]
  · split_ifs <;> rfl
  · have hlist : ({ s with codes := pre ++ [c] } : Module).recorded.funcs =
        ({ s with codes := pre } : Module).recorded.funcs.set i
          { addLocals c.locals (if isExported s.exports .func i then fn.marked else fn) with code := c.body } := by
      apply List.ext_getElem?
      intro j
      rw [List.getElem?_set]
      by_cases hj : i = j
      · subst hj
        have hbound : i < ({ s with codes := pre } : Module).recorded.funcs.length := by
          by_contra hge
          have hget := hfuncs pre i
          rw [List.getElem?_eq_none (Nat.le_of_not_lt hge), hat, Option.map_some] at hget
          cases hget
        rw [if_pos rfl, if_pos hbound, hfuncs, hat, hsome, Option.map_some]
        split_ifs <;> rfl
      · rw [if_neg hj, hfuncs, hfuncs]
        congr 1
        rw [List.getElem?_append, List.getElem?_append]
        split_ifs with himported
        · rfl
        · rw [List.getElem?_mapIdx, List.getElem?_mapIdx]
          have hsame : (pre ++ [c])[j - s.importedFuncs.length]? = pre[j - s.importedFuncs.length]? := by
            by_cases hle : j - s.importedFuncs.length < pre.length
            · rw [List.getElem?_append_left hle]
            · rw [List.getElem?_append_right (by omega), List.getElem?_eq_none (by simp; omega),
                List.getElem?_eq_none (by omega)]
          rw [hsame]
    dsimp only
    rw [← hlist]
    rfl

theorem paramCount_small {s : Module} (htypes : ∀ t ∈ s.types, t.params.length ≤ resultTypeCountMax) (typeidx : ℕ) :
    u32 (s.funcType typeidx).paramCount = (s.funcType typeidx).paramCount := by
  refine Nat.mod_eq_of_lt ?_
  unfold funcType
  rw [List.getElem?_map]
  cases hget : s.types[typeidx]? with
  | none => exact Nat.two_pow_pos 32
  | some t =>
    have ht : t.params.length ≤ 65535 := htypes t (List.mem_of_getElem? hget)
    change t.params.length < 2 ^ 32
    omega

/-- One entry more is written. -/
def codeRound : ℕ × ParseState × Stream → R (ℕ × ParseState × Stream)
  | (i, ps, st) => do
    let (ps, st) ← parseCode i ps st
    .ok (i + 1, ps, st)

theorem codeSection {s : Module} {cs : List Code} {w : Str} {ps : ParseState} (h : Vector Code.Encodes cs w)
    (hlen : cs.length = s.funcs.length) (hcount : s.typeidxs.length < 2 ^ 32)
    (hsums : ∀ c ∈ cs, (c.locals.map (·.count)).sum ≤ u32Max)
    (htypes : ∀ t ∈ s.types, t.params.length ≤ resultTypeCountMax)
    (hmod : ps.mod = ({ s with codes := [] } : Module).recorded) (hv : ∀ i, VecId.localTypes i ∉ ps.fixed) :
    ∃ ps', Finishes (parseSectionCode ps) ps' w ∧ ps'.mod = ({ s with codes := cs } : Module).recorded ∧
      ∀ v ∈ ps'.fixed, v ∈ ps.fixed ∨ ∃ i, v = .localTypes i := by
  cases h with
  | @mk l ws count items =>
    have hround : ∀ pre c post w (s₂ : ℕ × ParseState), cs = pre ++ c :: post → c.Encodes w →
        (s₂.1 = s.importedFuncs.length + pre.length ∧ s₂.2.mod = ({ s with codes := pre } : Module).recorded ∧
          ∀ v ∈ s₂.2.fixed, v ∈ ps.fixed ∨ ∃ i < s₂.1, v = .localTypes i) →
        ∃ s₃ : ℕ × ParseState, (s₃.1 = s.importedFuncs.length + (pre ++ [c]).length ∧
          s₃.2.mod = ({ s with codes := pre ++ [c] } : Module).recorded ∧
          ∀ v ∈ s₃.2.fixed, v ∈ ps.fixed ∨ ∃ i < s₃.1, v = .localTypes i) ∧
          Reads (fun st => (do
            let r ← parseCode s₂.1 s₂.2 st
            .ok (s₂.1 + 1, r) : R (ℕ × ParseState × Stream))) (fun st => (s₃.1, s₃.2, st)) w := by
      rintro pre c post w ⟨i, ps₂⟩ hsplit hc ⟨hi, hmod₂, hfixed₂⟩
      dsimp only at hi hmod₂ hfixed₂
      have hmem : c ∈ cs := by
        rw [hsplit]
        exact List.mem_append_right _ List.mem_cons_self
      have hlt : pre.length < s.funcs.length := by
        rw [← hlen, hsplit, List.length_append, List.length_cons]
        omega
      obtain ⟨fn, typeidx, hget, hlocal, hnext⟩ := recorded_code hlt c
      rw [← hmod₂, ← hi] at hget
      have hfn : u32 fn.localCount = fn.localCount := by rw [hlocal, paramCount_small htypes]
      have hnew : VecId.localTypes i ∉ ps₂.fixed := by
        intro hold
        rcases hfixed₂ _ hold with h | ⟨j, hj, h⟩
        · exact hv i h
        · cases h
          omega
      refine ⟨(i + 1, _), ⟨?_, ?_, ?_⟩, (parseCode_reads hc hget (hsums c hmem) hfn hnew).result fun st => rfl⟩
      · rw [hi, List.length_append, List.length_singleton]
        omega
      · rw [hnext, ← hmod₂, ← hi]
      · intro v hv'
        rcases List.mem_cons.mp hv' with rfl | hold
        · exact Or.inr ⟨i, Nat.lt_succ_self i, rfl⟩
        · rcases hfixed₂ v hold with h | ⟨j, hj, h⟩
          · exact Or.inl h
          · exact Or.inr ⟨j, Nat.lt_succ_of_lt hj, h⟩
    have hfirst : ps.mod.importedFuncCount = s.importedFuncs.length := by
      rw [hmod]
      rfl
    obtain ⟨⟨i, ps'⟩, ⟨-, hmod', hfixed'⟩, hreads⟩ := Reads.times
      (f := codeRound)
      (g := fun (s : ℕ × ParseState) st => (s.1, s.2, st)) (s := (ps.mod.importedFuncCount, ps)) hround items
      ⟨hfirst, hmod, fun v hv' => Or.inl hv'⟩
    refine ⟨ps', ?_, hmod', ?_⟩
    · have htotal : u32 (cs.length + ps.mod.importedFuncCount) = ps.mod.funcs.length := by
        have hfuncs : ps.mod.funcs.length = s.typeidxs.length := by
          rw [hmod]
          exact (length_recorded .func).symm
        rw [hfuncs, hfirst, hlen, Nat.add_comm, ← length_typeidxs]
        exact Nat.mod_eq_of_lt hcount
      unfold parseSectionCode
      refine (readVu32_reads count).finishes ?_
      intro st hleft
      dsimp only
      rw [if_neg (fun hne => hne htotal)]
      refine (hreads.last fun st hleft => ?_) st hleft
      dsimp only
      rw [atEnd_of hleft]
      rfl
    · intro v hv'
      rcases hfixed' v hv' with h | ⟨i, -, h⟩
      · exact Or.inl h
      · exact Or.inr ⟨i, h⟩

end Codes

/-! ### Data segments -/

theorem dataCountSection {s : Module} {n : ℕ} {w : Str} {ps : ParseState} (h : U32 n w)
    (hmod : ps.mod = ({ s with dataCount := none } : Module).recorded) :
    Finishes (parseSectionDataCount ps) { ps with mod := ({ s with dataCount := some n } : Module).recorded } w := by
  unfold parseSectionDataCount
  refine (readVu32_reads h).last fun st hleft => ?_
  dsimp only
  rw [atEnd_of hleft, ok_bind, hmod]
  rfl

theorem parseBytes_reads {bs w : Str} (h : Bytes bs w) : ReadsValue parseBytes bs w := by
  cases h with
  | @mk l count =>
    unfold parseBytes
    refine (readVu32_reads count).bind ?_
    dsimp only
    by_cases hempty : bs = []
    · subst hempty
      refine Reads.then_ (List.length_nil (α := UInt8)) ?_
      exact Reads.pure fun st : Stream => (([] : Str), st)
    · refine Reads.else_ (mt List.eq_nil_of_length_eq_zero hempty) ?_
      exact (slice_reads hempty).result fun st => rfl

theorem parseData_reads {d : Data} {w : Str} (h : d.Encodes w)
    (hmemory : ∀ memory offset, d.mode = .active memory offset → memory = 0) : ReadsValue parseData d.recorded w := by
  have hexpr : ∀ e : ConstExpr, ReadsValue (parseDataOffset true) e.code e.code := parseConstExpr_reads
  unfold parseData
  cases h with
  | @active offset init u v hkind hinit =>
    refine (readVu32_reads hkind).bind ?_
    refine Reads.else_ (by decide) ?_
    have hmemidx : ReadsValue (parseMemidx 0) 0 [] := Reads.pure fun st => (0, st)
    refine hmemidx.skip ?_
    refine (hexpr offset).bind ?_
    exact (parseBytes_reads hinit).result fun st => rfl
  | @passive init u v hkind hinit =>
    refine (readVu32_reads hkind).bind ?_
    refine Reads.else_ (by decide) ?_
    have hmemidx : ReadsValue (parseMemidx 1) 0 [] := Reads.pure fun st => (0, st)
    refine hmemidx.skip ?_
    have hnone : ReadsValue (parseDataOffset false) [] [] := Reads.pure fun st => ([], st)
    refine hnone.skip ?_
    exact (parseBytes_reads hinit).result fun st => rfl
  | @activeMemory memory offset init t u v hkind hu hinit =>
    obtain rfl : memory = 0 := hmemory memory offset rfl
    refine (readVu32_reads hkind).bind ?_
    refine Reads.else_ (by decide) ?_
    have hmemidx : ReadsValue (parseMemidx 2) 0 u := (readVu32_reads hu).result fun st => rfl
    refine hmemidx.bind ?_
    refine (hexpr offset).bind ?_
    exact (parseBytes_reads hinit).result fun st => rfl

/-- One segment more in the module. -/
def dataEntry : Silverfir.Module × Stream → R (Silverfir.Module × Stream)
  | (mod, st) => do
    let (d, st) ← parseData st
    .ok ({ mod with data := mod.data ++ [d] }, st)

/-- Also the number of segments is recorded here. -/
theorem dataSection {s : Module} {ds : List Data} {w : Str} {ps : ParseState} (h : Vector Data.Encodes ds w)
    (hcount : ∀ n ∈ s.dataCount, n = ds.length)
    (hmemory : ∀ d ∈ ds, ∀ memory offset, d.mode = .active memory offset → memory = 0)
    (hmod : ps.mod = ({ s with datas := [] } : Module).recorded) (hv : VecId.data ∉ ps.fixed) :
    Finishes (parseSectionData ps)
      { ps with
        mod := ({ s with datas := ds, dataCount := some ds.length } : Module).recorded
        fixed := VecId.data :: ps.fixed } w := by
  cases h with
  | @mk l ws count items =>
    have hany : ¬ (ps.mod.dataCount.any (· ≠ ds.length)) := by
      rw [hmod]
      change ¬ (s.dataCount.any (· ≠ ds.length))
      cases hn : s.dataCount with
      | none => exact Bool.false_ne_true
      | some n =>
        rw [hcount n hn]
        simp
    unfold parseSectionData
    refine (readVu32_reads count).finishes ?_
    intro st hleft
    dsimp only
    rw [if_neg hany, reserve_of hv, ok_bind]
    dsimp only
    rw [hmod]
    have hloop : Reads (fun st => eachEntry dataEntry ds.length
          ({ s with datas := [], dataCount := some ds.length } : Module).recorded st)
        (fun st => (({ s with datas := ds, dataCount := some ds.length } : Module).recorded, st)) ws := by
      refine eachEntry_reads
        (M := fun pre => ({ s with datas := pre, dataCount := some ds.length } : Module).recorded)
        (fun pre d post w hsplit hd => ?_) items
      have hmem : d ∈ ds := by
        rw [hsplit]
        exact List.mem_append_right _ List.mem_cons_self
      refine (parseData_reads hd (hmemory d hmem)).result fun st => ?_
      have hnext : ({ s with datas := pre ++ [d], dataCount := some ds.length } : Module).recorded =
          { ({ s with datas := pre, dataCount := some ds.length } : Module).recorded with
            data := pre.map Data.recorded ++ [d.recorded] } := by
        unfold recorded
        rw [List.map_append]
        rfl
      dsimp only
      rw [hnext]
      rfl
    refine (hloop.last fun st hleft => ?_) st hleft
    dsimp only
    rw [atEnd_of hleft]
    rfl

end Binary.Module

end Silverfir
