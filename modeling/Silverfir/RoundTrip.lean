import Silverfir.Segments
import Mathlib.Tactic.IntervalCases

/-! `parse_module` on the encodings of an abstract module. When it has come past some sections, the
module of these sections is recorded. -/
namespace Silverfir

open Grammar

/-! ### Sizes -/

namespace Binary

theorem U32.length_pos {n : ℕ} {w : Str} (h : U32 n w) : 1 ≤ w.length := by
  unfold U32 at h
  cases h with
  | last => exact Nat.le_refl 1
  | more => exact Nat.succ_le_succ (Nat.zero_le _)

theorem Vector.length_pos {α : Type} {E : α → Str → Prop} {xs : List α} {w : Str} (h : Vector E xs w) :
    1 ≤ w.length := by
  cases h with
  | mk count items =>
    have hcount := count.length_pos
    rw [List.length_append]
    omega

theorem Vector.length_le {α : Type} {E : α → Str → Prop} {k : ℕ} (hE : ∀ x w, E x w → k ≤ w.length) {xs : List α}
    {w : Str} (h : Vector E xs w) : k * xs.length < w.length := by
  cases h with
  | mk count items =>
    have hcount := count.length_pos
    have hitems := items.length_le hE
    rw [List.length_append]
    omega

theorem Bytes.length_pos {bs w : Str} (h : Bytes bs w) : 1 ≤ w.length := by
  cases h with
  | mk count =>
    have hcount := count.length_pos
    rw [List.length_append]
    omega

theorem Import.Encodes.length_le (i : Import) (w : Str) (h : i.Encodes w) : 2 ≤ w.length := by
  cases h with
  | mk hmodule hfield hdesc =>
    have hone := hmodule.length_pos
    have htwo := hfield.length_pos
    rw [List.length_append, List.length_append]
    omega

theorem Code.Encodes.length_le (c : Code) (w : Str) (h : c.Encodes w) : 2 ≤ w.length := by
  cases h with
  | mk hlocals hsize =>
    have hone := hsize.length_pos
    have htwo := hlocals.length_pos
    rw [List.length_append, List.length_append]
    omega

namespace Module
variable {m : Module}

theorem content_ne {id : ℕ} {w : Str} (h : m.Content id w) : w ≠ [] := by
  have hpos : 1 ≤ w.length := by
    unfold Content at h
    split at h
    case h_8 =>
      obtain ⟨_, -, h⟩ := h
      exact h.length_pos
    case h_10 =>
      obtain ⟨_, -, h⟩ := h
      exact h.length_pos
    case h_13 => exact h.elim
    all_goals exact h.length_pos
  exact List.ne_nil_of_length_pos hpos

theorem Sections.content {ids : List ℕ} {ws : Str} (h : m.Sections ids ws) {id : ℕ} (hid : id ∈ ids) :
    m.Omits id ∨ ∃ content, m.Content id content ∧ content.length < 2 ^ 32 := by
  induction h with
  | nil => cases hid
  | custom _ _ _ ih => exact ih hid
  | omitted homits _ ih =>
    rcases List.mem_cons.mp hid with rfl | hid
    · exact Or.inl homits
    · exact ih hid
  | present hcontent hsection _ ih =>
    rcases List.mem_cons.mp hid with rfl | hid
    · cases hsection with
      | mk size => exact Or.inr ⟨_, hcontent, Leb128.Unsigned.lt size⟩
    · exact ih hid

/-- The sizes of two sections bound the number of functions. -/
theorem few_functions {ws : Str} (h : m.Sections sectionIds ws) (hcodes : m.codes.length = m.funcs.length) :
    m.typeidxs.length < 2 ^ 32 := by
  have himport : 2 ∈ sectionIds := by decide
  have hcode : 10 ∈ sectionIds := by decide
  have himports : 2 * m.imports.length < 2 ^ 32 := by
    rcases h.content himport with homits | ⟨content, hcontent, hlt⟩
    · have hnil : m.imports = [] := homits
      rw [hnil]
      exact Nat.two_pow_pos 32
    · exact lt_trans (Vector.length_le Import.Encodes.length_le hcontent) hlt
  have hbodies : 2 * m.codes.length < 2 ^ 32 := by
    rcases h.content hcode with homits | ⟨content, hcontent, hlt⟩
    · have hnil : m.codes = [] := homits
      rw [hnil]
      exact Nat.two_pow_pos 32
    · exact lt_trans (Vector.length_le Code.Encodes.length_le hcontent) hlt
  have hfilter : (m.imports.filterMap Import.func?).length ≤ m.imports.length := List.length_filterMap_le _ _
  unfold typeidxs
  rw [List.length_append]
  omega

end Module

end Binary

/-! ### Sections in order -/

/-- The place of the section that sets the vector to be fixed. -/
def VecId.place : VecId → ℕ
  | .funcTypes => 0
  | .funcs => 2
  | .tables => 3
  | .memories => 4
  | .globals => 5
  | .exports => 6
  | .elements | .vFuncidx _ | .vExpr _ => 8
  | .localTypes _ => 10
  | .data => 11

namespace Binary.Module
variable {m : Module}

/-- What is recorded when `k` sections have been read or left out. -/
def Stage (m : Module) (k : ℕ) (mod : Silverfir.Module) : Prop :=
  mod = (m.upTo k).recorded ∧ (k = 12 → m.datas = []) ∨
    k = 12 ∧ mod = ({ m with dataCount := some m.datas.length } : Module).recorded

theorem Stage.of_lt {k : ℕ} {mod : Silverfir.Module} (h : m.Stage k mod) (hk : k < 12) :
    mod = (m.upTo k).recorded := by
  rcases h with ⟨h, -⟩ | ⟨rfl, -⟩
  · exact h
  · exact absurd hk (Nat.lt_irrefl 12)

theorem Stage.of_eq {k : ℕ} {mod : Silverfir.Module} (hk : k ≠ 12) (h : mod = (m.upTo k).recorded) : m.Stage k mod :=
  Or.inl ⟨h, fun hlast => absurd hlast hk⟩

/-- The section at place `k`. -/
def sectionAt (k : ℕ) : SectionId := SectionId.order.getD (k + 1) .custom

theorem section_reads (hm : m.Checked) (hcount : m.typeidxs.length < 2 ^ 32) {k : ℕ} (hk : k < 12) {id : ℕ}
    (hid : sectionIds[k]? = some id) {content : Str} (h : m.Content id content) {ps : ParseState}
    (hmod : ps.mod = (m.upTo k).recorded) (hfixed : ∀ v ∈ ps.fixed, v.place < k) :
    ∃ ps', parseSection (sectionAt k) ps (Stream.from_ content) = .ok ps' ∧ m.Stage (k + 1) ps'.mod ∧
      ∀ v ∈ ps'.fixed, v.place < k + 1 := by
  have hleft := left_from_ content
  have hold : ∀ v ∈ ps.fixed, v.place < k + 1 := fun v hv => Nat.lt_succ_of_lt (hfixed v hv)
  have hcons : ∀ v : VecId, v.place = k → ∀ v' ∈ v :: ps.fixed, v'.place < k + 1 := by
    intro v hv v' hv'
    rcases List.mem_cons.mp hv' with rfl | hmem
    · omega
    · exact hold v' hmem
  have hnew : ∀ v : VecId, v.place = k → v ∉ ps.fixed := by
    intro v hv hmem
    have := hfixed v hmem
    omega
  have hfuncs : ∀ idx ∈ m.funcs, idx < m.types.length := fun idx hidx =>
    hm.typeidxs idx (List.mem_append_right _ hidx)
  have himported : ∀ idx ∈ m.imports.filterMap Import.func?, idx < m.types.length := fun idx hidx =>
    hm.typeidxs idx (List.mem_append_left _ hidx)
  interval_cases k <;> cases hid
  · exact ⟨_, typeSection h hm.types hmod (hnew _ rfl) _ hleft, Stage.of_eq (by decide) rfl, hcons _ rfl⟩
  · exact ⟨_, importSection h himported hm.imports hmod _ hleft, Stage.of_eq (by decide) rfl, hold⟩
  · exact ⟨_, functionSection (s := m.upTo 2) h rfl rfl hfuncs hmod (hnew _ rfl) _ hleft,
      Stage.of_eq (by decide) rfl, hcons _ rfl⟩
  · exact ⟨_, tableSection (s := m.upTo 3) h rfl hm.tables hmod (hnew _ rfl) _ hleft,
      Stage.of_eq (by decide) rfl, hcons _ rfl⟩
  · exact ⟨_, memorySection (s := m.upTo 4) h rfl hm.memories hmod (hnew _ rfl) _ hleft,
      Stage.of_eq (by decide) rfl, hcons _ rfl⟩
  · exact ⟨_, globalSection (s := m.upTo 5) h rfl hmod (hnew _ rfl) _ hleft,
      Stage.of_eq (by decide) rfl, hcons _ rfl⟩
  · exact ⟨_, exportSection (s := m.upTo 6) h hm.exports hmod (hnew _ rfl) _ hleft,
      Stage.of_eq (by decide) rfl, hcons _ rfl⟩
  · obtain ⟨idx, hstart, hidx⟩ := h
    obtain ⟨t, ht, htype⟩ := hm.start idx hstart
    have hput : m.upTo 8 = { m.upTo 7 with start := some idx } := by
      rw [← hstart]
      rfl
    have hspace : (m.upTo 7).typeidxs[idx]? = some t := ht
    refine ⟨_, startSection (s := m.upTo 7) hidx hspace htype hmod _ hleft, Stage.of_eq (by decide) ?_, hold⟩
    rw [hput]
  · have hv : ∀ v ∈ ps.fixed, v ≠ .elements ∧ ∀ i, v ≠ .vExpr i ∧ v ≠ .vFuncidx i := by
      intro v hv
      have hlt := hfixed v hv
      refine ⟨?_, fun i => ⟨?_, ?_⟩⟩ <;> rintro rfl <;> exact Nat.lt_irrefl 8 hlt
    obtain ⟨ps', hparse, hmod', hfixed'⟩ :=
      elementSection (s := m.upTo 8) h hm.elems hmod hv
    refine ⟨ps', hparse _ hleft, Stage.of_eq (by decide) hmod', fun v hv' => ?_⟩
    rcases hfixed' v hv' with hmem | rfl | ⟨i, rfl | rfl⟩
    · exact hold v hmem
    all_goals exact Nat.lt_succ_self 8
  · obtain ⟨n, hn, hw⟩ := h
    have hput : m.upTo 10 = { m.upTo 9 with dataCount := some n } := by
      rw [← hn]
      rfl
    refine ⟨_, dataCountSection (s := m.upTo 9) hw hmod _ hleft, Stage.of_eq (by decide) ?_, hold⟩
    rw [hput]
  · have hv : ∀ i, VecId.localTypes i ∉ ps.fixed := fun i => hnew _ rfl
    have htypes : ∀ t ∈ m.types, t.params.length ≤ resultTypeCountMax := fun t ht => (hm.types t ht).1
    obtain ⟨ps', hparse, hmod', hfixed'⟩ :=
      codeSection (s := m.upTo 10) h hm.codes hcount hm.locals htypes hmod hv
    refine ⟨ps', hparse _ hleft, Stage.of_eq (by decide) hmod', fun v hv' => ?_⟩
    rcases hfixed' v hv' with hmem | ⟨i, rfl⟩
    · exact hold v hmem
    · exact Nat.lt_succ_self 10
  · exact ⟨_, dataSection (s := m.upTo 11) h hm.dataCount hm.memidxs hmod (hnew _ rfl) _ hleft,
      Or.inr ⟨rfl, rfl⟩, hcons _ rfl⟩

/-- A section that is left out has nothing that would be recorded. -/
theorem upTo_omitted {k id : ℕ} (hk : k < 12) (hid : sectionIds[k]? = some id) (h : m.Omits id) :
    m.upTo (k + 1) = m.upTo k := by
  have hlast : m.datas = [] → m = { m with datas := [] } := fun hdatas => by rw [← hdatas]
  interval_cases k <;> cases hid
  case «11».refl => exact hlast h
  all_goals
    simp only [Omits] at h
    simp only [upTo, h]

theorem Stage.omitted {k id : ℕ} {mod : Silverfir.Module} (h : m.Stage k mod) (hk : k < 12)
    (hid : sectionIds[k]? = some id) (homits : m.Omits id) : m.Stage (k + 1) mod := by
  refine Or.inl ⟨?_, fun hlast => ?_⟩
  · rw [upTo_omitted hk hid homits]
    exact h.of_lt hk
  · have hk11 : k = 11 := by omega
    subst hk11
    cases hid
    exact homits

theorem find_sectionAt {k id current : ℕ} (hk : k < 12) (hid : sectionIds[k]? = some id) (hcurrent : current ≤ k) :
    0 < id ∧ id < 0x80 ∧ SectionId.find current id = some (k + 1, sectionAt k) := by
  have key : ∀ k < 12, ∀ current ≤ k, ∀ id ∈ sectionIds[k]?,
      0 < id ∧ id < 0x80 ∧ SectionId.find current id = some (k + 1, sectionAt k) := by decide
  exact key k hk current hcurrent id hid

end Binary.Module

/-- One round of the loop. An empty content is passed over. -/
theorem parseSections_succ {n current current' id : ℕ} {sec : SectionId} {content w rest : Str}
    {ps ps' : ParseState} {st : Stream} (h : Binary.Section id content w) (hleft : Cursor.left st = w ++ rest)
    (hid : id < 0x80)
    (hfind : (if id = 0 then some (current, SectionId.custom) else SectionId.find current id) = some (current', sec))
    (hparse : content ≠ [] → parseSection sec ps (Stream.from_ content) = .ok ps') (hempty : content = [] → ps' = ps) :
    parseSections (n + 1) current ps st = parseSections n current' ps' (Cursor.advance st w.length) := by
  cases h with
  | @mk l size =>
    have hbyte : (UInt8.ofNat id).toNat = id := toNat_ofNat_small (by omega)
    have hremaining : st.remaining ≠ 0 := by
      unfold Stream.remaining
      rw [← List.length_drop, ← left_eq, hleft]
      simp
    rw [List.append_assoc] at hleft
    have hread := readVu7_reads (b := UInt8.ofNat id) (by rw [hbyte]; exact hid) st _ hleft
    have hafter := left_behind hleft
    rw [List.append_assoc] at hafter
    have hsize := readVu32_reads size _ _ hafter
    have hcontent := left_behind hafter
    have hend : Cursor.advance st ([UInt8.ofNat id] ++ (l ++ content)).length =
        Cursor.advance (Cursor.advance (Cursor.advance st [UInt8.ofNat id].length) l.length) content.length := by
      rw [Cursor.advance_advance, Cursor.advance_advance, List.length_append, List.length_append]
    rw [hend]
    generalize Cursor.advance (Cursor.advance st [UInt8.ofNat id].length) l.length = st' at hsize hcontent
    rw [parseSections, if_neg hremaining, hread, ok_bind]
    dsimp only
    rw [hsize, ok_bind, hbyte, hfind]
    dsimp only
    by_cases hnil : content = []
    · rw [if_pos (List.length_eq_zero_iff.mpr hnil), hempty hnil, hnil, List.length_nil, Cursor.advance_zero]
    · have hslice := slice_reads hnil _ _ hcontent
      dsimp only at hslice
      rw [if_neg (mt List.eq_nil_of_length_eq_zero hnil), hslice, ok_bind]
      dsimp only
      rw [hparse hnil, ok_bind]

theorem section_length_pos {id : ℕ} {content w : Str} (h : Binary.Section id content w) : 1 ≤ w.length := by
  cases h with
  | mk size =>
    rw [List.length_append, List.length_singleton]
    omega

theorem next_section {k id : ℕ} {ids : List ℕ} (h : id :: ids = Binary.sectionIds.drop k) :
    k < 12 ∧ Binary.sectionIds[k]? = some id ∧ ids = Binary.sectionIds.drop (k + 1) := by
  have hlen := congrArg List.length h
  rw [List.length_cons, List.length_drop] at hlen
  change ids.length + 1 = 12 - k at hlen
  refine ⟨by omega, ?_, ?_⟩
  · rw [← List.head?_drop, ← h, List.head?_cons]
  · rw [← List.tail_drop, ← h, List.tail_cons]

/-- The loop, from any place between two sections. -/
theorem parseSections_reads {m : Binary.Module} (hm : m.Checked) (hcount : m.typeidxs.length < 2 ^ 32) {ids : List ℕ}
    {ws : Str} (h : m.Sections ids ws) {k n current : ℕ} {ps : ParseState} {st : Stream}
    (hids : ids = Binary.sectionIds.drop k) (hk : k ≤ 12) (hcurrent : current ≤ k) (hstage : m.Stage k ps.mod)
    (hfixed : ∀ v ∈ ps.fixed, v.place < k) (hleft : Cursor.left st = ws) (hn : ws.length < n) :
    ∃ ps', parseSections n current ps st = .ok ps' ∧ m.Stage 12 ps'.mod := by
  induction h generalizing k n current ps st with
  | nil =>
    have hlast : k = 12 := by
      have hlen := congrArg List.length hids
      rw [List.length_nil, List.length_drop] at hlen
      change 0 = 12 - k at hlen
      omega
    subst hlast
    have hremaining : st.remaining = 0 := by
      unfold Stream.remaining
      rw [← List.length_drop, ← left_eq, hleft, List.length_nil]
    cases n with
    | zero => exact absurd hn (Nat.not_lt_zero _)
    | succ n =>
      refine ⟨ps, ?_, hstage⟩
      rw [parseSections, if_pos hremaining]
  | @custom ids name u bytes w ws hname hsection hrest ih =>
    cases n with
    | zero => exact absurd hn (Nat.not_lt_zero _)
    | succ n =>
      have hpos := section_length_pos hsection
      rw [List.length_append] at hn
      have hround : parseSections (n + 1) current ps st = parseSections n current ps (Cursor.advance st w.length) :=
        parseSections_succ hsection hleft (by decide) rfl (fun _ => rfl) fun _ => rfl
      rw [hround]
      exact ih hids hk hcurrent hstage hfixed (left_behind hleft) (by omega)
  | @omitted id ids ws homits hrest ih =>
    obtain ⟨hlt, hid, hrest⟩ := next_section hids
    have hfixed' : ∀ v ∈ ps.fixed, v.place < k + 1 := fun v hv => Nat.lt_succ_of_lt (hfixed v hv)
    exact ih hrest hlt (Nat.le_succ_of_le hcurrent) (hstage.omitted hlt hid homits) hfixed' hleft hn
  | @present id ids content w ws hcontent hsection hrest ih =>
    obtain ⟨hlt, hid, hrest⟩ := next_section hids
    obtain ⟨hpos, hsmall, hfind⟩ := Binary.Module.find_sectionAt hlt hid hcurrent
    obtain ⟨ps', hparse, hstage', hfixed'⟩ :=
      Binary.Module.section_reads hm hcount hlt hid hcontent (hstage.of_lt hlt) hfixed
    cases n with
    | zero => exact absurd hn (Nat.not_lt_zero _)
    | succ n =>
      have hsize := section_length_pos hsection
      rw [List.length_append] at hn
      have hround : parseSections (n + 1) current ps st = parseSections n (k + 1) ps' (Cursor.advance st w.length) := by
        refine parseSections_succ hsection hleft hsmall ?_ (fun _ => hparse) ?_
        · rw [if_neg (by omega)]
          exact hfind
        · exact fun hnil => absurd hnil (Binary.Module.content_ne hcontent)
      rw [hround]
      exact ih hrest hlt (Nat.le_refl _) hstage' hfixed' (left_behind hleft) (by omega)

/-- `parse_module` reads every encoding of a module that passes the checks, and records the module. -/
theorem parse_encoded (m : Binary.Module) (bin : Str) (hm : m.Checked) (h : m.Encodes bin) :
    ∃ dataCount, parseModule bin = .ok { m.recorded with dataCount := dataCount } ∧
      (dataCount = some m.datas.length ∨ dataCount = none ∧ m.datas = [] ∧ m.dataCount = none) := by
  cases h with
  | @mk ws hsections =>
    have hcount := Binary.Module.few_functions hsections hm.codes
    have hmagic : ReadsValue Stream.readU32 0x6D736100 [0x00, 0x61, 0x73, 0x6D] := readFixed_reads rfl
    have hversion : ReadsValue Stream.readU32 1 [0x01, 0x00, 0x00, 0x00] := readFixed_reads rfl
    have hstart := left_from_ ([0x00, 0x61, 0x73, 0x6D] ++ ([0x01, 0x00, 0x00, 0x00] ++ ws))
    have hnext := left_behind hstart
    have hleft := left_behind hnext
    have hfirst := hmagic _ _ hstart
    have hsecond := hversion _ _ hnext
    generalize hst : Cursor.advance (Cursor.advance
      (Stream.from_ ([0x00, 0x61, 0x73, 0x6D] ++ ([0x01, 0x00, 0x00, 0x00] ++ ws))) _) _ = st at hleft hsecond
    have hremaining : st.remaining = ws.length := by
      unfold Stream.remaining
      rw [← List.length_drop, ← left_eq, hleft]
    have hempty : m.Stage 0 ({ formatVersion := 1 } : Module) := Binary.Module.Stage.of_eq (by decide) rfl
    obtain ⟨ps, hparse, hstage⟩ :
        ∃ ps, parseSections (st.remaining + 1) 0 { mod := { formatVersion := 1 } } st = .ok ps ∧ m.Stage 12 ps.mod :=
      parseSections_reads hm hcount hsections rfl (Nat.zero_le _) (Nat.le_refl 0) hempty
        (fun v hv => absurd hv List.not_mem_nil) hleft (by omega)
    have hresult : parseModule ([0x00, 0x61, 0x73, 0x6D] ++ ([0x01, 0x00, 0x00, 0x00] ++ ws)) = .ok ps.mod := by
      have hne : [0x00, 0x61, 0x73, 0x6D] ++ ([0x01, 0x00, 0x00, 0x00] ++ ws) ≠ [] := List.cons_ne_nil _ _
      unfold parseModule
      rw [if_neg hne]
      dsimp only
      rw [hfirst, ok_bind]
      dsimp only
      rw [if_neg (by decide), hsecond, ok_bind]
      dsimp only
      rw [if_neg (by decide), hparse, ok_bind]
    rw [hresult]
    rcases hstage with ⟨hmod, hdatas⟩ | ⟨-, hmod⟩
    · have hnil := hdatas rfl
      refine ⟨m.dataCount, congrArg Except.ok hmod, ?_⟩
      cases hn : m.dataCount with
      | none => exact Or.inr ⟨rfl, hnil, rfl⟩
      | some n => exact Or.inl (congrArg some (hm.dataCount n hn))
    · exact ⟨some m.datas.length, congrArg Except.ok hmod, Or.inl rfl⟩

/-- A memory of at least one page without a maximum, under the name `m`. The page count is padded to
two bytes. -/
theorem parse_encoded_memory :
    let m : Binary.Module := { memories := [⟨1, none⟩], exports := [⟨['m'], .memory, 0⟩] }
    ∃ dataCount, parseModule [0x00, 0x61, 0x73, 0x6D, 0x01, 0x00, 0x00, 0x00, 0x05, 0x04, 0x01, 0x00, 0x81, 0x00,
        0x07, 0x05, 0x01, 0x01, 0x6D, 0x02, 0x00] = .ok { m.recorded with dataCount := dataCount } ∧
      (dataCount = some m.datas.length ∨ dataCount = none ∧ m.datas = [] ∧ m.dataCount = none) := by
  intro m
  have hnumber : ∀ b : UInt8, b.toNat < 128 → Binary.U32 b.toNat [b] := fun b hb =>
    .last b hb (lt_trans hb (by decide))
  have hmin : Binary.U32 1 [0x81, 0x00] := .more 0x81 (by decide) (by decide) (.last 0x00 (by decide) (by decide))
  have hlimits : Items Binary.Limits.Encodes [⟨1, none⟩] [0x00, 0x81, 0x00] :=
    .cons (Binary.Limits.Encodes.open_ hmin) .nil
  have hmemories : m.Content 5 ([0x01] ++ [0x00, 0x81, 0x00]) := Binary.Vector.mk (hnumber 0x01 (by decide)) hlimits
  have hname : Binary.Bytes (Binary.Name.utf8 ['m']) ([0x01] ++ Binary.Name.utf8 ['m']) :=
    .mk (hnumber 0x01 (by decide))
  have hexport : Items Binary.Export.Encodes [⟨['m'], .memory, 0⟩] [0x01, 0x6D, 0x02, 0x00] :=
    .cons (Binary.Export.Encodes.mk hname (hnumber 0x00 (by decide))) .nil
  have hexports : m.Content 7 ([0x01] ++ [0x01, 0x6D, 0x02, 0x00]) :=
    Binary.Vector.mk (hnumber 0x01 (by decide)) hexport
  have hend : m.Sections [8, 9, 12, 10, 11] [] :=
    .omitted rfl (.omitted rfl (.omitted rfl (.omitted rfl (.omitted rfl .nil))))
  have hfrom7 : m.Sections [7, 8, 9, 12, 10, 11] _ := .present hexports (.mk (hnumber 0x05 (by decide))) hend
  have hfrom5 : m.Sections [5, 6, 7, 8, 9, 12, 10, 11] _ :=
    .present hmemories (.mk (hnumber 0x04 (by decide))) (.omitted rfl hfrom7)
  have hsections : m.Sections Binary.sectionIds _ := .omitted rfl (.omitted rfl (.omitted rfl (.omitted rfl hfrom5)))
  refine parse_encoded m _ ?_ (.mk hsections)
  exact
    { types := by decide
      typeidxs := by decide
      imports := fun i hi => absurd hi List.not_mem_nil
      tables := by decide
      memories := by decide
      exports := by decide
      start := fun idx hidx => nomatch hidx
      elems := fun e he => absurd he List.not_mem_nil
      dataCount := fun n hn => nomatch hn
      codes := rfl
      locals := fun c hc => absurd hc List.not_mem_nil
      memidxs := fun d hd => absurd hd List.not_mem_nil }

end Silverfir
