import Silverfir.Indices
import Silverfir.Binary
import Mathlib.Data.List.Sort

/-! The sections of a binary one after the other, and how the parser goes through them: a cursor
over the order of the sections moves forward until it is at the section that comes next. -/
namespace Silverfir

open Binary (sectionIds)

/-- A section as it lies in the binary. -/
structure RawSection where
  id : ℕ
  content : Str
  deriving DecidableEq, Repr

/-- A number, a length, and as many bytes. Every section takes at least two bytes. -/
def splitSections : ℕ → Stream → R (List RawSection)
  | 0, _ => .ok []
  | n + 1, st =>
    if st.remaining = 0 then .ok []
    else do
      let (id, st) ← st.readVu7
      let (payloadLen, st) ← st.readVu32
      if payloadLen = 0 then do
        let rest ← splitSections n st
        .ok (⟨id, []⟩ :: rest)
      else do
        let (content, st) ← st.slice payloadLen
        let rest ← splitSections n st
        .ok (⟨id, content.s⟩ :: rest)

/-- The sections come after the magic number and the version. -/
def sectionsOf (bin : Str) : R (List RawSection) :=
  let st : Stream := ⟨bin, 8⟩
  splitSections (st.remaining + 1) st

/-- The numbers of the sections that are not custom. -/
def sectionNumbers (ss : List RawSection) : List ℕ := (ss.filter fun s => s.id ≠ 0).map (·.id)

/-- Every section is there at most once, and they come in their order. -/
structure Disciplined (ss : List RawSection) : Prop where
  once : (sectionNumbers ss).Nodup
  ordered : (sectionNumbers ss).Sublist sectionIds

/-- No section comes directly after one with the same number, custom sections aside. -/
def Unrepeated (ss : List RawSection) : Prop := (sectionNumbers ss).IsChain (· ≠ ·)

/-! ### Going through the sections -/

/-- The cursor and the state of the parser before and after a section. Custom sections and empty
ones leave the module as it is. -/
inductive SectionRound : ℕ × ParseState → RawSection → ℕ × ParseState → Prop
  | custom {current ps s} (hid : s.id = 0) : SectionRound (current, ps) s (current, ps)
  | empty {current ps s current' sec} (hid : s.id ≠ 0) (hfind : SectionId.find current s.id = some (current', sec))
      (hempty : s.content = []) : SectionRound (current, ps) s (current', ps)
  | parsed {current ps s current' sec ps'} (hid : s.id ≠ 0)
      (hfind : SectionId.find current s.id = some (current', sec)) (hne : s.content ≠ [])
      (h : parseSection sec ps (.from_ s.content) = .ok ps') : SectionRound (current, ps) s (current', ps')

inductive SectionRun : ℕ × ParseState → List RawSection → ℕ × ParseState → Prop
  | nil {x} : SectionRun x [] x
  | cons {x y z s ss} (h : SectionRound x s y) (rest : SectionRun y ss z) : SectionRun x (s :: ss) z

/-- What every section keeps. -/
theorem SectionRun.invariant {P : ℕ × ParseState → Prop} {x z : ℕ × ParseState} {ss : List RawSection}
    (h : SectionRun x ss z) (hP : ∀ x s y, SectionRound x s y → P x → P y) (hx : P x) : P z := by
  induction h with
  | nil => exact hx
  | cons hround _ ih => exact ih (hP _ _ _ hround hx)

theorem slice_content {st content st' : Stream} {n : ℕ} (h : st.slice n = .ok (content, st')) :
    content = .from_ content.s ∧ content.s.length = n ∧ n ≠ 0 := by
  rw [Stream.slice] at h
  split at h
  · simp at h
  next hn =>
  obtain ⟨hle, h⟩ := guard_eq_ok.mp h
  cases h
  refine ⟨rfl, ?_, hn⟩
  rw [Stream.remaining] at hle
  simp only [Stream.from_, List.length_take, List.length_drop]
  omega

/-- The loop of the parser splits the binary and goes through its sections. -/
theorem parseSections_run {n current : ℕ} {ps ps' : ParseState} {st : Stream}
    (h : parseSections n current ps st = .ok ps') :
    ∃ ss current', splitSections n st = .ok ss ∧ SectionRun (current, ps) ss (current', ps') := by
  induction n generalizing current ps st with
  | zero =>
    cases h
    exact ⟨[], current, rfl, .nil⟩
  | succ n ih =>
    rw [parseSections] at h
    split at h
    · next hend =>
      cases h
      exact ⟨[], current, by rw [splitSections, if_pos hend], .nil⟩
    · next hend =>
      simp only [bind_eq_ok] at h
      obtain ⟨⟨id, st1⟩, hid, ⟨len, st2⟩, hlen, h⟩ := h
      have hsplit : splitSections (n + 1) st = (if len = 0 then do
          let rest ← splitSections n st2
          .ok (⟨id, []⟩ :: rest)
        else do
          let (content, st3) ← st2.slice len
          let rest ← splitSections n st3
          .ok (⟨id, content.s⟩ :: rest)) := by
        rw [splitSections, if_neg hend, hid, ok_bind]
        simp only [hlen, ok_bind]
      split at h
      · simp at h
      · next current1 sec hfind =>
        split at h
        · next hzero =>
          obtain ⟨ss, current', hss, hrun⟩ := ih h
          refine ⟨⟨id, []⟩ :: ss, current', ?_, .cons ?_ hrun⟩
          · rw [hsplit, if_pos hzero, hss]
            rfl
          · split at hfind
            · next hcustom =>
              cases hfind
              exact .custom hcustom
            · next hcustom => exact .empty hcustom hfind rfl
        · next hzero =>
          simp only [bind_eq_ok] at h
          obtain ⟨⟨content, st3⟩, hslice, ps1, hsec, h⟩ := h
          obtain ⟨ss, current', hss, hrun⟩ := ih h
          obtain ⟨hfrom, hlength, -⟩ := slice_content hslice
          have hne : content.s ≠ [] := by
            intro hnil
            rw [hnil] at hlength
            exact hzero hlength.symm
          refine ⟨⟨id, content.s⟩ :: ss, current', ?_, .cons ?_ hrun⟩
          · rw [hsplit, if_neg hzero, hslice, ok_bind]
            simp only [hss, ok_bind]
          · split at hfind
            · next hcustom =>
              cases hfind
              cases hsec
              exact .custom hcustom
            · next hcustom =>
              rw [hfrom] at hsec
              exact .parsed hcustom hfind hne hsec

/-- What is parsed is what the sections of the binary make of the empty module. -/
theorem parseModule_run {bin : Str} {mod : Module} (h : parseModule bin = .ok mod) :
    ∃ ss ps current version, sectionsOf bin = .ok ss ∧
      SectionRun (0, { mod := { formatVersion := version } }) ss (current, ps) ∧ ps.mod = mod := by
  rw [parseModule] at h
  obtain ⟨-, h⟩ := guard_eq_ok.mp h
  simp only [bind_eq_ok] at h
  obtain ⟨⟨magic, st⟩, hmagic, h⟩ := h
  obtain ⟨-, h⟩ := guard_eq_ok.mp h
  simp only [bind_eq_ok] at h
  obtain ⟨⟨version, st'⟩, hversion, h⟩ := h
  obtain ⟨-, h⟩ := guard_eq_ok.mp h
  simp only [bind_eq_ok] at h
  obtain ⟨ps, hps, h⟩ := h
  cases h
  have hst : st' = ⟨bin, 8⟩ := by
    rw [(Stream.readFixed_ok hversion).2.2, (Stream.readFixed_ok hmagic).2.2]
    rfl
  rw [hst] at hps
  obtain ⟨ss, current, hss, hrun⟩ := parseSections_run hps
  exact ⟨ss, ps, current, version, hss, hrun, rfl⟩

/-! ### The order of the sections -/

theorem SectionId.find_id {current id current' : ℕ} {sec : SectionId} (h : find current id = some (current', sec)) :
    sec.id = id := by
  rw [find, Option.bind_eq_some_iff] at h
  obtain ⟨i, hi, h⟩ := h
  obtain ⟨sec', hsec, hpair⟩ := Option.map_eq_some_iff.mp h
  cases hpair
  obtain ⟨hlt, hmatch, -⟩ := List.findIdx?_eq_some_iff_getElem.mp hi
  have hget : (order.drop current)[i] = sec := by
    rw [List.getElem_drop]
    exact (List.getElem?_eq_some_iff.mp hsec).2
  rw [hget] at hmatch
  exact beq_iff_eq.mp hmatch

theorem SectionId.rank_injective : Function.Injective SectionId.rank := by
  intro a b h
  cases a <;> cases b <;> first | rfl | cases h

theorem SectionId.mem_order (sec : SectionId) : sec ∈ order := by
  cases sec <;> decide

/-- The sections the cursor stood at, one for each section that is not custom. -/
theorem SectionRun.stops {x z : ℕ × ParseState} {ss : List RawSection} (h : SectionRun x ss z) :
    ∃ secs : List SectionId, sectionNumbers ss = secs.map SectionId.id ∧
      (∀ sec ∈ secs, x.1 ≤ sec.rank ∧ sec ≠ .custom) ∧
      secs.Pairwise fun a b => a.rank ≤ b.rank := by
  induction h with
  | nil => exact ⟨[], rfl, by simp, .nil⟩
  | @cons x y z s ss hround _ ih =>
    obtain ⟨secs, hids, hle, hsorted⟩ := ih
    have key : ∀ current current' sec, s.id ≠ 0 → SectionId.find current s.id = some (current', sec) →
        (∀ sec' ∈ secs, current' ≤ sec'.rank ∧ sec' ≠ .custom) →
        ∃ secs : List SectionId, sectionNumbers (s :: ss) = secs.map SectionId.id ∧
          (∀ sec ∈ secs, current ≤ sec.rank ∧ sec ≠ .custom) ∧ secs.Pairwise fun a b => a.rank ≤ b.rank := by
      intro current current' sec hid hfind hle
      obtain ⟨hforward, horder⟩ := SectionId.find_order hfind
      have hrank := SectionId.rank_eq horder
      have hsec := SectionId.find_id hfind
      refine ⟨sec :: secs, ?_, ?_, ?_⟩
      · have hcons : sectionNumbers (s :: ss) = s.id :: sectionNumbers ss := by
          rw [sectionNumbers, List.filter_cons_of_pos (by simpa using hid)]
          rfl
        rw [hcons, hids, List.map_cons, hsec]
      · intro sec' hmem
        rcases List.mem_cons.mp hmem with heq | hmem
        · rw [heq]
          refine ⟨by omega, fun hcustom => hid ?_⟩
          rw [← hsec, hcustom]
          rfl
        · obtain ⟨hrest, hne⟩ := hle sec' hmem
          exact ⟨by omega, hne⟩
      · refine List.pairwise_cons.mpr ⟨fun sec' hmem => ?_, hsorted⟩
        have := (hle sec' hmem).1
        omega
    cases hround with
    | custom hid =>
      refine ⟨secs, ?_, hle, hsorted⟩
      rw [← hids, sectionNumbers, List.filter_cons_of_neg (by simpa using hid)]
      rfl
    | empty hid hfind _ => exact key _ _ _ hid hfind hle
    | parsed hid hfind _ _ => exact key _ _ _ hid hfind hle

/-- Sections that never stay at the same place are in their order. -/
theorem sublist_order {secs : List SectionId} (hcustom : ∀ sec ∈ secs, sec ≠ .custom)
    (hsorted : secs.Pairwise fun a b => a.rank ≤ b.rank) (hchain : secs.IsChain fun a b => a ≠ b) :
    secs.Sublist SectionId.order.tail := by
  have hstrict : secs.Pairwise fun a b => a.rank < b.rank := by
    have htrans : IsTrans SectionId fun a b => a.rank < b.rank := ⟨fun _ _ _ => Nat.lt_trans⟩
    rw [← List.isChain_iff_pairwise]
    have hle := List.isChain_iff_getElem.mp hsorted.isChain
    have hne := List.isChain_iff_getElem.mp hchain
    refine List.isChain_iff_getElem.mpr fun i hi => lt_of_le_of_ne (hle i hi) fun heq => ?_
    exact hne i hi (SectionId.rank_injective heq)
  have hnodup : secs.Nodup := hstrict.imp fun {a b} hlt heq => by
    rw [heq] at hlt
    exact Nat.lt_irrefl _ hlt
  have hsubset : secs ⊆ SectionId.order.tail := by
    intro sec hmem
    have hin : sec ∈ SectionId.custom :: SectionId.order.tail := SectionId.mem_order sec
    exact (List.mem_cons.mp hin).resolve_left (hcustom sec hmem)
  have hanti : Std.Antisymm fun a b : SectionId => a.rank ≤ b.rank :=
    ⟨fun a b hab hba => SectionId.rank_injective (Nat.le_antisymm hab hba)⟩
  exact List.sublist_of_subperm_of_pairwise (hnodup.subperm hsubset) hsorted (by decide)

/-- Of a binary that is accepted, the sections are there once and in order exactly if none comes
directly after one with the same number. -/
theorem parseModule_sections (bin : Str) (mod : Module) (h : parseModule bin = .ok mod) :
    ∃ ss, sectionsOf bin = .ok ss ∧ (Disciplined ss ↔ Unrepeated ss) := by
  obtain ⟨ss, ps, current, version, hss, hrun, -⟩ := parseModule_run h
  obtain ⟨secs, hids, hcustom, hsorted⟩ := hrun.stops
  refine ⟨ss, hss, fun hd => ?_, fun hchain => ?_⟩
  · exact List.Pairwise.isChain hd.once
  · rw [Unrepeated, hids, List.isChain_map] at hchain
    have hsub := sublist_order (fun sec hmem => (hcustom sec hmem).2) hsorted
      (hchain.imp fun a b hne heq => hne (congrArg SectionId.id heq))
    have hordered : (sectionNumbers ss).Sublist sectionIds := by
      rw [hids]
      exact hsub.map SectionId.id
    exact ⟨hordered.nodup (by decide), hordered⟩

/-- Two import sections without imports. -/
def repeatedImports : Str := [0x00, 0x61, 0x73, 0x6d, 1, 0, 0, 0, 2, 1, 0, 2, 1, 0]

theorem parseModule_sections_repeated : ∃ mod, parseModule repeatedImports = .ok mod ∧
    ∃ ss, sectionsOf repeatedImports = .ok ss ∧ (Disciplined ss ↔ Unrepeated ss) :=
  have h : parseModule repeatedImports = .ok { formatVersion := 1 } := by decide +kernel
  ⟨_, h, parseModule_sections repeatedImports _ h⟩

/-- The cursor stays at the section it has found. -/
theorem repeated_section_accepted : ¬ ∀ bin mod, parseModule bin = .ok mod →
    ∃ ss, sectionsOf bin = .ok ss ∧ Disciplined ss := by
  intro hall
  have h : parseModule repeatedImports = .ok { formatVersion := 1 } := by decide +kernel
  obtain ⟨ss, hss, hd⟩ := hall _ _ h
  have hsections : sectionsOf repeatedImports = .ok [⟨2, [0]⟩, ⟨2, [0]⟩] := by decide +kernel
  rw [hsections] at hss
  cases hss
  exact absurd hd.once (by decide)

end Silverfir
