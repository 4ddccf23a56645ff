import Silverfir.AssertedSections
import Silverfir.Indices

/-! The parser with its assertions does what the parser does, up to the first allocation that fails. -/
namespace Silverfir

open Lockstep (Until)

namespace Asserted

/-! ### Element segments -/

section Elements
variable {mem : Allocator} {a : Arena} {ps ps0 : ParseState} {st : Stream} {i : ℕ}

theorem isValid_mono {v : VecHeader} {m n : ℕ} (h : v.IsValid n) (hle : m ≤ n) : v.IsValid m := by
  obtain ⟨hdata, hsize⟩ := VecHeader.isValid_iff.mp h
  exact VecHeader.isValid_iff.mpr ⟨hdata, hle.trans hsize⟩

/-- The rounds of a loop that pushes what it reads into a vector with enough room. -/
def Pushing (size : ℕ) {α : Type} (n : ℕ) (x : List α × VecHeader × ℕ × Stream) (y : List α × Stream) : Prop :=
  x.1 = y.1 ∧ x.2.2.2 = y.2 ∧ x.2.2.2.Valid ∧ x.2.1.IsValid (size + x.1.length) ∧ x.2.1.fixed = true ∧
    size + x.1.length + n ≤ x.2.1.capacity

theorem Pushing.step {α β : Type} {size n : ℕ} {xs : List α} {vec : VecHeader} {k : ℕ} {x : α} {st' : Stream}
    {f : VecHeader × ℕ → R β} {g : R (List α × Stream)} {S : β → List α × Stream → Prop}
    (h : Pushing size (n + 1) (xs, vec, k, st) (xs, st)) (hst' : st'.Valid)
    (hf : ∀ k', Pushing size n (xs ++ [x], vec, k', st') (xs ++ [x], st') → Until (Starved mem) SameFault S
      (f (vec, k')) g) :
    Until (Starved mem) SameFault S (vec.push mem (size + xs.length) k >>= f) g := by
  obtain ⟨-, -, -, hvec, hfixed, hroom⟩ := h
  dsimp only at hvec hfixed hroom
  refine (VecHeader.push_until hvec (Or.inl (by omega))).left fun y _ hy => ?_
  obtain ⟨hvalid, -, hsame⟩ := hy
  obtain ⟨vec', k'⟩ := y
  obtain rfl : vec' = vec := hsame (by omega)
  have hlen := append_size xs x
  refine hf k' ⟨rfl, rfl, hst', ?_, hfixed, ?_⟩
  · dsimp only
    rw [hlen]
    exact hvalid
  · dsimp only
    rw [hlen]
    omega

theorem parseExprs_until {size n k : ℕ} {vec : VecHeader} (hvec : vec.IsValid size) (hfixed : vec.fixed = true)
    (hroom : size + n ≤ vec.capacity) (hst : st.Valid) :
    Until (Starved mem) SameFault (Pushing size 0) (parseExprs mem size n vec k st) (Silverfir.parseExprs n st) := by
  refine Until.times (P := fun n x y => Pushing size n x y) ?_ ⟨rfl, rfl, hst, hvec, hfixed, hroom⟩
  rintro n ⟨xs, vec, k, st1⟩ ⟨_, _⟩ ⟨rfl, rfl, hround⟩
  refine (parseConstExpr_keeps hround.1).bind fun r _ hvalid => ?_
  exact Pushing.step ⟨rfl, rfl, hround⟩ hvalid fun k' hnext => .ok hnext

theorem parseFuncidxs_until {size funcCount n k : ℕ} {vec : VecHeader} (hvec : vec.IsValid size)
    (hfixed : vec.fixed = true) (hroom : size + n ≤ vec.capacity) (hst : st.Valid) :
    Until (Starved mem) SameFault (Pushing size 0) (parseFuncidxs mem size funcCount n vec k st)
      (Silverfir.parseFuncidxs funcCount n st) := by
  refine Until.times (P := fun n x y => Pushing size n x y) ?_ ⟨rfl, rfl, hst, hvec, hfixed, hroom⟩
  rintro n ⟨xs, vec, k, st1⟩ ⟨_, _⟩ ⟨rfl, rfl, hround⟩
  refine (readVu32_keeps hround.1).bind fun r _ hvalid => ?_
  obtain ⟨funcidx, st2⟩ := r
  refine Until.ite (fun _ => same_err _ _) fun _ => ?_
  -- There is room, so the push does not fail.
  have hpush : Until (Starved mem) SameFault (Pushing size n)
      (vec.push mem (size + xs.length) k >>= fun x => .ok (xs ++ [funcidx], x.1, x.2, st2))
      (.ok (xs ++ [funcidx], st2)) :=
    Pushing.step ⟨rfl, rfl, hround⟩ hvalid fun k' hnext => .ok hnext
  have hlt : size + xs.length < vec.capacity := by
    have hleft := hround.2.2.2
    dsimp only at hleft
    omega
  have hok : vec.push mem (size + xs.length) k = .ok (vec, k) := by
    rw [VecHeader.push, if_neg (not_not.mpr hround.2.1), if_pos hlt]
  rw [hok] at hpush
  rw [pushFuncidx, hok]
  exact hpush

/-- What the entries of the segments leave alone. -/
def SameImports (ps ps0 : ParseState) : Prop := ∀ w, Importable w → (w ∈ ps.fixed ↔ w ∈ ps0.fixed)

/-- A segment whose items have been pushed into one of its vectors. -/
theorem pushed_element {v : VecId} {ps' : ParseState} {vec : VecHeader} {k : ℕ} {elem' : Element} (h : a.For ps')
    (hv : v = .vExpr i ∨ v = .vFuncidx i) (hmem : v ∈ ps'.fixed)
    (hfixed : vec.fixed = true) (hvalid : vec.IsValid (sizeOf { a.mod with elements := a.mod.elements.set i elem' } v))
    (hother : ∀ w, w = VecId.vExpr i ∨ w = VecId.vFuncidx i → w ≠ v →
      sizeOf { a.mod with elements := a.mod.elements.set i elem' } w = sizeOf a.mod w) :
    Arena.For ((a.setVec v (vec, k)).setMod { a.mod with elements := a.mod.elements.set i elem' })
      (ps'.setMod { ps'.mod with elements := ps'.mod.elements.set i elem' }) := by
  rw [← h.mod]
  have helements : VecId.elements ≠ v := by
    rcases hv with rfl | rfl <;> simp
  refine h.setVec ?_ (if_neg helements) hvalid ?_ (fun hno => absurd hmem hno) ?_
  · intro w
    by_cases hw : w = v
    · rw [if_pos hw, hw]
      exact ⟨fun _ => hmem, fun _ => hfixed⟩
    · rw [if_neg hw]
      exact h.fixed w
  · intro w hw
    by_cases hmine : w = .vExpr i ∨ w = .vFuncidx i
    · exact hother w hmine hw
    · cases w with
      | elements => exact List.length_set
      | vExpr j | vFuncidx j =>
        have hne : i ≠ j := by
          rintro rfl
          simp at hmine
        simp only [sizeOf, List.getElem?_set_ne hne]
      | _ => rfl
  · rintro j rfl
    simp at hv

theorem SameImports.reserved {v : VecId} (hv : ¬ Importable v) :
    SameImports { ps with fixed := v :: ps.fixed } ps := by
  intro w hw
  rw [List.mem_cons]
  refine ⟨fun hmem => hmem.resolve_left ?_, Or.inr⟩
  rintro rfl
  exact hv hw

theorem parseElemItems_until {kind : ElemKind} {elem elem0 : Element} (h : a.For ps) (hst : st.Valid)
    (hget : ps.mod.elements[i]? = some elem0) (hexprs : elem.vExpr = elem0.vExpr)
    (hfuncs : elem.vFuncidx = elem0.vFuncidx) :
    Until (Starved mem) SameFault
      (fun x y => x.2.1 = y.2.1 ∧ x.2.2 = y.2.2 ∧ x.2.2.Valid ∧ SameImports y.1 ps ∧
        (x.1.setMod { x.1.mod with elements := x.1.mod.elements.set i x.2.1 }).For
          (y.1.setMod { y.1.mod with elements := y.1.mod.elements.set i y.2.1 }))
      (parseElemItems mem i kind elem a st) (Silverfir.parseElemItems i kind elem ps st) := by
  have hlt := (List.getElem?_eq_some_iff.mp hget).1
  refine (readVu32_keeps hst).bind fun r _ hvalid => ?_
  obtain ⟨idxCount, st1⟩ := r
  refine Until.ite (fun _ => ?_) fun _ => ?_
  · refine Until.bind (reserve_until (v := .vExpr i) h (fun j => by simp) (by simp)) fun a1 ps1 _ hps1 ha1 => ?_
    obtain ⟨hfor, hmod, rfl, hcapacity⟩ := ha1
    have hv : VecId.vExpr i ∉ ps.fixed := by
      intro hv
      rw [ParseState.reserve, if_pos hv] at hps1
      cases hps1
    have hsize : elem.vExpr.length = 0 := by
      have hzero := h.untouched hv (by simp [Importable])
      rw [h.mod, sizeOf, hget] at hzero
      rw [hexprs]
      exact hzero
    have hvec := hfor.valid (.vExpr i)
    have hold : sizeOf a1.mod (.vExpr i) = elem.vExpr.length := by
      rw [hmod, sizeOf, hget, hexprs]
      rfl
    rw [hold] at hvec
    have hroom : elem.vExpr.length + idxCount ≤ (a1.vecs (.vExpr i)).capacity := by omega
    refine Until.bind (parseExprs_until hvec ((hfor.fixed _).mpr List.mem_cons_self) hroom hvalid)
      fun x y _ _ hxy => ?_
    obtain ⟨exprs, vec, k, st2⟩ := x
    obtain ⟨exprs', st3⟩ := y
    obtain ⟨rfl, rfl, hvalid1, hvec1, hfixed1, -⟩ := hxy
    refine .ok ⟨rfl, rfl, hvalid1, SameImports.reserved (by simp [Importable]), ?_⟩
    refine pushed_element hfor (Or.inl rfl) List.mem_cons_self hfixed1 ?_ ?_
    · simp only [sizeOf, hmod, List.getElem?_set_self hlt, Option.map_some, Option.getD_some, List.length_append]
      exact hvec1
    · rintro w (rfl | rfl) hne
      · exact absurd rfl hne
      · simp only [sizeOf, hmod, List.getElem?_set_self hlt, hget, Option.map_some, Option.getD_some, hfuncs]
  · refine Until.bind (reserve_until (v := .vFuncidx i) h (fun j => by simp) (by simp)) fun a1 ps1 _ hps1 ha1 => ?_
    obtain ⟨hfor, hmod, rfl, hcapacity⟩ := ha1
    have hv : VecId.vFuncidx i ∉ ps.fixed := by
      intro hv
      rw [ParseState.reserve, if_pos hv] at hps1
      cases hps1
    have hsize : elem.vFuncidx.length = 0 := by
      have hzero := h.untouched hv (by simp [Importable])
      rw [h.mod, sizeOf, hget] at hzero
      rw [hfuncs]
      exact hzero
    have hvec := hfor.valid (.vFuncidx i)
    have hold : sizeOf a1.mod (.vFuncidx i) = elem.vFuncidx.length := by
      rw [hmod, sizeOf, hget, hfuncs]
      rfl
    rw [hold] at hvec
    rw [hmod]
    have hroom : elem.vFuncidx.length + idxCount ≤ (a1.vecs (.vFuncidx i)).capacity := by omega
    refine Until.bind (parseFuncidxs_until hvec ((hfor.fixed _).mpr List.mem_cons_self) hroom hvalid)
      fun x y _ _ hxy => ?_
    obtain ⟨idxs, vec, k, st2⟩ := x
    obtain ⟨idxs', st3⟩ := y
    obtain ⟨rfl, rfl, hvalid1, hvec1, hfixed1, -⟩ := hxy
    refine .ok ⟨rfl, rfl, hvalid1, SameImports.reserved (by simp [Importable]), ?_⟩
    refine pushed_element hfor (Or.inr rfl) List.mem_cons_self hfixed1 ?_ ?_
    · simp only [sizeOf, hmod, List.getElem?_set_self hlt, Option.map_some, Option.getD_some, List.length_append]
      exact hvec1
    · rintro w (rfl | rfl) hne
      · simp only [sizeOf, hmod, List.getElem?_set_self hlt, hget, Option.map_some, Option.getD_some, hexprs]
      · exact absurd rfl hne

theorem parseElement_until (h : a.For ps) (hst : st.Valid) :
    Until (Starved mem) SameFault
      (fun x y => x.2 = y.2 ∧ x.2.Valid ∧ x.1.For y.1 ∧ SameImports y.1 ps) (parseElement mem i a st)
      (Silverfir.parseElement i ps st) := by
  refine (readU8_keeps hst).bind fun r _ hvalid => ?_
  obtain ⟨kind, st1⟩ := r
  refine Until.ite (fun _ => same_err _ _) fun _ => ?_
  rw [h.mod]
  cases hget : ps.mod.elements[i]? with
  | none => exact Until.error (.refl _)
  | some elem =>
    refine (parseElemOffset_keeps hvalid).bind fun r hoffset hvalid => ?_
    obtain ⟨elem1, st2⟩ := r
    refine (parseElemType_keeps hvalid).bind fun r _ hvalid => ?_
    obtain ⟨valtype, st3⟩ := r
    have hitems1 := parseElemOffset_items hoffset
    refine Until.bind (S := fun x y => x.2.1 = y.2.1 ∧ x.2.2 = y.2.2 ∧ x.2.2.Valid ∧ SameImports y.1 ps ∧
      (x.1.setMod { x.1.mod with elements := x.1.mod.elements.set i x.2.1 }).For
        (y.1.setMod { y.1.mod with elements := y.1.mod.elements.set i y.2.1 })) ?_ fun x y _ _ hxy => ?_
    · exact parseElemItems_until h hvalid hget hitems1.2 hitems1.1
    · obtain ⟨a1, e1, st4⟩ := x
      obtain ⟨ps1, e2, st5⟩ := y
      obtain ⟨rfl, rfl, hvalid1, himports, hfor⟩ := hxy
      exact .ok ⟨rfl, hvalid1, hfor, himports⟩

/-- The vector of the segments is fixed, and those behind the first ones are dropped. -/
theorem Arena.For.takeElements (h : a.For ps) (count : ℕ) :
    Arena.For
      ⟨{ a.mod with elements := a.mod.elements.take count },
        Function.update a.vecs .elements { a.vecs .elements with fixed := true }, a.allocs⟩
      ⟨{ a.mod with elements := a.mod.elements.take count }, .elements :: ps.fixed, ps.elemCapacity⟩ := by
  have hshort : ∀ (g : Element → ℕ) (i : ℕ), (((a.mod.elements.take count)[i]?).map g).getD 0 ≤
      ((a.mod.elements[i]?).map g).getD 0 := by
    intro g i
    rw [List.getElem?_take]
    split
    · exact Nat.le_refl _
    · exact Nat.zero_le _
  have hold : ∀ w, w ≠ VecId.elements → Function.update a.vecs .elements { a.vecs .elements with fixed := true } w =
      a.vecs w := fun w hw => Function.update_of_ne hw _ _
  constructor
  · rfl
  · intro w
    rw [List.mem_cons]
    by_cases hw : w = .elements
    · subst hw
      simp
    · dsimp only
      rw [hold w hw]
      exact (h.fixed w).trans ⟨Or.inr, fun hmem => hmem.resolve_left hw⟩
  · dsimp only
    rw [Function.update_self]
    exact h.capacity
  · intro w
    have hw := h.valid w
    cases w with
    | elements =>
      dsimp only
      rw [Function.update_self]
      refine isValid_mono hw ?_
      simp only [sizeOf, List.length_take]
      omega
    | vFuncidx i | vExpr i =>
      dsimp only
      rw [hold _ (by simp)]
      exact isValid_mono hw (hshort _ i)
    | _ =>
      dsimp only
      rw [hold _ (by simp)]
      exact hw
  · intro w hw himport
    have hne : w ≠ .elements := fun heq => hw (heq ▸ List.mem_cons_self)
    dsimp only
    rw [hold w hne]
    exact h.fresh w (fun hmem => hw (List.mem_cons_of_mem _ hmem)) himport
  · intro i hi
    dsimp only
    rw [hold _ (by simp)]
    exact h.full i ((List.mem_cons.mp hi).resolve_left (by simp))

/-- The vector of the segments is fixed, and new ones have been added. -/
theorem Arena.For.growElements {vec : VecHeader} {k count : ℕ} (h : a.For ps) (hlt : a.mod.elements.length < count)
    (hvec : vec.IsValid count) :
    Arena.For
      { mod := { a.mod with
          elements := a.mod.elements ++ List.replicate (count - a.mod.elements.length) {} }
        vecs := fun v =>
          match v with
          | .vFuncidx i | .vExpr i =>
            if i < a.mod.elements.length then Function.update a.vecs .elements { vec with fixed := true } v else {}
          | _ => Function.update a.vecs .elements { vec with fixed := true } v
        allocs := k }
      { mod := { a.mod with
          elements := a.mod.elements ++ List.replicate (count - a.mod.elements.length) {} }
        fixed := .elements :: ps.fixed.filter fun v =>
          match v with
          | .vFuncidx i | .vExpr i => i < a.mod.elements.length
          | _ => true
        elemCapacity := vec.capacity } := by
  have hold : ∀ w, w ≠ VecId.elements → Function.update a.vecs .elements { vec with fixed := true } w = a.vecs w :=
    fun w hw => Function.update_of_ne hw _ _
  have hget : ∀ {i : ℕ}, i < a.mod.elements.length → (a.mod.elements ++
      List.replicate (count - a.mod.elements.length) ({} : Element))[i]? = a.mod.elements[i]? := fun hi =>
    List.getElem?_append_left hi
  have hnew : ∀ {i : ℕ}, ¬ i < a.mod.elements.length → ∀ g : Element → ℕ, g {} = 0 → (((a.mod.elements ++
      List.replicate (count - a.mod.elements.length) ({} : Element))[i]?).map g).getD 0 = 0 := by
    intro i hi g hg
    rw [List.getElem?_append_right (by omega), List.getElem?_replicate]
    split
    · exact hg
    · rfl
  constructor
  · rfl
  · intro w
    rw [List.mem_cons, List.mem_filter]
    cases w with
    | elements => simp
    | vFuncidx i | vExpr i =>
      by_cases hi : i < a.mod.elements.length
      · simp [hi, h.fixed]
      · simp [hi]
    | _ => simp [h.fixed]
  · simp
  · intro w
    have hw := h.valid w
    cases w with
    | elements =>
      simp only [Function.update_self, sizeOf, List.length_append, List.length_replicate]
      rw [Nat.add_sub_cancel' hlt.le]
      exact hvec
    | vFuncidx i | vExpr i =>
      by_cases hi : i < a.mod.elements.length
      · simp only [hi, if_true, sizeOf, hget hi]
        rw [hold _ (by simp)]
        exact hw
      · simp only [hi, if_false, sizeOf]
        rw [hnew hi _ rfl]
        decide
    | _ =>
      simp only
      rw [hold _ (by simp)]
      exact hw
  · intro w hw himport
    rw [List.mem_cons, List.mem_filter, not_or, not_and] at hw
    obtain ⟨hne, hw⟩ := hw
    cases w with
    | elements => exact absurd rfl hne
    | vFuncidx i | vExpr i =>
      by_cases hi : i < a.mod.elements.length
      · simp only [hi, if_true]
        rw [hold _ (by simp)]
        exact h.fresh _ (fun hmem => hw hmem (by simpa using hi)) himport
      · simp only [hi, if_false]
    | _ =>
      simp only
      rw [hold _ hne]
      exact h.fresh _ (fun hmem => hw hmem rfl) himport
  · intro i hi
    simp only
    rw [hold _ (by simp)]
    refine h.full i ?_
    have hmem := (List.mem_cons.mp hi).resolve_left (by simp)
    exact (List.mem_filter.mp hmem).1

theorem resizeElements_until {count : ℕ} (h : a.For ps) :
    Until (Starved mem) SameFault
      (fun a' ps' => a'.For { ps' with fixed := .elements :: ps'.fixed } ∧ SameImports ps' ps)
      (resizeElements mem count a) (Silverfir.resizeElements count ps) := by
  have hvec : (a.vecs .elements).IsValid a.mod.elements.length := h.valid .elements
  rw [resizeElements, Silverfir.resizeElements, VecHeader.resize, ← h.mod, ParseState.setMod]
  dsimp only
  rw [if_neg (not_not.mpr hvec)]
  by_cases hle : count ≤ a.mod.elements.length
  · rw [if_pos hle, ok_bind, if_pos hle, if_pos hle]
    exact .ok ⟨h.takeElements count, fun _ _ => Iff.rfl⟩
  · rw [if_neg hle, if_neg hle]
    have himports : ∀ capacity, SameImports
        { mod := { a.mod with elements := a.mod.elements ++ List.replicate (count - a.mod.elements.length) {} }
          fixed := ps.fixed.filter fun v =>
            match v with
            | .vFuncidx i | .vExpr i => i < a.mod.elements.length
            | _ => true
          elemCapacity := capacity } ps := by
      intro capacity w hw
      rw [List.mem_filter]
      rcases hw with rfl | rfl | rfl | rfl <;> exact and_iff_left rfl
    have hroomy : ∀ {vec : VecHeader}, vec.IsValid a.mod.elements.length → count ≤ vec.capacity → vec.IsValid count :=
      fun hold hcount => VecHeader.isValid_iff.mpr ⟨(VecHeader.isValid_iff.mp hold).1, hcount⟩
    rw [Silverfir.growElements, ← h.capacity]
    by_cases hgt : count > (a.vecs .elements).capacity
    · rw [if_pos hgt, if_pos hgt]
      by_cases hfixed : VecId.elements ∈ ps.fixed
      · rw [if_pos hfixed, VecHeader.reserve_fixed hvec ((h.fixed _).mpr hfixed)]
        exact same_err _ _
      · rw [if_neg hfixed, ok_bind]
        refine (VecHeader.reserve_until hvec (h.notFixed hfixed)).left fun x _ hx => ?_
        obtain ⟨vec, k⟩ := x
        obtain ⟨hvalid, -, hroom, hcapacity⟩ := hx
        dsimp only at hvalid hroom hcapacity
        obtain rfl : vec.capacity = count := by omega
        rw [if_neg hle]
        exact .ok ⟨h.growElements (by omega) (hroomy hvalid (Nat.le_refl _)), himports _⟩
    · rw [if_neg hgt, if_neg hgt, ok_bind, ok_bind, if_neg hle]
      exact .ok ⟨h.growElements (by omega) (hroomy hvec (Nat.le_of_not_lt hgt)), himports _⟩

theorem parseSectionElement_until (h : a.For ps) (hst : st.Valid) :
    Until (Starved mem) SameFault (fun a' ps' => a'.For ps' ∧ SameImports ps' ps) (parseSectionElement mem a st)
      (Silverfir.parseSectionElement ps st) := by
  refine (readVu32_keeps hst).bind fun r _ hvalid => ?_
  obtain ⟨count, st1⟩ := r
  refine Until.bind (resizeElements_until h) fun a1 ps1 _ _ hps1 => ?_
  obtain ⟨hfor, himports⟩ := hps1
  have hstart : SameImports { ps1 with fixed := .elements :: ps1.fixed } ps := by
    intro w hw
    rw [← himports w hw]
    exact SameImports.reserved (by simp [Importable]) w hw
  refine Until.bind (Until.times (P := fun _ x y => x.1 = y.1 ∧ x.2.2 = y.2.2 ∧ x.2.2.Valid ∧ x.2.1.For y.2.1 ∧
    SameImports y.2.1 ps) ?_ ⟨rfl, rfl, hvalid, hfor, hstart⟩) fun x y _ _ hxy => ?_
  · rintro k ⟨i, a2, st2⟩ ⟨_, ps2, _⟩ ⟨rfl, rfl, hvalid2, hfor2, himports2⟩
    refine Until.bind (parseElement_until hfor2 hvalid2) fun x y _ _ hxy => ?_
    obtain ⟨a3, st3⟩ := x
    obtain ⟨ps3, st4⟩ := y
    obtain ⟨rfl, hvalid3, hfor3, himports3⟩ := hxy
    exact .ok ⟨rfl, rfl, hvalid3, hfor3, fun w hw => (himports3 w hw).trans (himports2 w hw)⟩
  · obtain ⟨i, a2, st2⟩ := x
    obtain ⟨j, ps2, st3⟩ := y
    obtain ⟨rfl, rfl, hvalid2, hfor2, himports2⟩ := hxy
    exact atEnd_until hvalid2 (.ok ⟨hfor2, himports2⟩)

end Elements

/-! ### Code -/

section Code
variable {mem : Allocator} {a : Arena} {ps : ParseState} {st code : Stream} {i : ℕ}

/-- The vector of the locals of a function: fixed and without room if the function has got a body before, and
otherwise without data as long as it is empty. -/
structure LocalsVec (isFixed : Bool) (vec : VecHeader) (size : ℕ) : Prop where
  valid : vec.IsValid size
  fixed : vec.fixed = isFixed
  full : isFixed = true → vec.capacity ≤ size
  pushed : isFixed = false → vec.data = true → 0 < size

theorem pushLocals_until {n size k : ℕ} {vec : VecHeader} (h : LocalsVec false vec size) :
    Until (Starved mem) SameFault (fun x _ => LocalsVec false x.1 (size + n)) (pushLocals mem n size vec k)
      (.ok ()) := by
  induction n generalizing size k vec with
  | zero => exact .ok h
  | succ n ih =>
    refine (VecHeader.push_until h.valid (Or.inr h.fixed)).left fun x _ hx => ?_
    obtain ⟨vec1, k1⟩ := x
    obtain ⟨hvalid, hfixed, -⟩ := hx
    have hnext : LocalsVec false vec1 (size + 1) :=
      ⟨hvalid, hfixed.trans h.fixed, fun hno => absurd hno (by decide), fun _ _ => Nat.succ_pos size⟩
    refine (ih hnext).imp fun y _ hy => ?_
    rw [Nat.add_right_comm] at hy
    exact hy

/-- The function with the locals that have been read, and the vector of them. -/
def LocalsRead (isFixed : Bool) (x : Func × VecHeader × ℕ × Stream) (y : Func × Stream) : Prop :=
  x.1 = y.1 ∧ x.2.2.2 = y.2 ∧ x.2.2.2.Valid ∧ LocalsVec isFixed x.2.1 x.1.localTypes.length

theorem parseLocals_until {groups k : ℕ} {fn : Func} {vec : VecHeader} {isFixed : Bool} (hst : code.Valid)
    (hvec : LocalsVec isFixed vec fn.localTypes.length) :
    Until (Starved mem) SameFault (LocalsRead isFixed) (parseLocals mem groups fn vec k code)
      (Silverfir.parseLocals isFixed groups fn code) := by
  refine Until.times (P := fun _ => LocalsRead isFixed) ?_ ⟨rfl, rfl, hst, hvec⟩
  rintro n ⟨fn, vec, k, code⟩ ⟨_, _⟩ ⟨rfl, rfl, hvalid, hvec⟩
  refine (readVu32_keeps hvalid).bind fun r _ hvalid => ?_
  obtain ⟨localCount, code1⟩ := r
  refine (readType_keeps hvalid).bind fun r _ hvalid => ?_
  obtain ⟨valtype, code2⟩ := r
  have hlen : (fn.localTypes ++ List.replicate localCount valtype).length = fn.localTypes.length + localCount := by
    rw [List.length_append, List.length_replicate]
  dsimp only at hvec hvalid ⊢
  by_cases hzero : localCount = 0
  · rw [if_neg (by simp [hzero]), hzero, pushLocals, ok_bind]
    refine .ok ⟨rfl, rfl, hvalid, ?_⟩
    dsimp only
    rw [List.replicate_zero, List.append_nil]
    exact hvec
  · cases isFixed with
    | true =>
      obtain ⟨m, rfl⟩ := Nat.exists_eq_succ_of_ne_zero hzero
      rw [if_pos ⟨rfl, hzero⟩, pushLocals, VecHeader.push_full hvec.valid hvec.fixed (hvec.full rfl)]
      exact same_err _ _
    | false =>
      rw [if_neg (fun hno => absurd hno.1 (by decide))]
      refine (pushLocals_until hvec).left fun x _ hx => .ok ⟨rfl, rfl, hvalid, ?_⟩
      dsimp only
      rw [hlen]
      exact hx

theorem Arena.For.localsVec {fn : Func} (h : a.For ps) (hget : ps.mod.funcs[i]? = some fn) :
    LocalsVec (decide (VecId.localTypes i ∈ ps.fixed)) (a.vecs (.localTypes i)) fn.localTypes.length := by
  have hsize : sizeOf a.mod (.localTypes i) = fn.localTypes.length := by
    rw [h.mod, sizeOf, hget]
    rfl
  constructor
  · rw [← hsize]
    exact h.valid _
  · rw [Bool.eq_iff_iff, decide_eq_true_iff]
    exact h.fixed _
  · intro hfixed
    rw [← hsize]
    exact h.full i (of_decide_eq_true hfixed)
  · intro hfixed hdata
    rw [h.fresh _ (of_decide_eq_false hfixed) (by simp [Importable])] at hdata
    cases hdata

theorem parseCode_until (h : a.For ps) (hst : st.Valid) :
    Until (Starved mem) SameFault (fun x y => x.2 = y.2 ∧ x.2.Valid ∧ x.1.For y.1 ∧ SameImports y.1 ps)
      (parseCode mem i a st) (Silverfir.parseCode i ps st) := by
  rw [parseCode, Silverfir.parseCode, VecHeader.at_, h.mod]
  cases hget : ps.mod.funcs[i]? with
  | none => exact Until.error (Or.inr ⟨_, _, rfl, rfl⟩)
  | some fn =>
    have hlt := (List.getElem?_eq_some_iff.mp hget).1
    refine (readVu32_keeps hst).bind fun r _ hvalid => ?_
    obtain ⟨codeSize, st1⟩ := r
    refine Until.bind (slice_until hvalid) fun x y _ _ hxy => ?_
    obtain ⟨code, st2⟩ := x
    obtain ⟨rfl, hcode, hvalid, -⟩ := hxy
    refine (readVu32_keeps hcode).bind fun r _ hcode => ?_
    obtain ⟨groups, code1⟩ := r
    refine (countLocals_keeps hcode).bind fun _ _ _ => ?_
    refine Until.bind (parseLocals_until hcode (h.localsVec hget)) fun x y _ _ hxy => ?_
    obtain ⟨fn1, vec, k, code2⟩ := x
    obtain ⟨fn2, code3⟩ := y
    obtain ⟨rfl, rfl, hcode, hvec⟩ := hxy
    dsimp only at hcode hvec ⊢
    rw [remaining_ok hcode, ok_bind]
    refine Until.ite (fun _ => same_err _ _) fun _ => ?_
    rw [ParseState.reserve]
    by_cases hv : VecId.localTypes i ∈ ps.fixed
    · rw [if_pos hv, VecHeader.shrinkToFit_fixed hvec.valid (hvec.fixed.trans (decide_eq_true hv))]
      exact same_err _ _
    · rw [if_neg hv, ok_bind]
      have hno := decide_eq_false hv
      refine (VecHeader.shrinkToFit_until hvec.valid (hvec.fixed.trans hno) (hvec.pushed hno)).left fun x _ hx => ?_
      obtain ⟨vec1, k1⟩ := x
      obtain ⟨hvalid1, hfull⟩ := hx
      have hself : ∀ fn' : Func, sizeOf { a.mod with funcs := a.mod.funcs.set i fn' } (.localTypes i) =
          fn'.localTypes.length := by
        intro fn'
        rw [h.mod]
        simp only [sizeOf, List.getElem?_set_self hlt, Option.map_some, Option.getD_some]
      have hfor : ∀ fn' : Func, fn'.localTypes = fn1.localTypes →
          Arena.For ((a.setVec (.localTypes i) ({ vec1 with fixed := true }, k1)).setMod
            { a.mod with funcs := a.mod.funcs.set i fn' })
            ⟨{ a.mod with funcs := a.mod.funcs.set i fn' }, .localTypes i :: ps.fixed, ps.elemCapacity⟩ := by
        intro fn' hlocals
        have hlen : sizeOf { a.mod with funcs := a.mod.funcs.set i fn' } (.localTypes i) = fn1.localTypes.length := by
          rw [hself, hlocals]
        apply h.setVec
        · intro w
          rw [List.mem_cons]
          by_cases hw : w = .localTypes i
          · rw [if_pos hw]
            exact ⟨fun _ => Or.inl hw, fun _ => rfl⟩
          · rw [if_neg hw, h.fixed]
            exact ⟨Or.inr, fun hmem => hmem.resolve_left hw⟩
        · exact if_neg (by simp)
        · rw [hlen]
          exact hvalid1
        · intro w hw
          cases w with
          | funcs => exact List.length_set
          | localTypes j =>
            have hne : i ≠ j := fun heq => hw (congrArg VecId.localTypes heq.symm)
            simp only [sizeOf, List.getElem?_set_ne hne]
          | _ => rfl
        · exact fun hmem => absurd List.mem_cons_self hmem
        · intro j _ _
          rw [hlen]
          exact hfull
      refine .ok ⟨rfl, hvalid, ?_, SameImports.reserved (by simp [Importable])⟩
      dsimp only [ParseState.setMod]
      rw [← h.mod]
      exact hfor _ rfl

theorem parseSectionCode_until (h : a.For ps) (hst : st.Valid) :
    Until (Starved mem) SameFault (fun a' ps' => a'.For ps' ∧ SameImports ps' ps) (parseSectionCode mem a st)
      (Silverfir.parseSectionCode ps st) := by
  refine (readVu32_keeps hst).bind fun r _ hvalid => ?_
  obtain ⟨count, st1⟩ := r
  rw [h.mod]
  refine Until.ite (fun _ => same_err _ _) fun _ => ?_
  refine Until.bind (Until.times (P := fun _ x y => x.1 = y.1 ∧ x.2.2 = y.2.2 ∧ x.2.2.Valid ∧ x.2.1.For y.2.1 ∧
    SameImports y.2.1 ps) ?_ ⟨rfl, rfl, hvalid, h, fun _ _ => Iff.rfl⟩) fun x y _ _ hxy => ?_
  · rintro k ⟨i, a2, st2⟩ ⟨_, ps2, _⟩ ⟨rfl, rfl, hvalid2, hfor2, himports2⟩
    refine Until.bind (parseCode_until hfor2 hvalid2) fun x y _ _ hxy => ?_
    obtain ⟨a3, st3⟩ := x
    obtain ⟨ps3, st4⟩ := y
    obtain ⟨rfl, hvalid3, hfor3, himports3⟩ := hxy
    exact .ok ⟨rfl, rfl, hvalid3, hfor3, fun w hw => (himports3 w hw).trans (himports2 w hw)⟩
  · obtain ⟨i, a2, st2⟩ := x
    obtain ⟨j, ps2, st3⟩ := y
    obtain ⟨rfl, rfl, hvalid2, hfor2, himports2⟩ := hxy
    exact atEnd_until hvalid2 (.ok ⟨hfor2, himports2⟩)

end Code

/-! ### Modules -/

section Modules
variable {mem : Allocator} {a : Arena} {ps ps' : ParseState} {st : Stream} {c : ℕ}

/-- Nothing that imports are pushed into is fixed before the sections behind the import section. -/
def Late (c : ℕ) (ps : ParseState) : Prop := ∀ w, Importable w → w ∈ ps.fixed → 3 ≤ c

theorem Late.cons {v : VecId} (h : Late c ps) (hfixed : ps'.fixed = v :: ps.fixed) (hv : ¬ Importable v ∨ 3 ≤ c) :
    Late c ps' := by
  intro w hw hmem
  rw [hfixed] at hmem
  rcases List.mem_cons.mp hmem with rfl | hmem
  · exact hv.resolve_left (not_not.mpr hw)
  · exact h w hw hmem

theorem Late.same (h : Late c ps) (hsame : SameImports ps' ps) : Late c ps' :=
  fun w hw hmem => h w hw ((hsame w hw).mp hmem)

theorem parseSection_until {sec : SectionId} (h : a.For ps) (hlate : Late c ps) (hst : st.Valid)
    (hsec : sec = .custom ∨ c = sec.rank) :
    Until (Starved mem) SameFault (fun a' ps' => a'.For ps' ∧ Late c ps') (parseSection mem sec a st)
      (Silverfir.parseSection sec ps st) := by
  have hfixes : ∀ {v : VecId} {x : R Arena} {y : R ParseState}, (¬ Importable v ∨ 3 ≤ c) →
      Until (Starved mem) SameFault (fun a' ps' => a'.For ps' ∧ ps'.fixed = v :: ps.fixed) x y →
      Until (Starved mem) SameFault (fun a' ps' => a'.For ps' ∧ Late c ps') x y :=
    fun hv hxy => hxy.imp fun _ _ hres => ⟨hres.1, hlate.cons hres.2 hv⟩
  have hleaves : ∀ {x : R Arena} {y : R ParseState},
      Until (Starved mem) SameFault (fun a' ps' => a'.For ps' ∧ ps'.fixed = ps.fixed) x y →
      Until (Starved mem) SameFault (fun a' ps' => a'.For ps' ∧ Late c ps') x y :=
    fun hxy => hxy.imp fun _ _ hres => ⟨hres.1, fun w hw hmem => hlate w hw (hres.2 ▸ hmem)⟩
  have hsame : ∀ {x : R Arena} {y : R ParseState},
      Until (Starved mem) SameFault (fun a' ps' => a'.For ps' ∧ SameImports ps' ps) x y →
      Until (Starved mem) SameFault (fun a' ps' => a'.For ps' ∧ Late c ps') x y :=
    fun hxy => hxy.imp fun _ _ hres => ⟨hres.1, hlate.same hres.2⟩
  have hrank : sec ≠ .custom → c = sec.rank := hsec.resolve_left
  cases sec with
  | custom => exact .ok ⟨h, hlate⟩
  | type => exact hfixes (Or.inl (by simp [Importable])) (parseSectionType_until h hst)
  | import_ =>
    refine hleaves (parseSectionImport_until h hst fun w hw hmem => ?_)
    have hthree := hlate w hw hmem
    rw [hrank (by simp)] at hthree
    exact absurd hthree (by decide)
  | function => exact hfixes (Or.inr (by rw [hrank (by simp)]; decide)) (parseSectionFunction_until h hst)
  | table => exact hfixes (Or.inr (by rw [hrank (by simp)]; decide)) (parseSectionTable_until h hst)
  | memory => exact hfixes (Or.inr (by rw [hrank (by simp)]; decide)) (parseSectionMemory_until h hst)
  | global => exact hfixes (Or.inr (by rw [hrank (by simp)]; decide)) (parseSectionGlobal_until h hst)
  | export_ => exact hfixes (Or.inl (by simp [Importable])) (parseSectionExport_until h hst)
  | start => exact hleaves (parseSectionStart_until h hst)
  | element => exact hsame (parseSectionElement_until h hst)
  | dataCount => exact hleaves (parseSectionDataCount_until h hst)
  | code => exact hsame (parseSectionCode_until h hst)
  | data => exact hfixes (Or.inl (by simp [Importable])) (parseSectionData_until h hst)

/-- Every round takes a byte, so the loop over the sections comes to an end. -/
theorem parseSections_until {n : ℕ} (h : a.For ps) (hlate : Late c ps) (hst : st.Valid) (hn : st.remaining < n) :
    Until (Starved mem) SameFault (fun a' ps' => a'.mod = ps'.mod) (parseSections mem n c a st)
      (Silverfir.parseSections n c ps st) := by
  induction n generalizing a ps c st with
  | zero => exact absurd hn (Nat.not_lt_zero _)
  | succ n ih =>
    rw [parseSections, Silverfir.parseSections, remaining_ok hst, ok_bind]
    refine Until.ite (fun _ => .ok h.mod) fun _ => ?_
    refine (readVu7_keeps hst).bind fun r hread hvalid => ?_
    obtain ⟨id, st1⟩ := r
    have hlt1 : st1.remaining < st.remaining := (Stream.reads_readVu7 hread).remaining_lt
    refine (readVu32_keeps hvalid).bind fun r hread hvalid => ?_
    obtain ⟨payloadLen, st2⟩ := r
    have hlt2 : st2.remaining < st1.remaining := (Stream.reads_readVu32 hread).remaining_lt
    dsimp only at hvalid ⊢
    cases hfind : (if id = 0 then some (c, SectionId.custom) else SectionId.find c id) with
    | none => exact same_err _ _
    | some found =>
      obtain ⟨c', sec⟩ := found
      have hfound : c ≤ c' ∧ (sec = .custom ∨ c' = sec.rank) := by
        split at hfind
        · cases hfind
          exact ⟨Nat.le_refl c, Or.inl rfl⟩
        · obtain ⟨hle, horder⟩ := SectionId.find_order hfind
          exact ⟨hle, Or.inr (SectionId.rank_eq horder)⟩
      have hlater : Late c' ps := fun w hw hmem => (hlate w hw hmem).trans hfound.1
      refine Until.ite (fun _ => ih h hlater hvalid (by omega)) fun _ => ?_
      refine Until.bind (slice_until hvalid) fun x y _ _ hxy => ?_
      obtain ⟨content, st3⟩ := x
      obtain ⟨rfl, hcontent, hvalid3, hreads⟩ := hxy
      have hlt3 : st3.remaining < st2.remaining := hreads.remaining_lt
      refine Until.bind (parseSection_until h hlater hcontent hfound.2) fun a1 ps1 _ _ hps1 => ?_
      exact ih hps1.1 hps1.2 hvalid3 (show st3.remaining < n by omega)

theorem For.start (mod : Module) (hmod : ∀ v, sizeOf mod v = 0) : Arena.For { mod := mod } { mod := mod } where
  mod := rfl
  fixed v := by simp
  capacity := rfl
  valid v := by
    rw [hmod]
    change ({} : VecHeader).IsValid 0
    decide
  fresh _ _ _ := rfl
  full i hi := absurd hi List.not_mem_nil

/-- Whatever allocations fail, the parser with its assertions gives what the parser gives, or it stops with an
error where an allocation fails. -/
theorem parseModule_until (bin : Str) :
    Until (Starved mem) SameFault Eq (parseModule mem bin) (Silverfir.parseModule bin) := by
  refine Until.ite (fun _ => same_err _ _) fun hne => ?_
  have hvalid : (Stream.from_ bin).Valid := ⟨hne, Nat.zero_le _⟩
  refine (readFixed_keeps (by decide) hvalid).bind fun r _ hvalid => ?_
  obtain ⟨magic, st1⟩ := r
  refine Until.ite (fun _ => same_err _ _) fun _ => ?_
  refine (readFixed_keeps (by decide) hvalid).bind fun r _ hvalid => ?_
  obtain ⟨version, st2⟩ := r
  refine Until.ite (fun _ => same_err _ _) fun _ => ?_
  have hstart : Arena.For { mod := { formatVersion := version } } { mod := { formatVersion := version } } :=
    For.start _ fun v => by cases v <;> rfl
  refine Until.bind (parseSections_until hstart (fun w _ hmem => absurd hmem List.not_mem_nil) hvalid
    (Nat.lt_succ_self _)) fun a1 ps1 _ _ hmod => ?_
  exact .ok hmod

end Modules

end Asserted

end Silverfir
