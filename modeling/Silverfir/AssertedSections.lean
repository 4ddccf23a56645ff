import Silverfir.AssertedReaders

/-! The vectors of the module with their assertions. A section that reserves a vector for its entries has room for
them, and the imports are pushed into vectors that may grow. -/
namespace Silverfir

open Lockstep (Until)

namespace Asserted

/-! ### The vectors -/

/-- The vectors that imports are pushed into, before they are reserved. -/
def Importable (v : VecId) : Prop := v = .funcs ∨ v = .tables ∨ v = .memories ∨ v = .globals

/-- The vectors of the module as the parser has them at `ps`. Apart from those of the imports, what is not fixed has
not been touched, and the locals of a function that has got its body have no room. -/
structure Arena.For (a : Arena) (ps : ParseState) : Prop where
  mod : a.mod = ps.mod
  fixed : ∀ v, (a.vecs v).fixed = true ↔ v ∈ ps.fixed
  capacity : (a.vecs .elements).capacity = ps.elemCapacity
  valid : ∀ v, (a.vecs v).IsValid (sizeOf a.mod v)
  fresh : ∀ v, v ∉ ps.fixed → ¬ Importable v → a.vecs v = {}
  full : ∀ i, VecId.localTypes i ∈ ps.fixed → (a.vecs (.localTypes i)).capacity ≤ sizeOf a.mod (.localTypes i)

/-- There is room for `n` more. -/
def Arena.Room (v : VecId) (n : ℕ) (a : Arena) : Prop := sizeOf a.mod v + n ≤ (a.vecs v).capacity

section Arenas
variable {mem : Allocator} {a : Arena} {ps : ParseState} {v : VecId} {n : ℕ}

theorem Arena.For.notFixed (h : a.For ps) (hv : v ∉ ps.fixed) : (a.vecs v).fixed = false := by
  rw [Bool.eq_false_iff]
  exact fun htrue => hv ((h.fixed v).mp htrue)

theorem Arena.For.untouched (h : a.For ps) (hv : v ∉ ps.fixed) (himport : ¬ Importable v) : sizeOf a.mod v = 0 := by
  have hsize := (VecHeader.isValid_iff.mp (h.valid v)).2
  rw [h.fresh v hv himport] at hsize
  exact Nat.le_zero.mp hsize

/-- The vectors with one of them changed. -/
theorem Arena.For.setVec (h : a.For ps) {vec : VecHeader} {k : ℕ} {mod : Module} {fixed : List VecId} {capacity : ℕ}
    (hfixed : ∀ w, (if w = v then vec.fixed else (a.vecs w).fixed) = true ↔ w ∈ fixed)
    (hcapacity : (if VecId.elements = v then vec.capacity else ps.elemCapacity) = capacity)
    (hvalid : vec.IsValid (sizeOf mod v)) (hsize : ∀ w, w ≠ v → sizeOf mod w = sizeOf a.mod w)
    (hfresh : v ∉ fixed → Importable v ∨ vec = {}) (hfull : ∀ i, v = .localTypes i → v ∈ fixed →
      vec.capacity ≤ sizeOf mod v) : Arena.For ((a.setVec v (vec, k)).setMod mod) ⟨mod, fixed, capacity⟩ := by
  have hget : ∀ w, (((a.setVec v (vec, k)).setMod mod).vecs w) = if w = v then vec else a.vecs w := fun w =>
    Function.update_apply a.vecs v vec w
  have hold : ∀ w, w ≠ v → (w ∈ fixed ↔ w ∈ ps.fixed) := fun w hw => by
    rw [← hfixed w, if_neg hw, h.fixed]
  constructor
  · rfl
  · intro w
    rw [← hfixed w, hget]
    split <;> rfl
  · rw [← hcapacity, hget]
    split
    · rfl
    · exact h.capacity
  · intro w
    rw [hget]
    split
    · next heq =>
      rw [heq]
      exact hvalid
    · next hne =>
      change (a.vecs w).IsValid (sizeOf mod w)
      rw [hsize w hne]
      exact h.valid w
  · intro w hw himport
    rw [hget]
    split
    · next heq =>
      rw [heq] at hw himport
      exact (hfresh hw).resolve_left himport
    · next hne => exact h.fresh w (fun hmem => hw ((hold w hne).mpr hmem)) himport
  · intro i hi
    rw [hget]
    split
    · next heq =>
      rw [heq] at hi ⊢
      exact hfull i heq.symm hi
    · next hne =>
      change _ ≤ sizeOf mod _
      rw [hsize _ hne]
      exact h.full i ((hold _ hne).mp hi)

theorem reserve_until (h : a.For ps) (hlocals : ∀ i, v ≠ .localTypes i) (helements : v ≠ .elements) :
    Until (Starved mem) SameFault
      (fun a' ps' => a'.For ps' ∧ a'.mod = ps.mod ∧ ps' = { ps with fixed := v :: ps.fixed } ∧
        n ≤ (a'.vecs v).capacity)
      (a.reserve mem v n) (ps.reserve v) := by
  rw [Arena.reserve, ParseState.reserve]
  by_cases hv : v ∈ ps.fixed
  · rw [if_pos hv, VecHeader.reserve_fixed (h.valid v) ((h.fixed v).mpr hv)]
    exact same_err _ _
  · rw [if_neg hv]
    refine (VecHeader.reserve_until (h.valid v) (h.notFixed hv)).left fun x _ hx => ?_
    obtain ⟨hvalid, -, hn, -⟩ := hx
    have hfor : Arena.For ((a.setVec v ({ x.1 with fixed := true }, x.2)).setMod a.mod)
        ⟨a.mod, v :: ps.fixed, ps.elemCapacity⟩ := by
      apply h.setVec
      · intro w
        rw [List.mem_cons]
        by_cases hw : w = v
        · rw [if_pos hw]
          exact ⟨fun _ => Or.inl hw, fun _ => rfl⟩
        · rw [if_neg hw, h.fixed]
          exact ⟨Or.inr, fun hmem => hmem.resolve_left hw⟩
      · exact if_neg (Ne.symm helements)
      · exact hvalid
      · exact fun _ _ => rfl
      · exact fun hmem => absurd List.mem_cons_self hmem
      · exact fun i hi => absurd hi (hlocals i)
    rw [h.mod] at hfor
    refine .ok ⟨?_, h.mod, rfl, ?_⟩
    · rw [← h.mod] at hfor ⊢
      exact hfor
    · change n ≤ (Function.update a.vecs v _ v).capacity
      rw [Function.update_self]
      exact hn

theorem push_until (h : a.For ps) {mod : Module} (hroom : sizeOf a.mod v < (a.vecs v).capacity ∨ v ∉ ps.fixed)
    (hkind : v ∈ ps.fixed ∨ Importable v) (hlocals : ∀ i, v ≠ .localTypes i) (helements : v ≠ .elements)
    (hself : sizeOf mod v = sizeOf a.mod v + 1) (hsize : ∀ w, w ≠ v → sizeOf mod w = sizeOf a.mod w) :
    Until (Starved mem) SameFault
      (fun a' _ => a'.For (ps.setMod mod) ∧ (a.Room v (n + 1) → a'.Room v n)) (a.push mem v mod) (.ok ()) := by
  have hgrow : sizeOf a.mod v < (a.vecs v).capacity ∨ (a.vecs v).fixed = false := hroom.imp id h.notFixed
  refine (VecHeader.push_until (h.valid v) hgrow).left fun x _ hx => ?_
  obtain ⟨hvalid, hfixed, hkeep⟩ := hx
  rw [← hself] at hvalid
  refine .ok ⟨?_, fun hr => ?_⟩
  · refine h.setVec ?_ (if_neg (Ne.symm helements)) hvalid hsize ?_ fun i hi => absurd hi (hlocals i)
    · intro w
      by_cases hw : w = v
      · rw [if_pos hw, hfixed, hw]
        exact h.fixed v
      · rw [if_neg hw]
        exact h.fixed w
    · exact fun hno => Or.inl (hkind.resolve_left hno)
  · rw [Arena.Room] at hr ⊢
    have hlt : sizeOf a.mod v < (a.vecs v).capacity := by omega
    change sizeOf mod v + n ≤ (Function.update a.vecs v x.1 v).capacity
    rw [Function.update_self, hkeep hlt, hself]
    omega

end Arenas

/-! ### Sections whose entries fill a vector -/

section Filled
variable {mem : Allocator} {a : Arena} {ps : ParseState} {v : VecId} {st : Stream}

/-- What a round does where `n` entries are left behind it. -/
def Round (mem : Allocator) (ps : ParseState) (v : VecId) (n : ℕ) : R (Arena × Stream) → R (Module × Stream) → Prop :=
  Until (Starved mem) SameFault fun x y => x.2 = y.2 ∧ x.2.Valid ∧ x.1.For (ps.setMod y.1) ∧ x.1.Room v n

/-- A vector is reserved for `count` entries, and the entries are read and pushed. -/
theorem filled_until {msg : String} {count n : ℕ} {body : Arena × Stream → R (Arena × Stream)}
    {body' : Module × Stream → R (Module × Stream)} (h : a.For ps) (hst : st.Valid)
    (hlocals : ∀ i, v ≠ .localTypes i) (helements : v ≠ .elements)
    (hn : v ∉ ps.fixed → sizeOf a.mod v + count ≤ n)
    (hbody : ∀ k a st, st.Valid → Arena.For a ({ ps with fixed := v :: ps.fixed }.setMod a.mod) → a.Room v (k + 1) →
      Round mem { ps with fixed := v :: ps.fixed } v k (body (a, st)) (body' (a.mod, st))) :
    Until (Starved mem) SameFault (fun a' ps' => a'.For ps' ∧ ps'.fixed = v :: ps.fixed)
      (do
        let a ← a.reserve mem v n
        let (a, st) ← Loop.times body count (a, st)
        atEnd msg st
        .ok a)
      (do
        let ps ← ps.reserve v
        let (mod, st) ← eachEntry body' count ps.mod st
        Silverfir.atEnd msg st
        .ok (ps.setMod mod)) := by
  refine Until.bind (reserve_until h hlocals helements) fun a1 ps1 _ hps1 ha1 => ?_
  obtain ⟨hfor, hmod, rfl, hcapacity⟩ := ha1
  have hv : v ∉ ps.fixed := by
    intro hv
    rw [ParseState.reserve, if_pos hv] at hps1
    cases hps1
  have hsize : sizeOf a1.mod v + count ≤ (a1.vecs v).capacity := by
    rw [hmod, ← h.mod]
    exact (hn hv).trans hcapacity
  have hround : ∀ k (x : Arena × Stream) (y : Module × Stream),
      x.2 = y.2 ∧ x.2.Valid ∧ x.1.For ({ ps with fixed := v :: ps.fixed }.setMod y.1) ∧ x.1.Room v (k + 1) →
      Round mem { ps with fixed := v :: ps.fixed } v k (body x) (body' y) := by
    rintro k ⟨a2, st2⟩ ⟨mod, _⟩ ⟨rfl, hvalid, hfor2, hroom⟩
    obtain rfl : mod = a2.mod := hfor2.mod.symm
    exact hbody k a2 st2 hvalid hfor2 hroom
  refine Until.bind (Until.times (fun k x y hxy => hround k x y hxy) (n := count) ⟨rfl, hst, ?_, hsize⟩)
    fun x y _ _ hxy => ?_
  · exact hfor
  · obtain ⟨a2, st2⟩ := x
    obtain ⟨mod, st3⟩ := y
    obtain ⟨rfl, hvalid, hfor2, -⟩ := hxy
    exact atEnd_until hvalid (.ok ⟨hfor2, rfl⟩)

/-- An entry at the end of the vector, behind what was read. -/
theorem pushed_round {k : ℕ} {mod : Module} (hfor : a.For (ps.setMod a.mod)) (hroom : a.Room v (k + 1))
    (hst : st.Valid) (hv : v ∈ ps.fixed) (hlocals : ∀ i, v ≠ .localTypes i) (helements : v ≠ .elements)
    (hself : sizeOf mod v = sizeOf a.mod v + 1) (hsize : ∀ w, w ≠ v → sizeOf mod w = sizeOf a.mod w) :
    Round mem ps v k (do
      let a ← a.push mem v mod
      .ok (a, st)) (.ok (mod, st)) := by
  have hlt : sizeOf a.mod v < (a.vecs v).capacity := by
    rw [Arena.Room] at hroom
    omega
  refine (push_until hfor (Or.inl hlt) (Or.inl hv) hlocals helements hself hsize (n := k)).left fun a' _ ha' => ?_
  exact .ok ⟨rfl, hst, ha'.1, ha'.2 hroom⟩

theorem append_size {α : Type} (xs : List α) (x : α) : (xs ++ [x]).length = xs.length + 1 := by
  rw [List.length_append, List.length_singleton]

/-- The locals of the functions where one is added that has none. -/
theorem addFunc_locals (funcs : List Func) {f : Func} (hf : f.localTypes = []) (i : ℕ) :
    ((funcs ++ [f])[i]?.map fun f => f.localTypes.length).getD 0 =
      (funcs[i]?.map fun f => f.localTypes.length).getD 0 := by
  by_cases hlt : i < funcs.length
  · rw [List.getElem?_append_left hlt]
  · rw [List.getElem?_append_right (by omega), List.getElem?_eq_none (Nat.le_of_not_lt hlt)]
    cases i - funcs.length with
    | zero =>
      simp only [List.getElem?_cons_zero, Option.map_some, Option.getD_some, hf]
      rfl
    | succ j => rfl

theorem parseSectionType_until (h : a.For ps) (hst : st.Valid) :
    Until (Starved mem) SameFault (fun a' ps' => a'.For ps' ∧ ps'.fixed = .funcTypes :: ps.fixed)
      (parseSectionType mem a st) (Silverfir.parseSectionType ps st) := by
  refine (readVu32_keeps hst).bind fun r _ hvalid => ?_
  refine filled_until h hvalid (fun i => by simp) (by simp) ?_ fun k a st hst hfor hroom => ?_
  · intro hv
    rw [h.untouched hv (by simp [Importable]), Nat.zero_add]
  · refine (parseFuncType_keeps hst).bind fun r _ hr => ?_
    refine pushed_round hfor hroom hr List.mem_cons_self (fun i => by simp) (by simp) (append_size _ _) fun w hw => ?_
    cases w <;> first | rfl | exact absurd rfl hw

theorem parseSectionFunction_until (h : a.For ps) (hst : st.Valid) :
    Until (Starved mem) SameFault (fun a' ps' => a'.For ps' ∧ ps'.fixed = .funcs :: ps.fixed)
      (parseSectionFunction mem a st) (Silverfir.parseSectionFunction ps st) := by
  refine (readVu32_keeps hst).bind fun r _ hvalid => ?_
  refine filled_until h hvalid (fun i => by simp) (by simp) (fun _ => (Nat.add_comm _ _).le)
    fun k a st hst hfor hroom => ?_
  refine (parseTypeidx_keeps hst).bind fun r _ hr => ?_
  refine pushed_round hfor hroom hr List.mem_cons_self (fun i => by simp) (by simp) (append_size _ _) fun w hw => ?_
  cases w <;> first | rfl | exact absurd rfl hw | exact addFunc_locals _ rfl _

theorem parseSectionTable_until (h : a.For ps) (hst : st.Valid) :
    Until (Starved mem) SameFault (fun a' ps' => a'.For ps' ∧ ps'.fixed = .tables :: ps.fixed)
      (parseSectionTable mem a st) (Silverfir.parseSectionTable ps st) := by
  refine (readVu32_keeps hst).bind fun r _ hvalid => ?_
  refine filled_until h hvalid (fun i => by simp) (by simp) (fun _ => (Nat.add_comm _ _).le)
    fun k a st hst hfor hroom => ?_
  refine (parseTableType_keeps hst).bind fun r _ hr => ?_
  refine pushed_round hfor hroom hr List.mem_cons_self (fun i => by simp) (by simp) (append_size _ _) fun w hw => ?_
  cases w <;> first | rfl | exact absurd rfl hw

theorem parseSectionMemory_until (h : a.For ps) (hst : st.Valid) :
    Until (Starved mem) SameFault (fun a' ps' => a'.For ps' ∧ ps'.fixed = .memories :: ps.fixed)
      (parseSectionMemory mem a st) (Silverfir.parseSectionMemory ps st) := by
  refine (readVu32_keeps hst).bind fun r _ hvalid => ?_
  refine filled_until h hvalid (fun i => by simp) (by simp) (fun _ => (Nat.add_comm _ _).le)
    fun k a st hst hfor hroom => ?_
  refine (parseLimits_keeps (by decide) hst).bind fun r _ hr => ?_
  refine pushed_round hfor hroom hr List.mem_cons_self (fun i => by simp) (by simp) (append_size _ _) fun w hw => ?_
  cases w <;> first | rfl | exact absurd rfl hw

theorem parseSectionGlobal_until (h : a.For ps) (hst : st.Valid) :
    Until (Starved mem) SameFault (fun a' ps' => a'.For ps' ∧ ps'.fixed = .globals :: ps.fixed)
      (parseSectionGlobal mem a st) (Silverfir.parseSectionGlobal ps st) := by
  refine (readVu32_keeps hst).bind fun r _ hvalid => ?_
  refine filled_until h hvalid (fun i => by simp) (by simp) (fun _ => (Nat.add_comm _ _).le)
    fun k a st hst hfor hroom => ?_
  refine (parseGlobalType_keeps hst).bind fun r _ hr => ?_
  refine (parseConstExpr_keeps hr).bind fun x _ hx => ?_
  refine pushed_round hfor hroom hx List.mem_cons_self (fun i => by simp) (by simp) (append_size _ _) fun w hw => ?_
  cases w <;> first | rfl | exact absurd rfl hw

end Filled

/-! ### The other sections -/

section Others
variable {mem : Allocator} {a : Arena} {ps : ParseState} {v : VecId} {st : Stream}

/-- A module whose vectors have the same sizes. -/
theorem Arena.For.sameSizes (h : a.For ps) {mod : Module} (hsize : ∀ w, sizeOf mod w = sizeOf a.mod w) :
    (a.setMod mod).For (ps.setMod mod) where
  mod := rfl
  fixed := h.fixed
  capacity := h.capacity
  valid w := by
    change (a.vecs w).IsValid (sizeOf mod w)
    rw [hsize]
    exact h.valid w
  fresh := h.fresh
  full i hi := by
    change _ ≤ sizeOf mod _
    rw [hsize]
    exact h.full i hi

theorem parseImport_until {mod : Module} (h : a.For (ps.setMod mod)) (hst : st.Valid)
    (himport : ∀ w, Importable w → w ∉ ps.fixed) :
    Until (Starved mem) SameFault (fun x y => x.2 = y.2 ∧ x.2.Valid ∧ x.1.For (ps.setMod y.1)) (parseImport mem a st)
      (Silverfir.parseImport mod st) := by
  obtain rfl : mod = a.mod := h.mod.symm
  have hpush : ∀ {v : VecId} {mod : Module} {st' : Stream}, Importable v → st'.Valid →
      sizeOf mod v = sizeOf a.mod v + 1 → (∀ w, w ≠ v → sizeOf mod w = sizeOf a.mod w) →
      Until (Starved mem) SameFault
        (fun (x : Arena × Stream) (y : Module × Stream) => x.2 = y.2 ∧ x.2.Valid ∧ x.1.For (ps.setMod y.1))
        (do
          let a ← a.push mem v mod
          .ok (a, st')) (.ok (mod, st')) := by
    intro v mod st' hv hst' hself hsize
    have hlocals : ∀ i, v ≠ .localTypes i := by
      rintro i rfl
      simp [Importable] at hv
    have helements : v ≠ .elements := by
      rintro rfl
      simp [Importable] at hv
    refine (push_until h (Or.inr (himport v hv)) (Or.inr hv) hlocals helements hself hsize (n := 0)).left
      fun a' _ ha' => ?_
    exact .ok ⟨rfl, hst', ha'.1⟩
  refine (parseName_keeps hst).bind fun r _ hvalid => ?_
  obtain ⟨module, st1⟩ := r
  refine (parseName_keeps hvalid).bind fun r _ hvalid => ?_
  obtain ⟨field, st2⟩ := r
  refine (readU8_keeps hvalid).bind fun r _ hvalid => ?_
  obtain ⟨kind, st3⟩ := r
  dsimp only
  cases ExternalKind.ofByte? kind with
  | none => exact same_err _ _
  | some kind =>
    cases kind with
    | func =>
      refine (parseTypeidx_keeps hvalid).bind fun r _ hr => ?_
      refine hpush (Or.inl rfl) hr (append_size _ _) fun w hw => ?_
      cases w <;> first | rfl | exact absurd rfl hw | exact addFunc_locals _ rfl _
    | table =>
      refine (parseTableType_keeps hvalid).bind fun r _ hr => ?_
      refine hpush (Or.inr (Or.inl rfl)) hr (append_size _ _) fun w hw => ?_
      cases w <;> first | rfl | exact absurd rfl hw
    | memory =>
      refine (parseLimits_keeps (by decide) hvalid).bind fun r _ hr => ?_
      refine hpush (Or.inr (Or.inr (Or.inl rfl))) hr (append_size _ _) fun w hw => ?_
      cases w <;> first | rfl | exact absurd rfl hw
    | global =>
      refine (parseGlobalType_keeps hvalid).bind fun r _ hr => ?_
      refine hpush (Or.inr (Or.inr (Or.inr rfl))) hr (append_size _ _) fun w hw => ?_
      cases w <;> first | rfl | exact absurd rfl hw

theorem parseSectionImport_until (h : a.For ps) (hst : st.Valid) (himport : ∀ w, Importable w → w ∉ ps.fixed) :
    Until (Starved mem) SameFault (fun a' ps' => a'.For ps' ∧ ps'.fixed = ps.fixed) (parseSectionImport mem a st)
      (Silverfir.parseSectionImport ps st) := by
  refine (readVu32_keeps hst).bind fun r _ hvalid => ?_
  refine Until.bind (Until.times (P := fun _ x y => x.2 = y.2 ∧ x.2.Valid ∧ x.1.For (ps.setMod y.1)) ?_
    ⟨rfl, hvalid, h⟩) fun x y _ _ hxy => ?_
  · rintro k ⟨a1, st1⟩ ⟨mod, _⟩ ⟨rfl, hvalid1, hfor⟩
    exact parseImport_until hfor hvalid1 himport
  obtain ⟨a1, st1⟩ := x
  obtain ⟨mod, st2⟩ := y
  obtain ⟨rfl, hvalid1, hfor⟩ := hxy
  exact atEnd_until hvalid1 (.ok ⟨hfor, rfl⟩)

theorem at_get {α : Type} {xs : List α} {i : ℕ} (h : i < xs.length) : VecHeader.at_ xs i = .ok xs[i] := by
  rw [VecHeader.at_, List.getElem?_eq_getElem h]

theorem markExport_until {kind : ExternalKind} {idx : ℕ} {mod : Module} :
    Until (Starved mem) SameFault (fun m m' => m = m' ∧ Silverfir.markExport kind idx mod = .ok m')
      (markExport kind idx mod) (Silverfir.markExport kind idx mod) := by
  rw [markExport]
  cases hmark : Silverfir.markExport kind idx mod with
  | error e => exact Until.error (.refl e)
  | ok mod' =>
    rw [ok_bind]
    cases kind with
    | func | table | memory | global =>
      simp only [Silverfir.markExport] at hmark
      obtain ⟨hlt, -⟩ := guard_eq_ok.mp hmark
      dsimp only
      rw [at_get (by omega)]
      exact .ok ⟨rfl, rfl⟩

theorem modify_map_getD {α : Type} {g : α → ℕ} {f : α → α} (hf : ∀ x, g (f x) = g x) (xs : List α) (idx i : ℕ) :
    ((xs.modify idx f)[i]?.map g).getD 0 = (xs[i]?.map g).getD 0 := by
  rw [List.getElem?_modify]
  cases xs[i]? with
  | none => rfl
  | some x =>
    by_cases heq : idx = i
    · simp [heq, hf]
    · simp [heq]

theorem markExport_sizes {kind : ExternalKind} {idx : ℕ} {mod mod' : Module}
    (h : Silverfir.markExport kind idx mod = .ok mod') (w : VecId) : sizeOf mod' w = sizeOf mod w := by
  have hlocals : ∀ i : ℕ, (((mod.funcs.modify idx fun f => { f with linkage := f.linkage.markExported })[i]?).map
      fun f : Func => f.localTypes.length).getD 0 = (mod.funcs[i]?.map fun f : Func => f.localTypes.length).getD 0 := by
    intro i
    exact modify_map_getD (g := fun f : Func => f.localTypes.length)
      (f := fun f : Func => { f with linkage := f.linkage.markExported }) (fun _ => rfl) mod.funcs idx i
  cases kind with
  | func | table | memory | global =>
    simp only [Silverfir.markExport] at h
    obtain ⟨-, h⟩ := guard_eq_ok.mp h
    cases h
    cases w <;> first | rfl | exact List.length_modify _ _ _ | exact hlocals _

theorem parseSectionExport_until (h : a.For ps) (hst : st.Valid) :
    Until (Starved mem) SameFault (fun a' ps' => a'.For ps' ∧ ps'.fixed = .exports :: ps.fixed)
      (parseSectionExport mem a st) (Silverfir.parseSectionExport ps st) := by
  refine (readVu32_keeps hst).bind fun r _ hvalid => ?_
  refine filled_until h hvalid (fun i => by simp) (by simp) ?_ fun k a st hst hfor hroom => ?_
  · intro hv
    rw [h.untouched hv (by simp [Importable]), Nat.zero_add]
  · refine (parseName_keeps hst).bind fun r _ hvalid => ?_
    obtain ⟨name, st1⟩ := r
    refine (readU8_keeps hvalid).bind fun r _ hvalid => ?_
    obtain ⟨kind, st2⟩ := r
    dsimp only
    cases ExternalKind.ofByte? kind with
    | none => exact same_err _ _
    | some kind =>
      refine (readVu32_keeps hvalid).bind fun r _ hvalid => ?_
      refine Until.bind markExport_until fun mod mod' _ _ hm => ?_
      obtain ⟨rfl, hmark⟩ := hm
      have hsizes := markExport_sizes hmark
      have hfor1 := hfor.sameSizes hsizes
      have hroom1 : (a.setMod mod).Room .exports (k + 1) := by
        change sizeOf mod .exports + (k + 1) ≤ _
        rw [hsizes]
        exact hroom
      refine pushed_round hfor1 hroom1 hvalid List.mem_cons_self (fun i => by simp) (by simp) (append_size _ _)
        fun w hw => ?_
      cases w <;> first | rfl | exact absurd rfl hw

theorem parseSectionStart_until (h : a.For ps) (hst : st.Valid) :
    Until (Starved mem) SameFault (fun a' ps' => a'.For ps' ∧ ps'.fixed = ps.fixed) (parseSectionStart a st)
      (Silverfir.parseSectionStart ps st) := by
  refine (readVu32_keeps hst).bind fun r _ hvalid => ?_
  obtain ⟨idx, st1⟩ := r
  rw [h.mod]
  dsimp only
  by_cases hlt : idx < ps.mod.funcs.length
  · rw [if_neg (by omega), at_get hlt, ok_bind, List.getElem?_eq_getElem hlt]
    refine Until.ite (fun _ => same_err _ _) fun _ => atEnd_until hvalid (.ok ⟨?_, rfl⟩)
    refine h.sameSizes fun w => ?_
    rw [h.mod]
    cases w <;> rfl
  · rw [if_pos (by omega), List.getElem?_eq_none (by omega)]
    exact same_err _ _

theorem parseSectionData_until (h : a.For ps) (hst : st.Valid) :
    Until (Starved mem) SameFault (fun a' ps' => a'.For ps' ∧ ps'.fixed = .data :: ps.fixed)
      (parseSectionData mem a st) (Silverfir.parseSectionData ps st) := by
  refine (readVu32_keeps hst).bind fun r _ hvalid => ?_
  obtain ⟨count, st1⟩ := r
  rw [h.mod]
  refine Until.ite (fun _ => same_err _ _) fun _ => ?_
  have hcounted : (a.setMod { ps.mod with dataCount := some count }).For
      (ps.setMod { ps.mod with dataCount := some count }) := by
    refine h.sameSizes fun w => ?_
    rw [h.mod]
    cases w <;> rfl
  have hreserve : ∀ (f : ParseState → R ParseState), (ps.reserve .data >>= fun ps' =>
      f (ps'.setMod { ps'.mod with dataCount := some count })) =
      ((ps.setMod { ps.mod with dataCount := some count }).reserve .data >>= f) := by
    intro f
    have hfixed : (ps.setMod { ps.mod with dataCount := some count }).fixed = ps.fixed := rfl
    rw [ParseState.reserve, ParseState.reserve, hfixed]
    by_cases hv : VecId.data ∈ ps.fixed
    · rw [if_pos hv, if_pos hv]
      rfl
    · rw [if_neg hv, if_neg hv]
      rfl
  let rest : ParseState → R ParseState := fun ps => do
    let r ← eachEntry (fun x => do
      let r ← Silverfir.parseData x.2
      .ok ({ x.1 with data := x.1.data ++ [r.1] }, r.2)) count ps.mod st1
    Silverfir.atEnd "Malformed data section" r.2
    .ok (ps.setMod r.1)
  change Until _ _ _ _
    (ps.reserve .data >>= fun ps' => rest (ps'.setMod { ps'.mod with dataCount := some count }))
  rw [hreserve rest]
  refine filled_until hcounted hvalid (fun i => by simp) (by simp) ?_ fun k a st hst hfor hroom => ?_
  · intro hv
    rw [hcounted.untouched hv (by simp [Importable]), Nat.zero_add]
  · refine (parseData_keeps hst).bind fun r _ hr => ?_
    refine pushed_round hfor hroom hr List.mem_cons_self (fun i => by simp) (by simp) (append_size _ _) fun w hw => ?_
    cases w <;> first | rfl | exact absurd rfl hw

theorem parseSectionDataCount_until (h : a.For ps) (hst : st.Valid) :
    Until (Starved mem) SameFault (fun a' ps' => a'.For ps' ∧ ps'.fixed = ps.fixed) (parseSectionDataCount a st)
      (Silverfir.parseSectionDataCount ps st) := by
  refine (readVu32_keeps hst).bind fun r _ hvalid => ?_
  refine atEnd_until hvalid (.ok ⟨?_, rfl⟩)
  rw [h.mod]
  refine h.sameSizes fun w => ?_
  rw [h.mod]
  cases w <;> rfl

end Others

end Asserted

end Silverfir
