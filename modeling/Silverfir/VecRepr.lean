import Silverfir.VecImpl

/-! What the vectors hold: a list of elements, one after the other at the beginning of the storage, and what each
function makes of it. -/
namespace Silverfir

open VecImpl

variable {β : Type}

/-- The storage of the vector has its capacity and begins with these elements. -/
structure VecState.Holds (elemSize : ℕ) (s : VecState β) (xs : List (List β)) : Prop where
  elems : ∀ x ∈ xs, x.length = elemSize
  size : s.vec.size = xs.length
  empty : s.vec.data = none → s.vec.capacity = 0 ∧ xs = []
  stored : ∀ a, s.vec.data = some a → ∃ block, s.heap a = some block ∧ block.length = s.vec.capacity * elemSize ∧
    block.length ≤ ptrdiffMax ∧ 0 < s.vec.capacity ∧ xs.length ≤ s.vec.capacity ∧ xs.flatten <+: block

/-- The vector holds other elements, its old storage is freed if it has moved, and nothing else in the heap changes.
The storage of a fixed vector stays. -/
structure VecState.Becomes (elemSize : ℕ) (s s' : VecState β) (xs : List (List β)) : Prop where
  holds : s'.Holds elemSize xs
  other : ∀ b, s.vec.data ≠ some b → s'.vec.data ≠ some b → s'.heap b = s.heap b
  fresh : ∀ b, s'.vec.data = some b → s.vec.data ≠ some b → s.heap b = none
  freed : ∀ b, s.vec.data = some b → s'.vec.data ≠ some b → s'.heap b = none
  fixed : s'.vec.fixed = s.vec.fixed
  pinned : s.vec.fixed = true → s'.vec.data = s.vec.data ∧ s'.vec.capacity = s.vec.capacity

section Elements
variable {elemSize i : ℕ} {xs : List (List β)} {rest : List β} {s : VecState β}

theorem length_elements (h : ∀ x ∈ xs, x.length = elemSize) : xs.flatten.length = xs.length * elemSize := by
  induction xs with
  | nil => simp
  | cons x xs ih =>
    have hx := h x List.mem_cons_self
    have hxs := ih fun y hy => h y (List.mem_cons_of_mem x hy)
    rw [List.flatten_cons, List.length_append, hx, hxs, List.length_cons, Nat.succ_mul, Nat.add_comm]

/-- An element at its place. -/
theorem element_at (h : ∀ x ∈ xs, x.length = elemSize) (hi : i < xs.length) :
    ((xs.flatten ++ rest).drop (i * elemSize)).take elemSize = xs[i] := by
  induction xs generalizing i with
  | nil => exact absurd hi (Nat.not_lt_zero i)
  | cons x xs ih =>
    have hx := h x List.mem_cons_self
    rw [List.flatten_cons, List.append_assoc]
    cases i with
    | zero => rw [Nat.zero_mul, List.drop_zero, List.take_left' hx, List.getElem_cons_zero]
    | succ i =>
      have hsplit : (i + 1) * elemSize = x.length + i * elemSize := by
        rw [hx, Nat.succ_mul, Nat.add_comm]
      rw [hsplit, ← List.drop_drop, List.drop_left, List.getElem_cons_succ]
      exact ih (fun y hy => h y (List.mem_cons_of_mem x hy)) (Nat.lt_of_succ_lt_succ hi)

theorem flatten_take (xs : List (List β)) (n : ℕ) : (xs.take n).flatten <+: xs.flatten := by
  conv_rhs => rw [← List.take_append_drop n xs]
  rw [List.flatten_append]
  exact List.prefix_append _ _

theorem VecState.Holds.isValid (h : s.Holds elemSize xs) : s.vec.IsValid := by
  unfold RawVec.IsValid
  cases hdata : s.vec.data with
  | none =>
    obtain ⟨hcap, rfl⟩ := h.empty hdata
    exact ⟨hcap, h.size⟩
  | some a =>
    obtain ⟨block, -, -, -, hpos, hlen, -⟩ := h.stored a hdata
    exact ⟨hpos, h.size ▸ hlen⟩

theorem VecState.Holds.assertValid (h : s.Holds elemSize xs) : VecImpl.assertValid s = (.ok s.vec, s) := by
  simp only [VecImpl.assertValid, Eff.bind_apply, VecImpl.get, if_pos h.isValid, Eff.pure_apply]

/-- Nothing but the vector's own storage matters. -/
theorem VecState.Holds.congr {heap : Heap (List β)} (h : s.Holds elemSize xs)
    (hsame : ∀ a, s.vec.data = some a → heap a = s.heap a) : VecState.Holds elemSize ⟨heap, s.vec⟩ xs := by
  obtain ⟨helems, hsize, hempty, hstored⟩ := h
  refine ⟨helems, hsize, hempty, fun a ha => ?_⟩
  obtain ⟨block, hblock, hrest⟩ := hstored a ha
  exact ⟨block, (hsame a ha).trans hblock, hrest⟩

/-- The elements can be read from the storage. -/
theorem VecState.Holds.elem (h : s.Holds elemSize xs) (i : ℕ) : s.elem elemSize i = xs[i]? := by
  unfold VecState.elem
  rw [h.size]
  by_cases hi : i < xs.length
  · rw [if_pos hi, List.getElem?_eq_getElem hi]
    cases hdata : s.vec.data with
    | none =>
      obtain ⟨-, rfl⟩ := h.empty hdata
      exact absurd hi (Nat.not_lt_zero i)
    | some a =>
      obtain ⟨block, hblock, hlen, -, -, hle, rest, hrest⟩ := h.stored a hdata
      have hfits : i * elemSize + elemSize ≤ block.length := by
        rw [hlen, ← Nat.succ_mul]
        exact Nat.mul_le_mul_right elemSize (by omega)
      rw [Option.bind_some, Heap.load, hblock, Option.bind_some, if_pos hfits, ← hrest, element_at h.elems hi]
  · rw [if_neg hi, List.getElem?_eq_none (Nat.not_lt.mp hi)]

end Elements

section Frame
variable {elemSize : ℕ} {s s' s'' : VecState β} {xs ys : List (List β)}

theorem VecState.Becomes.refl (h : s.Holds elemSize xs) : s.Becomes elemSize s xs where
  holds := h
  other _ _ _ := rfl
  fresh _ hb hne := absurd hb hne
  freed _ hb hne := absurd hb hne
  fixed := rfl
  pinned _ := ⟨rfl, rfl⟩

theorem VecState.Becomes.trans (h : s.Becomes elemSize s' xs) (h' : s'.Becomes elemSize s'' ys) :
    s.Becomes elemSize s'' ys where
  holds := h'.holds
  other b hs hs'' := by
    by_cases hs' : s'.vec.data = some b
    · rw [h'.freed b hs' hs'', h.fresh b hs' hs]
    · rw [h'.other b hs' hs'', h.other b hs hs']
  fresh b hs'' hs := by
    by_cases hs' : s'.vec.data = some b
    · exact h.fresh b hs' hs
    · rw [← h.other b hs hs']
      exact h'.fresh b hs'' hs'
  freed b hs hs'' := by
    by_cases hs' : s'.vec.data = some b
    · exact h'.freed b hs' hs''
    · rw [h'.other b hs' hs'']
      exact h.freed b hs hs'
  fixed := h'.fixed.trans h.fixed
  pinned hfixed := by
    obtain ⟨hdata, hcap⟩ := h.pinned hfixed
    obtain ⟨hdata', hcap'⟩ := h'.pinned (h.fixed.trans hfixed)
    exact ⟨hdata'.trans hdata, hcap'.trans hcap⟩

end Frame

/-! ### Growth -/

/-- Nothing is rounded as long as 53 bits are enough. -/
theorem toDouble_small {m : ℕ} (h : m.log2 ≤ 52) : toDouble m = m := by
  have hexp : m.log2 - 52 = 0 := Nat.sub_eq_zero_of_le h
  have hexact : ¬ (1 < 2 * (m % 1) ∨ 2 * (m % 1) = 1 ∧ m % 2 = 1) := by
    rw [Nat.mod_one]
    omega
  unfold toDouble
  rw [hexp]
  simp only [Nat.pow_zero, Nat.div_one, if_neg hexact, Nat.mul_one]

/-- The rounding adds at most one part in `2 ^ 52`. -/
theorem toDouble_le (m : ℕ) : toDouble m * 2 ^ 52 ≤ m * (2 ^ 52 + 1) := by
  by_cases hsmall : m.log2 ≤ 52
  · rw [toDouble_small hsmall]
    exact Nat.mul_le_mul_left m (Nat.le_succ _)
  · obtain ⟨e, he⟩ : ∃ e, m.log2 = e + 52 := ⟨m.log2 - 52, by omega⟩
    have hm : m ≠ 0 := by
      rintro rfl
      exact hsmall (by decide)
    have hlow : 2 ^ e * 2 ^ 52 ≤ m := by
      rw [← Nat.pow_add, ← he]
      exact Nat.log2_self_le hm
    have hdiv := Nat.div_mul_le_self m (2 ^ e)
    have hround : toDouble m ≤ m / 2 ^ e * 2 ^ e + 2 ^ e := by
      unfold toDouble
      rw [he, Nat.add_sub_cancel]
      dsimp only
      split
      · exact Nat.le_of_eq (Nat.succ_mul _ _)
      · exact Nat.le_add_right _ _
    calc toDouble m * 2 ^ 52 ≤ (m + 2 ^ e) * 2 ^ 52 := Nat.mul_le_mul_right _ (by omega)
      _ = m * 2 ^ 52 + 2 ^ e * 2 ^ 52 := Nat.add_mul _ _ _
      _ ≤ m * 2 ^ 52 + m := Nat.add_le_add_left hlow _
      _ = m * (2 ^ 52 + 1) := (Nat.mul_succ _ _).symm

theorem log2_le {m : ℕ} (h : m < 2 ^ 53) : m.log2 ≤ 52 := by
  by_cases hm : m = 0
  · rw [hm]
    decide
  · exact Nat.lt_succ_iff.mp ((Nat.log2_lt hm).mpr h)

/-- A vector at most doubles, so that the number of bytes can be computed. -/
theorem newCapacity_ok {capacity : ℕ} (hpos : 0 < capacity) (hmax : capacity ≤ ptrdiffMax) :
    ∃ n, newCapacity capacity = .ok n ∧ n ≤ 2 * capacity := by
  have hproduct : toDouble (3 * toDouble capacity) / 2 + 1 ≤ 2 * capacity := by
    by_cases hsmall : capacity < 2 ^ 51
    · rw [toDouble_small (log2_le (m := capacity) (by omega)), toDouble_small (log2_le (by omega))]
      omega
    · have hc := toDouble_le capacity
      have hp := toDouble_le (3 * toDouble capacity)
      omega
  have hfits : toDouble (3 * toDouble capacity) / 2 + 1 < 2 ^ 64 := by
    rw [ptrdiffMax] at hmax
    omega
  refine ⟨_, if_pos (Nat.lt_of_succ_lt hfits), ?_⟩
  rw [sizeT, Nat.mod_eq_of_lt hfits]
  exact hproduct

/-! ### Storage -/

section Storage
variable {elemSize n : ℕ} {s : VecState β} {xs ys zs : List (List β)} {e : List β} {g : Option (Heap.Grant β)}
  {msg : String}

/-- What comes of a vector: other elements, or an error and the vector as it was. -/
def VecState.Does (elemSize : ℕ) (s : VecState β) (m : VecM β Unit) (ys : List (List β)) : Prop :=
  (∃ s', m s = (.ok (), s') ∧ s.Becomes elemSize s' ys) ∨ ∃ msg, m s = (err .general msg, s)

/-- New storage for a vector that has none. -/
theorem alloc_becomes (msg : String) (h : s.Holds elemSize xs) (hdata : s.vec.data = none) (hfree : s.vec.fixed = false)
    (hn : 0 < n) (hfits : n * elemSize < 2 ^ 64) :
    (∃ a heap, arrayAlloc elemSize g n msg s = (.ok a, ⟨heap, s.vec⟩) ∧ s.heap a = none ∧
        s.Becomes elemSize ⟨heap, { s.vec with data := some a, capacity := n }⟩ xs) ∨
      arrayAlloc elemSize g n msg s = (err .general msg, s) := by
  have hbytes : sizeT (elemSize * n) = n * elemSize := by
    rw [sizeT, Nat.mul_comm, Nat.mod_eq_of_lt hfits]
  unfold arrayAlloc
  rw [hbytes]
  cases hm : Heap.malloc ptrdiffMax g (n * elemSize) s.heap with
  | none => exact Or.inr rfl
  | some p =>
    obtain ⟨a, heap⟩ := p
    obtain ⟨hmax, hnone, new, hlen, rfl⟩ := Heap.malloc_some hm
    obtain ⟨-, rfl⟩ := h.empty hdata
    refine Or.inl ⟨a, _, rfl, hnone, ?_, fun b _ hb => ?_, fun b hb _ => ?_, fun b hb => ?_, rfl, fun hfixed => ?_⟩
    · refine ⟨h.elems, h.size, fun hno => (Option.some_ne_none a hno).elim, fun c hc => ?_⟩
      obtain rfl := Option.some.inj hc
      exact ⟨new, Heap.put_self, hlen, hlen ▸ hmax, hn, Nat.zero_le n, List.nil_prefix⟩
    · exact Heap.put_ne fun hba => hb (congrArg some hba.symm)
    · obtain rfl := Option.some.inj hb
      exact hnone
    · rw [hdata] at hb
      cases hb
    · rw [hfree] at hfixed
      cases hfixed

/-- Storage for more elements, or for fewer. -/
theorem realloc_becomes (msg : String) (h : s.Holds elemSize xs) (hdata : s.vec.data ≠ none)
    (hfree : s.vec.fixed = false) (hsize : 0 < elemSize) (hn : 0 < n) (hle : xs.length ≤ n)
    (hfits : n * elemSize < 2 ^ 64) :
    (∃ a heap, arrayRealloc elemSize g s.vec.data n msg s = (.ok a, ⟨heap, s.vec⟩) ∧
        s.Becomes elemSize ⟨heap, { s.vec with data := some a, capacity := n }⟩ xs) ∨
      arrayRealloc elemSize g s.vec.data n msg s = (err .general msg, s) := by
  obtain ⟨old, hold⟩ := Option.ne_none_iff_exists'.mp hdata
  obtain ⟨block, hblock, -, -, -, -, hbegins⟩ := h.stored old hold
  have hbytes : sizeT (n * elemSize) = n * elemSize := Nat.mod_eq_of_lt hfits
  have hsome : n * elemSize ≠ 0 := Nat.ne_of_gt (Nat.mul_pos hn hsize)
  unfold arrayRealloc
  simp only [hold, hblock, hbytes, if_neg hsome]
  cases hm : Heap.realloc ptrdiffMax g old block (n * elemSize) s.heap with
  | none => exact Or.inr rfl
  | some p =>
    obtain ⟨a, heap⟩ := p
    obtain ⟨hmax, hplace, new, hlen, hkept, rfl⟩ := Heap.realloc_some hm
    have hfront : xs.flatten <+: new := by
      have hshort : xs.flatten.length ≤ n * elemSize := by
        rw [length_elements h.elems]
        exact Nat.mul_le_mul_right elemSize hle
      have hcut : xs.flatten <+: block.take (n * elemSize) := List.prefix_take_iff.mpr ⟨hbegins, hshort⟩
      rw [← hkept] at hcut
      exact hcut.trans (List.take_prefix _ _)
    refine Or.inl ⟨a, _, rfl, ?_, fun b hb hb' => ?_, fun b hb hb' => ?_, fun b hb hb' => ?_, rfl, fun hfixed => ?_⟩
    · refine ⟨h.elems, h.size, fun hno => (Option.some_ne_none a hno).elim, fun c hc => ?_⟩
      obtain rfl := Option.some.inj hc
      exact ⟨new, Heap.put_self, hlen, hlen ▸ hmax, hn, hle, hfront⟩
    · rw [hold] at hb
      exact (Heap.put_ne fun hba => hb' (congrArg some hba.symm)).trans
        (Heap.free_ne fun hbo => hb (congrArg some hbo.symm))
    · obtain rfl := Option.some.inj hb
      exact hplace.resolve_left fun hao => hb' (hao ▸ hold)
    · rw [hold] at hb
      obtain rfl := Option.some.inj hb
      exact (Heap.put_ne fun hba => hb' (congrArg some hba.symm)).trans Heap.free_self
    · rw [hfree] at hfixed
      cases hfixed

/-- More elements are written behind those that are there. -/
theorem store_becomes (h : s.Holds elemSize xs) (hys : ∀ y ∈ ys, y.length = elemSize) (hne : ys ≠ [])
    (hroom : xs.length + ys.length ≤ s.vec.capacity) :
    ∃ a heap, s.vec.data = some a ∧ Heap.store a (s.vec.size * elemSize) ys.flatten s.heap = some heap ∧
      s.Becomes elemSize ⟨heap, { s.vec with size := s.vec.size + ys.length }⟩ (xs ++ ys) := by
  have hpos := List.length_pos_iff.mpr hne
  obtain ⟨a, ha⟩ : ∃ a, s.vec.data = some a := by
    refine Option.ne_none_iff_exists'.mp fun hnone => ?_
    have hcap := (h.empty hnone).1
    omega
  obtain ⟨block, hblock, hlen, hmax, hcap, -, rest, hrest⟩ := h.stored a ha
  have hxs := length_elements h.elems
  have hoff : s.vec.size * elemSize = xs.flatten.length := by rw [hxs, h.size]
  have hfits : xs.flatten.length + ys.flatten.length ≤ block.length := by
    rw [hxs, length_elements hys, hlen, ← Nat.add_mul]
    exact Nat.mul_le_mul_right elemSize hroom
  have hfront : block.take xs.flatten.length = xs.flatten := by
    rw [← hrest, List.take_left]
  have hstore : Heap.store a (s.vec.size * elemSize) ys.flatten s.heap = some (s.heap.put a
      (xs.flatten ++ ys.flatten ++ block.drop (xs.flatten.length + ys.flatten.length))) := by
    rw [hoff, Heap.store_some hblock hfits, hfront]
  refine ⟨a, _, ha, hstore, ?_, fun b hb _ => ?_, fun b hb hb' => absurd hb hb',
    fun b hb hb' => absurd hb hb', rfl, fun _ => ⟨rfl, rfl⟩⟩
  · have hsize : s.vec.size + ys.length = (xs ++ ys).length := by rw [h.size, List.length_append]
    refine ⟨fun x hx => (List.mem_append.mp hx).elim (h.elems x) (hys x), hsize, fun hno => ?_, fun c hc => ?_⟩
    · rw [show s.vec.data = none from hno] at ha
      cases ha
    · obtain rfl := Option.some.inj (ha.symm.trans hc)
      have hnew : (xs.flatten ++ ys.flatten ++ block.drop (xs.flatten.length + ys.flatten.length)).length =
          block.length := by
        rw [List.length_append, List.length_append, List.length_drop]
        omega
      refine ⟨_, Heap.put_self, hnew.trans hlen, hnew ▸ hmax, hcap, by rw [List.length_append]; exact hroom, ?_⟩
      rw [List.flatten_append]
      exact List.prefix_append _ _
  · exact Heap.put_ne fun hba => hb (ha.trans (congrArg some hba.symm))

theorem get_apply (s : VecState β) : VecImpl.get s = (.ok s.vec, s) := rfl

theorem setVec_apply (v : RawVec) (s : VecState β) : setVec v s = (.ok (), ⟨s.heap, v⟩) := rfl

theorem write_apply {p : Option ℕ} {a off : ℕ} {bytes : List β} {heap : Heap (List β)} (hp : p = some a)
    (hstore : Heap.store a off bytes s.heap = some heap) : write p off bytes s = (.ok (), ⟨heap, s.vec⟩) := by
  simp only [write, hp, Option.bind_some, hstore]

/-! ### The functions -/

theorem VecState.Becomes.does {s' : VecState β} {m : VecM β Unit} (hm : m s = (.ok (), s'))
    (h : s.Becomes elemSize s' ys) : s.Does elemSize m ys := Or.inl ⟨s', hm, h⟩

/-- A block that the vector owns has room for its elements. -/
theorem VecState.Holds.capacity_fits (h : s.Holds elemSize xs) (hdata : s.vec.data ≠ none) :
    s.vec.capacity * elemSize ≤ ptrdiffMax ∧ 0 < s.vec.capacity ∧ xs.length ≤ s.vec.capacity := by
  obtain ⟨a, ha⟩ := Option.ne_none_iff_exists'.mp hdata
  obtain ⟨block, -, hlen, hmax, hcap, hle, -⟩ := h.stored a ha
  exact ⟨hlen ▸ hmax, hcap, hle⟩

theorem append_becomes (h : s.Holds elemSize xs) (he : e.length = elemSize) (hroom : s.vec.size < s.vec.capacity) :
    ∃ s', append elemSize e s = (.ok (), s') ∧ s.Becomes elemSize s' (xs ++ [e]) := by
  have hys : ∀ y ∈ [e], y.length = elemSize := fun y hy => (List.mem_singleton.mp hy) ▸ he
  obtain ⟨a, heap, ha, hstore, hbecomes⟩ := store_becomes h hys (List.cons_ne_nil e []) (by
    rw [List.length_singleton, ← h.size]
    exact hroom)
  rw [show [e].flatten = e by simp] at hstore
  refine ⟨_, ?_, hbecomes⟩
  unfold append
  simp only [Eff.bind_apply, get_apply, write_apply ha hstore, setVec_apply, List.length_singleton]

theorem push_does (h : s.Holds elemSize xs) (he : e.length = elemSize) (hsize : 0 < elemSize)
    (hfits : 10 * elemSize < 2 ^ 64) : s.Does elemSize (push elemSize g e) (xs ++ [e]) := by
  unfold VecState.Does push
  simp only [Eff.bind_apply, h.assertValid]
  by_cases hroom : s.vec.capacity > s.vec.size
  · rw [if_pos hroom]
    exact Or.inl (append_becomes h he hroom)
  rw [if_neg hroom]
  by_cases hfixed : s.vec.fixed
  · have hvalid := h.isValid
    by_cases hdata : s.vec.data = none
    · rw [if_pos hdata, if_pos hfixed]
      exact Or.inr ⟨_, rfl⟩
    · rw [if_neg hdata]
      obtain ⟨a, ha⟩ := Option.ne_none_iff_exists'.mp hdata
      rw [RawVec.IsValid, ha] at hvalid
      rw [if_pos (Nat.le_antisymm hvalid.2 (Nat.not_lt.mp hroom)), if_pos hfixed]
      exact Or.inr ⟨_, rfl⟩
  · have hfree := Bool.not_eq_true _ ▸ hfixed
    by_cases hdata : s.vec.data = none
    · rw [if_pos hdata]
      obtain ⟨hcap, rfl⟩ := h.empty hdata
      have hzero : s.vec.size = 0 := h.size
      rcases alloc_becomes (g := g) "vector: out of memory" h hdata hfree (by omega : 0 < 10) hfits with
        ⟨a, heap, halloc, -, hnew⟩ | halloc
      · obtain ⟨s', happend, hbecomes⟩ := append_becomes (e := e) hnew.holds he (by rw [hzero]; exact Nat.succ_pos 9)
        refine Or.inl ⟨s', ?_, hnew.trans hbecomes⟩
        simp only [if_neg hfixed, Eff.bind_apply, halloc, setVec_apply]
        exact happend
      · refine Or.inr ⟨"vector: out of memory", ?_⟩
        simp only [if_neg hfixed, Eff.bind_apply, halloc]
        rfl
    · rw [if_neg hdata]
      obtain ⟨a, ha⟩ := Option.ne_none_iff_exists'.mp hdata
      obtain ⟨block, -, hlen, hmax, hpos, hle, -⟩ := h.stored a ha
      have hfull : s.vec.size = s.vec.capacity := Nat.le_antisymm (h.size ▸ hle) (Nat.not_lt.mp hroom)
      have hcap : s.vec.capacity ≤ ptrdiffMax :=
        Nat.le_trans (Nat.le_mul_of_pos_right _ hsize) (hlen ▸ hmax)
      obtain ⟨n, hgrow, hdouble⟩ := newCapacity_ok hpos hcap
      have hbytes : n * elemSize < 2 ^ 64 := by
        have hmul := Nat.mul_le_mul_right elemSize hdouble
        rw [Nat.mul_assoc, ← hlen] at hmul
        rw [ptrdiffMax] at hmax
        omega
      rw [if_pos hfull]
      simp only [if_neg hfixed, Eff.bind_apply, hgrow, Eff.lift]
      by_cases hstuck : n ≤ s.vec.capacity
      · rw [if_pos hstuck]
        exact Or.inr ⟨_, rfl⟩
      rw [if_neg hstuck]
      rcases realloc_becomes (g := g) "vector: out of memory" h hdata hfree hsize
          (Nat.zero_lt_of_lt (Nat.not_le.mp hstuck)) (Nat.le_trans hle (Nat.le_of_not_le hstuck)) hbytes with
        ⟨a', heap, hrealloc, hnew⟩ | hrealloc
      · obtain ⟨s', happend, hbecomes⟩ := append_becomes (e := e) hnew.holds he
          (show s.vec.size < n by rw [hfull]; exact Nat.not_le.mp hstuck)
        refine Or.inl ⟨s', ?_, hnew.trans hbecomes⟩
        simp only [Eff.bind_apply, hrealloc, setVec_apply]
        exact happend
      · refine Or.inr ⟨"vector: out of memory", ?_⟩
        simp only [Eff.bind_apply, hrealloc]
        rfl

/-- The first elements stay. -/
theorem Becomes.cut (h : s.Holds elemSize xs) (hn : n ≤ xs.length) :
    s.Becomes elemSize ⟨s.heap, { s.vec with size := n }⟩ (xs.take n) where
  holds := by
    refine ⟨fun x hx => h.elems x (List.mem_of_mem_take hx), ?_, fun hno => ?_, fun a ha => ?_⟩
    · rw [List.length_take, Nat.min_eq_left hn]
    · obtain ⟨hcap, rfl⟩ := h.empty hno
      exact ⟨hcap, List.take_nil⟩
    · obtain ⟨block, hblock, hlen, hmax, hcap, hle, hbegins⟩ := h.stored a ha
      refine ⟨block, hblock, hlen, hmax, hcap, ?_, (flatten_take xs n).trans hbegins⟩
      rw [List.length_take]
      exact Nat.le_trans (Nat.min_le_right _ _) hle
  other _ _ _ := rfl
  fresh _ hb hne := absurd hb hne
  freed _ hb hne := absurd hb hne
  fixed := rfl
  pinned _ := ⟨rfl, rfl⟩

/-- The last elements are overwritten with others. -/
theorem overwrite_holds (h : s.Holds elemSize (xs ++ zs)) (hys : ∀ y ∈ ys, y.length = elemSize)
    (hlen : ys.length = zs.length) (hne : ys ≠ []) :
    ∃ a heap, s.vec.data = some a ∧ Heap.store a (xs.length * elemSize) ys.flatten s.heap = some heap ∧
      VecState.Holds elemSize ⟨heap, s.vec⟩ (xs ++ ys) := by
  have hsize : s.vec.size = xs.length + ys.length := by rw [h.size, List.length_append, hlen]
  have hle : xs.length ≤ (xs ++ zs).length := by
    rw [List.length_append]
    exact Nat.le_add_right _ _
  have hcut := Becomes.cut h hle
  rw [List.take_left] at hcut
  obtain ⟨a, heap, ha, hstore, hbecomes⟩ := store_becomes hcut.holds hys hne (by
    have hdata : s.vec.data ≠ none := fun hno => by
      have hnil := (h.empty hno).2
      rw [List.append_eq_nil_iff] at hnil
      rw [hnil.2, List.length_nil, List.length_eq_zero_iff] at hlen
      exact hne hlen
    have hfits := (h.capacity_fits hdata).2.2
    rw [← h.size, hsize] at hfits
    exact hfits)
  refine ⟨a, heap, ha, hstore, ?_⟩
  have hdone := hbecomes.holds
  simp only [← hsize] at hdone
  exact hdone

theorem pop_does (h : s.Holds elemSize xs) (hne : xs ≠ []) : s.Does elemSize pop xs.dropLast := by
  have hsome : s.vec.size ≠ 0 := by
    rw [h.size]
    exact Nat.ne_of_gt (List.length_pos_iff.mpr hne)
  refine Or.inl ⟨⟨s.heap, { s.vec with size := s.vec.size - 1 }⟩, ?_, ?_⟩
  · unfold pop
    simp only [Eff.bind_apply, h.assertValid, if_neg hsome, setVec_apply]
  · rw [h.size, List.dropLast_eq_take]
    exact Becomes.cut h (Nat.sub_le _ _)

theorem popall_does (h : s.Holds elemSize xs) : s.Does elemSize popall [] := by
  refine Or.inl ⟨⟨s.heap, { s.vec with size := 0 }⟩, ?_, ?_⟩
  · unfold popall
    simp only [Eff.bind_apply, h.assertValid, setVec_apply]
  · exact List.take_zero (l := xs) ▸ Becomes.cut h (Nat.zero_le _)

theorem setFixed_apply (fixed : Bool) :
    setFixed fixed s = (.ok (), ⟨s.heap, { s.vec with fixed := fixed }⟩) := rfl

theorem setFixed_holds (h : s.Holds elemSize xs) (fixed : Bool) :
    VecState.Holds elemSize ⟨s.heap, { s.vec with fixed := fixed }⟩ xs :=
  ⟨h.elems, h.size, h.empty, h.stored⟩

/-- The storage is freed, and the vector is as it was at first. -/
theorem clear_holds (h : s.Holds elemSize xs) :
    ∃ heap, clear s = (.ok (), ⟨heap, {}⟩) ∧ VecState.Holds elemSize ⟨heap, {}⟩ ([] : List (List β)) ∧
      (∀ b, s.vec.data ≠ some b → heap b = s.heap b) ∧ ∀ b, s.vec.data = some b → heap b = none := by
  have hnil : ∀ heap : Heap (List β), VecState.Holds elemSize ⟨heap, {}⟩ ([] : List (List β)) := fun heap =>
    ⟨fun x hx => absurd hx List.not_mem_nil, rfl, fun _ => ⟨rfl, rfl⟩, fun a ha => by cases ha⟩
  unfold VecImpl.clear
  simp only [Eff.bind_apply, h.assertValid]
  cases hdata : s.vec.data with
  | none => exact ⟨s.heap, rfl, hnil _, fun _ _ => rfl, fun b hb => by cases hb⟩
  | some a =>
    refine ⟨s.heap.free a, rfl, hnil _, fun b hb => Heap.free_ne fun hba => hb (congrArg some hba.symm), fun b hb => ?_⟩
    rw [← Option.some.inj hb]
    exact Heap.free_self

/-- The storage is another block, and the vector has its elements still. -/
theorem moved_becomes (msg : String) (hdata : s.vec.data ≠ none) (h : s.Holds elemSize xs) (hfree : s.vec.fixed = false)
    (hsize : 0 < elemSize) (hn : 0 < n) (hle : xs.length ≤ n) (hfits : n * elemSize < 2 ^ 64) :
    (∃ s', (do
        let data ← arrayRealloc elemSize g s.vec.data n msg
        setVec { s.vec with data := some data, capacity := n }) s = (.ok (), s') ∧
      s.Becomes elemSize s' xs ∧ s'.vec.capacity = n) ∨
    (do
      let data ← arrayRealloc elemSize g s.vec.data n msg
      setVec { s.vec with data := some data, capacity := n }) s = (err .general msg, s) := by
  simp only [Eff.bind_apply]
  rcases realloc_becomes (g := g) msg h hdata hfree hsize hn hle hfits with ⟨a, heap, hrealloc, hnew⟩ | hrealloc
  · rw [hrealloc]
    exact Or.inl ⟨_, rfl, hnew, rfl⟩
  · rw [hrealloc]
    exact Or.inr rfl

theorem shrinkToFit_does (h : s.Holds elemSize xs) (hsize : 0 < elemSize) :
    s.Does elemSize (shrinkToFit elemSize g) xs := by
  unfold VecState.Does shrinkToFit
  simp only [Eff.bind_apply, h.assertValid]
  by_cases hfixed : s.vec.fixed
  · rw [if_pos hfixed]
    exact Or.inr ⟨_, rfl⟩
  rw [if_neg hfixed]
  by_cases hdata : s.vec.data = none
  · rw [if_pos hdata]
    exact Or.inl ⟨s, rfl, .refl h⟩
  rw [if_neg hdata]
  by_cases hstay : s.vec.size = s.vec.capacity ∨ s.vec.capacity = 1
  · rw [if_pos hstay]
    exact Or.inl ⟨s, rfl, .refl h⟩
  rw [if_neg hstay]
  obtain ⟨hmax, hcap, hle⟩ := h.capacity_fits hdata
  have hsmaller : (if s.vec.size ≠ 0 then s.vec.size else 1) ≤ s.vec.capacity := by
    split
    · exact h.size ▸ hle
    · exact hcap
  have hpos : 0 < if s.vec.size ≠ 0 then s.vec.size else 1 := by
    split
    · next hne => exact Nat.pos_of_ne_zero hne
    · exact Nat.one_pos
  have hroom : xs.length ≤ if s.vec.size ≠ 0 then s.vec.size else 1 := by
    rw [← h.size]
    split
    · exact Nat.le_refl _
    · omega
  have hbytes := Nat.mul_le_mul_right elemSize hsmaller
  rw [ptrdiffMax] at hmax
  rcases moved_becomes (g := g) "vector: realloc failed" hdata h (Bool.not_eq_true _ ▸ hfixed) hsize hpos
    hroom (by omega) with ⟨s', hmoved, hbecomes, -⟩ | hmoved
  · exact hbecomes.does hmoved
  · exact Or.inr ⟨_, hmoved⟩

theorem reserve_becomes (h : s.Holds elemSize xs) (hsize : 0 < elemSize)
    (hfits : s.vec.fixed = false → s.vec.capacity < n → n * elemSize < 2 ^ 64) :
    (∃ s', reserve elemSize g n s = (.ok (), s') ∧ s.Becomes elemSize s' xs ∧ n ≤ s'.vec.capacity) ∨
      ∃ msg, reserve elemSize g n s = (err .general msg, s) := by
  unfold reserve
  simp only [Eff.bind_apply, h.assertValid]
  by_cases hfixed : s.vec.fixed
  · rw [if_pos hfixed]
    exact Or.inr ⟨_, rfl⟩
  rw [if_neg hfixed]
  by_cases hstay : n ≤ s.vec.capacity
  · rw [if_pos hstay]
    exact Or.inl ⟨s, rfl, .refl h, hstay⟩
  have hfree : s.vec.fixed = false := Bool.not_eq_true _ ▸ hfixed
  have hbytes := hfits hfree (Nat.not_le.mp hstay)
  have hn : 0 < n := Nat.zero_lt_of_lt (Nat.not_le.mp hstay)
  rw [if_neg hstay]
  by_cases hdata : s.vec.data = none
  · rw [if_neg (not_not.mpr hdata)]
    simp only [Eff.bind_apply]
    rcases alloc_becomes (g := g) "vector: out of memory" h hdata hfree hn hbytes with
      ⟨a, heap, halloc, -, hnew⟩ | halloc
    · rw [halloc]
      exact Or.inl ⟨_, rfl, hnew, Nat.le_refl n⟩
    · rw [halloc]
      exact Or.inr ⟨_, rfl⟩
  · rw [if_pos hdata]
    obtain ⟨-, -, hle⟩ := h.capacity_fits hdata
    rcases moved_becomes (g := g) "vector: realloc failed" hdata h hfree hsize hn
      (Nat.le_trans hle (Nat.le_of_not_le hstay)) hbytes with ⟨s', hmoved, hbecomes, hcap⟩ | hmoved
    · exact Or.inl ⟨s', hmoved, hbecomes, Nat.le_of_eq hcap.symm⟩
    · exact Or.inr ⟨_, hmoved⟩

theorem reserve_does (h : s.Holds elemSize xs) (hsize : 0 < elemSize)
    (hfits : s.vec.fixed = false → s.vec.capacity < n → n * elemSize < 2 ^ 64) :
    s.Does elemSize (reserve elemSize g n) xs := by
  rcases reserve_becomes h hsize hfits with ⟨s', hreserve, hbecomes, -⟩ | hfail
  · exact hbecomes.does hreserve
  · exact Or.inr hfail

/-- There is room for `n` elements after the call in `vec_resize`. -/
theorem reserveFor_becomes (h : s.Holds elemSize xs) (hsize : 0 < elemSize)
    (hfits : s.vec.fixed = false → s.vec.capacity < n → n * elemSize < 2 ^ 64) :
    (∃ s', reserveFor elemSize g n s = (.ok (), s') ∧ s.Becomes elemSize s' xs ∧ n ≤ s'.vec.capacity) ∨
      ∃ msg, reserveFor elemSize g n s = (err .general msg, s) := by
  unfold reserveFor
  simp only [Eff.bind_apply, get_apply]
  by_cases hroom : n > s.vec.capacity
  · rw [if_pos hroom]
    exact reserve_becomes h hsize hfits
  · rw [if_neg hroom]
    exact Or.inl ⟨s, rfl, .refl h, Nat.not_lt.mp hroom⟩

/-- The first `n` elements, and zeros for those that are missing. -/
theorem resize_does (zero : β) (h : s.Holds elemSize xs) (hsize : 0 < elemSize)
    (hfits : s.vec.fixed = false → s.vec.capacity < n → n * elemSize < 2 ^ 64) :
    s.Does elemSize (resize elemSize zero g n)
      (xs.take n ++ List.replicate (n - xs.length) (List.replicate elemSize zero)) := by
  unfold VecState.Does resize
  simp only [Eff.bind_apply, h.assertValid]
  by_cases hless : n ≤ s.vec.size
  · rw [if_pos hless]
    rw [h.size] at hless
    rw [Nat.sub_eq_zero_of_le hless, List.replicate_zero, List.append_nil]
    exact Or.inl ⟨_, rfl, Becomes.cut h hless⟩
  rw [if_neg hless]
  simp only [Eff.bind_apply]
  rcases reserveFor_becomes (g := g) h hsize hfits with ⟨s', hreserve, hmoved, hroom⟩ | ⟨msg, hfail⟩
  · rw [hreserve]
    have hzeros : ∀ y ∈ List.replicate (n - xs.length) (List.replicate elemSize zero), y.length = elemSize :=
      fun y hy => by rw [List.eq_of_mem_replicate hy, List.length_replicate]
    have hmore : xs.length < n := h.size ▸ Nat.not_le.mp hless
    have hne : List.replicate (n - xs.length) (List.replicate elemSize zero) ≠ [] :=
      List.ne_nil_of_length_pos (by rw [List.length_replicate]; omega)
    have hold : s'.vec.size = xs.length := hmoved.holds.size
    obtain ⟨a, heap, ha, hstore, hbecomes⟩ := store_becomes hmoved.holds hzeros hne (by
      rw [List.length_replicate]
      omega)
    have hdata : s'.vec.data ≠ none := by
      rw [ha]
      exact Option.some_ne_none a
    have hbytes : (n - xs.length) * elemSize < 2 ^ 64 := by
      have hmax := (hmoved.holds.capacity_fits hdata).1
      have hle : (n - xs.length) * elemSize ≤ s'.vec.capacity * elemSize := Nat.mul_le_mul_right elemSize (by omega)
      rw [ptrdiffMax] at hmax
      omega
    have hflat : (List.replicate (n - xs.length) (List.replicate elemSize zero)).flatten =
        List.replicate (sizeT ((n - s'.vec.size) * elemSize)) zero := by
      rw [List.flatten_replicate_replicate, hold, sizeT, Nat.mod_eq_of_lt hbytes]
    rw [hflat] at hstore
    have hsum : s'.vec.size + (n - xs.length) = n := by omega
    rw [List.length_replicate, hsum] at hbecomes
    simp only [get_apply, write_apply ha hstore, setVec_apply]
    rw [List.take_of_length_le (Nat.le_of_lt hmore)]
    exact Or.inl ⟨_, rfl, hmoved.trans hbecomes⟩
  · rw [hfail]
    exact Or.inr ⟨msg, rfl⟩

/-- Another vector, whose storage is elsewhere, is copied to one that is not fixed. -/
theorem dup_does {src : RawVec} (hdst : s.vec.capacity = 0 ∧ s.vec.data = none ∧ s.vec.size = 0)
    (hsrc : VecState.Holds elemSize ⟨s.heap, src⟩ zs) (hfree : src.size ≠ 0 → s.vec.fixed = false) :
    s.Does elemSize (dup elemSize g src) zs := by
  obtain ⟨hcap, hdata, hsize⟩ := hdst
  have hempty : s.Holds elemSize ([] : List (List β)) :=
    ⟨fun x hx => absurd hx List.not_mem_nil, hsize, fun _ => ⟨hcap, rfl⟩, fun a ha => by rw [hdata] at ha; cases ha⟩
  have hnot : ¬ (s.vec.capacity ≠ 0 ∨ s.vec.data ≠ none ∨ s.vec.size ≠ 0) := by
    rw [hcap, hdata, hsize]
    simp
  have hlen : src.size = zs.length := hsrc.size
  unfold VecState.Does dup
  simp only [Eff.bind_apply, get_apply, if_neg hnot]
  by_cases hzero : src.size = 0
  · rw [if_pos hzero]
    obtain rfl : zs = [] := List.length_eq_zero_iff.mp (hlen.symm.trans hzero)
    exact Or.inl ⟨s, rfl, .refl hempty⟩
  rw [if_neg hzero]
  have hsome : src.data ≠ none := fun hno => hzero (hlen.trans (by rw [(hsrc.empty hno).2]; rfl))
  obtain ⟨b, hb⟩ := Option.ne_none_iff_exists'.mp hsome
  obtain ⟨block, hblock, hblen, hmax, -, hle, rest, hrest⟩ := hsrc.stored b hb
  have hall : src.size * elemSize ≤ block.length := by
    rw [hblen, hlen]
    exact Nat.mul_le_mul_right elemSize hle
  have hbytes : src.size * elemSize < 2 ^ 64 := by
    rw [ptrdiffMax] at hmax
    omega
  simp only [Eff.bind_apply]
  rcases alloc_becomes (g := g) "vector: out of memory" hempty hdata (hfree hzero)
    (Nat.pos_of_ne_zero hzero) hbytes with ⟨a, heap, halloc, hnone, hnew⟩ | halloc
  · have hapart : a ≠ b := by
      rintro rfl
      rw [hnone] at hblock
      cases hblock
    have hstill : heap b = some block :=
      (hnew.other b (by simp [hdata]) fun hab => hapart (Option.some.inj hab)).trans hblock
    have hload : Heap.load b 0 (sizeT (src.size * elemSize)) heap = some zs.flatten := by
      rw [sizeT, Nat.mod_eq_of_lt hbytes, Heap.load, hstill, Option.bind_some, Nat.zero_add, if_pos hall,
        List.drop_zero, ← hrest, hlen, ← length_elements hsrc.elems, List.take_left]
    have hne : zs ≠ [] := fun hnil => hzero (hlen.trans (by rw [hnil]; rfl))
    obtain ⟨c, heap', hc, hstore, hbecomes⟩ := store_becomes hnew.holds hsrc.elems hne (by
      rw [List.length_nil, Nat.zero_add]
      exact Nat.le_of_eq hlen.symm)
    obtain rfl := Option.some.inj hc
    rw [show s.vec.size * elemSize = 0 by rw [hsize, Nat.zero_mul]] at hstore
    have hwrite : write (some a) 0 zs.flatten ⟨heap, s.vec⟩ = (.ok (), ⟨heap', s.vec⟩) := write_apply rfl hstore
    rw [halloc]
    simp only [Eff.read, hb, Option.bind_some, hload, hwrite, setVec_apply]
    rw [List.nil_append] at hbecomes
    have hdone : s.Becomes elemSize ⟨heap', ⟨s.vec.size + zs.length, src.size, some a, s.vec.fixed⟩⟩ zs :=
      hnew.trans hbecomes
    rw [show s.vec.size + zs.length = src.size by omega] at hdone
    exact Or.inl ⟨_, rfl, hdone⟩
  · rw [halloc]
    exact Or.inr ⟨_, rfl⟩

end Storage

end Silverfir
