import Silverfir.Sizes
import Silverfir.Bulk

/-! `vec_reserve` and `vec_resize` of `vec_impl.h` under every outcome of the allocator, and
`memory.grow` and `table.grow` over them. -/
namespace Silverfir

/-- A vector: its block, whose length is `_capacity`, and how much of it is in use. -/
structure Vec (α : Type) where
  data : Option (List α)
  size : ℕ
  fixed : Bool
  /-- `vec_is_valid` -/
  fits : size ≤ (data.getD []).length

namespace Vec

variable {α : Type}

/-- The block, the unused part included. -/
def block (v : Vec α) : List α := v.data.getD []

def capacity (v : Vec α) : ℕ := v.block.length

def contents (v : Vec α) : List α := v.block.take v.size

/-- For a number of elements, the elements of the block that `malloc` or `realloc` returns where they
are not copied, or that there is no block. -/
abbrev Alloc (α : Type) := ℕ → Option (ℕ → α)

def reserve (alloc : Alloc α) (n : ℕ) : Eff Fault (Vec α) Unit := fun v =>
  if v.fixed then (err .general "vector is fixed", v)
  else if h : n ≤ v.capacity then (.ok (), v)
  else
    match alloc n with
    | none =>
      if v.data.isSome then (err .general "vector: realloc failed", v)
      else (err .general "vector: out of memory", v)
    | some fresh =>
      (.ok (), { v with
        data := some (v.block ++ (List.range (n - v.capacity)).map fresh)
        fits := by
          have hfits := v.fits
          simp only [Option.getD_some, List.length_append]
          exact Nat.le_add_right_of_le hfits })

/-- The `memset` of `vec_resize` and the new size. -/
def clearTo (zero : α) (n : ℕ) : Eff Fault (Vec α) Unit := fun v =>
  if h : v.size ≤ n ∧ n ≤ v.capacity then
    (.ok (), { v with
      data := some (v.contents ++ List.replicate (n - v.size) zero ++ v.block.drop n)
      size := n
      fits := by
        have hfits : v.size ≤ v.block.length := v.fits
        simp only [Option.getD_some, List.length_append, List.length_replicate, contents, List.length_take]
        omega })
  else ( undef "memset outside the block", v)

def resize (alloc : Alloc α) (zero : α) (n : ℕ) : Eff Fault (Vec α) Unit := do
  let v ← Eff.get
  if h : n ≤ v.size then
    Eff.modify fun _ => { v with size := n, fits := h.trans v.fits }
  else do
    if n > v.capacity then reserve alloc n
    clearTo zero n

/-- `*vec_at(v, i) = x` -/
def setAt (i : ℕ) (x : α) : Eff Fault (Vec α) Unit := fun v =>
  if i < v.size then
    (.ok (), { v with
      data := v.data.map (·.set i x)
      fits := by
        have hfits := v.fits
        cases hd : v.data with
        | none =>
          rw [hd] at hfits
          exact hfits
        | some block =>
          rw [hd] at hfits
          simpa using hfits })
  else ( undef "vec_at", v)

/-! ### Reserving and resizing -/

section Resize
variable {alloc : Alloc α} {zero : α} {v : Vec α} {n : ℕ}

theorem length_contents (v : Vec α) : v.contents.length = v.size := by
  have hfits : v.size ≤ v.block.length := v.fits
  rw [contents, List.length_take]
  omega

/-- A reservation copies the block, or fails and leaves the vector as it is. -/
theorem reserve_cases (alloc : Alloc α) (h : v.capacity < n) :
    (∃ v', reserve alloc n v = (.ok (), v') ∧ v'.contents = v.contents ∧ v'.size = v.size ∧ v'.capacity = n) ∨
      ((v.fixed = true ∨ alloc n = none) ∧ ∃ t msg, reserve alloc n v = (err t msg, v)) := by
  unfold reserve
  by_cases hfixed : v.fixed
  · rw [if_pos hfixed]
    exact Or.inr ⟨Or.inl hfixed, _, _, rfl⟩
  · rw [if_neg hfixed, dif_neg (by omega)]
    cases alloc n with
    | none =>
      dsimp only
      split_ifs
      · exact Or.inr ⟨Or.inr rfl, _, _, rfl⟩
      · exact Or.inr ⟨Or.inr rfl, _, _, rfl⟩
    | some fresh =>
      refine Or.inl ⟨_, rfl, ?_, rfl, ?_⟩
      · have hfits : v.size ≤ v.block.length := v.fits
        exact List.take_append_of_le_length hfits
      · have hlen : (v.block ++ (List.range (n - v.capacity)).map fresh).length = n := by
          rw [List.length_append, List.length_map, List.length_range]
          unfold capacity at h ⊢
          omega
        exact hlen

/-- Whatever the unused part of the block holds, the new elements are zero. -/
theorem clearTo_ok (zero : α) (hsize : v.size ≤ n) (hcap : n ≤ v.capacity) :
    ∃ v', clearTo zero n v = (.ok (), v') ∧ v'.contents = v.contents ++ List.replicate (n - v.size) zero ∧
      v'.size = n := by
  unfold clearTo
  rw [dif_pos ⟨hsize, hcap⟩]
  refine ⟨_, rfl, ?_, rfl⟩
  have hlen : (v.contents ++ List.replicate (n - v.size) zero).length = n := by
    rw [List.length_append, length_contents, List.length_replicate]
    omega
  exact List.take_left' hlen

theorem resize_same (h : v.size = n) : resize alloc zero n v = (.ok (), v) := by
  subst h
  simp only [resize, Eff.bind_apply, Eff.get, dif_pos le_rfl, Eff.modify]

/-- A vector that grows keeps its elements and is filled with zeros; a failure changes nothing. -/
theorem resize_cases (alloc : Alloc α) (zero : α) (h : v.size ≤ n) :
    (∃ v', resize alloc zero n v = (.ok (), v') ∧
      v'.contents = v.contents ++ List.replicate (n - v.size) zero ∧ v'.size = n) ∨
      ((v.fixed = true ∨ alloc n = none) ∧ ∃ t msg, resize alloc zero n v = (err t msg, v)) := by
  rcases h.eq_or_lt with heq | hlt
  · refine Or.inl ⟨v, resize_same heq, ?_, heq⟩
    rw [heq, Nat.sub_self, List.replicate_zero, List.append_nil]
  · simp only [resize, Eff.bind_apply, Eff.get]
    rw [dif_neg (by omega)]
    by_cases hcap : n > v.capacity
    · rw [if_pos hcap, Eff.bind_apply]
      rcases reserve_cases alloc hcap with ⟨v1, hres, hcont, hsize, hcap1⟩ | ⟨hwhy, t, msg, hres⟩
      · obtain ⟨v', hclear, hcont', hsize'⟩ := clearTo_ok (v := v1) zero (by omega) hcap1.ge
        rw [hres]
        rw [hcont, hsize] at hcont'
        exact Or.inl ⟨v', hclear, hcont', hsize'⟩
      · rw [hres]
        exact Or.inr ⟨hwhy, t, msg, rfl⟩
    · rw [if_neg hcap]
      exact Or.inl (clearTo_ok zero h (by omega))

end Resize

/-- The loop that fills a range writes this range. -/
theorem each_setAt {v : Vec α} {i n : ℕ} (x : α) (h : i + n ≤ v.size) :
    ∃ v', Eff.each (setAt · x) (List.range' i n) v = (.ok (), v') ∧
      v'.contents = InPlaceDt.overwrite v.contents i (List.replicate n x) := by
  induction n generalizing v i with
  | zero =>
    refine ⟨v, rfl, ?_⟩
    rw [List.replicate_zero, InPlaceDt.overwrite_nil]
  | succ n ih =>
    have hset : ∃ v1, setAt i x v = (.ok (), v1) ∧ v1.contents = v.contents.set i x ∧ v1.size = v.size := by
      unfold setAt
      rw [if_pos (by omega)]
      refine ⟨_, rfl, ?_, rfl⟩
      have hblock : (v.data.map (·.set i x)).getD [] = v.block.set i x := by
        unfold block
        cases v.data <;> rfl
      unfold contents
      rw [← List.take_set, ← hblock]
      rfl
    obtain ⟨v1, hrun, hcont, hsize⟩ := hset
    obtain ⟨v', hrest, hcont'⟩ := ih (v := v1) (i := i + 1) (by omega)
    have hlen := length_contents v
    refine ⟨v', ?_, ?_⟩
    · rw [List.range'_succ, Eff.each, Eff.bind_apply, hrun]
      exact hrest
    · rw [hcont', hcont, InPlaceDt.overwrite_cons x _ (by omega), List.replicate_succ]

end Vec

/-- `is_ok` of a call -/
def attempt {σ : Type} (m : Eff Fault σ Unit) : Eff Fault σ Bool := fun s =>
  match m s with
  | (.ok (), s') => (.ok true, s')
  | (.error (.err _ _), s') => (.ok false, s')
  | (.error (.undefined what), s') => (undef what, s')

namespace InPlaceDt

/-- `memory.grow` on the vector of a memory with at most `max` pages. -/
def growMemory (alloc : Vec.Alloc UInt8) (max : ℕ) (nPages : ValueU) : Eff Fault (Vec UInt8) (List ValueU) := do
  let v ← Eff.get
  let sz := v.size / wasmPageSize
  if sz + lo32 nPages ≤ max then do
    let grown ← attempt (Vec.resize alloc 0 ((sz + lo32 nPages) * wasmPageSize))
    if grown then pure [ofU32 sz] else pure [minusOne]
  else pure [minusOne]

/-- `table.grow` on the vector of a table with at most `max` entries. The vector is resized twice. -/
def growTable (alloc : Vec.Alloc ValueU) (max : ℕ) (size ref : ValueU) : Eff Fault (Vec ValueU) (List ValueU) := do
  let v ← Eff.get
  let currSize := v.size
  if currSize + lo32 size > max then pure [minusOne]
  else do
    let grown ← attempt (Vec.resize alloc 0 (currSize + lo32 size))
    if !grown then pure [minusOne]
    else do
      Vec.resize alloc 0 (currSize + lo32 size)
      Eff.each (fun i => Vec.setAt (currSize + i) ref) (List.range (lo32 size))
      pure [ofU32 currSize]

/-! ### What growing does -/

/-- Either the old size is the result, and there are `delta` more units of `fill` than before, or the
result is `-1`, nothing has changed, and there is a reason. -/
def Grows {α : Type} (unit max delta : ℕ) (fill : α) (alloc : Vec.Alloc α) (v : Vec α)
    (out : Except Fault (List ValueU) × Vec α) : Prop :=
  (∃ v', out = (.ok [ofU32 (v.size / unit)], v') ∧ v.size / unit + delta ≤ max ∧
    v'.contents = v.contents ++ List.replicate (delta * unit) fill) ∨
  (out = (.ok [minusOne], v) ∧
    (max < v.size / unit + delta ∨ v.fixed = true ∨ alloc ((v.size / unit + delta) * unit) = none))

theorem growMemory_grows (alloc : Vec.Alloc UInt8) (max : ℕ) (nPages : ValueU) {v : Vec UInt8}
    (hwhole : wasmPageSize ∣ v.size) :
    Grows wasmPageSize max (lo32 nPages) 0 alloc v (growMemory alloc max nPages v) := by
  obtain ⟨pages, hpages⟩ := hwhole
  have hdiv : v.size / wasmPageSize = pages := by
    rw [hpages]
    exact Nat.mul_div_cancel_left pages (by decide)
  have hnew : (pages + lo32 nPages) * wasmPageSize - v.size = lo32 nPages * wasmPageSize := by
    rw [hpages, Nat.add_mul, Nat.mul_comm wasmPageSize, Nat.add_sub_cancel_left]
  have hle : v.size ≤ (pages + lo32 nPages) * wasmPageSize := by
    rw [hpages, Nat.mul_comm]
    exact Nat.mul_le_mul_right _ (Nat.le_add_right _ _)
  unfold Grows
  simp only [growMemory, Eff.bind_apply, Eff.get, hdiv]
  by_cases hmax : pages + lo32 nPages ≤ max
  · rw [if_pos hmax, Eff.bind_apply, attempt]
    rcases Vec.resize_cases alloc 0 hle with ⟨v', hrun, hcont, -⟩ | ⟨hwhy, t, msg, hrun⟩
    · rw [hrun]
      rw [hnew] at hcont
      exact Or.inl ⟨v', rfl, hmax, hcont⟩
    · rw [hrun]
      exact Or.inr ⟨rfl, Or.inr hwhy⟩
  · rw [if_neg hmax]
    exact Or.inr ⟨rfl, Or.inl (by omega)⟩

theorem overwrite_append {α : Type} (xs ys zs : List α) (h : ys.length = zs.length) :
    overwrite (xs ++ ys) xs.length zs = xs ++ zs := by
  rw [overwrite, List.take_left, List.drop_eq_nil_of_le (by rw [List.length_append]; omega), List.append_nil]

theorem growTable_grows (alloc : Vec.Alloc ValueU) (max : ℕ) (size ref : ValueU) (v : Vec ValueU) :
    Grows 1 max (lo32 size) ref alloc v (growTable alloc max size ref v) := by
  unfold Grows
  simp only [growTable, Eff.bind_apply, Eff.get, Nat.div_one, Nat.mul_one]
  by_cases hmax : v.size + lo32 size > max
  · rw [if_pos hmax]
    exact Or.inr ⟨rfl, Or.inl hmax⟩
  · rw [if_neg hmax, Eff.bind_apply, attempt]
    rcases Vec.resize_cases alloc 0 (Nat.le_add_right v.size (lo32 size)) with
      ⟨v1, hrun, hcont, hsize⟩ | ⟨hwhy, t, msg, hrun⟩
    · obtain ⟨v', hfill, hcont'⟩ := Vec.each_setAt (v := v1) (i := v.size) (n := lo32 size) ref hsize.ge
      have hloop : Eff.each (fun i => Vec.setAt (v.size + i) ref) (List.range (lo32 size)) =
          Eff.each (Vec.setAt · ref) (List.range' v.size (lo32 size)) := by
        rw [List.range'_eq_map_range]
        exact Eff.each_map fun _ _ => rfl
      have hlen := Vec.length_contents v
      rw [hrun]
      dsimp only
      rw [if_neg (by decide), Eff.bind_apply, Vec.resize_same hsize]
      dsimp only
      rw [Eff.bind_apply, hloop, hfill]
      refine Or.inl ⟨v', rfl, by omega, ?_⟩
      rw [hcont', hcont, ← hlen]
      apply overwrite_append
      simp
    · rw [hrun]
      exact Or.inr ⟨rfl, Or.inr hwhy⟩

end InPlaceDt

/-! ### The memories of an instance -/

/-- The memories are whole numbers of pages. -/
def ModuleInst.WholePages (mi : ModuleInst) : Prop := ∀ m ∈ mi.memories, wasmPageSize ∣ m.mdata.length

theorem setMemory_wholePages {vm : Vm} {a : Addr} {m : MemoryInst} {mdata : List UInt8} (hm : vm.memory a = .ok m)
    (hlen : wasmPageSize ∣ m.mdata.length → wasmPageSize ∣ mdata.length) (hall : vm.All ModuleInst.WholePages) :
    (vm.setMemory a mdata).All ModuleInst.WholePages := by
  obtain ⟨mi0, hmi0, hidx0⟩ := Vm.memory_ok.mp hm
  have hm0 := hall mi0 (List.mem_of_getElem? hmi0) m (List.mem_of_getElem? hidx0)
  apply forall_modify hall
  intro mi hmi
  exact forall_modify (hall mi (List.mem_of_getElem? hmi)) fun _ _ => hlen hm0

theorem contents_wholePages {pf : Platform} (hhost : HostKeeps pf) (mods : Module → Prop) :
    Contents pf mods ModuleInst.WholePages where
  same := by
    intro mi mi' hmems _ h
    rw [ModuleInst.WholePages, hmems]
    exact h
  store := by
    intro vm vm' hstep hall
    cases hstep with
    | global => exact forall_modify hall fun mi hmi => hall mi (List.mem_of_getElem? hmi)
    | drop => exact forall_modify hall fun mi hmi => hall mi (List.mem_of_getElem? hmi)
    | table => exact forall_modify hall fun mi hmi => hall mi (List.mem_of_getElem? hmi)
    | memory hm hlen =>
      apply setMemory_wholePages hm _ hall
      intro hwhole
      rcases hlen with hsame | ⟨pages, hpages, -⟩
      · rw [hsame]
        exact hwhole
      · rw [hpages]
        exact Nat.dvd_mul_left _ _
    | host hm hh =>
      have hlen := Option.some.inj (hhost _ _ _ _ _ hh)
      apply setMemory_wholePages hm _ hall
      intro hwhole
      rw [hlen]
      exact hwhole
  new := by
    intro modId mod mod' _ _ m hm
    obtain ⟨i, hi, rfl⟩ := List.mem_mapIdx.mp hm
    unfold newMemory
    dsimp only
    split
    · rw [List.length_replicate]
      exact (Nat.dvd_mod_iff (by decide)).mpr (Nat.dvd_mul_left _ _)
    · exact Nat.dvd_zero _

namespace InPlaceDt

/-! ### The handlers on a memory that can always be allocated -/

section Refines
variable {k : ℕ} {s : ExecState} {a : Addr}

/-- Within the limit and with an allocator that does not fail a vector grows. -/
theorem Grows.grown {α : Type} {unit max delta : ℕ} {fill : α} {alloc : Vec.Alloc α} {v : Vec α}
    {out : Except Fault (List ValueU) × Vec α} (h : Grows unit max delta fill alloc v out) (hfree : v.fixed = false)
    (halloc : ∀ n, alloc n ≠ none) (hmax : v.size / unit + delta ≤ max) :
    ∃ v', out = (.ok [ofU32 (v.size / unit)], v') ∧
      v'.contents = v.contents ++ List.replicate (delta * unit) fill := by
  rcases h with ⟨v', hout, -, hcont⟩ | ⟨-, hlim | hfixed | hnone⟩
  · exact ⟨v', hout, hcont⟩
  · omega
  · rw [hfree] at hfixed
    cases hfixed
  · exact absurd hnone (halloc _)

/-- Beyond the limit the result is `-1`. -/
theorem Grows.refused {α : Type} {unit max delta : ℕ} {fill : α} {alloc : Vec.Alloc α} {v : Vec α}
    {out : Except Fault (List ValueU) × Vec α} (h : Grows unit max delta fill alloc v out)
    (hmax : ¬ v.size / unit + delta ≤ max) : out = (.ok [minusOne], v) := by
  rcases h with ⟨v', -, hle, -⟩ | ⟨hout, -⟩
  · exact absurd hle hmax
  · exact hout

/-- The handler of the model is the one here, where the allocator does not fail. -/
theorem growMemory_refines {m : MemoryInst} (ha : s.vm.addr (·.mAddrs) k 0 = .ok a) (hm : s.vm.memory a = .ok m)
    {v : Vec UInt8} (hv : v.contents = m.mdata) (hwhole : wasmPageSize ∣ v.size) (hfree : v.fixed = false)
    {alloc : Vec.Alloc UInt8} (halloc : ∀ n, alloc n ≠ none) (nPages : ValueU) :
    ∃ res v', growMemory alloc m.mem.lim.max nPages v = (.ok res, v') ∧
      memoryGrow k nPages s = (.ok res, { s with vm := s.vm.setMemory a v'.contents }) := by
  have hgrows := growMemory_grows alloc m.mem.lim.max nPages hwhole
  have hsize : m.mdata.length = v.size := by
    rw [← hv]
    exact Vec.length_contents v
  simp only [memoryGrow, Eff.bind_apply, mem0_apply ha hm, hsize]
  by_cases hmax : v.size / wasmPageSize + lo32 nPages ≤ m.mem.lim.max
  · obtain ⟨v', hrun, hcont⟩ := hgrows.grown hfree halloc hmax
    have hpages : v.size / wasmPageSize * wasmPageSize = v.size := Nat.div_mul_cancel hwhole
    have hnew : (v.size / wasmPageSize + lo32 nPages) * wasmPageSize = v.size + lo32 nPages * wasmPageSize := by
      rw [Nat.add_mul, hpages]
    refine ⟨_, v', hrun, ?_⟩
    rw [if_pos hmax, hcont, hv, hnew, List.take_of_length_le (by omega), Nat.add_sub_cancel_left]
    rfl
  · refine ⟨_, v, hgrows.refused hmax, ?_⟩
    rw [if_neg hmax, hv, setMemory_self hm]
    rfl

theorem growTable_refines {idx : ℕ} {t : TableInst} (ha : s.vm.addr (·.tAddrs) k idx = .ok a)
    (ht : s.vm.table a = .ok t) {v : Vec ValueU} (hv : v.contents = t.tdata) (hfree : v.fixed = false)
    {alloc : Vec.Alloc ValueU} (halloc : ∀ n, alloc n ≠ none) (size ref : ValueU) :
    ∃ res v', growTable alloc t.tab.lim.max size ref v = (.ok res, v') ∧
      tableGrow k idx size ref s = (.ok res, { s with vm := s.vm.setTable a v'.contents }) := by
  have hgrows := growTable_grows alloc t.tab.lim.max size ref v
  have hsize : t.tdata.length = v.size := by
    rw [← hv]
    exact Vec.length_contents v
  simp only [tableGrow, Eff.bind_apply, tabInst_apply ha ht, hsize]
  by_cases hmax : v.size / 1 + lo32 size ≤ t.tab.lim.max
  · obtain ⟨v', hrun, hcont⟩ := hgrows.grown hfree halloc hmax
    rw [Nat.div_one] at hrun hmax
    refine ⟨_, v', hrun, ?_⟩
    rw [if_neg (by omega), hcont, hv, Nat.mul_one]
    rfl
  · refine ⟨_, v, hgrows.refused hmax, ?_⟩
    rw [Nat.div_one] at hmax
    rw [if_pos (by omega), hv, setTable_self ht]
    rfl

end Refines

/-- `memory.grow` and `table.grow` extend, or push `-1` and change nothing, whatever the allocator
does. The memories that there are have whole pages. -/
theorem growth (pf : Platform) (hhost : HostKeeps pf) (mods : Module → Prop) :
    (∀ v : Vec UInt8, wasmPageSize ∣ v.size → ∀ alloc max nPages,
      Grows wasmPageSize max (lo32 nPages) 0 alloc v (growMemory alloc max nPages v)) ∧
    (∀ (v : Vec ValueU) alloc max size ref, Grows 1 max (lo32 size) ref alloc v (growTable alloc max size ref v)) ∧
    ∀ s, Relation.ReflTransGen (SysStep pf mods) {} s → ∀ a m, s.vm.memory a = .ok m →
      wasmPageSize ∣ m.mdata.length := by
  refine ⟨?_, ?_, ?_⟩
  · intro v hwhole alloc max nPages
    exact growMemory_grows alloc max nPages hwhole
  · intro v alloc max size ref
    exact growTable_grows alloc max size ref v
  · intro s hrun a m hm
    obtain ⟨mi, hmi, hidx⟩ := Vm.memory_ok.mp hm
    exact (contents_wholePages hhost mods).run hrun mi (List.mem_of_getElem? hmi) m (List.mem_of_getElem? hidx)

/-- A memory without a block. -/
def noBlock : Vec UInt8 := ⟨none, 0, false, Nat.le_refl 0⟩

/-- The first page, when there is no memory for it. -/
theorem growth_noBlock :
    Grows wasmPageSize 1 (lo32 1) 0 (fun _ => none) noBlock (growMemory (fun _ => none) 1 1 noBlock) :=
  (growth idle hostKeeps_idle SmallModule).1 noBlock (Nat.dvd_zero _) (fun _ => none) 1 1

end InPlaceDt

end Silverfir
