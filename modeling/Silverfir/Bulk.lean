import Silverfir.Exec

/-! The bulk instructions on memories and tables: when they trap, and what they write. -/
namespace Silverfir.InPlaceDt

/-- `dst'` is `dst` with `xs` from `p` on, and the same elsewhere. -/
structure Wrote {α : Type} (dst : List α) (p : ℕ) (xs : List α) (dst' : List α) : Prop where
  length : dst'.length = dst.length
  inside : ∀ j < xs.length, dst'[p + j]? = xs[j]?
  outside : ∀ i, i < p ∨ p + xs.length ≤ i → dst'[i]? = dst[i]?

section Overwrite
variable {α : Type} {dst : List α} {p : ℕ} {xs : List α}

theorem overwrite_length (h : p + xs.length ≤ dst.length) : (overwrite dst p xs).length = dst.length := by
  simp only [overwrite, List.length_append, List.length_take, List.length_drop]
  omega

theorem overwrite_inside (h : p + xs.length ≤ dst.length) {j : ℕ} (hj : j < xs.length) :
    (overwrite dst p xs)[p + j]? = xs[j]? := by
  have htake : (dst.take p).length = p := by
    rw [List.length_take]
    omega
  rw [overwrite, List.append_assoc, List.getElem?_append_right (by omega), htake, Nat.add_sub_cancel_left,
    List.getElem?_append_left hj]

theorem overwrite_outside (h : p + xs.length ≤ dst.length) {i : ℕ} (hi : i < p ∨ p + xs.length ≤ i) :
    (overwrite dst p xs)[i]? = dst[i]? := by
  have htake : (dst.take p).length = p := by
    rw [List.length_take]
    omega
  obtain hi | hi := hi
  · rw [overwrite, List.append_assoc, List.getElem?_append_left (by omega), List.getElem?_take_of_lt hi]
  · rw [overwrite, List.getElem?_append_right (by rw [List.length_append]; omega), List.getElem?_drop,
      List.length_append, htake]
    congr 1
    omega

theorem wrote_overwrite (h : p + xs.length ≤ dst.length) : Wrote dst p xs (overwrite dst p xs) where
  length := overwrite_length h
  inside := fun _ hj => overwrite_inside h hj
  outside := fun _ hi => overwrite_outside h hi

theorem overwrite_cons {i : ℕ} (v : α) (vs : List α) (hi : i < dst.length) :
    overwrite (dst.set i v) (i + 1) vs = overwrite dst i (v :: vs) := by
  have htake : (dst.set i v).take (i + 1) = dst.take i ++ [v] := by
    rw [List.set_eq_take_append_cons_drop, if_pos hi, List.take_append, List.take_of_length_le]
    · rw [List.length_take, Nat.min_eq_left (Nat.le_of_lt hi), Nat.add_sub_cancel_left]
      rfl
    · rw [List.length_take]
      omega
  have hdrop : (dst.set i v).drop (i + 1 + vs.length) = dst.drop (i + (v :: vs).length) := by
    rw [List.drop_set, if_pos (by omega), List.length_cons]
    congr 1
    omega
  rw [overwrite, overwrite, htake, hdrop, List.append_assoc, List.append_assoc,
    List.singleton_append, List.append_assoc, List.cons_append]

end Overwrite

/-! ### The five instructions -/

inductive BulkInstr where
  | memoryInit (dataIdx : ℕ)
  | memoryCopy
  | memoryFill
  | tableCopy (dst src : ℕ)
  | tableFill (idx : ℕ)
  deriving DecidableEq, Repr

def BulkInstr.instr : BulkInstr → Instr
  | .memoryInit dataIdx => .memoryInit dataIdx
  | .memoryCopy => .memoryCopy
  | .memoryFill => .memoryFill
  | .tableCopy dst src => .tableCopy dst src
  | .tableFill idx => .tableFill idx

/-- What a bulk instruction is to do: `n` values of `src` from `so` on go to `dst` at `d`. It traps
and changes nothing if one of the ranges is too long, and otherwise puts back the new contents. -/
def Moves {α : Type} (src : List α) (so : ℕ) (dst : List α) (d n : ℕ) (put : List α → Vm → Vm) (s : ExecState)
    (out : Except Fault (List ValueU) × ExecState) : Prop :=
  (so + n > src.length ∨ d + n > dst.length → ∃ t m, out = (.error (.err t m), s)) ∧
  (so + n ≤ src.length ∧ d + n ≤ dst.length →
    ∃ dst', Wrote dst d ((src.drop so).take n) dst' ∧ out = (.ok [], { s with vm := put dst' s.vm }))

section Bulk
variable (pf : Platform) (k : ℕ) (s : ExecState) (size src dst : ValueU)

/-- The instruction does what it is to do, with its operands as unsigned 32-bit numbers. A fill
takes its values from as many copies of the second operand. -/
def BulkInstr.Exact (b : BulkInstr) : Prop :=
  match b with
  | .memoryInit dataIdx => ∀ a m mi d, s.vm.addr (·.mAddrs) k 0 = .ok a → s.vm.memory a = .ok m →
    s.vm.inst k = .ok mi → mi.mod.data[dataIdx]? = some d → mi.droppedData[dataIdx]? = some false →
    Moves d.bytes (lo32 src) m.mdata (lo32 dst) (lo32 size) (Vm.setMemory a) s
      (effect pf k b.instr [size, src, dst] s)
  | .memoryCopy => ∀ a m, s.vm.addr (·.mAddrs) k 0 = .ok a → s.vm.memory a = .ok m →
    Moves m.mdata (lo32 src) m.mdata (lo32 dst) (lo32 size) (Vm.setMemory a) s
      (effect pf k b.instr [size, src, dst] s)
  | .memoryFill => ∀ a m, s.vm.addr (·.mAddrs) k 0 = .ok a → s.vm.memory a = .ok m →
    Moves (List.replicate (lo32 size) (UInt8.ofNat src.toNat)) 0 m.mdata (lo32 dst) (lo32 size) (Vm.setMemory a) s
      (effect pf k b.instr [size, src, dst] s)
  | .tableCopy dstIdx srcIdx => ∀ a t a' t', s.vm.addr (·.tAddrs) k dstIdx = .ok a → s.vm.table a = .ok t →
    s.vm.addr (·.tAddrs) k srcIdx = .ok a' → s.vm.table a' = .ok t' →
    Moves t'.tdata (lo32 src) t.tdata (lo32 dst) (lo32 size) (Vm.setTable a) s
      (effect pf k b.instr [size, src, dst] s)
  | .tableFill idx => ∀ a t, s.vm.addr (·.tAddrs) k idx = .ok a → s.vm.table a = .ok t →
    Moves (List.replicate (lo32 size) src) 0 t.tdata (lo32 dst) (lo32 size) (Vm.setTable a) s
      (effect pf k b.instr [size, src, dst] s)

/-- The sign of the offset does no harm: there is none, or the range is outside the table both as
it is and with the sum wrapped around. -/
def OffsetUnsigned (len off n : ℕ) : Prop :=
  off < 2 ^ 31 ∨ len < off + n ∧ (off + n < 2 ^ 32 ∨ len < off + n - 2 ^ 32)

instance (len off n : ℕ) : Decidable (OffsetUnsigned len off n) := by
  unfold OffsetUnsigned
  infer_instance

def BulkInstr.Unsigned (b : BulkInstr) : Prop :=
  match b with
  | .tableFill idx => ∀ a t, s.vm.addr (·.tAddrs) k idx = .ok a → s.vm.table a = .ok t →
    OffsetUnsigned t.tdata.length (lo32 dst) (lo32 size)
  | _ => True

end Bulk

/-- A vector of references has a size in bytes that is a `size_t`. -/
def TablesFit (vm : Vm) : Prop := ∀ a t, vm.table a = .ok t → t.tdata.length * 8 < 2 ^ 64

/-! ### What the handlers do -/

section Handlers
variable {pf : Platform} {k : ℕ} {s : ExecState} {a : Addr}

theorem mem0_apply {m : MemoryInst} (ha : s.vm.addr (·.mAddrs) k 0 = .ok a) (hm : s.vm.memory a = .ok m) :
    mem0 k s = (.ok (a, m), s) := by
  simp only [mem0, ofVm, Eff.bind_apply, Eff.read, ha, hm, Eff.pure_apply]

theorem tabInst_apply {idx : ℕ} {t : TableInst} (ha : s.vm.addr (·.tAddrs) k idx = .ok a)
    (ht : s.vm.table a = .ok t) : tabInst k idx s = (.ok (a, t), s) := by
  simp only [tabInst, ofVm, Eff.bind_apply, Eff.read, ha, ht, Eff.pure_apply]

theorem lo32_lt (v : ValueU) : lo32 v < 2 ^ 32 := Nat.mod_lt _ (by decide)

theorem signExtend_lo32 (v : ValueU) : ((BitVec.setWidth 32 v).signExtend 64).toNat =
    if lo32 v < 2 ^ 31 then lo32 v else 2 ^ 64 - 2 ^ 32 + lo32 v := by
  have hlo : (BitVec.setWidth 32 v).toNat = lo32 v := by simp [lo32]
  have hlt := lo32_lt v
  rw [BitVec.toNat_signExtend, BitVec.toNat_setWidth, hlo, BitVec.msb_eq_decide, hlo,
    Nat.mod_eq_of_lt (by omega)]
  by_cases h : lo32 v < 2 ^ 31
  · rw [if_pos h, if_neg (by simp; omega)]
    rfl
  · rw [if_neg h, if_pos (by simp; omega)]
    omega

end Handlers

theorem overwrite_nil {α : Type} (dst : List α) (p : ℕ) : overwrite dst p [] = dst := by
  simp [overwrite]

/-- A modification that leaves its element as it was. -/
theorem modify_self {α : Type} {xs : List α} {i : ℕ} {x : α} {f : α → α} (hx : xs[i]? = some x) (hf : f x = x) :
    xs.modify i f = xs := by
  apply List.ext_getElem?
  intro j
  rw [List.getElem?_modify]
  by_cases hij : i = j
  · subst hij
    simp [hx, hf]
  · simp [hij]

/-- Contents put back where they came from. -/
theorem setMemory_self {vm : Vm} {a : Addr} {m : MemoryInst} (hm : vm.memory a = .ok m) :
    vm.setMemory a m.mdata = vm := by
  rw [Vm.memory] at hm
  split at hm
  · exact absurd hm (undef_ne_ok _ _)
  · next m' hm' =>
    cases hm
    obtain ⟨mi, hmi, hidx⟩ := Option.bind_eq_some_iff.mp hm'
    have hmems : mi.memories.modify a.idx ({ · with mdata := m.mdata }) = mi.memories := modify_self hidx rfl
    rw [Vm.setMemory, Vm.modifyInst, modify_self hmi (by rw [hmems])]

theorem setTable_self {vm : Vm} {a : Addr} {t : TableInst} (ht : vm.table a = .ok t) :
    vm.setTable a t.tdata = vm := by
  rw [Vm.table] at ht
  split at ht
  · exact absurd ht (undef_ne_ok _ _)
  · next t' ht' =>
    cases ht
    obtain ⟨mi, hmi, hidx⟩ := Option.bind_eq_some_iff.mp ht'
    have htabs : mi.tables.modify a.idx ({ · with tdata := t.tdata }) = mi.tables := modify_self hidx rfl
    rw [Vm.setTable, Vm.modifyInst, modify_self hmi (by rw [htabs])]

section Exact
variable (pf : Platform) (k : ℕ) (s : ExecState) (size src dst : ValueU)

-- The equations of the handlers are made here, once for the proofs of the section.
attribute [local simp] effect arg3 memoryInit memoryCopy memoryFill tableCopy tableFill

/-- The common form of the handlers: a guard, and a copy. -/
theorem moves_of_guard {α : Type} {xs : List α} {so : ℕ} {ys : List α} {d n : ℕ} {put : List α → Vm → Vm}
    {s : ExecState} (msg : String) {out : Except Fault (List ValueU) × ExecState}
    (htrap : so + n > xs.length ∨ d + n > ys.length → out = trap msg s)
    (hmove : so + n ≤ xs.length ∧ d + n ≤ ys.length →
      out = (.ok [], { s with vm := put (overwrite ys d ((xs.drop so).take n)) s.vm })) :
    Moves xs so ys d n put s out := by
  refine ⟨fun h => ⟨_, _, htrap h⟩, fun h => ⟨_, wrote_overwrite ?_, hmove h⟩⟩
  rw [List.length_take, List.length_drop]
  omega

theorem memoryInit_exact (dataIdx : ℕ) : (BulkInstr.memoryInit dataIdx).Exact pf k s size src dst := by
  intro a m mi d ha hm hmi hd hdrop
  have hrun : effect pf k (.memoryInit dataIdx) [size, src, dst] s =
      (if lo32 src + lo32 size > d.bytes.length ∨ lo32 dst + lo32 size > m.mdata.length then
        trap "Invalid data access"
      else if lo32 size = 0 then pure []
      else do
        modifyVm (Vm.setMemory a (overwrite m.mdata (lo32 dst) ((d.bytes.drop (lo32 src)).take (lo32 size))))
        pure []) s := by
    simp only [effect, arg3, memoryInit, Eff.bind_apply, mem0_apply ha hm, ofVm, Eff.read, hmi, hd, hdrop]
    rfl
  refine moves_of_guard "Invalid data access" (fun h => ?_) (fun h => ?_)
  · rw [BulkInstr.instr, hrun, if_pos h]
  · rw [BulkInstr.instr, hrun, if_neg (by omega)]
    by_cases hz : lo32 size = 0
    · rw [if_pos hz, hz, List.take_zero, overwrite_nil, setMemory_self hm]
      rfl
    · rw [if_neg hz]
      rfl

theorem memoryCopy_exact : BulkInstr.memoryCopy.Exact pf k s size src dst := by
  intro a m ha hm
  have hrun : effect pf k .memoryCopy [size, src, dst] s =
      (if lo32 src + lo32 size > m.mdata.length ∨ lo32 dst + lo32 size > m.mdata.length then
        trap "Invalid memory access"
      else do
        modifyVm (Vm.setMemory a (overwrite m.mdata (lo32 dst) ((m.mdata.drop (lo32 src)).take (lo32 size))))
        pure []) s := by
    simp only [effect, arg3, memoryCopy, Eff.bind_apply, mem0_apply ha hm]
  refine moves_of_guard "Invalid memory access" (fun h => ?_) (fun h => ?_)
  · rw [BulkInstr.instr, hrun, if_pos h]
  · rw [BulkInstr.instr, hrun, if_neg (by omega)]
    rfl

theorem memoryFill_exact : BulkInstr.memoryFill.Exact pf k s size src dst := by
  intro a m ha hm
  have hrun : effect pf k .memoryFill [size, src, dst] s =
      (if lo32 dst + lo32 size > m.mdata.length then trap "Invalid memory access"
      else do
        modifyVm (Vm.setMemory a (overwrite m.mdata (lo32 dst) (List.replicate (lo32 size) (UInt8.ofNat src.toNat))))
        pure []) s := by
    simp only [effect, arg3, memoryFill, Eff.bind_apply, mem0_apply ha hm]
  refine moves_of_guard "Invalid memory access" (fun h => ?_) (fun h => ?_)
  · rw [List.length_replicate] at h
    rw [BulkInstr.instr, hrun, if_pos (by omega)]
  · rw [BulkInstr.instr, hrun, if_neg (by omega), List.drop_zero, List.take_of_length_le (by simp)]
    rfl

theorem tableCopy_exact (dstIdx srcIdx : ℕ) : (BulkInstr.tableCopy dstIdx srcIdx).Exact pf k s size src dst := by
  intro a t a' t' ha ht ha' ht'
  have hrun : effect pf k (.tableCopy dstIdx srcIdx) [size, src, dst] s =
      (if lo32 src + lo32 size > t'.tdata.length ∨ lo32 dst + lo32 size > t.tdata.length then
        trap "Invalid table access"
      else do
        modifyVm (Vm.setTable a (overwrite t.tdata (lo32 dst) ((t'.tdata.drop (lo32 src)).take (lo32 size))))
        pure []) s := by
    simp only [effect, arg3, tableCopy, Eff.bind_apply, tabInst_apply ha ht, tabInst_apply ha' ht']
  refine moves_of_guard "Invalid table access" (fun h => ?_) (fun h => ?_)
  · rw [BulkInstr.instr, hrun, if_pos h]
  · rw [BulkInstr.instr, hrun, if_neg (by omega)]
    rfl

variable {k s size src dst}

theorem tableFill_apply {idx : ℕ} {a : Addr} {t : TableInst} (ha : s.vm.addr (·.tAddrs) k idx = .ok a)
    (ht : s.vm.table a = .ok t) {off : ℕ} (hoff : ((BitVec.setWidth 32 dst).signExtend 64).toNat = off) :
    effect pf k (.tableFill idx) [size, src, dst] s =
      (if (off + lo32 size) % 2 ^ 64 > t.tdata.length then Eff.fail (.err .invalid "Invalid table access")
      else if t.tdata.length < off + lo32 size ∧ 0 < lo32 size then outside "table element"
      else do
        modifyVm (Vm.setTable a (overwrite t.tdata off (List.replicate (lo32 size) src)))
        pure []) s := by
  subst hoff
  simp only [effect, arg3, tableFill, Eff.bind_apply, tabInst_apply ha ht]

/-- An offset without a sign: the guard of `table.fill` is the right one. -/
theorem tableFill_small {idx : ℕ} {a : Addr} {t : TableInst} (ha : s.vm.addr (·.tAddrs) k idx = .ok a)
    (ht : s.vm.table a = .ok t) (hoff : lo32 dst < 2 ^ 31) :
    Moves (List.replicate (lo32 size) src) 0 t.tdata (lo32 dst) (lo32 size) (Vm.setTable a) s
      (effect pf k (.tableFill idx) [size, src, dst] s) := by
  have hsize := lo32_lt size
  have hsign : ((BitVec.setWidth 32 dst).signExtend 64).toNat = lo32 dst := by
    rw [signExtend_lo32, if_pos hoff]
  have hsum : (lo32 dst + lo32 size) % 2 ^ 64 = lo32 dst + lo32 size := Nat.mod_eq_of_lt (by omega)
  rw [tableFill_apply pf ha ht hsign, hsum]
  refine ⟨fun h => ?_, fun h => ?_⟩
  · rw [List.length_replicate] at h
    rw [if_pos (by omega)]
    exact ⟨_, _, rfl⟩
  · rw [if_neg (by omega), if_neg (by omega), List.drop_zero, List.take_of_length_le (by simp)]
    exact ⟨_, wrote_overwrite (by simpa using h.2), rfl⟩

/-- An offset with a sign: the range has to be outside the table, and the wrapped sum as well. -/
theorem tableFill_large {idx : ℕ} {a : Addr} {t : TableInst} (ha : s.vm.addr (·.tAddrs) k idx = .ok a)
    (ht : s.vm.table a = .ok t) (hoff : 2 ^ 31 ≤ lo32 dst) (hlen : t.tdata.length * 8 < 2 ^ 64) :
    Moves (List.replicate (lo32 size) src) 0 t.tdata (lo32 dst) (lo32 size) (Vm.setTable a) s
        (effect pf k (.tableFill idx) [size, src, dst] s) ↔
      t.tdata.length < lo32 dst + lo32 size ∧
        (lo32 dst + lo32 size < 2 ^ 32 ∨ t.tdata.length < lo32 dst + lo32 size - 2 ^ 32) := by
  have hsize := lo32_lt size
  have hdst := lo32_lt dst
  have hsign : ((BitVec.setWidth 32 dst).signExtend 64).toNat = 2 ^ 64 - 2 ^ 32 + lo32 dst := by
    rw [signExtend_lo32, if_neg (by omega)]
  rw [tableFill_apply pf ha ht hsign]
  by_cases hguard : (2 ^ 64 - 2 ^ 32 + lo32 dst + lo32 size) % 2 ^ 64 > t.tdata.length
  · -- The code traps, which is right if the range is outside.
    rw [if_pos hguard]
    constructor
    · rintro ⟨-, hmove⟩
      by_contra hout
      obtain ⟨dst', -, hrun⟩ := hmove ⟨by simp, by omega⟩
      cases hrun
    · rintro ⟨hout, -⟩
      refine ⟨fun _ => ⟨_, _, rfl⟩, fun h => ?_⟩
      omega
  · -- The sum has wrapped, and the loop leaves the table.
    rw [if_neg hguard, if_pos (by omega)]
    constructor
    · rintro ⟨htrap, hmove⟩
      by_cases hout : t.tdata.length < lo32 dst + lo32 size
      · obtain ⟨_, _, hrun⟩ := htrap (.inr hout)
        cases hrun
      · obtain ⟨dst', -, hrun⟩ := hmove ⟨by simp, by omega⟩
        cases hrun
    · rintro ⟨-, hwrap⟩
      omega

end Exact

/-- The bulk instructions trap exactly when a range is too long, and otherwise write exactly the
range, unless the offset of `table.fill` has its sign bit set and is not caught. -/
theorem bulk_exact (pf : Platform) (k : ℕ) (s : ExecState) (size src dst : ValueU) (b : BulkInstr)
    (hfit : TablesFit s.vm) : b.Exact pf k s size src dst ↔ b.Unsigned k s size dst := by
  cases b with
  | memoryInit dataIdx => exact iff_of_true (memoryInit_exact pf k s size src dst dataIdx) trivial
  | memoryCopy => exact iff_of_true (memoryCopy_exact pf k s size src dst) trivial
  | memoryFill => exact iff_of_true (memoryFill_exact pf k s size src dst) trivial
  | tableCopy dstIdx srcIdx => exact iff_of_true (tableCopy_exact pf k s size src dst dstIdx srcIdx) trivial
  | tableFill idx =>
    refine forall_congr' fun a => forall_congr' fun t => forall_congr' fun ha => forall_congr' fun ht => ?_
    by_cases hoff : lo32 dst < 2 ^ 31
    · exact iff_of_true (tableFill_small pf ha ht hoff) (.inl hoff)
    · rw [BulkInstr.instr, tableFill_large pf ha ht (by omega) (hfit a t ht), OffsetUnsigned]
      simp only [hoff, false_or]

/-- A VM with a table of one entry. -/
def oneEntry : ExecState where
  vm := { instances := [{
    modId := 0
    mod := {}
    tables := [{ tab := { valtype := .funcref, lim := ⟨1, 1⟩ }, tdata := [nullref] }]
    tAddrs := [some ⟨0, 0⟩] }] }
  locals := []

theorem tablesFit_oneEntry : TablesFit oneEntry.vm := by
  intro a t ht
  rcases a with ⟨_ | i, _ | j⟩ <;> simp [Vm.table, oneEntry, undef] at ht
  subst ht
  decide

/-- `table.fill` of one entry at offset 0: nothing is in the way. -/
theorem bulk_exact_oneEntry : TablesFit oneEntry.vm ∧
    ∀ pf, (BulkInstr.tableFill 0).Exact pf 0 oneEntry 1 0 0 := by
  refine ⟨tablesFit_oneEntry, fun pf => (bulk_exact pf 0 oneEntry 1 0 0 (.tableFill 0) tablesFit_oneEntry).mpr ?_⟩
  exact fun _ _ _ _ => .inl (by decide)

/-- One entry at offset `2^32 - 1` is outside the table, but the sum wraps to 0. -/
theorem tableFill_wraps : TablesFit oneEntry.vm ∧
    ∀ pf, ¬ (BulkInstr.tableFill 0).Exact pf 0 oneEntry 1 0 (BitVec.ofNat 64 (2 ^ 32 - 1)) := by
  refine ⟨tablesFit_oneEntry, fun pf hexact => ?_⟩
  obtain ⟨htrap, -⟩ := hexact ⟨0, 0⟩ _ rfl rfl
  obtain ⟨_, _, hrun⟩ := htrap (.inr (by decide))
  cases hrun

end Silverfir.InPlaceDt
