import Silverfir.Bulk
import Silverfir.Parts
import Silverfir.Sizes
import Silverfir.ValidatorPlain

/-! The loads and stores of numbers: `MEM_LOAD` and `MEM_STORE` over the readers and writers of
`mem_util.h`, which take one path for an aligned host address and another for any other. The host
is little endian, and `host` is the address of the first byte of memory. -/
namespace Silverfir.InPlaceDt

/-- The types that the macros are used with. -/
inductive CType where
  | i8 | u8 | i16 | u16 | i32 | u32 | f32 | i64 | u64 | f64
  deriving DecidableEq, Repr

namespace CType

def size : CType → ℕ
  | .i8 | .u8 => 1
  | .i16 | .u16 => 2
  | .i32 | .u32 | .f32 => 4
  | .i64 | .u64 | .f64 => 8

def signed : CType → Bool
  | .i8 | .i16 | .i32 | .i64 => true
  | _ => false

/-- A bit pattern as a number of the type. A float stays the pattern that it is. -/
def value (t : CType) (n : ℕ) : ℤ := if t.signed then (BitVec.ofNat (8 * t.size) n).toInt else n

/-- A field of a slot that is built with this field alone. -/
def slot (t : CType) (v : ℤ) : ValueU := (BitVec.ofInt (8 * t.size) v).setWidth 64

end CType

/-! ### `mem_util.h` -/

/-- `v |= p[0]`, `v |= p[1] << 8` and so on. -/
def gather : (bytes : Str) → (j v : ℕ) → ℕ
  | [], _, v => v
  | b :: bytes, j, v => gather bytes (j + 1) (v ||| b.toNat <<< (8 * j))

/-- `mem_read_*` of the address `p` in a buffer at `host`. -/
def memRead (t : CType) (host i : ℕ) (buf : Str) : R ℕ :=
  if buf.length < i + t.size then undef "read outside the memory"
  else
    let bytes := (buf.drop i).take t.size
    if (host + i) &&& (t.size - 1) ≠ 0 then .ok (gather bytes 0 0) else .ok (Stream.leBytes bytes)

/-- The loop of `mem_write_*`, a byte a round. -/
def writeLoop : (typeSize : ℕ) → (buf : Str) → (i val : ℕ) → Str
  | 0, buf, _, _ => buf
  | typeSize + 1, buf, i, val => writeLoop typeSize (buf.set i (UInt8.ofNat val)) (i + 1) (val >>> 8)

/-- `mem_write_*`. The mask is a 32-bit number, so the address is stored to directly only when its
low half is less than the size. -/
def memWrite (t : CType) (host i val : ℕ) (buf : Str) : R Str :=
  if buf.length < i + t.size then undef "write outside the memory"
  else if t.size = 1 then .ok (buf.set i (UInt8.ofNat val))
  else if (host + i) &&& (2 ^ 32 - t.size) ≠ 0 then .ok (writeLoop t.size buf i val)
  else .ok (overwrite buf i ((List.range t.size).map fun j => UInt8.ofNat (val >>> (8 * j))))

/-! ### The handlers -/

/-- `MEM_LOAD(dst_type, src_type)` -/
def loadTypes : WasmOpcode → Option (CType × CType)
  | .i32Load => some (.i32, .i32)
  | .i64Load => some (.i64, .i64)
  | .f32Load => some (.f32, .f32)
  | .f64Load => some (.f64, .f64)
  | .i32Load8S => some (.i32, .i8)
  | .i32Load8U => some (.i32, .u8)
  | .i32Load16S => some (.i32, .i16)
  | .i32Load16U => some (.i32, .u16)
  | .i64Load8S => some (.i64, .i8)
  | .i64Load8U => some (.i64, .u8)
  | .i64Load16S => some (.i64, .i16)
  | .i64Load16U => some (.i64, .u16)
  | .i64Load32S => some (.i64, .i32)
  | .i64Load32U => some (.i64, .u32)
  | _ => none

/-- `MEM_STORE(dst_type, src_type)` -/
def storeTypes : WasmOpcode → Option (CType × CType)
  | .i32Store => some (.u32, .i32)
  | .i64Store => some (.u64, .i64)
  | .f32Store => some (.f32, .f32)
  | .f64Store => some (.f64, .f64)
  | .i32Store8 => some (.u8, .i32)
  | .i32Store16 => some (.u16, .i32)
  | .i64Store8 => some (.u8, .i64)
  | .i64Store16 => some (.u16, .i64)
  | .i64Store32 => some (.u32, .i64)
  | _ => none

section Handlers
variable (k host : ℕ)

/-- `MEM_LOAD`. The sum of two numbers of 32 bits is a number of 64 bits. -/
def execLoad (dst src : CType) (offset : BitVec 32) (base : ValueU) : Exec (List ValueU) := do
  let (_, m) ← mem0 k
  let memIdx := lo32 base + offset.toNat
  if memIdx + src.size > m.mdata.length then trap "t.load: out-of-bound memory access"
  else do
    let n ← Eff.lift (memRead src host memIdx m.mdata)
    pure [dst.slot (src.value n)]

/-- `MEM_STORE`. The operand is cut to the field `src` and then to the type that is written. -/
def execStore (dst src : CType) (offset : BitVec 32) (val base : ValueU) : Exec (List ValueU) := do
  let (a, m) ← mem0 k
  let memIdx := lo32 base + offset.toNat
  if memIdx + dst.size > m.mdata.length then trap "t.store: out-of-bound memory access"
  else do
    let n := val.toNat % 2 ^ (8 * src.size) % 2 ^ (8 * dst.size)
    let mdata ← Eff.lift (memWrite dst host memIdx n m.mdata)
    modifyVm (Vm.setMemory a mdata)
    pure []

end Handlers

/-! ### The two paths agree -/

theorem leBytes_lt (bytes : Str) : Stream.leBytes bytes < 2 ^ (8 * bytes.length) := by
  induction bytes with
  | nil => simp [Stream.leBytes]
  | cons b bytes ih =>
    have hb := b.toNat_lt
    have hpow : 2 ^ (8 * (bytes.length + 1)) = 256 * 2 ^ (8 * bytes.length) := by
      rw [Nat.mul_succ, Nat.pow_add, Nat.mul_comm]
    have hcons : Stream.leBytes (b :: bytes) = b.toNat + 256 * Stream.leBytes bytes := rfl
    rw [hcons, List.length_cons, hpow]
    omega

theorem gather_eq {bytes : Str} {j v : ℕ} (hv : v < 2 ^ (8 * j)) :
    gather bytes j v = v + Stream.leBytes bytes * 2 ^ (8 * j) := by
  induction bytes generalizing j v with
  | nil => simp [gather, Stream.leBytes]
  | cons b bytes ih =>
    have hb := b.toNat_lt
    have hor : v ||| b.toNat <<< (8 * j) = v + b.toNat * 2 ^ (8 * j) := by
      rw [Nat.shiftLeft_eq, Nat.mul_comm b.toNat, Nat.or_comm, ← Nat.two_pow_add_eq_or_of_lt hv, Nat.add_comm]
    have hpow : 2 ^ (8 * (j + 1)) = 256 * 2 ^ (8 * j) := by
      rw [Nat.mul_succ, Nat.pow_add, Nat.mul_comm]
    have hlt : v + b.toNat * 2 ^ (8 * j) < 2 ^ (8 * (j + 1)) := by
      have hmul : (b.toNat + 1) * 2 ^ (8 * j) ≤ 256 * 2 ^ (8 * j) := Nat.mul_le_mul_right _ hb
      rw [Nat.succ_mul] at hmul
      rw [hpow]
      omega
    have hcons : Stream.leBytes (b :: bytes) = b.toNat + 256 * Stream.leBytes bytes := rfl
    rw [gather, hor, ih hlt, hpow, hcons]
    ring

theorem memRead_eq {t : CType} {host i : ℕ} {buf : Str} (h : i + t.size ≤ buf.length) :
    memRead t host i buf = .ok (Stream.leBytes ((buf.drop i).take t.size)) := by
  have hgather : gather ((buf.drop i).take t.size) 0 0 = Stream.leBytes ((buf.drop i).take t.size) := by
    rw [gather_eq (by simp)]
    simp
  unfold memRead
  rw [if_neg (by omega)]
  dsimp only
  rw [hgather, ite_self]

theorem writeLoop_eq {n : ℕ} {buf : Str} {i val : ℕ} (h : i + n ≤ buf.length) :
    writeLoop n buf i val = overwrite buf i ((List.range n).map fun j => UInt8.ofNat (val >>> (8 * j))) := by
  induction n generalizing buf i val with
  | zero => simp [writeLoop, overwrite]
  | succ n ih =>
    have hrest : (List.range n).map (fun j => UInt8.ofNat (val >>> (8 * (j + 1)))) =
        (List.range n).map fun j => UInt8.ofNat (val >>> 8 >>> (8 * j)) := by
      apply List.map_congr_left
      intro j _
      rw [← Nat.shiftRight_add]
      congr 2
      omega
    rw [writeLoop, ih (by rw [List.length_set]; omega), overwrite_cons _ _ (by omega), List.range_succ_eq_map,
      List.map_cons, List.map_map, ← hrest]
    rfl

theorem memWrite_eq {t : CType} {host i val : ℕ} {buf : Str} (h : i + t.size ≤ buf.length) :
    memWrite t host i val buf =
      .ok (overwrite buf i ((List.range t.size).map fun j => UInt8.ofNat (val >>> (8 * j)))) := by
  unfold memWrite
  rw [if_neg (by omega)]
  by_cases hone : t.size = 1
  · rw [hone] at h
    have hset := overwrite_cons (UInt8.ofNat val) [] (show i < buf.length by omega)
    rw [overwrite_nil] at hset
    rw [if_pos hone, hone, hset]
    rfl
  · rw [if_neg hone, writeLoop_eq h, ite_self]

/-! ### What the instructions do -/

/-- The number `n` of `accessWidth op` bytes, extended to the type of the result. -/
def widened (op : WasmOpcode) (n : ℕ) : ValueU :=
  match op with
  | .i32Load8S => ((BitVec.ofNat 8 n).signExtend 32).setWidth 64
  | .i32Load16S => ((BitVec.ofNat 16 n).signExtend 32).setWidth 64
  | .i64Load8S => (BitVec.ofNat 8 n).signExtend 64
  | .i64Load16S => (BitVec.ofNat 16 n).signExtend 64
  | .i64Load32S => (BitVec.ofNat 32 n).signExtend 64
  | _ => BitVec.ofNat 64 n

theorem loadValue_eq (op : WasmOpcode) (bytes : Str) : loadValue op bytes = widened op (Stream.leBytes bytes) := by
  cases op <;> rfl

theorem setWidth_ofInt {w n : ℕ} (h : n < 2 ^ w) :
    (BitVec.ofInt w (n : ℤ)).setWidth 64 = BitVec.ofNat 64 n := by
  rw [BitVec.ofInt_natCast]
  apply BitVec.eq_of_toNat_eq
  rw [BitVec.toNat_setWidth, BitVec.toNat_ofNat, BitVec.toNat_ofNat, Nat.mod_eq_of_lt h]

theorem slot_value_same {t : CType} {n : ℕ} (hn : n < 2 ^ (8 * t.size)) :
    t.slot (t.value n) = BitVec.ofNat 64 n := by
  have hint : BitVec.ofInt (8 * t.size) (t.value n) = BitVec.ofInt (8 * t.size) (n : ℤ) := by
    unfold CType.value
    split_ifs
    · rw [BitVec.ofInt_toInt, BitVec.ofInt_natCast]
    · rfl
  unfold CType.slot
  rw [hint, setWidth_ofInt hn]

/-- Each load goes through the types that its name says. -/
theorem loadTypes_widened {op : WasmOpcode} {dst src : CType} (h : loadTypes op = some (dst, src)) {n : ℕ}
    (hn : n < 2 ^ (8 * src.size)) : src.size = accessWidth op ∧ dst.slot (src.value n) = widened op n := by
  cases op <;> cases h
  case i32Load => exact ⟨rfl, slot_value_same hn⟩
  case i64Load => exact ⟨rfl, slot_value_same hn⟩
  case f32Load => exact ⟨rfl, slot_value_same hn⟩
  case f64Load => exact ⟨rfl, slot_value_same hn⟩
  case i32Load8S => exact ⟨rfl, rfl⟩
  case i32Load16S => exact ⟨rfl, rfl⟩
  case i64Load8S => exact ⟨rfl, BitVec.setWidth_eq _⟩
  case i64Load16S => exact ⟨rfl, BitVec.setWidth_eq _⟩
  case i64Load32S => exact ⟨rfl, BitVec.setWidth_eq _⟩
  case i32Load8U => exact ⟨rfl, setWidth_ofInt (hn.trans (by decide))⟩
  case i32Load16U => exact ⟨rfl, setWidth_ofInt (hn.trans (by decide))⟩
  case i64Load8U => exact ⟨rfl, setWidth_ofInt (hn.trans (by decide))⟩
  case i64Load16U => exact ⟨rfl, setWidth_ofInt (hn.trans (by decide))⟩
  case i64Load32U => exact ⟨rfl, setWidth_ofInt (hn.trans (by decide))⟩

theorem storeTypes_width {op : WasmOpcode} {dst src : CType} (h : storeTypes op = some (dst, src)) :
    dst.size = accessWidth op ∧ dst.size ≤ src.size ∧ op.isLoad = false := by
  cases op <;> first | (cases h; decide) | cases h

theorem loadTypes_isLoad {op : WasmOpcode} {dst src : CType} (h : loadTypes op = some (dst, src)) :
    op.isLoad = true := by
  cases op <;> first | rfl | cases h

/-- The bytes that are written do not depend on the bits above them. -/
theorem storeBytes_mod (n : ℕ) (val : ValueU) {w w' : ℕ} (hw : n ≤ w) (hw' : n ≤ w') :
    (List.range n).map (fun j => UInt8.ofNat ((val.toNat % 2 ^ (8 * w) % 2 ^ (8 * w')) >>> (8 * j))) =
      storeBytes n val := by
  apply List.map_congr_left
  intro j hj
  have hjn : j < n := List.mem_range.mp hj
  apply UInt8.toNat_inj.mp
  rw [UInt8.toNat_ofNat', UInt8.toNat_ofNat']
  apply Nat.eq_of_testBit_eq
  intro b
  rw [Nat.testBit_mod_two_pow, Nat.testBit_mod_two_pow, Nat.testBit_shiftRight, Nat.testBit_shiftRight,
    Nat.testBit_mod_two_pow, Nat.testBit_mod_two_pow]
  by_cases hb : b < 8
  · rw [decide_eq_true hb, decide_eq_true (show 8 * j + b < 8 * w' by omega),
      decide_eq_true (show 8 * j + b < 8 * w by omega), Bool.true_and, Bool.true_and]
  · rw [decide_eq_false hb, Bool.false_and, Bool.false_and]

theorem leBytes_shifts (n x : ℕ) :
    Stream.leBytes ((List.range n).map fun j => UInt8.ofNat (x >>> (8 * j))) = x % 2 ^ (8 * n) := by
  induction n generalizing x with
  | zero => simp [Stream.leBytes, Nat.mod_one]
  | succ n ih =>
    have hrest : (List.range n).map (fun j => UInt8.ofNat (x >>> (8 * (j + 1)))) =
        (List.range n).map fun j => UInt8.ofNat (x >>> 8 >>> (8 * j)) := by
      apply List.map_congr_left
      intro j _
      rw [← Nat.shiftRight_add]
      congr 2
      omega
    have hcons : ∀ (b : UInt8) (bytes : Str), Stream.leBytes (b :: bytes) = b.toNat + 256 * Stream.leBytes bytes :=
      fun _ _ => rfl
    have hpow : 2 ^ (8 * (n + 1)) = 256 * 2 ^ (8 * n) := by
      rw [Nat.mul_succ, Nat.pow_add, Nat.mul_comm]
    rw [List.range_succ_eq_map, List.map_cons, List.map_map, hcons]
    calc (UInt8.ofNat (x >>> (8 * 0))).toNat +
          256 * Stream.leBytes ((List.range n).map fun j => UInt8.ofNat (x >>> (8 * (j + 1))))
        = x % 256 + 256 * (x / 256 % 2 ^ (8 * n)) := by
          rw [hrest, ih, UInt8.toNat_ofNat', Nat.mul_zero, Nat.shiftRight_zero, Nat.shiftRight_eq_div_pow]
      _ = x % 2 ^ (8 * (n + 1)) := by rw [hpow, Nat.mod_mul]

section Access
variable {k : ℕ} {s : ExecState} {a : Addr} {m : MemoryInst} {op : WasmOpcode} {dst src : CType}

/-- The macro computes what the handler of the model computes, wherever the memory lies. -/
theorem execLoad_eq (h : loadTypes op = some (dst, src)) (host : ℕ) (offset : BitVec 32) (base : ValueU) :
    execLoad k host dst src offset base = memLoad k op offset.toNat base := by
  have hwidth := (loadTypes_widened h (n := 0) (Nat.two_pow_pos _)).1
  funext s
  simp only [execLoad, memLoad, Eff.bind_apply]
  cases mem0 k s with
  | mk res s' =>
    cases res with
    | error e => rfl
    | ok am =>
      dsimp only
      rw [hwidth]
      by_cases hout : lo32 base + offset.toNat + accessWidth op > am.2.mdata.length
      · rw [if_pos hout, if_pos hout]
      · have hlt := leBytes_lt ((am.2.mdata.drop (lo32 base + offset.toNat)).take src.size)
        rw [List.length_take, List.length_drop] at hlt
        have hn : Stream.leBytes ((am.2.mdata.drop (lo32 base + offset.toNat)).take src.size) < 2 ^ (8 * src.size) :=
          hlt.trans_le (Nat.pow_le_pow_right (by decide) (by omega))
        rw [if_neg hout, if_neg hout, memRead_eq (by omega), loadValue_eq, ← hwidth, ← (loadTypes_widened h hn).2]
        rfl

theorem execStore_eq (h : storeTypes op = some (dst, src)) (host : ℕ) (offset : BitVec 32) (val base : ValueU) :
    execStore k host dst src offset val base = memStore k op offset.toNat val base := by
  obtain ⟨hwidth, hsize, -⟩ := storeTypes_width h
  funext s
  simp only [execStore, memStore, Eff.bind_apply]
  cases mem0 k s with
  | mk res s' =>
    cases res with
    | error e => rfl
    | ok am =>
      dsimp only
      rw [hwidth]
      by_cases hout : lo32 base + offset.toNat + accessWidth op > am.2.mdata.length
      · rw [if_pos hout, if_pos hout]
      · rw [if_neg hout, if_neg hout, memWrite_eq (by omega), hwidth, storeBytes_mod _ _ (by omega) le_rfl]
        rfl

end Access

/-! ### Main result -/

/-- A load from the memory `m`: it traps if the bytes are not all there, and leaves the state alone. -/
def LoadExact (op : WasmOpcode) (m : MemoryInst) (p : ℕ) (s : ExecState)
    (out : Except Fault (List ValueU) × ExecState) : Prop :=
  if m.mdata.length < p + accessWidth op then out = (.error (.err .general "t.load: out-of-bound memory access"), s)
  else out = (.ok [widened op (Stream.leBytes ((m.mdata.drop p).take (accessWidth op)))], s)

/-- A store to the memory `m` at `a`: it writes these bytes and no others. -/
def StoreExact (op : WasmOpcode) (a : Addr) (m : MemoryInst) (p : ℕ) (val : ValueU) (s : ExecState)
    (out : Except Fault (List ValueU) × ExecState) : Prop :=
  if m.mdata.length < p + accessWidth op then out = (.error (.err .general "t.store: out-of-bound memory access"), s)
  else ∃ mdata, Wrote m.mdata p (storeBytes (accessWidth op) val) mdata ∧
    out = (.ok [], { s with vm := s.vm.setMemory a mdata })

/-- A load of as many bytes from where a store has put them. -/
def LoadsStored (st ld : WasmOpcode) (p : ℕ) (val : ValueU) (m : MemoryInst) (store load : Exec (List ValueU))
    (s : ExecState) : Prop :=
  p + accessWidth st ≤ m.mdata.length →
    ∃ s', store s = (.ok [], s') ∧ load s' = (.ok [widened ld (val.toNat % 2 ^ (8 * accessWidth st))], s')

section Access
variable {k : ℕ} {s : ExecState} {a : Addr} {m : MemoryInst} {op : WasmOpcode} {dst src : CType}

theorem load_exact (ha : s.vm.addr (·.mAddrs) k 0 = .ok a) (hm : s.vm.memory a = .ok m)
    (h : loadTypes op = some (dst, src)) (host : ℕ) (offset : BitVec 32) (base : ValueU) :
    LoadExact op m (lo32 base + offset.toNat) s (execLoad k host dst src offset base s) := by
  rw [execLoad_eq h, LoadExact, memLoad, Eff.bind_apply, mem0_apply ha hm]
  dsimp only
  split_ifs
  · rfl
  · rw [← loadValue_eq]
    rfl

theorem store_exact (ha : s.vm.addr (·.mAddrs) k 0 = .ok a) (hm : s.vm.memory a = .ok m)
    (h : storeTypes op = some (dst, src)) (host : ℕ) (offset : BitVec 32) (val base : ValueU) :
    StoreExact op a m (lo32 base + offset.toNat) val s (execStore k host dst src offset val base s) := by
  have hlen : (storeBytes (accessWidth op) val).length = accessWidth op := by simp [storeBytes]
  rw [execStore_eq h, StoreExact, memStore, Eff.bind_apply, mem0_apply ha hm]
  dsimp only
  split_ifs
  · rfl
  · refine ⟨_, wrote_overwrite ?_, rfl⟩
    omega

theorem loads_stored (ha : s.vm.addr (·.mAddrs) k 0 = .ok a) (hm : s.vm.memory a = .ok m) {st ld : WasmOpcode}
    {dst src dst' src' : CType} (hst : storeTypes st = some (dst, src)) (hld : loadTypes ld = some (dst', src'))
    (hwidth : accessWidth st = accessWidth ld) (host host' : ℕ) (offset offset' : BitVec 32) (val base base' : ValueU)
    (hsame : lo32 base' + offset'.toNat = lo32 base + offset.toNat) :
    LoadsStored st ld (lo32 base + offset.toNat) val m (execStore k host dst src offset val base)
      (execLoad k host' dst' src' offset' base') s := by
  intro hin
  have hstore := store_exact ha hm hst host offset val base
  rw [StoreExact, if_neg (by omega)] at hstore
  obtain ⟨mdata, hwrote, hout⟩ := hstore
  have hlen : (storeBytes (accessWidth st) val).length = accessWidth st := by simp [storeBytes]
  have ha' : (s.vm.setMemory a mdata).addr (·.mAddrs) k 0 = .ok a :=
    (Vm.addr_eq_of_shape (fun _ => rfl) (Vm.shape_setMemory a mdata s.vm) k 0).trans ha
  have hload := load_exact (s := { s with vm := s.vm.setMemory a mdata }) ha' (memory_setMemory hm mdata) hld host'
    offset' base'
  have hbytes : (mdata.drop (lo32 base + offset.toNat)).take (accessWidth st) = storeBytes (accessWidth st) val := by
    apply List.ext_getElem?
    intro j
    rw [List.getElem?_take, List.getElem?_drop]
    split_ifs with hj
    · rw [hwrote.inside j (by omega)]
    · rw [List.getElem?_eq_none (by omega)]
  have hroom : ¬ mdata.length < lo32 base + offset.toNat + accessWidth st := by
    rw [hwrote.length]
    omega
  refine ⟨_, hout, ?_⟩
  rw [LoadExact, hsame, ← hwidth, if_neg hroom, hbytes, storeBytes, leBytes_shifts] at hload
  exact hload

end Access

/-- The loads and stores trap exactly when the access reaches beyond the memory. They read and write
exactly the addressed bytes, and a load finds what a store has left. -/
theorem memory_access (pf : Platform) (k : ℕ) (s : ExecState) (a : Addr) (m : MemoryInst)
    (ha : s.vm.addr (·.mAddrs) k 0 = .ok a) (hm : s.vm.memory a = .ok m) :
    (∀ op dst src, loadTypes op = some (dst, src) → ∀ host offset base,
      LoadExact op m (lo32 base + offset.toNat) s (execLoad k host dst src offset base s) ∧
      ∀ align, effect pf k (.memoryLoadStore op align offset.toNat) [base] = execLoad k host dst src offset base) ∧
    (∀ op dst src, storeTypes op = some (dst, src) → ∀ host offset val base,
      StoreExact op a m (lo32 base + offset.toNat) val s (execStore k host dst src offset val base s) ∧
      ∀ align,
        effect pf k (.memoryLoadStore op align offset.toNat) [val, base] = execStore k host dst src offset val base) ∧
    ∀ st dst src ld dst' src', storeTypes st = some (dst, src) → loadTypes ld = some (dst', src') →
      accessWidth st = accessWidth ld → ∀ host host' offset offset' val base base',
        lo32 base' + offset'.toNat = lo32 base + offset.toNat →
          LoadsStored st ld (lo32 base + offset.toNat) val m (execStore k host dst src offset val base)
            (execLoad k host' dst' src' offset' base') s := by
  refine ⟨?_, ?_, ?_⟩
  · intro op dst src h host offset base
    refine ⟨load_exact ha hm h host offset base, ?_⟩
    intro align
    rw [execLoad_eq h]
    simp only [effect, loadTypes_isLoad h, if_true, arg1]
  · intro op dst src h host offset val base
    refine ⟨store_exact ha hm h host offset val base, ?_⟩
    intro align
    rw [execStore_eq h]
    simp only [effect, (storeTypes_width h).2.2, Bool.false_eq_true, if_false, arg2]
  · intro st dst src ld dst' src' hst hld hwidth host host' offset offset' val base base' hsame
    exact loads_stored ha hm hst hld hwidth host host' offset offset' val base base' hsame

/-- A VM with a memory of four bytes. -/
def fourBytes : ExecState where
  vm := { instances := [{
    modId := 0
    mod := {}
    memories := [{ mem := { lim := ⟨1, 1⟩ }, mdata := [0, 0, 0, 0] }]
    mAddrs := [some ⟨0, 0⟩] }] }
  locals := []

/-- `i32.store16` at address 1, an odd one, and then `i32.load16_s`. -/
theorem memory_access_fourBytes : ∃ s', execStore 0 4096 .u16 .i32 0 0xfffe 1 fourBytes = (.ok [], s') ∧
    execLoad 0 4096 .i32 .i16 0 1 s' = (.ok [0xfffffffe], s') :=
  (memory_access idle 0 fourBytes ⟨0, 0⟩ _ rfl rfl).2.2 .i32Store16 .u16 .i32 .i32Load16S .i32 .i16 rfl rfl rfl
    4096 4096 0 0 0xfffe 1 1 rfl (by decide)

end Silverfir.InPlaceDt
