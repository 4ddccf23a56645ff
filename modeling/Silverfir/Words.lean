import Silverfir.Binary
import Silverfir.LebReaders
import Silverfir.Parser

/-! The readers on the words of the format: where the word of a value comes next, a reader moves
past it and returns what stands for the value. -/
namespace Silverfir

open Grammar

instance : Cursor Stream UInt8 where
  left st := st.s.drop st.p
  advance := Stream.advance
  advance_zero _ := rfl
  advance_advance st m n := by
    unfold Stream.advance
    rw [Nat.add_assoc]
  left_advance st n := by
    unfold Stream.advance
    rw [List.drop_drop]

theorem left_eq (st : Stream) : Cursor.left st = st.s.drop st.p := rfl

theorem left_from_ (w : Str) : Cursor.left (Stream.from_ w) = w := rfl

/-- A reader of one value. -/
abbrev ReadsValue {α : Type} (p : Stream → R (α × Stream)) (x : α) (w : Str) : Prop := Reads p (fun st => (x, st)) w

/-! ### Numbers -/

theorem byteAt?_of_left {st : Stream} {b : UInt8} {rest : Str} (h : Cursor.left st = b :: rest) :
    st.byteAt? 0 = some b.toNat := by
  have hget : st.s[st.p]? = some b := by
    rw [← List.head?_drop, ← left_eq, h, List.head?_cons]
  unfold Stream.byteAt?
  rw [Nat.add_zero, hget, Option.map_some]

theorem readU8_reads (b : UInt8) : ReadsValue Stream.readU8 b.toNat [b] := by
  intro st rest hleft
  unfold Stream.readU8
  rw [byteAt?_of_left hleft]
  rfl

theorem readVu7_reads {b : UInt8} (hb : b.toNat < 0x80) : ReadsValue Stream.readVu7 b.toNat [b] := by
  intro st rest hleft
  unfold Stream.readVu7
  rw [byteAt?_of_left hleft]
  dsimp only
  rw [if_neg (by omega)]
  rfl

theorem readVi7_reads {b : UInt8} (hb : b.toNat < 0x80) : ReadsValue Stream.readVi7 (Stream.i7Value b.toNat) [b] := by
  intro st rest hleft
  unfold Stream.readVi7
  rw [byteAt?_of_left hleft]
  dsimp only
  rw [if_neg (by omega)]
  rfl

theorem readVu32_reads {n : ℕ} {w : Str} (h : Binary.U32 n w) : ReadsValue Stream.readVu32 n w := by
  intro st rest hleft
  have hdecode : Leb128.decodeUnsigned 32 (st.s.drop st.p) = some (n, w.length) := by
    rw [← left_eq, hleft]
    exact Leb128.decodeUnsigned_of h rest
  have hloop : Stream.readVuLoop 32 st (4 + 1) 0 0 =
      afterVu st 0 0 (Leb128.decodeUnsigned (32 - 7 * 0) (st.s.drop (st.p + 0))) :=
    readVuLoop_decodes st (Or.inl rfl) (by decide) rfl
  rw [Nat.mul_zero, Nat.sub_zero, Nat.add_zero st.p, hdecode] at hloop
  unfold Stream.readVu32
  rw [show Stream.lebMaxLen 32 = 4 + 1 from rfl, hloop]
  unfold afterVu
  dsimp only
  rw [Nat.mul_zero, Nat.pow_zero, Nat.mul_one, Nat.zero_add, Nat.zero_add]
  rfl

theorem readViLoop_reads {width left : ℕ} (hw : width = 32 ∨ width = 64) (hleft : Stream.lebMaxLen width = left + 1)
    {v : ℤ} {w : Str} (h : Leb128.Signed width v w) :
    ReadsValue (fun st => Stream.readViLoop width st (Stream.lebMaxLen width) 0 0) (pattern width v) w := by
  intro st rest hst
  have hdecode : Leb128.decodeSigned width (st.s.drop st.p) = some (v, w.length) := by
    rw [← left_eq, hst]
    exact Leb128.decodeSigned_of h rest
  have hloop : Stream.readViLoop width st (left + 1) 0 0 =
      afterVi width st 0 0 (Leb128.decodeSigned (width - 7 * 0) (st.s.drop (st.p + 0))) :=
    readViLoop_decodes st hw (by decide) (by omega)
  rw [Nat.mul_zero, Nat.sub_zero, Nat.add_zero st.p, hdecode] at hloop
  have hv : ((0 : ℕ) : ℤ) + v * 2 ^ (7 * 0) = v := by
    rw [Nat.mul_zero, pow_zero]
    push_cast
    ring
  dsimp only
  rw [hleft, hloop]
  unfold afterVi
  dsimp only
  rw [hv, Nat.zero_add]
  rfl

theorem readFixed_reads {n : ℕ} {w : Str} (h : w.length = n) :
    ReadsValue (Stream.readFixed n) (Stream.leBytes w) w := by
  subst h
  intro st rest hleft
  have hlen : st.s.length - st.p = w.length + rest.length := by
    rw [← List.length_drop, ← left_eq, hleft, List.length_append]
  unfold Stream.readFixed Stream.remaining
  rw [if_neg (by omega), ← left_eq, hleft, List.take_left]
  rfl

theorem slice_reads {w : Str} (h : w ≠ []) : ReadsValue (fun st => st.slice w.length) (Stream.from_ w) w := by
  intro st rest hleft
  have hlen : st.s.length - st.p = w.length + rest.length := by
    rw [← List.length_drop, ← left_eq, hleft, List.length_append]
  have hpos : 0 < w.length := List.length_pos_of_ne_nil h
  dsimp only
  unfold Stream.slice Stream.remaining
  rw [if_neg (by omega), if_neg (by omega), ← left_eq, hleft, List.take_left]
  rfl

/-! ### Names -/

theorem isCont_ofNat (n : ℕ) : isCont (UInt8.ofNat (n % 0x40 + 0x80)) = true := by
  have key : ∀ i : Fin 0x40, isCont (UInt8.ofNat (i.val + 0x80)) = true := by decide
  exact key ⟨n % 0x40, Nat.mod_lt _ (by decide)⟩

theorem toNat_ofNat_small {n : ℕ} (h : n < 256) : (UInt8.ofNat n).toNat = n := by
  rw [UInt8.toNat_ofNat', Nat.mod_eq_of_lt h]

theorem byte_check_lt {a b : ℕ} {x y : UInt8} (ha : a < 256) (hb : b < 256) (h : a = x.toNat → y.toNat ≤ b) :
    (UInt8.ofNat a == x && decide (UInt8.ofNat b < y)) = false := by
  rw [Bool.eq_false_iff]
  intro hboth
  rw [Bool.and_eq_true, beq_iff_eq, decide_eq_true_eq, UInt8.lt_iff_toNat_lt, toNat_ofNat_small hb] at hboth
  have hx : a = x.toNat := by rw [← hboth.1, toNat_ofNat_small ha]
  have hy := h hx
  omega

theorem byte_check_ge {a b : ℕ} {x y : UInt8} (ha : a < 256) (hb : b < 256) (h : a = x.toNat → b < y.toNat) :
    (UInt8.ofNat a == x && decide (UInt8.ofNat b ≥ y)) = false := by
  rw [Bool.eq_false_iff]
  intro hboth
  rw [Bool.and_eq_true, beq_iff_eq, decide_eq_true_eq, ge_iff_le, UInt8.le_iff_toNat_le, toNat_ofNat_small hb] at hboth
  have hx : a = x.toNat := by rw [← hboth.1, toNat_ofNat_small ha]
  have hy := h hx
  omega

/-- The encoding of a code point passes the checks of its length. -/
theorem isValidUtf8_encode (c : Char) (rest : Str) :
    isValidUtf8 (String.utf8EncodeChar c ++ rest) = isValidUtf8 rest := by
  have hvalid : c.val.toNat < 0xd800 ∨ 0xdfff < c.val.toNat ∧ c.val.toNat < 0x110000 := c.valid
  unfold String.utf8EncodeChar
  dsimp only
  generalize c.val.toNat = v at hvalid
  split_ifs with h1 h2 h3
  · have hlen : utf8Length (UInt8.ofNat v).toNat = 1 := by
      rw [toNat_ofNat_small (by omega)]
      unfold utf8Length
      rw [if_pos (by omega)]
    simp only [List.cons_append, List.nil_append, isValidUtf8, hlen]
  · have hlen : utf8Length (UInt8.ofNat (v / 64 % 0x20 + 0xc0)).toNat = 2 := by
      rw [toNat_ofNat_small (by omega)]
      unfold utf8Length
      rw [if_neg (by omega), if_neg (by omega), if_pos (by omega)]
    simp only [List.cons_append, List.nil_append, isValidUtf8, hlen, isCont_ofNat, Bool.true_and]
  · have hlen : utf8Length (UInt8.ofNat (v / 4096 % 0x10 + 0xe0)).toNat = 3 := by
      rw [toNat_ofNat_small (by omega)]
      unfold utf8Length
      rw [if_neg (by omega), if_neg (by omega), if_neg (by omega), if_pos (by omega)]
    have hfirst :
        (UInt8.ofNat (v / 4096 % 0x10 + 0xe0) == 0xe0 && UInt8.ofNat (v / 64 % 0x40 + 0x80) < 0xa0) = false := by
      refine byte_check_lt (by omega) (by omega) fun h => ?_
      change 0xa0 ≤ _
      change _ = 0xe0 at h
      omega
    have hsurrogate :
        (UInt8.ofNat (v / 4096 % 0x10 + 0xe0) == 0xed && UInt8.ofNat (v / 64 % 0x40 + 0x80) ≥ 0xa0) = false := by
      refine byte_check_ge (by omega) (by omega) fun h => ?_
      change _ < 0xa0
      change _ = 0xed at h
      omega
    simp only [List.cons_append, List.nil_append, isValidUtf8, hlen, isCont_ofNat, hfirst, hsurrogate]
    simp
  · have hlen : utf8Length (UInt8.ofNat (v / 262144 % 0x08 + 0xf0)).toNat = 4 := by
      rw [toNat_ofNat_small (by omega)]
      unfold utf8Length
      rw [if_neg (by omega), if_neg (by omega), if_neg (by omega), if_neg (by omega), if_pos (by omega)]
    have hfirst :
        (UInt8.ofNat (v / 262144 % 0x08 + 0xf0) == 0xf0 && UInt8.ofNat (v / 4096 % 0x40 + 0x80) < 0x90) = false := by
      refine byte_check_lt (by omega) (by omega) fun h => ?_
      change 0x90 ≤ _
      change _ = 0xf0 at h
      omega
    have hlast :
        (UInt8.ofNat (v / 262144 % 0x08 + 0xf0) == 0xf4 && UInt8.ofNat (v / 4096 % 0x40 + 0x80) ≥ 0x90) = false := by
      refine byte_check_ge (by omega) (by omega) fun h => ?_
      change _ < 0x90
      change _ = 0xf4 at h
      omega
    simp only [List.cons_append, List.nil_append, isValidUtf8, hlen, isCont_ofNat, hfirst, hlast]
    simp

theorem isValidUtf8_utf8 (name : Binary.Name) : isValidUtf8 name.utf8 = true := by
  induction name with
  | nil => rfl
  | cons c name ih =>
    unfold Binary.Name.utf8 at ih ⊢
    rw [List.flatMap_cons, isValidUtf8_encode]
    exact ih

theorem parseName_reads {name : Binary.Name} {w : Str} (h : Binary.Bytes name.utf8 w) :
    ReadsValue parseName name.utf8 w := by
  cases h with
  | @mk l count =>
    unfold parseName
    refine (readVu32_reads count).bind ?_
    dsimp only
    by_cases hempty : name.utf8 = []
    · have hlen : name.utf8.length = 0 := List.length_eq_zero_iff.mpr hempty
      refine Reads.then_ hlen ?_
      rw [hempty]
      exact Reads.pure fun st : Stream => (([] : Str), st)
    · refine Reads.else_ (mt List.eq_nil_of_length_eq_zero hempty) ?_
      refine (slice_reads hempty).result fun st => ?_
      change (if (!isValidUtf8 name.utf8) = true then _ else Except.ok (name.utf8, st)) = _
      rw [isValidUtf8_utf8, Bool.not_true, if_neg Bool.false_ne_true]

/-! ### Types and limits -/

namespace Binary

def RefType.typeId : RefType → TypeId
  | .funcref => .funcref
  | .externref => .externref

def ValType.typeId : ValType → TypeId
  | .i32 => .i32
  | .i64 => .i64
  | .f32 => .f32
  | .f64 => .f64
  | .v128 => .v128
  | .ref t => t.typeId

/-- Only the bytes of the types are recorded. -/
def FuncType.recorded (t : FuncType) : Silverfir.FuncType :=
  ⟨t.params.length, t.results.length, t.params.map ValType.byte, t.results.map ValType.byte⟩

/-- Where there is no maximum, the cap is recorded. -/
def Limits.recorded (cap : ℕ) (l : Limits) : Silverfir.Limits := ⟨l.min, l.max.getD cap⟩

theorem RefType.byte_small (t : RefType) : t.byte.toNat < 0x80 := by cases t <;> decide

theorem ValType.byte_small (t : ValType) : t.byte.toNat < 0x80 := by
  cases t with
  | ref t => exact t.byte_small
  | _ => decide

end Binary

theorem readType_reads {ok : TypeId → Bool} {msg : String} {t : TypeId} {b : UInt8} (hb : b.toNat < 0x80)
    (hcode : Stream.i7Value b.toNat = t.code) (hok : ok t = true) : ReadsValue (readType ok msg) t [b] := by
  unfold readType
  refine (readVi7_reads hb).result fun st => ?_
  dsimp only
  rw [hcode, TypeId.ofI8?_code]
  exact if_pos hok

theorem readRefType_reads (msg : String) (t : Binary.RefType) :
    ReadsValue (readType TypeId.isRef msg) t.typeId [t.byte] :=
  readType_reads t.byte_small (by cases t <;> decide) (by cases t <;> rfl)

theorem readValType_reads (msg : String) (t : Binary.ValType) :
    ReadsValue (readType TypeId.isValueType msg) t.typeId [t.byte] := by
  have href : ∀ t : Binary.RefType, Stream.i7Value t.byte.toNat = t.typeId.code ∧ t.typeId.isValueType = true := by
    intro t
    cases t <;> decide
  refine readType_reads t.byte_small ?_ ?_
  · cases t with
    | ref t => exact (href t).1
    | _ => decide
  · cases t with
    | ref t => exact (href t).2
    | _ => rfl

theorem parseMax_reads {cap max : ℕ} {w : Str} (h : Binary.U32 max w) (hmax : max ≤ cap) :
    ReadsValue (parseMax cap 0x1) max w := by
  unfold parseMax
  refine Reads.then_ rfl ?_
  exact (readVu32_reads h).result fun st => if_pos hmax

theorem parseLimits_reads {cap : ℕ} {l : Binary.Limits} {w : Str} (h : l.Encodes w) (hl : l.Within cap) :
    ReadsValue (parseLimits cap) (l.recorded cap) w := by
  unfold parseLimits
  cases h with
  | @open_ min v hmin =>
    refine (readU8_reads 0x00).bind ?_
    refine Reads.else_ (by decide) ?_
    refine (readVu32_reads hmin).result fun st => ?_
    exact if_neg (Nat.not_lt.mpr hl.1)
  | @closed min max v w hmin hmax =>
    refine (readU8_reads 0x01).bind ?_
    refine Reads.else_ (by decide) ?_
    refine (readVu32_reads hmin).bind ?_
    refine (parseMax_reads hmax hl.2).result fun st => ?_
    exact if_neg (Nat.not_lt.mpr hl.1)

theorem parseTableType_reads (msg : String) {t : Binary.TableType} {w : Str} (h : t.Encodes w)
    (hl : t.limits.Within u32Max) :
    Reads (parseTableType msg) (fun st => (t.type.typeId, t.limits.recorded u32Max, st)) w := by
  unfold parseTableType
  cases h with
  | @mk type limits v hlimits =>
    refine (readRefType_reads msg type).bind ?_
    exact (parseLimits_reads hlimits hl).result fun st => rfl

theorem parseGlobalType_reads (msg mutMsg : String) {t : Binary.GlobalType} {w : Str} (h : t.Encodes w) :
    Reads (parseGlobalType msg mutMsg) (fun st => (t.type.typeId, t.isMut, st)) w := by
  unfold parseGlobalType
  cases h with
  | @const type =>
    refine (readValType_reads msg type).bind ?_
    exact (readU8_reads 0x00).result fun st => rfl
  | @var type =>
    refine (readValType_reads msg type).bind ?_
    exact (readU8_reads 0x01).result fun st => rfl

theorem checkTypes_reads {ts : List Binary.ValType} {w : Str} (h : Items (fun t w => w = [t.byte]) ts w) :
    Reads (checkTypes ts.length) id w ∧ w = ts.map Binary.ValType.byte := by
  induction h with
  | nil => exact ⟨Reads.pure id, rfl⟩
  | @cons t ts w ws head tail ih =>
    obtain ⟨hreads, hws⟩ := ih
    constructor
    · rw [List.length_cons, head]
      change Reads (fun st => checkTypes (ts.length + 1) st) id _
      unfold checkTypes
      refine (readValType_reads _ t).bind ?_
      exact hreads
    · rw [head, hws]
      rfl

theorem parseResultType_reads (msg : String) {ts : List Binary.ValType} {w : Str}
    (h : Binary.Vector (fun t w => w = [t.byte]) ts w) (hcount : ts.length ≤ resultTypeCountMax) :
    Reads (parseResultType msg) (fun st => (ts.length, ts.map Binary.ValType.byte, st)) w := by
  unfold parseResultType
  cases h with
  | @mk l ws count items =>
    obtain ⟨hreads, hws⟩ := checkTypes_reads items
    refine (readVu32_reads count).bind ?_
    dsimp only
    refine Reads.else_ (Nat.not_lt.mpr hcount) ?_
    intro st rest hleft
    have hlen : ts.length = ws.length := by rw [hws, List.length_map]
    dsimp only
    rw [hreads st rest hleft, ok_bind, ← left_eq, hleft, hlen, List.take_left, hws]
    rfl

theorem parseFuncType_reads {t : Binary.FuncType} {w : Str} (h : t.Encodes w)
    (hparams : t.params.length ≤ resultTypeCountMax) (hresults : t.results.length ≤ resultTypeCountMax) :
    ReadsValue parseFuncType t.recorded w := by
  unfold parseFuncType
  cases h with
  | @mk params results v w hv hw =>
    refine (readVu7_reads (b := 0x60) (by decide)).bind ?_
    refine Reads.else_ (by decide) ?_
    refine (parseResultType_reads _ hv hparams).bind ?_
    exact (parseResultType_reads _ hw hresults).result fun st => rfl

/-! ### Constant expressions -/

/-- An instruction is an opcode other than `end` and an immediate that is passed over. -/
theorem skipImm_reads {i : Binary.ConstInstr} {w : Str} (h : i.Encodes w) :
    ∃ b v op, w = [b] ++ v ∧ WasmOpcode.ofByte? b.toNat = some op ∧ op ≠ .end_ ∧ Reads (skipImm op) id v := by
  have hmap : ∀ {α : Type} {p : Stream → R (α × Stream)} {x : α} {v : Str}, ReadsValue p x v →
      Reads (fun st => (p st).map (·.2)) id v := by
    intro α p x v hp st rest hleft
    dsimp only
    rw [hp st rest hleft]
    rfl
  cases h with
  | i32Const hv => exact ⟨_, _, .i32Const, rfl, by decide, by decide, hmap (readViLoop_reads (Or.inl rfl) rfl hv)⟩
  | i64Const hv => exact ⟨_, _, .i64Const, rfl, by decide, by decide, hmap (readViLoop_reads (Or.inr rfl) rfl hv)⟩
  | f32Const hbits =>
    refine ⟨_, _, .f32Const, rfl, by decide, by decide, hmap (readFixed_reads ?_)⟩
    rw [hbits, List.length_map, List.length_range]
  | f64Const hbits =>
    refine ⟨_, _, .f64Const, rfl, by decide, by decide, hmap (readFixed_reads ?_)⟩
    rw [hbits, List.length_map, List.length_range]
  | @refNull t => exact ⟨_, _, .refNull, rfl, by decide, by decide, hmap (readVi7_reads t.byte_small)⟩
  | refFunc hidx => exact ⟨_, _, .refFunc, rfl, by decide, by decide, hmap (readVu32_reads hidx)⟩
  | globalGet hidx => exact ⟨_, _, .globalGet, rfl, by decide, by decide, hmap (readVu32_reads hidx)⟩

theorem skipConstExpr_succ {n : ℕ} {b : UInt8} {op : WasmOpcode} {st : Stream} {rest : Str}
    (hleft : Cursor.left st = b :: rest) (hop : WasmOpcode.ofByte? b.toNat = some op) (hne : op ≠ .end_) :
    skipConstExpr (n + 1) st = skipImm op (st.advance 1) >>= skipConstExpr n := by
  have hread : st.readU8 = .ok (b.toNat, st.advance 1) := readU8_reads b st rest hleft
  rw [skipConstExpr, hread, ok_bind]
  dsimp only
  rw [hop]
  split
  · next heq =>
    cases heq
    exact absurd rfl hne
  · next heq =>
    cases heq
    rfl
  · next heq => cases heq

theorem skipConstExpr_end {n : ℕ} {st : Stream} {rest : Str} (hleft : Cursor.left st = 0x0B :: rest) :
    skipConstExpr (n + 1) st = .ok (st.advance 1) := by
  have hread : st.readU8 = .ok (0x0B, st.advance 1) := readU8_reads 0x0B st rest hleft
  have hop : WasmOpcode.ofByte? 0x0B = some .end_ := by decide
  rw [skipConstExpr, hread, ok_bind]
  dsimp only
  rw [hop]

/-- One round for each instruction and one for `end`. -/
theorem skipConstExpr_reads {instrs : List Binary.ConstInstr} {w : Str} (h : Items Binary.ConstInstr.Encodes instrs w)
    {n : ℕ} (hn : instrs.length < n) : Reads (skipConstExpr n) id (w ++ [0x0B]) := by
  induction h generalizing n with
  | nil =>
    obtain ⟨n, rfl⟩ := Nat.exists_eq_add_of_lt hn
    intro st rest hleft
    exact skipConstExpr_end hleft
  | @cons i instrs v ws head tail ih =>
    obtain ⟨b, v, op, rfl, hop, hne, hskip⟩ := skipImm_reads head
    cases n with
    | zero => exact absurd hn (Nat.not_lt_zero _)
    | succ n =>
      have hrest := ih (Nat.lt_of_succ_lt_succ hn)
      have hboth := hskip.bind hrest
      intro st rest hleft
      rw [List.append_assoc, List.append_assoc, List.append_assoc, List.singleton_append] at hleft
      have hadvance : Cursor.left (st.advance 1) = v ++ (ws ++ [0x0B]) ++ rest := by
        have hdrop : Cursor.left (st.advance 1) = (Cursor.left st).drop 1 := Cursor.left_advance st 1
        rw [hdrop, hleft, List.drop_one, List.tail_cons, List.append_assoc, List.append_assoc]
      have hnext := hboth _ _ hadvance
      rw [skipConstExpr_succ hleft hop hne]
      dsimp only at hnext
      rw [hnext]
      have hlen : ([b] ++ v ++ ws ++ [0x0B]).length = 1 + (v ++ (ws ++ [0x0B])).length := by
        simp only [List.length_append, List.length_cons, List.length_nil]
        omega
      rw [hlen]
      exact congrArg Except.ok (Cursor.advance_advance st 1 _)

theorem parseConstExpr_reads (e : Binary.ConstExpr) : ReadsValue parseConstExpr e.code e.code := by
  obtain ⟨w, hitems, hcode⟩ := e.encodes
  have hinstrs : 1 * e.instrs.length ≤ w.length := by
    refine hitems.length_le fun i v hv => ?_
    obtain ⟨b, v, op, rfl, -⟩ := skipImm_reads hv
    rw [List.length_append, List.length_singleton]
    omega
  intro st rest hleft
  have hremaining : st.remaining = e.code.length + rest.length := by
    unfold Stream.remaining
    rw [← List.length_drop, ← left_eq, hleft, List.length_append]
  have hlen : e.code.length = w.length + 1 := by rw [hcode, List.length_append, List.length_singleton]
  have hskip := skipConstExpr_reads hitems (n := st.remaining + 1) (by omega)
  rw [← hcode] at hskip
  unfold parseConstExpr
  rw [hskip st rest hleft, ok_bind]
  have hmoved : (id (Cursor.advance st e.code.length)).p - st.p = e.code.length := Nat.add_sub_cancel_left _ _
  rw [hmoved, ← left_eq, hleft, List.take_left]
  rfl

end Silverfir
