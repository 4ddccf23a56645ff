import Silverfir.Wasi

/-! Which calls of the WASI host functions stay inside memory 0 of their caller. -/
namespace Silverfir.Wasi

variable {e : Env} {ctx : TrCtx} {α β : Type}

/-! ### Offsets -/

theorem size_toInt (x : BitVec 32) : (size x).toInt = x.toInt := BitVec.toInt_signExtend_of_le (by decide)

theorem toInt_bounds (x : BitVec 32) : -2 ^ 31 ≤ x.toInt ∧ x.toInt < 2 ^ 31 := by
  have hlo := BitVec.le_toInt x
  have hhi := BitVec.toInt_lt (x := x)
  simp only [Nat.add_one_sub_one] at hlo hhi
  exact ⟨hlo, hhi⟩

theorem toInt_nonneg (x : BitVec 32) : 0 ≤ x.toInt ↔ x.toNat < 2 ^ 31 := by
  rw [BitVec.toInt_eq_toNat_cond]
  have := x.isLt
  split <;> omega

theorem toInt_small {x : BitVec 32} (h : x.toNat < 2 ^ 31) : x.toInt = x.toNat := by
  rw [BitVec.toInt_eq_toNat_cond, if_pos (by omega)]

/-- Adding to an offset that is not near the end of the address space. -/
theorem offset_add {offset : BitVec 64} {k : ℕ} (hlo : -2 ^ 62 ≤ offset.toInt) (hhi : offset.toInt + k < 2 ^ 62) :
    (offset + BitVec.ofNat 64 k).toInt = offset.toInt + k := by
  have hk : (BitVec.ofNat 64 k).toInt = k := by
    rw [BitVec.toInt_ofNat', Int.bmod_eq_of_le] <;> omega
  rw [BitVec.toInt_add, hk, Int.bmod_eq_of_le]
  · omega
  · omega

/-! ### What a call has to stay inside -/

/-- The bytes of a span are bytes of memory 0. -/
def TrCtx.Owns (ctx : TrCtx) (s : Span) : Prop :=
  ∀ k < s.len, ∃ m, ctx.mem0 = some m ∧ 0 ≤ s.start + k ∧ s.start + k < m.length

/-- An error code or an error, and nothing touched. -/
def Refused (c : Call Errno) : Prop :=
  (∀ t ∈ c.log, t.span.len = 0) ∧ ((∃ err, err ≠ esuccess ∧ c.ending = .ok err) ∨
    ∃ t msg, c.ending = .error (.err t msg))

def TrCtx.Sandboxed (ctx : TrCtx) (c : Call Errno) : Prop :=
  ((∀ t ∈ c.log, ctx.Owns t.span) ∧ ∀ what, c.ending ≠ .error (.undefined what)) ∨ Refused c

/-- The first half of `Sandboxed` for any part of a call. -/
def TrCtx.Stays (ctx : TrCtx) {α : Type} (c : Call α) : Prop :=
  Access.Safe (fun t => ctx.Owns t.span) (fun f => ∃ t msg, f = .err t msg) c

theorem owns_of_len {s : Span} (h : s.len = 0) : ctx.Owns s := by
  intro k hk
  omega

theorem sandboxed_iff {c : Call Errno} : ctx.Sandboxed c ↔ ctx.Stays c := by
  constructor
  · rintro (⟨hlog, hend⟩ | ⟨hlog, hend⟩)
    · refine ⟨hlog, fun f hf => ?_⟩
      cases f with
      | err t msg => exact ⟨t, msg, rfl⟩
      | undefined what => exact absurd hf (hend what)
    · refine ⟨fun t ht => ?_, fun f hf => ?_⟩
      · exact owns_of_len (hlog t ht)
      · obtain ⟨err, -, hok⟩ | ⟨t, msg, herr⟩ := hend
        · rw [hok] at hf
          cases hf
        · rw [herr] at hf
          cases hf
          exact ⟨t, msg, rfl⟩
  · rintro ⟨hlog, hend⟩
    refine Or.inl ⟨hlog, fun what hw => ?_⟩
    obtain ⟨t, msg, h⟩ := hend _ hw
    cases h

/-- `len` bytes from the unsigned offset `p` on. The wrappers read offsets as signed, so those from
`2 ^ 31` on are out of the question. -/
def TrCtx.Holds (ctx : TrCtx) (p : BitVec 32) (len : ℕ) : Prop :=
  ∃ m, ctx.mem0 = some m ∧ (len = 0 ∨ p.toNat < 2 ^ 31 ∧ p.toNat + len ≤ m.length)

theorem owns_iff {m : List UInt8} (hm : ctx.mem0 = some m) {s : Span} :
    ctx.Owns s ↔ s.Inside m.length := by
  refine forall₂_congr fun k _ => ?_
  rw [hm]
  exact ⟨fun ⟨m', hm', h⟩ => by cases hm'; exact h, fun h => ⟨m, rfl, h⟩⟩

theorem inside_toInt {p : BitVec 32} {n len : ℕ} :
    (⟨p.toInt, len⟩ : Span).Inside n ↔ len = 0 ∨ p.toNat < 2 ^ 31 ∧ p.toNat + len ≤ n := by
  rw [Span.inside_iff, toInt_nonneg]
  refine or_congr_right (and_congr_right fun h => ?_)
  change p.toInt + len ≤ n ↔ _
  rw [toInt_small h]
  omega

theorem holds_iff {p : BitVec 32} {len : ℕ} :
    ctx.Holds p len ↔ (∃ m, ctx.mem0 = some m) ∧ ctx.Owns ⟨p.toInt, len⟩ := by
  constructor
  · rintro ⟨m, hm, h⟩
    exact ⟨⟨m, hm⟩, (owns_iff hm).mpr (inside_toInt.mpr h)⟩
  · rintro ⟨⟨m, hm⟩, h⟩
    exact ⟨m, hm, inside_toInt.mp ((owns_iff hm).mp h)⟩

/-! ### One rule for each piece of a wrapper -/

@[simp] theorem stays_pure {α : Type} (a : α) : ctx.Stays (pure a : Call α) := Access.safe_pure a

theorem stays_err (t : ErrType) (msg : String) : ctx.Stays (Access.stop (.err t msg) : Call Errno) :=
  (Access.safe_stop _).mpr ⟨t, msg, rfl⟩

theorem stays_bind_ok {c : Call α} {a : α} (h : c.ending = .ok a) {f : α → Call β} :
    ctx.Stays (c >>= f) ↔ ctx.Stays c ∧ ctx.Stays (f a) := by
  rw [TrCtx.Stays, Access.safe_bind]
  exact and_congr_right fun _ => ⟨fun hf => hf a h, fun hf b hb => by cases h.symm.trans hb; exact hf⟩

theorem stays_pmem0 {α : Type} (f : List UInt8 → Call α) :
    ctx.Stays (ctx.pmem0 >>= f) ↔ ∃ m, ctx.mem0 = some m ∧ ctx.Stays (f m) := by
  unfold TrCtx.Stays TrCtx.pmem0
  cases hm : ctx.mem0 with
  | none => simp
  | some m => simp

/-- What the library has answered, and the result, are no memory. -/
theorem stays_answer {err : Errno} {f : Unit → Call α} :
    ctx.Stays (Access.touch (.answer err) >>= f) ↔ ctx.Stays (f ()) := by
  rw [TrCtx.Stays, Access.safe_touch_bind]
  exact and_iff_right (owns_of_len rfl)

theorem stays_finish (err : Errno) : ctx.Stays (finish err) := by
  rw [finish, TrCtx.Stays, Access.safe_touch_bind]
  exact ⟨owns_of_len rfl, stays_pure err⟩

theorem stays_checkErr {err : Errno} {rest : Call Errno} :
    ctx.Stays (checkErr err rest) ↔ (err = esuccess → ctx.Stays rest) := by
  rw [checkErr]
  split
  · next h => exact ⟨fun _ he => absurd he h, fun _ => stays_finish err⟩
  · next h => exact ⟨fun hs _ => hs, fun hs => hs (not_not.mp h)⟩

theorem stays_report (err : Errno) : ctx.Stays (report err) := by
  rw [report, stays_answer, stays_checkErr]
  intro _
  exact stays_finish esuccess

theorem stays_hand {α : Type} (spans : List Span) (f : Unit → Call α) :
    ctx.Stays (hand ctx spans >>= f) ↔
      (∃ m, ctx.mem0 = some m) ∧ (∀ s ∈ spans, ctx.Owns s) ∧ ctx.Stays (f ()) := by
  have hend : ∀ s : Span, (Access.touch (.buffer s) : Call Unit).ending = .ok () := fun _ => rfl
  have heach : ctx.Stays (Access.each (fun s => Access.touch (.buffer s)) spans : Call Unit) ↔
      ∀ s ∈ spans, ctx.Owns s := by
    rw [TrCtx.Stays, Access.safe_each hend]
    exact forall₂_congr fun s _ => Access.safe_touch _
  have hbind : ctx.Stays (hand ctx spans >>= f) ↔
      ctx.Stays (hand ctx spans) ∧ ∀ a, (hand ctx spans).ending = .ok a → ctx.Stays (f a) := Access.safe_bind _ _
  rw [hbind, hand, stays_pmem0]
  constructor
  · rintro ⟨⟨m, hm, hs⟩, hf⟩
    refine ⟨⟨m, hm⟩, heach.mp hs, hf () ?_⟩
    rw [TrCtx.pmem0, hm]
    exact Access.each_ending hend spans
  · rintro ⟨⟨m, hm⟩, hs, hf⟩
    exact ⟨⟨m, hm, heach.mpr hs⟩, fun _ _ => hf⟩

theorem stays_storing {α : Type} {err : Errno} {out : α} {write : α → Call Unit} {last : Call Errno}
    (hlast : ctx.Stays last) :
    ctx.Stays (storing ctx err out write last) ↔
      (err = esuccess → (∃ m, ctx.mem0 = some m) ∧ ctx.Stays (write out)) := by
  rw [storing, stays_checkErr]
  refine imp_congr_right fun _ => ?_
  rw [stays_pmem0]
  have hrest : ctx.Stays (write out >>= fun _ => last) ↔ ctx.Stays (write out) := by
    rw [TrCtx.Stays, Access.safe_bind]
    exact ⟨And.left, fun h => ⟨h, fun _ _ => hlast⟩⟩
  rw [hrest]
  exact ⟨fun ⟨m, hm, h⟩ => ⟨⟨m, hm⟩, h⟩, fun ⟨⟨m, hm⟩, h⟩ => ⟨m, hm, h⟩⟩

theorem stays_store {α : Type} {answer : Errno × α} {write : α → Call Unit} :
    ctx.Stays (store ctx answer write) ↔
      (answer.1 = esuccess → (∃ m, ctx.mem0 = some m) ∧ ctx.Stays (write answer.2)) := by
  rw [store, stays_answer, stays_storing (stays_finish esuccess)]

theorem stays_serdesWrite {width value : ℕ} {offset : BitVec 64} :
    ctx.Stays (serdesWrite width offset value) ↔ ctx.Owns ⟨offset.toInt, width⟩ := Access.safe_touch _

theorem stays_write {width value : ℕ} {p : BitVec 32} (hm : ∃ m, ctx.mem0 = some m) :
    ctx.Stays (serdesWrite width (size p) value) ↔ ctx.Holds p width := by
  rw [stays_serdesWrite, size_toInt, holds_iff]
  exact ⟨fun h => ⟨hm, h⟩, And.right⟩

theorem stays_storing_write {err : Errno} {a : α} {last : Call Errno} (hlast : ctx.Stays last) {width : ℕ}
    {p : BitVec 32} {value : α → ℕ} :
    ctx.Stays (storing ctx err a (fun a => serdesWrite width (size p) (value a)) last) ↔
      (err = esuccess → ctx.Holds p width) := by
  rw [stays_storing hlast]
  refine imp_congr_right fun _ => ?_
  exact ⟨fun ⟨hm, h⟩ => (stays_write hm).mp h, fun h => ⟨(holds_iff.mp h).1, (stays_write (holds_iff.mp h).1).mpr h⟩⟩

theorem stays_store_write {answer : Errno × α} {width : ℕ} {p : BitVec 32} {value : α → ℕ} :
    ctx.Stays (store ctx answer fun a => serdesWrite width (size p) (value a)) ↔
      (answer.1 = esuccess → ctx.Holds p width) := by
  rw [store, stays_answer, stays_storing_write (stays_finish esuccess)]

theorem stays_storing_pair {err : Errno} {out : α × β} {last : Call Errno} (hlast : ctx.Stays last) {width : ℕ}
    {p p' : BitVec 32} {value : α → ℕ} {value' : β → ℕ} :
    ctx.Stays (storing ctx err out (fun a => do
        serdesWrite width (size p) (value a.1)
        serdesWrite width (size p') (value' a.2)) last) ↔
      (err = esuccess → ctx.Holds p width ∧ ctx.Holds p' width) := by
  rw [stays_storing hlast]
  refine imp_congr_right fun _ => ?_
  have hpair : ctx.Stays (serdesWrite width (size p) (value out.1) >>= fun _ =>
      serdesWrite width (size p') (value' out.2)) ↔
      ctx.Owns ⟨(size p).toInt, width⟩ ∧ ctx.Stays (serdesWrite width (size p') (value' out.2)) :=
    Access.safe_touch_bind _ _
  rw [hpair, stays_serdesWrite, size_toInt, size_toInt, holds_iff, holds_iff]
  exact ⟨fun ⟨hm, h, h'⟩ => ⟨⟨hm, h⟩, ⟨hm, h'⟩⟩, fun ⟨⟨hm, h⟩, ⟨_, h'⟩⟩ => ⟨hm, h, h'⟩⟩

theorem stays_store_pair {answer : Errno × α × β} {width : ℕ} {p p' : BitVec 32} {value : α → ℕ} {value' : β → ℕ} :
    ctx.Stays (store ctx answer fun a => do
        serdesWrite width (size p) (value a.1)
        serdesWrite width (size p') (value' a.2)) ↔
      (answer.1 = esuccess → ctx.Holds p width ∧ ctx.Holds p' width) := by
  rw [store, stays_answer, stays_storing_pair (stays_finish esuccess)]

/-- A structure whose first field is at 0 and whose last one ends at `n`. -/
structure Covers (fields : List Field) (n : ℕ) : Prop where
  first : ∃ f ∈ fields, f.offset = 0 ∧ 0 < f.width
  last : ∃ f ∈ fields, f.offset + f.width = n ∧ 0 < f.width
  within : ∀ f ∈ fields, f.offset + f.width ≤ n
  small : n < 2 ^ 31

theorem stays_writeStruct {fields : List Field} {n : ℕ} (hc : Covers fields n) {p : BitVec 32}
    (hm : ∃ m, ctx.mem0 = some m) : ctx.Stays (writeStruct (size p) fields) ↔ ctx.Holds p n := by
  obtain ⟨m, hm'⟩ := hm
  have hp := toInt_bounds p
  have hfield : ∀ f ∈ fields, (size p + BitVec.ofNat 64 f.offset).toInt = p.toInt + f.offset := by
    intro f hf
    have := hc.within f hf
    have := hc.small
    rw [offset_add] <;> rw [size_toInt] <;> omega
  have heach : ctx.Stays (writeStruct (size p) fields) ↔
      ∀ f ∈ fields, (⟨p.toInt + f.offset, f.width⟩ : Span).Inside m.length := by
    rw [writeStruct, TrCtx.Stays, Access.safe_each (fun _ => rfl)]
    refine forall₂_congr fun f hf => ?_
    rw [← hfield f hf, ← owns_iff hm']
    exact Access.safe_touch _
  rw [heach, holds_iff, owns_iff hm']
  simp only [Span.inside_iff]
  constructor
  · intro h
    obtain ⟨f, hf, hzero, hpos⟩ := hc.first
    obtain ⟨g, hg, hlast, hpos'⟩ := hc.last
    have hlo := h f hf
    have hhi := h g hg
    refine ⟨⟨m, hm'⟩, Or.inr ?_⟩
    omega
  · rintro ⟨-, h⟩ f hf
    have := hc.within f hf
    omega

theorem stays_store_struct {answer : Errno × α} {fields : α → List Field} {n : ℕ} (hc : ∀ a, Covers (fields a) n)
    {p : BitVec 32} :
    ctx.Stays (store ctx answer fun a => writeStruct (size p) (fields a)) ↔
      (answer.1 = esuccess → ctx.Holds p n) := by
  rw [stays_store]
  refine imp_congr_right fun _ => ?_
  exact ⟨fun ⟨hm, h⟩ => (stays_writeStruct (hc _) hm).mp h,
    fun h => ⟨(holds_iff.mp h).1, (stays_writeStruct (hc _) (holds_iff.mp h).1).mpr h⟩⟩

theorem Fdstat.covers (s : Fdstat) : Covers s.fields 24 := by
  constructor <;> simp [Fdstat.fields]

theorem Filestat.covers (s : Filestat) : Covers s.fields 64 := by
  constructor <;> simp [Filestat.fields]

theorem Prestat.covers (s : Prestat) : Covers s.fields 8 := by
  constructor <;> simp [Prestat.fields]

theorem stays_hand_one {p len : BitVec 32} {f : Unit → Call α} :
    ctx.Stays (hand ctx [range p len] >>= f) ↔ ctx.Holds p len.toNat ∧ ctx.Stays (f ()) := by
  rw [stays_hand, List.forall_mem_singleton, holds_iff, and_assoc]
  rfl

theorem stays_hand_two {p len p' len' : BitVec 32} {f : Unit → Call α} :
    ctx.Stays (hand ctx [range p len, range p' len'] >>= f) ↔
      ctx.Holds p len.toNat ∧ ctx.Holds p' len'.toNat ∧ ctx.Stays (f ()) := by
  rw [stays_hand, List.forall_mem_cons, List.forall_mem_singleton, holds_iff, holds_iff]
  exact ⟨fun ⟨hm, ⟨h, h'⟩, hf⟩ => ⟨⟨hm, h⟩, ⟨hm, h'⟩, hf⟩, fun ⟨⟨hm, h⟩, ⟨_, h'⟩, hf⟩ => ⟨hm, ⟨h, h'⟩, hf⟩⟩

/-! ### Vectors of buffers -/

/-- The vector entry at `pos`. -/
def TrCtx.iov (ctx : TrCtx) (m : List UInt8) (pos : ℤ) : Span :=
  ⟨uint (ctx.byte m) pos 4, uint (ctx.byte m) (pos + 4) 4⟩

/-- The library takes the entry at `pos`. -/
def TrCtx.Accepts (ctx : TrCtx) (m : List UInt8) (pos : ℤ) : Prop :=
  checkBounds (uint (ctx.byte m) pos 4) m.length (uint (ctx.byte m) (pos + 4) 4) = true

instance {m : List UInt8} {pos : ℤ} : Decidable (ctx.Accepts m pos) := inferInstanceAs (Decidable (_ = _))

theorem checkBounds_iff {offset limit len : ℕ} :
    checkBounds offset limit len = true ↔ offset < limit ∧ offset + len ≤ limit := by
  simp only [checkBounds, Bool.and_eq_true, decide_eq_true_eq]
  omega

theorem iov_inside {m : List UInt8} {pos : ℤ} (h : ctx.Accepts m pos) : (ctx.iov m pos).Inside m.length := by
  have hb := checkBounds_iff.mp h
  rw [Span.inside_iff]
  right
  simp only [TrCtx.iov]
  omega

theorem readIovec_eq {m : List UInt8} {offset : BitVec 64} (hlo : -2 ^ 62 ≤ offset.toInt)
    (hhi : offset.toInt + 8 < 2 ^ 62) :
    readIovec ctx m offset =
      ⟨[.read ⟨offset.toInt, 4⟩, .read ⟨offset.toInt + 4, 4⟩],
        .ok (if ctx.Accepts m offset.toInt then esuccess else eoverflow, ctx.iov m offset.toInt)⟩ := by
  have hadd : (offset + 4).toInt = offset.toInt + 4 := offset_add (k := 4) hlo (by omega)
  change (⟨[.read ⟨offset.toInt, 4⟩, .read ⟨(offset + 4).toInt, 4⟩], _⟩ : Call (Errno × Span)) = _
  simp only [TrCtx.Accepts, TrCtx.iov, ← hadd]
  rfl

theorem stays_readIovec {m : List UInt8} (hm : ctx.mem0 = some m) {offset : BitVec 64}
    (hlo : -2 ^ 62 ≤ offset.toInt) (hhi : offset.toInt + 8 < 2 ^ 62) :
    ctx.Stays (readIovec ctx m offset) ↔ (⟨offset.toInt, 8⟩ : Span).Inside m.length := by
  rw [readIovec_eq hlo hhi, Span.inside_mk]
  constructor
  · intro h
    have h₁ := (owns_iff hm).mp (h.touched (.read ⟨offset.toInt, 4⟩) (by simp))
    have h₂ := (owns_iff hm).mp (h.touched (.read ⟨offset.toInt + 4, 4⟩) (by simp))
    simp only [Touch.span, Span.inside_mk] at h₁ h₂
    omega
  · intro h
    refine ⟨?_, fun _ he => by cases he⟩
    simp only [List.forall_mem_cons, Touch.span]
    rw [owns_iff hm, owns_iff hm, Span.inside_mk, Span.inside_mk]
    refine ⟨?_, ?_, fun _ h => absurd h List.not_mem_nil⟩ <;> omega

/-- The entries are read up to the first one that the library does not take. -/
theorem stays_readvIovec {m : List UInt8} (hm : ctx.mem0 = some m) (n : ℕ) (offset : BitVec 64) (iovs : List Span)
    (hlo : -2 ^ 62 ≤ offset.toInt) (hhi : offset.toInt + 8 * n < 2 ^ 62) :
    ctx.Stays (readvIovec ctx m n offset iovs) ↔
      ∀ i < n, (∀ j < i, ctx.Accepts m (offset.toInt + 8 * j)) →
        (⟨offset.toInt + 8 * i, 8⟩ : Span).Inside m.length := by
  induction n generalizing offset iovs with
  | zero => simp [readvIovec]
  | succ n ih =>
    have hadd : (offset + 8).toInt = offset.toInt + 8 := offset_add (k := 8) hlo (by omega)
    have hnext := ih (offset + 8) (iovs ++ [ctx.iov m offset.toInt]) (by omega) (by omega)
    have hbind : ctx.Stays (readvIovec ctx m (n + 1) offset iovs) ↔
        (⟨offset.toInt, 8⟩ : Span).Inside m.length ∧ (ctx.Accepts m offset.toInt →
          ctx.Stays (readvIovec ctx m n (offset + 8) (iovs ++ [ctx.iov m offset.toInt]))) := by
      rw [readvIovec, TrCtx.Stays, Access.safe_bind, ← TrCtx.Stays, stays_readIovec hm hlo (by omega),
        readIovec_eq hlo (by omega)]
      refine and_congr_right fun _ => ?_
      by_cases hacc : ctx.Accepts m offset.toInt
      · simp [hacc, TrCtx.Stays]
      · simp [hacc, esuccess, eoverflow]
    rw [hbind, hnext, hadd]
    constructor
    · rintro ⟨hfirst, hrest⟩ i hi hacc
      cases i with
      | zero => simpa using hfirst
      | succ i =>
        have h := hrest (by simpa using hacc 0 (by omega)) i (by omega) fun j hj => by
          have := hacc (j + 1) (by omega)
          rwa [show offset.toInt + 8 * ((j + 1 : ℕ) : ℤ) = offset.toInt + 8 + 8 * j by omega] at this
        rwa [show offset.toInt + 8 * ((i + 1 : ℕ) : ℤ) = offset.toInt + 8 + 8 * i by omega]
    · intro h
      refine ⟨by simpa using h 0 (by omega) (by simp), fun hacc i hi hrest => ?_⟩
      have := h (i + 1) (by omega) fun j hj => by
        cases j with
        | zero => simpa using hacc
        | succ j =>
          have := hrest j (by omega)
          rwa [show offset.toInt + 8 * ((j + 1 : ℕ) : ℤ) = offset.toInt + 8 + 8 * j by omega]
      rwa [show offset.toInt + 8 * ((i + 1 : ℕ) : ℤ) = offset.toInt + 8 + 8 * i by omega] at this

theorem readvIovec_ending {m : List UInt8} (n : ℕ) (offset : BitVec 64) (iovs : List Span)
    (hlo : -2 ^ 62 ≤ offset.toInt) (hhi : offset.toInt + 8 * n < 2 ^ 62) :
    ((∀ j < n, ctx.Accepts m (offset.toInt + 8 * j)) ∧ (readvIovec ctx m n offset iovs).ending =
        .ok (esuccess, iovs ++ (List.range n).map fun j : ℕ => ctx.iov m (offset.toInt + 8 * j))) ∨
      (¬ (∀ j < n, ctx.Accepts m (offset.toInt + 8 * j)) ∧
        ∃ done, (readvIovec ctx m n offset iovs).ending = .ok (eoverflow, done)) := by
  induction n generalizing offset iovs with
  | zero => exact Or.inl ⟨fun j hj => absurd hj (Nat.not_lt_zero _), by simp [readvIovec]⟩
  | succ n ih =>
    have hadd : (offset + 8).toInt = offset.toInt + 8 := offset_add (k := 8) hlo (by omega)
    have hshift (j : ℕ) : offset.toInt + 8 * ((j + 1 : ℕ) : ℤ) = offset.toInt + 8 + 8 * j := by omega
    by_cases hacc : ctx.Accepts m offset.toInt
    · have hstep : (readvIovec ctx m (n + 1) offset iovs).ending =
          (readvIovec ctx m n (offset + 8) (iovs ++ [ctx.iov m offset.toInt])).ending := by
        rw [readvIovec, readIovec_eq hlo (by omega), if_pos hacc]
        rfl
      have hall : (∀ j < n + 1, ctx.Accepts m (offset.toInt + 8 * j)) ↔
          ∀ j < n, ctx.Accepts m ((offset + 8).toInt + 8 * j) := by
        rw [hadd]
        constructor
        · intro h j hj
          rw [← hshift]
          exact h (j + 1) (by omega)
        · intro h j hj
          cases j with
          | zero => simpa using hacc
          | succ j =>
            rw [hshift]
            exact h j (by omega)
      rw [hall, hstep]
      refine (ih (offset + 8) _ (by omega) (by omega)).imp (fun ⟨h, heq⟩ => ⟨h, ?_⟩) id
      rw [heq, List.range_succ_eq_map, List.map_cons, List.map_map, List.append_assoc, hadd]
      have hiov (j : ℕ) : ctx.iov m (offset.toInt + 8 + 8 * j) = ctx.iov m (offset.toInt + 8 * (j + 1 : ℕ)) := by
        rw [hshift]
      simp [Function.comp_def, hiov]
    · right
      refine ⟨fun h => hacc (by simpa using h 0 (by omega)), iovs, ?_⟩
      rw [readvIovec, readIovec_eq hlo (by omega), if_neg hacc]
      rfl

/-- The entries up to the first one that the library does not take. -/
def TrCtx.HoldsIovs (ctx : TrCtx) (m : List UInt8) (iovs iovsLen : BitVec 32) : Prop :=
  ∀ i < iovsLen.toNat, (∀ j < i, ctx.Accepts m (iovs.toNat + 8 * j)) →
    iovs.toNat < 2 ^ 31 ∧ iovs.toNat + 8 * (i + 1) ≤ m.length

def TrCtx.AcceptsAll (ctx : TrCtx) (m : List UInt8) (iovs iovsLen : BitVec 32) : Prop :=
  ∀ j < iovsLen.toNat, ctx.Accepts m (iovs.toNat + 8 * j)

/-- The buffers of a vector. -/
def TrCtx.iovec (ctx : TrCtx) (m : List UInt8) (iovs iovsLen : BitVec 32) : List Span :=
  (List.range iovsLen.toNat).map fun j : ℕ => ctx.iov m (iovs.toNat + 8 * j)

/-- What `wasi_fd_read` and its kin need, when `call` is what the library answers. -/
def Vectored (e : Env) (ctx : TrCtx) (call : List Span → Errno × BitVec 32) (iovs iovsLen done : BitVec 32) : Prop :=
  e.malloc (16 * size iovsLen).toNat = true → ∃ m, ctx.mem0 = some m ∧ ctx.HoldsIovs m iovs iovsLen ∧
    (ctx.AcceptsAll m iovs iovsLen → (call (ctx.iovec m iovs iovsLen)).1 = esuccess → ctx.Holds done 4)

theorem holdsIovs_iff {m : List UInt8} (hm : ctx.mem0 = some m) {iovs iovsLen : BitVec 32} :
    ctx.Stays (readvIovec ctx m iovsLen.toNat (size iovs) []) ↔ ctx.HoldsIovs m iovs iovsLen := by
  have hp := toInt_bounds iovs
  have hn := iovsLen.isLt
  rw [stays_readvIovec hm _ _ _ (by rw [size_toInt]; omega) (by rw [size_toInt]; omega), size_toInt]
  by_cases hsmall : iovs.toNat < 2 ^ 31
  · rw [toInt_small hsmall]
    refine forall₃_congr fun i _ _ => ?_
    rw [Span.inside_mk]
    omega
  · have hneg : iovs.toInt < 0 := by
      rw [← Int.not_le, toInt_nonneg]
      exact hsmall
    constructor
    · intro h i hi _
      have hfirst := Span.inside_mk.mp (h 0 (by omega) fun j hj => absurd hj (Nat.not_lt_zero j))
      omega
    · intro h i hi _
      exact absurd (h 0 (by omega) fun j hj => absurd hj (Nat.not_lt_zero j)).1 hsmall

theorem stays_vectored (call : List Span → Errno × BitVec 32) {iovs iovsLen done : BitVec 32} :
    ctx.Stays (vectored e ctx call iovs iovsLen done) ↔ Vectored e ctx call iovs iovsLen done := by
  rw [vectored, Vectored]
  split
  · next hoom => exact ⟨fun _ h => absurd (hoom.symm.trans h) Bool.false_ne_true, fun _ => stays_err _ _⟩
  · next hoom =>
    rw [Bool.not_eq_false] at hoom
    rw [stays_pmem0, imp_iff_right hoom]
    refine exists_congr fun m => and_congr_right fun hm => ?_
    have hp := toInt_bounds iovs
    have hn := iovsLen.isLt
    have hending := @readvIovec_ending ctx m iovsLen.toNat (size iovs) []
      (by rw [size_toInt]; omega) (by rw [size_toInt]; omega)
    rw [TrCtx.Stays, Access.safe_bind, ← TrCtx.Stays, holdsIovs_iff hm]
    refine and_congr_right fun hholds => ?_
    have hall : (∀ j < iovsLen.toNat, ctx.Accepts m ((size iovs).toInt + 8 * j)) ↔ ctx.AcceptsAll m iovs iovsLen := by
      refine forall₂_congr fun j hj => ?_
      rw [size_toInt, toInt_small (hholds 0 (by omega) fun k hk => absurd hk (Nat.not_lt_zero k)).1]
    rw [hall] at hending
    obtain ⟨hacc, hok⟩ | ⟨hacc, stopped, hbad⟩ := hending
    · have hspans : (List.range iovsLen.toNat).map (fun j : ℕ => ctx.iov m ((size iovs).toInt + 8 * j)) =
          ctx.iovec m iovs iovsLen := by
        refine List.map_congr_left fun j hj => ?_
        rw [size_toInt, toInt_small (hholds 0 (by have := List.mem_range.mp hj; omega)
          fun k hk => absurd hk (Nat.not_lt_zero k)).1]
      rw [hspans, List.nil_append] at hok
      have hin : ∀ s ∈ ctx.iovec m iovs iovsLen, ctx.Owns s := by
        intro s hs
        obtain ⟨j, hj, rfl⟩ := List.mem_map.mp hs
        exact (owns_iff hm).mpr (iov_inside (hacc j (List.mem_range.mp hj)))
      rw [hok]
      constructor
      · intro h _ hs
        have hrest : ctx.Stays _ := h _ rfl
        dsimp only at hrest
        rw [stays_answer, stays_checkErr, imp_iff_right rfl, stays_hand, stays_store_write] at hrest
        exact hrest.2.2 hs
      · intro h answer ha
        cases ha
        change ctx.Stays _
        dsimp only
        rw [stays_answer, stays_checkErr, imp_iff_right rfl, stays_hand, stays_store_write]
        exact ⟨⟨m, hm⟩, hin, h hacc⟩
    · rw [hbad]
      constructor
      · intro _ h
        exact absurd h hacc
      · intro _ answer ha
        cases ha
        change ctx.Stays _
        dsimp only
        rw [stays_answer, stays_checkErr]
        exact fun h => absurd h (by decide)

/-! ### The argument and environment tables -/

/-- What `wasi_args_get` and `wasi_environ_get` need. -/
def TableGet (e : Env) (ctx : TrCtx) (sizes : Errno × BitVec 32 × BitVec 32)
    (get : Span → Errno × (ℕ → BitVec 32)) (table buf : BitVec 32) : Prop :=
  sizes.1 = esuccess → sizes.2.1 ≠ 0 → e.malloc (8 * sizes.2.1.toNat) = true →
    ctx.Holds buf sizes.2.2.toNat ∧
      ((get (range buf sizes.2.2)).1 = esuccess → ctx.Holds table (4 * sizes.2.1.toNat))

theorem stays_tableGet {sizes : Errno × BitVec 32 × BitVec 32} {get : Span → Errno × (ℕ → BitVec 32)}
    {table buf : BitVec 32} :
    ctx.Stays (tableGet e ctx sizes get table buf) ↔ TableGet e ctx sizes get table buf := by
  obtain ⟨err, count, bufSize⟩ := sizes
  rw [TableGet, tableGet, stays_answer, stays_checkErr]
  refine imp_congr_right fun _ => ?_
  split
  · next hz => exact ⟨fun _ h => absurd hz h, fun _ => stays_finish _⟩
  · next hz =>
    rw [imp_iff_right hz]
    split
    · next hoom => exact ⟨fun _ h => absurd (hoom.symm.trans h) Bool.false_ne_true, fun _ => stays_err _ _⟩
    · next hoom =>
      rw [Bool.not_eq_false] at hoom
      rw [imp_iff_right hoom, stays_hand_one, stays_store]
      refine and_congr_right fun ⟨m, hm, _⟩ => imp_congr_right fun _ => ?_
      have hcount := count.isLt
      have hpos : 0 < count.toNat := Nat.pos_of_ne_zero fun h => hz (BitVec.eq_of_toNat_eq h)
      have hp := toInt_bounds table
      have heach : ctx.Stays (Access.each (fun i => serdesWrite 4 (size table + BitVec.ofNat 64 (4 * i))
            (buf + (get (range buf bufSize)).2 i).toNat) (List.range count.toNat)) ↔
          ∀ i < count.toNat, (⟨table.toInt + 4 * i, 4⟩ : Span).Inside m.length := by
        rw [TrCtx.Stays, Access.safe_each (fun _ => rfl)]
        simp only [List.mem_range]
        refine forall₂_congr fun i hi => ?_
        rw [← TrCtx.Stays, stays_serdesWrite, offset_add (by rw [size_toInt]; omega) (by rw [size_toInt]; omega),
          size_toInt, owns_iff hm]
        push_cast
        rfl
      rw [heach, holds_iff, owns_iff hm, Span.inside_mk]
      simp only [Span.inside_mk]
      constructor
      · rintro ⟨-, h⟩
        have hfirst := h 0 hpos
        have hlast := h (count.toNat - 1) (by omega)
        refine ⟨⟨m, hm⟩, Or.inr ?_⟩
        omega
      · rintro ⟨-, h⟩
        exact ⟨⟨m, hm⟩, fun i hi => by omega⟩

/-! ### Subscriptions and events -/

def TrCtx.field (ctx : TrCtx) (m : List UInt8) (p : BitVec 32) (offset width : ℕ) : ℕ :=
  uint (ctx.byte m) (p.toInt + offset) width

/-- The subscription at `p`. -/
def TrCtx.subscription (ctx : TrCtx) (m : List UInt8) (p : BitVec 32) : Record :=
  let type := ctx.field m p 8 1
  ⟨ctx.field m p 0 8, type,
    if type = eventtypeClock then
      [ctx.field m p 16 4, ctx.field m p 24 8, ctx.field m p 32 8, ctx.field m p 40 2]
    else if type = eventtypeFdRead ∨ type = eventtypeFdWrite then
      [ctx.field m p 16 4]
    else
      []⟩

/-- The event at `p`. -/
def TrCtx.event (ctx : TrCtx) (m : List UInt8) (p : BitVec 32) : Record :=
  let type := ctx.field m p 10 1
  ⟨ctx.field m p 0 8, type,
    if type = eventtypeFdRead ∨ type = eventtypeFdWrite then
      [ctx.field m p 8 2, ctx.field m p 16 8, ctx.field m p 24 2]
    else
      [ctx.field m p 8 2]⟩

/-- The bytes of a subscription that are read: up to its tag, and what the tag asks for. -/
def TrCtx.subscriptionSize (ctx : TrCtx) (m : List UInt8) (p : BitVec 32) : ℕ :=
  if ctx.field m p 8 1 = eventtypeClock then 42
  else if ctx.field m p 8 1 = eventtypeFdRead ∨ ctx.field m p 8 1 = eventtypeFdWrite then 20
  else 9

def TrCtx.eventSize (ctx : TrCtx) (m : List UInt8) (p : BitVec 32) : ℕ :=
  if ctx.field m p 10 1 = eventtypeFdRead ∨ ctx.field m p 10 1 = eventtypeFdWrite then 26 else 11

theorem serdesRead_field {m : List UInt8} {width k : ℕ} (hk : k < 2 ^ 31) {p : BitVec 32} :
    serdesRead ctx m width (size p + BitVec.ofNat 64 k) =
      ⟨[.read ⟨p.toInt + k, width⟩], .ok (ctx.field m p k width)⟩ := by
  have hadd : (size p + BitVec.ofNat 64 k).toInt = p.toInt + k := by
    have hp := toInt_bounds p
    rw [offset_add] <;> rw [size_toInt] <;> omega
  rw [TrCtx.field, ← hadd]
  rfl

theorem stays_field {m : List UInt8} (hm : ctx.mem0 = some m) {width k : ℕ} (hk : k < 2 ^ 31) {p : BitVec 32}
    {f : ℕ → Call α} : ctx.Stays (serdesRead ctx m width (size p + BitVec.ofNat 64 k) >>= f) ↔
      (width = 0 ∨ 0 ≤ p.toInt + k ∧ p.toInt + k + width ≤ m.length) ∧ ctx.Stays (f (ctx.field m p k width)) := by
  rw [TrCtx.Stays, Access.safe_bind, serdesRead_field hk, ← Span.inside_mk, ← owns_iff hm]
  constructor
  · rintro ⟨hread, hf⟩
    exact ⟨hread.touched _ (List.mem_singleton.mpr rfl), hf _ rfl⟩
  · rintro ⟨hread, hf⟩
    refine ⟨⟨fun t ht => ?_, fun _ he => by cases he⟩, fun a ha => ?_⟩
    · rw [List.mem_singleton.mp ht]
      exact hread
    · cases ha
      exact hf

theorem field_ending {m : List UInt8} {width k : ℕ} (hk : k < 2 ^ 31) {p : BitVec 32} {f : ℕ → Call α} :
    (serdesRead ctx m width (size p + BitVec.ofNat 64 k) >>= f).ending = (f (ctx.field m p k width)).ending := by
  rw [serdesRead_field hk]
  rfl

theorem holds_toInt {m : List UInt8} (hm : ctx.mem0 = some m) {p : BitVec 32} {len : ℕ} :
    ctx.Holds p len ↔ len = 0 ∨ 0 ≤ p.toInt ∧ p.toInt + len ≤ m.length := by
  rw [holds_iff, owns_iff hm, Span.inside_mk]
  exact ⟨And.right, fun h => ⟨⟨m, hm⟩, h⟩⟩

/-- The fields of the structures of `wasi_serdes.c` that are read from the guest. -/
theorem readSubscription_eq {m : List UInt8} (p : BitVec 32) :
    readSubscription ctx m (size p) = (do
      let userdata ← serdesRead ctx m 8 (size p + BitVec.ofNat 64 0)
      let type ← serdesRead ctx m 1 (size p + BitVec.ofNat 64 8)
      if type = eventtypeClock then do
        let clockId ← serdesRead ctx m 4 (size p + BitVec.ofNat 64 16)
        let timeout ← serdesRead ctx m 8 (size p + BitVec.ofNat 64 24)
        let precision ← serdesRead ctx m 8 (size p + BitVec.ofNat 64 32)
        let flags ← serdesRead ctx m 2 (size p + BitVec.ofNat 64 40)
        pure ⟨userdata, type, [clockId, timeout, precision, flags]⟩
      else if type = eventtypeFdRead ∨ type = eventtypeFdWrite then do
        let fd ← serdesRead ctx m 4 (size p + BitVec.ofNat 64 16)
        pure ⟨userdata, type, [fd]⟩
      else
        pure ⟨userdata, type, []⟩) := by
  rw [show size p + BitVec.ofNat 64 0 = size p from BitVec.add_zero _]
  rfl

theorem readEvent_eq {m : List UInt8} (p : BitVec 32) :
    readEvent ctx m (size p) = (do
      let userdata ← serdesRead ctx m 8 (size p + BitVec.ofNat 64 0)
      let error ← serdesRead ctx m 2 (size p + BitVec.ofNat 64 8)
      let type ← serdesRead ctx m 1 (size p + BitVec.ofNat 64 10)
      if type = eventtypeFdRead ∨ type = eventtypeFdWrite then do
        let nbytes ← serdesRead ctx m 8 (size p + BitVec.ofNat 64 16)
        let flags ← serdesRead ctx m 2 (size p + BitVec.ofNat 64 24)
        pure ⟨userdata, type, [error, nbytes, flags]⟩
      else
        pure ⟨userdata, type, [error]⟩) := by
  rw [show size p + BitVec.ofNat 64 0 = size p from BitVec.add_zero _]
  rfl

theorem readSubscription_ending {m : List UInt8} (p : BitVec 32) :
    (readSubscription ctx m (size p)).ending = .ok (ctx.subscription m p) := by
  rw [readSubscription_eq, field_ending (by omega), field_ending (by omega), TrCtx.subscription]
  by_cases hclock : ctx.field m p 8 1 = eventtypeClock
  · rw [if_pos hclock, field_ending (by omega), field_ending (by omega), field_ending (by omega),
      field_ending (by omega), if_pos hclock]
    rfl
  · rw [if_neg hclock, if_neg hclock]
    split
    · rw [field_ending (by omega)]
      rfl
    · rfl

theorem readEvent_ending {m : List UInt8} (p : BitVec 32) :
    (readEvent ctx m (size p)).ending = .ok (ctx.event m p) := by
  rw [readEvent_eq, field_ending (by omega), field_ending (by omega), field_ending (by omega), TrCtx.event]
  split
  · rw [field_ending (by omega), field_ending (by omega)]
    rfl
  · rfl

theorem stays_readSubscription {m : List UInt8} (hm : ctx.mem0 = some m) {p : BitVec 32} :
    ctx.Stays (readSubscription ctx m (size p)) ↔ ctx.Holds p (ctx.subscriptionSize m p) := by
  rw [readSubscription_eq, stays_field hm (by omega), stays_field hm (by omega), holds_toInt hm,
    TrCtx.subscriptionSize]
  by_cases hclock : ctx.field m p 8 1 = eventtypeClock
  · rw [if_pos hclock, if_pos hclock, stays_field hm (by omega), stays_field hm (by omega),
      stays_field hm (by omega), stays_field hm (by omega)]
    simp only [stays_pure, and_true]
    omega
  · rw [if_neg hclock, if_neg hclock]
    split
    · rw [stays_field hm (by omega)]
      simp only [stays_pure, and_true]
      omega
    · simp only [stays_pure, and_true]
      omega

theorem stays_readEvent {m : List UInt8} (hm : ctx.mem0 = some m) {p : BitVec 32} :
    ctx.Stays (readEvent ctx m (size p)) ↔ ctx.Holds p (ctx.eventSize m p) := by
  rw [readEvent_eq, stays_field hm (by omega), stays_field hm (by omega), stays_field hm (by omega), holds_toInt hm,
    TrCtx.eventSize]
  split
  · rw [stays_field hm (by omega), stays_field hm (by omega)]
    simp only [stays_pure, and_true]
    omega
  · simp only [stays_pure, and_true]
    omega

/-- What `wasi_poll_oneoff` needs. -/
def Polled (e : Env) (ctx : TrCtx) (p out : BitVec 32) (n nevents : BitVec 32) : Prop :=
  ∃ m, ctx.mem0 = some m ∧ ctx.Holds p (ctx.subscriptionSize m p) ∧ ctx.Holds out (ctx.eventSize m out) ∧
    ((e.pollOneoff (ctx.subscription m p) (ctx.event m out) n).1 = esuccess → ctx.Holds nevents 4)

theorem stays_pollOneoff :
    ctx.Stays (pollOneoff e ctx) ↔ Polled e ctx (ctx.i32 0) (ctx.i32 1) (ctx.i32 2) (ctx.i32 3) := by
  rw [pollOneoff, stays_pmem0]
  refine exists_congr fun m => and_congr_right fun hm => ?_
  rw [stays_bind_ok (readSubscription_ending _), stays_readSubscription hm, stays_bind_ok (readEvent_ending _),
    stays_readEvent hm, stays_store_write]

/-! ### The host functions -/

/-- What the arguments of a call have to satisfy. -/
def HostFn.InRange (e : Env) (ctx : TrCtx) : HostFn → Prop
  | argsGet => TableGet e ctx e.argsSizesGet e.argsGet (ctx.i32 0) (ctx.i32 1)
  | argsSizesGet => e.argsSizesGet.1 = esuccess → ctx.Holds (ctx.i32 0) 4 ∧ ctx.Holds (ctx.i32 1) 4
  | clockResGet => (e.clockResGet (ctx.i32 0)).1 = esuccess → ctx.Holds (ctx.i32 1) 8
  | clockTimeGet => (e.clockTimeGet (ctx.i32 0) (ctx.i64 1)).1 = esuccess → ctx.Holds (ctx.i32 2) 8
  | environGet => TableGet e ctx e.environSizesGet e.environGet (ctx.i32 0) (ctx.i32 1)
  | environSizesGet => e.environSizesGet.1 = esuccess → ctx.Holds (ctx.i32 0) 4 ∧ ctx.Holds (ctx.i32 1) 4
  | fdFdstatGet => (e.fdFdstatGet (ctx.i32 0)).1 = esuccess → ctx.Holds (ctx.i32 1) 24
  | fdFilestatGet => (e.fdFilestatGet (ctx.i32 0)).1 = esuccess → ctx.Holds (ctx.i32 1) 64
  | fdPread => Vectored e ctx (fun iovec => e.fdPread (ctx.i32 0) iovec (ctx.i64 3)) (ctx.i32 1) (ctx.i32 2)
      (ctx.i32 4)
  | fdPrestatDirName => ctx.Holds (ctx.i32 1) (ctx.i32 2).toNat
  | fdPrestatGet => (e.fdPrestatGet (ctx.i32 0)).1 = esuccess → ctx.Holds (ctx.i32 1) 8
  | fdPwrite => Vectored e ctx (fun iovec => e.fdPwrite (ctx.i32 0) iovec (ctx.i64 3)) (ctx.i32 1) (ctx.i32 2)
      (ctx.i32 4)
  | fdRead => Vectored e ctx (e.fdRead (ctx.i32 0)) (ctx.i32 1) (ctx.i32 2) (ctx.i32 3)
  | fdReaddir => ctx.Holds (ctx.i32 1) (ctx.i32 2).toNat ∧
      ((e.fdReaddir (ctx.i32 0) (range (ctx.i32 1) (ctx.i32 2)) (ctx.i64 3)).1 = esuccess → ctx.Holds (ctx.i32 4) 4)
  | fdSeek => (e.fdSeek (ctx.i32 0) (ctx.i64 1) ((ctx.i32 2).setWidth 8)).1 = esuccess → ctx.Holds (ctx.i32 3) 8
  | fdTell => (e.fdTell (ctx.i32 0)).1 = esuccess → ctx.Holds (ctx.i32 1) 8
  | fdWrite => Vectored e ctx (e.fdWrite (ctx.i32 0)) (ctx.i32 1) (ctx.i32 2) (ctx.i32 3)
  | pathCreateDirectory | pathRemoveDirectory | pathUnlinkFile => ctx.Holds (ctx.i32 1) (ctx.i32 2).toNat
  | pathFilestatGet => ctx.Holds (ctx.i32 2) (ctx.i32 3).toNat ∧
      ((e.pathFilestatGet (ctx.i32 0) (ctx.i32 1) (range (ctx.i32 2) (ctx.i32 3))).1 = esuccess →
        ctx.Holds (ctx.i32 4) 64)
  | pathFilestatSetTimes => ctx.Holds (ctx.i32 2) (ctx.i32 3).toNat
  | pathLink => ctx.Holds (ctx.i32 2) (ctx.i32 3).toNat ∧ ctx.Holds (ctx.i32 5) (ctx.i32 6).toNat
  | pathOpen => ctx.Holds (ctx.i32 2) (ctx.i32 3).toNat ∧ ctx.Holds (ctx.i32 8) 4
  | pathReadlink => ctx.Holds (ctx.i32 1) (ctx.i32 2).toNat ∧ ctx.Holds (ctx.i32 4) (ctx.i32 3).toNat ∧
      ((e.pathReadlink (ctx.i32 0) (range (ctx.i32 1) (ctx.i32 2)) (range (ctx.i32 4) (ctx.i32 3))).1 = esuccess →
        ctx.Holds (ctx.i32 5) 4)
  | pathRename => ctx.Holds (ctx.i32 1) (ctx.i32 2).toNat ∧ ctx.Holds (ctx.i32 4) (ctx.i32 5).toNat
  | pathSymlink => ctx.Holds (ctx.i32 0) (ctx.i32 1).toNat ∧ ctx.Holds (ctx.i32 3) (ctx.i32 4).toNat
  | pollOneoff => Polled e ctx (ctx.i32 0) (ctx.i32 1) (ctx.i32 2) (ctx.i32 3)
  | randomGet => ctx.Holds (ctx.i32 0) (ctx.i32 1).toNat
  | fdAdvise | fdAllocate | fdClose | fdDatasync | fdFdstatSetFlags | fdFdstatSetRights | fdFilestatSetSize
  | fdFilestatSetTimes | fdRenumber | fdSync | procExit | procRaise | schedYield | sockAccept | sockRecv | sockSend
  | sockShutdown => True

theorem stays_hand_report {p len : BitVec 32} (err : Errno) :
    ctx.Stays (hand ctx [range p len] >>= fun _ => report err) ↔ ctx.Holds p len.toNat := by
  rw [stays_hand_one, and_iff_left (stays_report err)]

theorem stays_hand_report_two {p len p' len' : BitVec 32} (err : Errno) :
    ctx.Stays (hand ctx [range p len, range p' len'] >>= fun _ => report err) ↔
      ctx.Holds p len.toNat ∧ ctx.Holds p' len'.toNat := by
  rw [stays_hand_two, and_iff_left (stays_report err)]

theorem stays_hand_write {p len q : BitVec 32} {answer : Errno × α} {width : ℕ} {value : α → ℕ} :
    ctx.Stays (hand ctx [range p len] >>= fun _ => store ctx answer fun a =>
        serdesWrite width (size q) (value a)) ↔
      ctx.Holds p len.toNat ∧ (answer.1 = esuccess → ctx.Holds q width) := by
  rw [stays_hand_one, stays_store_write]

theorem stays_hand_struct {p len q : BitVec 32} {answer : Errno × α} {fields : α → List Field} {n : ℕ}
    (hc : ∀ a, Covers (fields a) n) :
    ctx.Stays (hand ctx [range p len] >>= fun _ => store ctx answer fun a => writeStruct (size q) (fields a)) ↔
      ctx.Holds p len.toNat ∧ (answer.1 = esuccess → ctx.Holds q n) := by
  rw [stays_hand_one, stays_store_struct hc]

theorem stays_hand_two_write {p len p' len' q : BitVec 32} {answer : Errno × α} {width : ℕ} {value : α → ℕ} :
    ctx.Stays (hand ctx [range p len, range p' len'] >>= fun _ => store ctx answer fun a =>
        serdesWrite width (size q) (value a)) ↔
      ctx.Holds p len.toNat ∧ ctx.Holds p' len'.toNat ∧ (answer.1 = esuccess → ctx.Holds q width) := by
  rw [stays_hand_two, stays_store_write]

/-- The answer of the library is not looked at. -/
theorem stays_pathOpen : ctx.Stays (pathOpen e ctx) ↔
    ctx.Holds (ctx.i32 2) (ctx.i32 3).toNat ∧ ctx.Holds (ctx.i32 8) 4 := by
  rw [pathOpen, stays_hand_one, stays_answer, stays_storing_write (stays_finish esuccess), imp_iff_right rfl]

/-- The wrappers check nothing themselves: a call stays in the sandbox exactly when its pointers
are below `2 ^ 31` and what they point at lies inside memory 0. -/
theorem call_sandboxed (e : Env) (ctx : TrCtx) (f : HostFn) : ctx.Sandboxed (f.call e ctx) ↔ f.InRange e ctx := by
  rw [sandboxed_iff]
  cases f with
  | argsGet => exact stays_tableGet
  | argsSizesGet => exact stays_store_pair
  | clockResGet => exact stays_store_write
  | clockTimeGet => exact stays_store_write
  | environGet => exact stays_tableGet
  | environSizesGet => exact stays_answer.trans (stays_storing_pair (stays_pure 0))
  | fdFdstatGet => exact stays_store_struct Fdstat.covers
  | fdFilestatGet => exact stays_store_struct Filestat.covers
  | fdPread => exact stays_vectored fun iovec => e.fdPread (ctx.i32 0) iovec (ctx.i64 3)
  | fdPrestatDirName => exact stays_hand_report _
  | fdPrestatGet => exact stays_store_struct Prestat.covers
  | fdPwrite => exact stays_vectored fun iovec => e.fdPwrite (ctx.i32 0) iovec (ctx.i64 3)
  | fdRead => exact stays_vectored _
  | fdReaddir => exact stays_hand_write
  | fdSeek => exact stays_store_write
  | fdTell => exact stays_store_write
  | fdWrite => exact stays_vectored _
  | pathCreateDirectory => exact stays_hand_report _
  | pathFilestatGet => exact stays_hand_struct Filestat.covers
  | pathFilestatSetTimes => exact stays_hand_report _
  | pathLink => exact stays_hand_report_two _
  | pathOpen => exact stays_pathOpen
  | pathReadlink => exact stays_hand_two_write
  | pathRemoveDirectory => exact stays_hand_report _
  | pathRename => exact stays_hand_report_two _
  | pathSymlink => exact stays_hand_report_two _
  | pathUnlinkFile => exact stays_hand_report _
  | pollOneoff => exact stays_pollOneoff
  | procExit => exact iff_of_true (stays_err _ _) trivial
  | randomGet => exact stays_hand_report _
  | fdAdvise => exact iff_of_true (stays_report _) trivial
  | fdAllocate => exact iff_of_true (stays_report _) trivial
  | fdClose => exact iff_of_true (stays_report _) trivial
  | fdDatasync => exact iff_of_true (stays_report _) trivial
  | fdFdstatSetFlags => exact iff_of_true (stays_report _) trivial
  | fdFdstatSetRights => exact iff_of_true (stays_report _) trivial
  | fdFilestatSetSize => exact iff_of_true (stays_report _) trivial
  | fdFilestatSetTimes => exact iff_of_true (stays_report _) trivial
  | fdRenumber => exact iff_of_true (stays_report _) trivial
  | fdSync => exact iff_of_true (stays_report _) trivial
  | procRaise => exact iff_of_true (stays_report _) trivial
  | schedYield => exact iff_of_true (stays_report _) trivial
  | sockAccept => exact iff_of_true (stays_finish _) trivial
  | sockRecv => exact iff_of_true (stays_finish _) trivial
  | sockSend => exact iff_of_true (stays_finish _) trivial
  | sockShutdown => exact iff_of_true (stays_finish _) trivial

/-- A caller with one page of memory. -/
def onePage (args : List ValueU) : TrCtx := ⟨args, some (List.replicate 65536 0), fun _ => 0⟩

/-- The time is stored behind the page, and the call reports success. -/
theorem clockTimeGet_outside :
    ¬ (onePage [0, 0, 65536]).Sandboxed (HostFn.clockTimeGet.call default (onePage [0, 0, 65536])) := by
  intro h
  obtain ⟨m, hm, hin⟩ := stays_store_write.mp (sandboxed_iff.mp h) (by decide)
  obtain rfl := Option.some.inj hm
  rw [List.length_replicate] at hin
  exact absurd hin (by decide)

end Silverfir.Wasi
