import Silverfir.Asserted
import Silverfir.Fetch

/-! The readers of the parser with their assertions: on a stream that is valid they do what they do without, and leave
a stream that is valid. -/
namespace Silverfir

open Lockstep (Until)

theorem SameFault.refl (e : Fault) : SameFault e e := Or.inl rfl

theorem Stream.Valid.reads {st st' : Stream} (h : st.Valid) (hreads : Stream.Reads st st') : st'.Valid := by
  refine ⟨?_, ?_⟩
  · rw [hreads.s_eq]
    exact h.nonempty
  · rw [hreads.s_eq]
    exact hreads.le

theorem Stream.reads_slice {st content st' : Stream} {n : ℕ} (h : st.slice n = .ok (content, st')) :
    Stream.Reads st st' ∧ content.Valid := by
  rw [Stream.slice] at h
  split at h
  · simp at h
  next hn =>
  obtain ⟨hle, h⟩ := guard_eq_ok.mp h
  cases h
  rw [Stream.remaining] at hle
  refine ⟨⟨rfl, ?_, ?_⟩, ?_, Nat.zero_le _⟩
  · simp only [Stream.advance]
    omega
  · simp only [Stream.advance]
    omega
  · intro hnil
    have hlen := congrArg List.length hnil
    simp only [Stream.from_, List.length_take, List.length_drop, List.length_nil] at hlen
    omega

namespace Asserted

/-! ### Streams -/

section Streams
variable {mem : Allocator} {ρ ρ' β : Type} {st : Stream}

/-- The same result, with a stream that is valid. -/
def Keeps (mem : Allocator) (out : ρ → Stream) : R ρ → R ρ → Prop :=
  Until (Starved mem) SameFault fun a b => a = b ∧ (out a).Valid

variable {out : ρ → Stream} {out' : ρ' → Stream}

theorem Keeps.ok {a : ρ} (h : (out a).Valid) : Keeps mem out (.ok a) (.ok a) := Until.ok ⟨rfl, h⟩

theorem same_err {S : ρ → β → Prop} (t : ErrType) (m : String) :
    Until (Starved mem) SameFault S (err t m) (err t m) := Until.error (.refl _)

theorem Keeps.bind {S : ρ' → β → Prop} {x y : R ρ} {f : ρ → R ρ'} {g : ρ → R β} (h : Keeps mem out x y)
    (hf : ∀ a, y = .ok a → (out a).Valid → Until (Starved mem) SameFault S (f a) (g a)) :
    Until (Starved mem) SameFault S (x >>= f) (y >>= g) := by
  refine Until.bind h fun a b _ hb hab => ?_
  obtain ⟨rfl, hvalid⟩ := hab
  exact hf a hb hvalid

theorem checked_keeps {f : Stream → R ρ} (hst : st.Valid) (hf : ∀ a, f st = .ok a → Stream.Reads st (out a)) :
    Keeps mem out (checked f st) (f st) := by
  rw [checked, if_pos hst]
  cases h : f st with
  | error e => exact Until.error (.refl e)
  | ok a => exact Keeps.ok (hst.reads (hf a h))

theorem readU8_keeps (hst : st.Valid) : Keeps mem Prod.snd (readU8 st) st.readU8 :=
  checked_keeps hst fun _ h => Stream.reads_readU8 h

theorem readVu7_keeps (hst : st.Valid) : Keeps mem Prod.snd (readVu7 st) st.readVu7 :=
  checked_keeps hst fun _ h => Stream.reads_readVu7 h

theorem readVi7_keeps (hst : st.Valid) : Keeps mem Prod.snd (readVi7 st) st.readVi7 :=
  checked_keeps hst fun _ h => Stream.reads_readVi7 h

theorem readVu32_keeps (hst : st.Valid) : Keeps mem Prod.snd (readVu32 st) st.readVu32 :=
  checked_keeps hst fun _ h => Stream.reads_readVu32 h

theorem readFixed_keeps {n : ℕ} (hn : 0 < n) (hst : st.Valid) :
    Keeps mem Prod.snd (checked (Stream.readFixed n) st) (st.readFixed n) :=
  checked_keeps hst fun _ h => Stream.reads_readFixed hn h

theorem readType_keeps {ok : TypeId → Bool} {msg : String} (hst : st.Valid) :
    Keeps mem Prod.snd (readType ok msg st) (Silverfir.readType ok msg st) :=
  checked_keeps hst fun _ h => by
    obtain ⟨-, n, hread, -⟩ := readType_ok h
    exact Stream.reads_readVi7 hread

theorem remaining_ok (hst : st.Valid) : remaining st = .ok st.remaining := by
  rw [remaining, checked, if_pos hst]

theorem slice_until {n : ℕ} (hst : st.Valid) :
    Until (Starved mem) SameFault (fun a b => a = b ∧ a.1.Valid ∧ a.2.Valid ∧ Stream.Reads st a.2) (slice n st)
      (st.slice n) := by
  rw [slice, checked, if_pos hst]
  cases h : st.slice n with
  | error e => exact Until.error (.refl e)
  | ok a =>
    obtain ⟨hreads, hcontent⟩ := Stream.reads_slice h
    exact .ok ⟨rfl, hcontent, hst.reads hreads, hreads⟩

theorem atEnd_until {msg : String} {S : ρ → β → Prop} {x : R ρ} {y : R β} (hst : st.Valid)
    (h : Until (Starved mem) SameFault S x y) :
    Until (Starved mem) SameFault S (atEnd msg st >>= fun _ => x) (Silverfir.atEnd msg st >>= fun _ => y) := by
  rw [atEnd, remaining_ok hst, ok_bind, Silverfir.atEnd]
  by_cases hleft : st.remaining ≠ 0
  · rw [if_pos hleft]
    exact same_err _ _
  · rw [if_neg hleft]
    exact h

/-! ### Readers that only move the stream -/

theorem parseName_keeps (hst : st.Valid) : Keeps mem Prod.snd (parseName st) (Silverfir.parseName st) := by
  refine (readVu32_keeps hst).bind fun a _ hvalid => ?_
  obtain ⟨nameLen, st1⟩ := a
  refine Until.ite (fun _ => Keeps.ok hvalid) fun _ => ?_
  refine Until.bind (slice_until hvalid) fun a b _ _ hab => ?_
  obtain ⟨rfl, -, hvalid1, -⟩ := hab
  exact Until.ite (fun _ => same_err _ _) fun _ => Keeps.ok hvalid1

theorem parseMax_keeps {maxCap flag : ℕ} (hst : st.Valid) :
    Keeps mem Prod.snd (parseMax maxCap flag st) (Silverfir.parseMax maxCap flag st) := by
  refine Until.ite (fun _ => ?_) fun _ => Keeps.ok hst
  refine (readVu32_keeps hst).bind fun a _ hvalid => ?_
  exact Until.ite (fun _ => Keeps.ok hvalid) fun _ => same_err _ _

theorem parseLimits_keeps {maxCap : ℕ} (hcap : maxCap ≠ 0) (hst : st.Valid) :
    Keeps mem Prod.snd (parseLimits maxCap st) (Silverfir.parseLimits maxCap st) := by
  rw [parseLimits, if_neg hcap]
  refine (readU8_keeps hst).bind fun a _ hvalid => ?_
  obtain ⟨flag, st1⟩ := a
  refine Until.ite (fun _ => same_err _ _) fun _ => ?_
  refine (readVu32_keeps hvalid).bind fun a _ hvalid1 => ?_
  obtain ⟨min, st2⟩ := a
  refine (parseMax_keeps hvalid1).bind fun a _ hvalid2 => ?_
  exact Until.ite (fun _ => same_err _ _) fun _ => Keeps.ok hvalid2

theorem map_keeps {α : Type} {x y : R (α × Stream)} (h : Keeps mem Prod.snd x y) :
    Keeps mem id (x.map (·.2)) (y.map (·.2)) := by
  cases h with
  | ok hab =>
    obtain ⟨rfl, hvalid⟩ := hab
    exact Keeps.ok hvalid
  | error he => exact Until.error he
  | stop hstop => exact Until.stop hstop

theorem skipImm_keeps {op : WasmOpcode} (hst : st.Valid) :
    Keeps mem id (skipImm op st) (Silverfir.skipImm op st) := by
  cases op with
  | i32Const => exact map_keeps (checked_keeps hst fun _ h => Stream.reads_readVi32 h)
  | i64Const => exact map_keeps (checked_keeps hst fun _ h => Stream.reads_readVi64 h)
  | f32Const => exact map_keeps (readFixed_keeps (by decide) hst)
  | f64Const => exact map_keeps (readFixed_keeps (by decide) hst)
  | refNull => exact map_keeps (readVi7_keeps hst)
  | refFunc | globalGet => exact map_keeps (readVu32_keeps hst)
  | _ => exact Keeps.ok hst

theorem map_reads {α : Type} {x : R (α × Stream)} {st' : Stream} (h : x.map (·.2) = .ok st')
    (hx : ∀ a st', x = .ok (a, st') → Stream.Reads st st') : st'.remaining ≤ st.remaining := by
  cases x with
  | error e => cases h
  | ok a =>
    cases h
    exact (hx a.1 a.2 rfl).remaining_lt.le

theorem skipImm_remaining {op : WasmOpcode} {st' : Stream} (h : Silverfir.skipImm op st = .ok st') :
    st'.remaining ≤ st.remaining := by
  cases op with
  | i32Const => exact map_reads h fun _ _ h => Stream.reads_readVi32 h
  | i64Const => exact map_reads h fun _ _ h => Stream.reads_readVi64 h
  | f32Const => exact map_reads h fun _ _ h => Stream.reads_readFixed (by decide) h
  | f64Const => exact map_reads h fun _ _ h => Stream.reads_readFixed (by decide) h
  | refNull => exact map_reads h fun _ _ h => Stream.reads_readVi7 h
  | refFunc | globalGet => exact map_reads h fun _ _ h => Stream.reads_readVu32 h
  | _ =>
    cases h
    exact Nat.le_refl _

/-- Every round takes a byte, so the loop comes to an end. -/
theorem skipConstExpr_keeps {n : ℕ} (hst : st.Valid) (hn : st.remaining < n) :
    Keeps mem id (skipConstExpr n st) (Silverfir.skipConstExpr n st) := by
  induction n generalizing st with
  | zero => exact absurd hn (Nat.not_lt_zero _)
  | succ n ih =>
    refine (readU8_keeps hst).bind fun a hread hvalid => ?_
    obtain ⟨opcode, st1⟩ := a
    have hlt : st1.remaining < st.remaining := (Stream.reads_readU8 hread).remaining_lt
    dsimp only at hvalid ⊢
    cases WasmOpcode.ofByte? opcode with
    | none => exact ih hvalid (by omega)
    | some op =>
      by_cases hend : op = .end_
      · rw [hend]
        exact Keeps.ok hvalid
      · have hgo : Keeps mem id (skipImm op st1 >>= skipConstExpr n)
            (Silverfir.skipImm op st1 >>= Silverfir.skipConstExpr n) := by
          refine (skipImm_keeps hvalid).bind fun st2 himm hvalid2 => ?_
          have hle := skipImm_remaining himm
          exact ih hvalid2 (by omega)
        cases op <;> first | exact absurd rfl hend | exact hgo

theorem parseConstExpr_keeps (hst : st.Valid) :
    Keeps mem Prod.snd (parseConstExpr st) (Silverfir.parseConstExpr st) := by
  refine (skipConstExpr_keeps hst (Nat.lt_succ_self _)).bind fun st1 _ hvalid => ?_
  exact Keeps.ok hvalid

theorem checkTypes_keeps {n : ℕ} (hst : st.Valid) : Keeps mem id (checkTypes n st) (Silverfir.checkTypes n st) := by
  induction n generalizing st with
  | zero => exact Keeps.ok hst
  | succ n ih =>
    refine (readType_keeps hst).bind fun a _ hvalid => ?_
    exact ih hvalid

theorem typesFrom_ok {count : ℕ} (hst : st.Valid) : typesFrom count st = .ok ((st.s.drop st.p).take count) := by
  rw [typesFrom]
  by_cases hzero : count = 0
  · rw [if_pos hzero, hzero, List.take_zero]
  · rw [if_neg hzero, strFrom, if_pos hst]

theorem parseResultType_keeps {msg : String} (hst : st.Valid) :
    Keeps mem (fun a => a.2.2) (parseResultType msg st) (Silverfir.parseResultType msg st) := by
  refine (readVu32_keeps hst).bind fun a _ hvalid => ?_
  obtain ⟨count, st1⟩ := a
  refine Until.ite (fun _ => same_err _ _) fun _ => ?_
  rw [typesFrom_ok hvalid, ok_bind]
  refine (checkTypes_keeps hvalid).bind fun st2 _ hvalid2 => ?_
  exact Keeps.ok hvalid2

theorem parseFuncType_keeps (hst : st.Valid) :
    Keeps mem Prod.snd (parseFuncType st) (Silverfir.parseFuncType st) := by
  refine (readVu7_keeps hst).bind fun a _ hvalid => ?_
  obtain ⟨form, st1⟩ := a
  refine Until.ite (fun _ => same_err _ _) fun _ => ?_
  refine (parseResultType_keeps hvalid).bind fun a _ hvalid1 => ?_
  obtain ⟨paramCount, params, st2⟩ := a
  refine (parseResultType_keeps hvalid1).bind fun a _ hvalid2 => ?_
  exact Keeps.ok hvalid2

theorem parseTypeidx_keeps {funcTypes : List FuncType} (hst : st.Valid) :
    Keeps mem Prod.snd (parseTypeidx funcTypes st) (Silverfir.parseTypeidx funcTypes st) := by
  refine (readVu32_keeps hst).bind fun a _ hvalid => ?_
  obtain ⟨typeidx, st1⟩ := a
  dsimp only
  by_cases hlt : typeidx < funcTypes.length
  · rw [if_neg (by omega), VecHeader.at_, List.getElem?_eq_getElem hlt]
    exact Keeps.ok hvalid
  · rw [if_pos (by omega), List.getElem?_eq_none (by omega)]
    exact same_err _ _

theorem parseTableType_keeps {msg : String} (hst : st.Valid) :
    Keeps mem (fun a => a.2.2) (parseTableType msg st) (Silverfir.parseTableType msg st) := by
  refine (readType_keeps hst).bind fun a _ hvalid => ?_
  refine (parseLimits_keeps (by decide) hvalid).bind fun b _ hvalid1 => ?_
  exact Keeps.ok hvalid1

theorem parseGlobalType_keeps {msg mutMsg : String} (hst : st.Valid) :
    Keeps mem (fun a => a.2.2) (parseGlobalType msg mutMsg st) (Silverfir.parseGlobalType msg mutMsg st) := by
  refine (readType_keeps hst).bind fun a _ hvalid => ?_
  refine (readU8_keeps hvalid).bind fun b _ hvalid1 => ?_
  exact Until.ite (fun _ => same_err _ _) fun _ => Keeps.ok hvalid1

theorem parseElemTableidx_keeps {kind : ElemKind} (hst : st.Valid) :
    Keeps mem Prod.snd (parseElemTableidx kind st) (Silverfir.parseElemTableidx kind st) :=
  Until.ite (fun _ => readVu32_keeps hst) fun _ => Keeps.ok hst

theorem parseElemOffset_keeps {kind : ElemKind} {elem : Element} (hst : st.Valid) :
    Keeps mem Prod.snd (parseElemOffset kind elem st) (Silverfir.parseElemOffset kind elem st) := by
  refine (parseElemTableidx_keeps hst).bind fun a _ hvalid => ?_
  obtain ⟨tableidx, st1⟩ := a
  refine Until.ite (fun _ => ?_) fun _ => Keeps.ok hvalid
  refine (parseConstExpr_keeps hvalid).bind fun b _ hvalid1 => ?_
  exact Keeps.ok hvalid1

theorem parseElemType_keeps {kind : ElemKind} (hst : st.Valid) :
    Keeps mem Prod.snd (parseElemType kind st) (Silverfir.parseElemType kind st) := by
  refine Until.ite (fun _ => ?_) fun _ => Keeps.ok hst
  refine Until.ite (fun _ => ?_) fun _ => ?_
  · refine (readVi7_keeps hst).bind fun a _ hvalid => ?_
    obtain ⟨t, st1⟩ := a
    dsimp only
    cases TypeId.ofI8? t with
    | none => exact same_err _ _
    | some t => exact Until.ite (fun _ => same_err _ _) fun _ => Keeps.ok hvalid
  · refine (readU8_keeps hst).bind fun a _ hvalid => ?_
    exact Until.ite (fun _ => same_err _ _) fun _ => Keeps.ok hvalid

theorem countLocals_keeps {groups : ℕ} (hst : st.Valid) :
    Keeps mem Prod.snd (countLocals groups st) (Silverfir.countLocals groups st) := by
  let P : ℕ → ℕ × Stream → ℕ × Stream → Prop := fun _ a b => a = b ∧ a.2.Valid
  have hstep : ∀ n a b, P (n + 1) a b → Until (Starved mem) SameFault (P n)
      (do
        let r ← readVu32 a.2
        let r' ← readVi7 r.2
        if a.1 + r.1 > u32Max then err .malformed "Too many locals" else .ok (a.1 + r.1, r'.2))
      (do
        let r ← b.2.readVu32
        let r' ← r.2.readVi7
        if b.1 + r.1 > u32Max then err .malformed "Too many locals" else .ok (b.1 + r.1, r'.2)) := by
    rintro n ⟨total, code⟩ _ ⟨rfl, hvalid⟩
    refine (readVu32_keeps hvalid).bind fun a _ hvalid1 => ?_
    refine (readVi7_keeps hvalid1).bind fun b _ hvalid2 => ?_
    exact Until.ite (fun _ => same_err _ _) fun _ => Keeps.ok hvalid2
  exact Until.times hstep (P := P) ⟨rfl, hst⟩

theorem parseMemidx_keeps {dataKind : ℕ} (hst : st.Valid) :
    Keeps mem Prod.snd (parseMemidx dataKind st) (Silverfir.parseMemidx dataKind st) := by
  refine Until.ite (fun _ => ?_) fun _ => Keeps.ok hst
  refine (readVu32_keeps hst).bind fun a _ hvalid => ?_
  exact Until.ite (fun _ => same_err _ _) fun _ => Keeps.ok hvalid

theorem parseBytes_keeps (hst : st.Valid) : Keeps mem Prod.snd (parseBytes st) (Silverfir.parseBytes st) := by
  refine (readVu32_keeps hst).bind fun a _ hvalid => ?_
  obtain ⟨byteLen, st1⟩ := a
  refine Until.ite (fun _ => Keeps.ok hvalid) fun _ => ?_
  refine Until.bind (slice_until hvalid) fun a b _ _ hab => ?_
  obtain ⟨rfl, -, hvalid1, -⟩ := hab
  exact Keeps.ok hvalid1

theorem parseData_keeps (hst : st.Valid) : Keeps mem Prod.snd (parseData st) (Silverfir.parseData st) := by
  refine (readVu32_keeps hst).bind fun a _ hvalid => ?_
  obtain ⟨dataKind, st1⟩ := a
  refine Until.ite (fun _ => same_err _ _) fun _ => ?_
  refine (parseMemidx_keeps hvalid).bind fun a _ hvalid1 => ?_
  obtain ⟨memidx, st2⟩ := a
  have hoffset : Keeps mem Prod.snd (parseDataOffset (!dataKind.testBit 0) st2)
      (Silverfir.parseDataOffset (!dataKind.testBit 0) st2) :=
    Until.ite (fun _ => parseConstExpr_keeps hvalid1) fun _ => Keeps.ok hvalid1
  refine hoffset.bind fun a _ hvalid2 => ?_
  obtain ⟨offsetExpr, st3⟩ := a
  refine (parseBytes_keeps hvalid2).bind fun a _ hvalid3 => ?_
  exact Keeps.ok hvalid3

end Streams

end Asserted

end Silverfir
