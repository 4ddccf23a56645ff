import Silverfir.Fetch

/-! Results without undefined behaviour: rules for `R`, the readers of the stream, and the
immediates of an instruction. -/
namespace Silverfir

/-- The source says what happens: `x` is a result or an error string. -/
def Defined {α : Type} (x : R α) : Prop := ∀ what, x ≠ undef what

/-- `x` is defined, and a result satisfies `Q`. -/
def Safe {α : Type} (x : R α) (Q : α → Prop) : Prop := Defined x ∧ ∀ a, x = .ok a → Q a

section Rules
variable {α β : Type} {x : R α} {f : α → R β} {P Q : α → Prop} {S : β → Prop}

@[simp] theorem defined_ok (a : α) : Defined (.ok a : R α) := fun w h => by simp [undef] at h

@[simp] theorem defined_err (t : ErrType) (m : String) : Defined (err t m : R α) := fun w h => by
  simp [err, undef] at h

@[simp] theorem not_defined_undef (w : String) : ¬ Defined (undef w : R α) := fun h => h w rfl

@[simp] theorem defined_bind : Defined (x >>= f) ↔ Defined x ∧ ∀ a, x = .ok a → Defined (f a) := by
  cases x with
  | error e =>
    rw [error_bind]
    refine ⟨fun h => ⟨fun w hw => h w (by rw [Except.error.inj hw]; rfl), fun a ha => by cases ha⟩, ?_⟩
    rintro ⟨h, -⟩ w hw
    exact h w (by rw [Except.error.inj hw]; rfl)
  | ok a =>
    rw [ok_bind]
    exact ⟨fun h => ⟨defined_ok a, fun b hb => Except.ok.inj hb ▸ h⟩, fun h => h.2 a rfl⟩

@[simp] theorem defined_ite {p : Prop} [Decidable p] {y : R α} :
    Defined (if p then x else y) ↔ (p → Defined x) ∧ (¬ p → Defined y) := by
  by_cases h : p <;> simp [h]

theorem Safe.ok {a : α} (h : P a) : Safe (.ok a) P :=
  ⟨defined_ok a, fun _ hb => Except.ok.inj hb ▸ h⟩

theorem Safe.err (t : ErrType) (m : String) : Safe (err t m) P :=
  ⟨defined_err t m, fun _ h => by simp at h⟩

theorem Safe.bind (h : Safe x P) (k : ∀ a, P a → Safe (f a) S) : Safe (x >>= f) S := by
  refine ⟨defined_bind.mpr ⟨h.1, fun a ha => (k a (h.2 a ha)).1⟩, fun b hb => ?_⟩
  obtain ⟨a, ha, hfa⟩ := bind_eq_ok.mp hb
  exact (k a (h.2 a ha)).2 b hfa

theorem Safe.mono (h : Safe x P) (k : ∀ a, P a → Q a) : Safe x Q := ⟨h.1, fun a ha => k a (h.2 a ha)⟩

theorem Defined.safe (h : Defined x) : Safe x fun _ => True := ⟨h, fun _ _ => trivial⟩

end Rules

/-! ### Readers -/

namespace Stream

variable (st : Stream)

@[simp] theorem defined_notEnough {α : Type} : Defined (notEnough : R α) := defined_err _ _

@[simp] theorem defined_badLeb {α : Type} : Defined (badLeb : R α) := defined_err _ _

@[simp] theorem defined_readU8 : Defined st.readU8 := by
  unfold readU8
  split <;> simp

@[simp] theorem defined_readVu7 : Defined st.readVu7 := by
  unfold readVu7
  split <;> simp

@[simp] theorem defined_readVi7 : Defined st.readVi7 := by
  unfold readVi7
  split <;> simp

@[simp] theorem defined_readFixed (n : ℕ) : Defined (readFixed n st) := by simp [readFixed]

theorem defined_readVuLoop (width left offset result : ℕ) :
    Defined (readVuLoop width st left offset result) := by
  induction left generalizing offset result with
  | zero => exact defined_badLeb
  | succ left ih =>
    unfold readVuLoop
    split
    · exact defined_badLeb
    · simp [ih]

theorem defined_readViLoop (width left offset result : ℕ) :
    Defined (readViLoop width st left offset result) := by
  induction left generalizing offset result with
  | zero => exact defined_badLeb
  | succ left ih =>
    unfold readViLoop
    split
    · exact defined_badLeb
    · simp [ih]

@[simp] theorem defined_readVu32 : Defined st.readVu32 := defined_readVuLoop st _ _ _ _

@[simp] theorem defined_readVi32 : Defined st.readVi32 := defined_readViLoop st _ _ _ _

@[simp] theorem defined_readVi64 : Defined st.readVi64 := defined_readViLoop st _ _ _ _

@[simp] theorem defined_seek (n : ℤ) : Defined (st.seek n) := by simp [seek]

end Stream

theorem defined_parseTypesLoop (count : ℕ) (st : Stream) : Defined (parseTypesLoop count st) := by
  induction count generalizing st with
  | zero => exact defined_ok _
  | succ count ih =>
    simp only [parseTypesLoop, defined_bind, Stream.defined_readVi7, true_and]
    rintro ⟨n, st'⟩ -
    dsimp only
    split <;> simp [ih]

@[simp] theorem defined_parseTypes (count : ℕ) (types : Str) : Defined (parseTypes count types) :=
  defined_parseTypesLoop _ _

@[simp] theorem defined_readType (ok : TypeId → Bool) (msg : String) (st : Stream) :
    Defined (readType ok msg st) := by
  simp only [readType, defined_bind, Stream.defined_readVi7, true_and]
  rintro ⟨n, st'⟩ -
  dsimp only
  split <;> simp

@[simp] theorem defined_readReserved (msg : String) (st : Stream) : Defined (readReserved msg st) := by
  simp [readReserved]

@[simp] theorem defined_readU32Instr (i : ℕ → Instr) (st : Stream) : Defined (readU32Instr i st) := by
  simp [readU32Instr]

@[simp] theorem defined_readU32U32Instr (i : ℕ → ℕ → Instr) (st : Stream) :
    Defined (readU32U32Instr i st) := by
  simp [readU32U32Instr]

theorem defined_decodeImmFc (op : WasmOpcodeFc) (st : Stream) : Defined (decodeImmFc op st) := by
  unfold decodeImmFc
  split <;> simp

theorem defined_decodeRest (i : Instr) (st : Stream) : Defined (decodeRest i st) := by
  unfold decodeRest
  split <;> simp

/-! ### The decoder -/

/-- The bytes of the two pseudo types, which `is_value_type` lets through. -/
def pseudoTypeByte (b : UInt8) : Prop := b = 0x47 ∨ b = 0x6b

instance : DecidablePred pseudoTypeByte := fun b => inferInstanceAs (Decidable (b = 0x47 ∨ b = 0x6b))

/-- The byte decides whether the type is one of these two. -/
theorem pseudoTypeByte_iff {b : UInt8} :
    pseudoTypeByte b ↔ b.toNat < 0x80 ∧ ∃ t, TypeId.ofI8? (Stream.i7Value b.toNat) = some t ∧
      (t = .ref ∨ t = .unknown) := by
  have hv : pseudoTypeByte b ↔ b.toNat = 0x47 ∨ b.toNat = 0x6b := by
    unfold pseudoTypeByte
    rw [← UInt8.toNat_inj, ← UInt8.toNat_inj]
    rfl
  rw [hv]
  constructor
  · rintro (hb | hb) <;> rw [hb]
    · exact ⟨by omega, .unknown, rfl, .inr rfl⟩
    · exact ⟨by omega, .ref, rfl, .inl rfl⟩
  · rintro ⟨hlt, t, ht, h⟩
    have hc := TypeId.code_of_ofI8? ht
    unfold Stream.i7Value at hc
    rcases h with rfl | rfl <;> simp only [TypeId.code] at hc <;> split_ifs at hc <;> omega

theorem defined_getBlocktype {mod : Module} {code : Str} {p : ℕ} :
    Defined (getBlocktype mod ⟨code, p⟩) ↔ ∀ b, code[p]? = some b → ¬ pseudoTypeByte b := by
  simp only [getBlocktype, defined_bind, Stream.defined_readVi7, true_and]
  cases hb : code[p]? with
  | none =>
    refine ⟨fun _ b hb' => (by cases hb'), fun _ x hx => ?_⟩
    obtain ⟨u, hu, -⟩ := Stream.readVi7_ok hx
    simp [Stream.byteAt?, hb] at hu
  | some b =>
    have hbyte : Stream.byteAt? ⟨code, p⟩ 0 = some b.toNat := by simp [Stream.byteAt?, hb]
    simp only [Option.some.injEq, forall_eq', pseudoTypeByte_iff, Stream.readVi7, hbyte]
    by_cases hlt : b.toNat < 0x80
    · rw [if_neg (by omega)]
      simp only [Except.ok.injEq, forall_eq', hlt, true_and]
      cases ht : TypeId.ofI8? (Stream.i7Value b.toNat) with
      | none =>
        simp only [reduceCtorEq, false_and, exists_false, not_false_iff, iff_true]
        rw [if_neg]
        · split
          · split <;> simp
          · simp
        · intro hvoid
          rw [hvoid, TypeId.ofI8?_code] at ht
          cases ht
      | some t =>
        have hcode := TypeId.code_of_ofI8? ht
        simp only [Option.some.injEq, exists_eq_left']
        cases t <;> simp [← hcode, TypeId.code, TypeId.isValueType, TypeId.isNum, TypeId.isVec, TypeId.isRef,
          toFuncType, sBlockTypes]
    · rw [if_pos (by omega)]
      simp [Stream.badLeb, err, hlt]

theorem defined_decodeImm {mod : Module} {op : WasmOpcode} {code : Str} {p : ℕ} :
    Defined (decodeImm mod op ⟨code, p⟩) ↔
      (op.case = .block → ∀ b, code[p]? = some b → ¬ pseudoTypeByte b) := by
  unfold decodeImm
  split
  all_goals rename_i hc
  case h_3 => simp [defined_getBlocktype, hc]
  case h_44 =>
    simp only [hc, reduceCtorEq, false_imp_iff, iff_true, defined_bind, Stream.defined_readVu32, true_and]
    rintro ⟨n, st'⟩ -
    dsimp only
    split
    · simp
    · exact defined_decodeImmFc _ _
  all_goals simp [hc, Stream.readF32, Stream.readF64]

end Silverfir
