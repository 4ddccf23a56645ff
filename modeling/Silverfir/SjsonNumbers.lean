import Silverfir.Sjson
import Silverfir.Words
import Mathlib.Tactic.Linarith
import Mathlib.Tactic.Positivity
import Mathlib.Tactic.NormNum

/-! What `json_parse_number` makes of a literal. -/
namespace Silverfir

open Grammar

/-! ### The cursor -/

section Cursor
variable {st st' : Stream} {b : UInt8} {w : Str} {c : ℕ}

theorem left_advance_one (h : Cursor.left st = b :: w) : Cursor.left (st.advance 1) = w := by
  have hone : Cursor.left st = [b] ++ w := h
  exact left_behind hone

theorem lt_of_left (h : Cursor.left st = b :: w) : st.p < st.s.length := by
  rw [left_eq] at h
  by_contra hle
  rw [List.drop_eq_nil_of_le (Nat.le_of_not_lt hle)] at h
  cases h

theorem byteAt?_nil (h : Cursor.left st = []) : st.byteAt? 0 = none := by
  rw [left_eq, List.drop_eq_nil_iff] at h
  rw [Stream.byteAt?, Nat.add_zero, List.getElem?_eq_none h]
  rfl

theorem readU8_cons (h : Cursor.left st = b :: w) : st.readU8 = .ok (b.toNat, st.advance 1) := by
  rw [Stream.readU8, byteAt?_of_left h]

theorem peekU8_cons (h : Cursor.left st = b :: w) : st.peekU8 = .ok b.toNat := by
  rw [Stream.peekU8, byteAt?_of_left h]

theorem readU8_some (h : st.readU8 = .ok (c, st')) : ∃ b w, Cursor.left st = b :: w ∧ c = b.toNat ∧
    st' = st.advance 1 := by
  cases hleft : Cursor.left st with
  | nil =>
    rw [Stream.readU8, byteAt?_nil hleft] at h
    simp [Stream.notEnough] at h
  | cons b w =>
    rw [readU8_cons hleft] at h
    cases h
    exact ⟨b, w, rfl, rfl, rfl⟩

theorem peekU8_some (h : st.peekU8 = .ok c) : ∃ b w, Cursor.left st = b :: w ∧ c = b.toNat := by
  cases hleft : Cursor.left st with
  | nil =>
    rw [Stream.peekU8, byteAt?_nil hleft] at h
    simp [Stream.notEnough] at h
  | cons b w =>
    rw [peekU8_cons hleft] at h
    cases h
    exact ⟨b, w, rfl, rfl⟩

theorem seek_one (h : Cursor.left st = b :: w) : st.seek 1 = .ok (st.advance 1) := by
  have hlt := lt_of_left h
  rw [Stream.seek, if_neg (by omega)]
  rfl

/-- Back to the byte that was read. -/
theorem seek_back (h : Cursor.left st = b :: w) : (st.advance 1).seek (-1) = .ok st := by
  have hlt := lt_of_left h
  have hp : (((st.p + 1 : ℕ) : ℤ) + -1).toNat = st.p := by omega
  rw [Stream.seek, if_neg (by simp only [Stream.advance]; omega)]
  simp only [Stream.advance, hp]

theorem remaining_eq (st : Stream) : st.remaining = (Cursor.left st).length := by
  rw [left_eq, List.length_drop, Stream.remaining]

end Cursor

namespace Sjson

open Json (Literal Digits)

section Loops
variable {st st' : Stream} {b : UInt8} {w rest : Str}

theorem streamEnded_nil (h : Cursor.left st = []) : streamEnded st = true := by
  rw [streamEnded, byteAt?_nil h]

theorem streamEnded_cons (h : Cursor.left st = b :: w) : streamEnded st = decide (b.toNat = 0) := by
  rw [streamEnded, byteAt?_of_left h]

theorem isDigit_toNat (b : UInt8) : isDigit b.toNat = Json.isDigit b := rfl

theorem not_ended (h : Cursor.left st = b :: w) (hb : Json.isDigit b = true) : streamEnded st = false := by
  rw [streamEnded_cons h]
  simp only [Json.isDigit, Bool.and_eq_true, decide_eq_true_eq] at hb
  simp only [decide_eq_false_iff_not]
  omega

/-- The loop takes all digits that come next. -/
theorem digitsLoop_eq {α : Type} (add : α → ℕ → α) {n : ℕ} (a : α) (hn : (Cursor.left st).length < n) :
    digitsLoop add n a st = .ok (((Cursor.left st).takeWhile Json.isDigit).foldl (fun a d => add a d.toNat) a,
      st.advance ((Cursor.left st).takeWhile Json.isDigit).length) := by
  induction n generalizing a st with
  | zero => exact absurd hn (Nat.not_lt_zero _)
  | succ n ih =>
    rw [digitsLoop]
    cases hleft : Cursor.left st with
    | nil =>
      rw [streamEnded_nil hleft, if_pos rfl]
      rfl
    | cons b w =>
      by_cases hb : Json.isDigit b = true
      · have hnext := left_advance_one hleft
        have hlen : (Cursor.left (st.advance 1)).length < n := by
          rw [hleft, List.length_cons] at hn
          rw [hnext]
          omega
        rw [not_ended hleft hb, if_neg (by decide), readU8_cons hleft, ok_bind]
        dsimp only
        rw [isDigit_toNat, hb, if_neg (by decide), ih _ hlen, hnext, List.takeWhile_cons_of_pos hb, List.foldl_cons,
          List.length_cons, Stream.advance, Stream.advance, Stream.advance, Nat.add_assoc, Nat.add_comm 1]
      · have hstop : List.takeWhile Json.isDigit (b :: w) = [] := List.takeWhile_cons_of_neg hb
        rw [hstop]
        by_cases hended : streamEnded st = true
        · rw [if_pos hended]
          rfl
        · rw [if_neg hended, readU8_cons hleft, ok_bind]
          dsimp only
          rw [isDigit_toNat, Bool.not_eq_true _ |>.mp hb, if_pos (by decide), seek_back hleft]
          rfl

/-- What the accumulation of the integer gives. -/
theorem addDigit_eq {n : ℕ} (hn : n < 2 ^ 63) (hb : Json.isDigit b = true) :
    addDigit n b.toNat = if n * 10 + Json.digitVal b < 2 ^ 63 then .ok ((n * 10 + Json.digitVal b : ℕ) : ℤ)
      else undef "signed overflow" := by
  simp only [Json.isDigit, Bool.and_eq_true, decide_eq_true_eq] at hb
  have hdigit : ((b.toNat : ℤ) - 0x30) = (Json.digitVal b : ℕ) := by
    rw [Json.digitVal]
    omega
  have hfits : ∀ v : ℕ, i64.arith v = if v < 2 ^ 63 then some (v : ℤ) else none := by
    intro v
    have hiff : i64.Fits v ↔ v < 2 ^ 63 := by
      simp only [i64, CInt.Ty.Fits, if_true]
      omega
    simp only [CInt.Ty.arith, i64, if_true, CInt.Ty.exact]
    simp only [i64] at hiff
    simp only [hiff]
  have hmul : (n : ℤ) * 10 = (n * 10 : ℕ) := by push_cast; rfl
  rw [addDigit, CInt.Ty.mul, hmul, hfits, hdigit]
  by_cases htens : n * 10 < 2 ^ 63
  · have hadd : ((n * 10 : ℕ) : ℤ) + (Json.digitVal b : ℕ) = (n * 10 + Json.digitVal b : ℕ) := by push_cast; rfl
    rw [if_pos htens, defined, ok_bind, CInt.Ty.add, hadd, hfits]
    split
    · rfl
    · rfl
  · rw [if_neg htens, if_neg (by omega)]
    rfl

def decimalFrom (n : ℕ) (ds : Str) : ℕ := ds.foldl (fun n d => n * 10 + Json.digitVal d) n

theorem le_decimalFrom (n : ℕ) (ds : Str) : n ≤ decimalFrom n ds := by
  induction ds generalizing n with
  | nil => exact Nat.le_refl _
  | cons d ds ih =>
    have hrest := ih (n * 10 + Json.digitVal d)
    rw [decimalFrom] at hrest ⊢
    rw [List.foldl_cons]
    omega

/-- The loop takes all digits that come next, and is undefined when their number does not fit. -/
theorem intLoop_eq {n k : ℕ} (hk : k < 2 ^ 63) (hn : (Cursor.left st).length < n) (hleft : Cursor.left st ≠ []) :
    intLoop n k st = if decimalFrom k ((Cursor.left st).takeWhile Json.isDigit) < 2 ^ 63 then
        .ok (((decimalFrom k ((Cursor.left st).takeWhile Json.isDigit) : ℕ) : ℤ),
          st.advance ((Cursor.left st).takeWhile Json.isDigit).length)
      else undef "signed overflow" := by
  induction n generalizing k st with
  | zero => exact absurd hn (Nat.not_lt_zero _)
  | succ n ih =>
    rw [intLoop]
    cases hst : Cursor.left st with
    | nil => exact absurd hst hleft
    | cons b w =>
      rw [readU8_cons hst, ok_bind]
      dsimp only
      by_cases hb : Json.isDigit b = true
      · rw [isDigit_toNat, hb, if_neg (by decide), addDigit_eq hk hb, List.takeWhile_cons_of_pos hb]
        have hle := le_decimalFrom (k * 10 + Json.digitVal b) (w.takeWhile Json.isDigit)
        have hcons : decimalFrom k (b :: w.takeWhile Json.isDigit) =
            decimalFrom (k * 10 + Json.digitVal b) (w.takeWhile Json.isDigit) := rfl
        have hnext := left_advance_one hst
        rw [hcons]
        by_cases hfits : k * 10 + Json.digitVal b < 2 ^ 63
        · rw [if_pos hfits, ok_bind]
          by_cases hended : streamEnded (st.advance 1) = true
          · have hnone : w.takeWhile Json.isDigit = [] := by
              cases hw : w with
              | nil => rfl
              | cons b' w' =>
                rw [hw] at hnext
                refine List.takeWhile_cons_of_neg fun hb' => ?_
                rw [not_ended hnext hb'] at hended
                cases hended
            rw [if_pos hended, hnone, if_pos (by rw [decimalFrom]; exact hfits)]
            rfl
          · have hne : Cursor.left (st.advance 1) ≠ [] := by
              intro hnil
              exact hended (streamEnded_nil hnil)
            have hlen : (Cursor.left (st.advance 1)).length < n := by
              rw [hst, List.length_cons] at hn
              rw [hnext]
              omega
            rw [if_neg hended, ih hfits hlen hne, hnext, List.length_cons, Stream.advance, Stream.advance, Stream.advance,
              Nat.add_assoc, Nat.add_comm 1]
        · rw [if_neg hfits, if_neg (by omega)]
          rfl
      · rw [isDigit_toNat, Bool.not_eq_true _ |>.mp hb, if_pos (by decide), seek_back hst,
          List.takeWhile_cons_of_neg hb, if_pos (by rw [decimalFrom]; exact hk)]
        rfl

/-- The first byte, if there is one, is not of this kind. -/
def Stops (p : UInt8 → Bool) (w : Str) : Prop := ∀ b ∈ w.head?, p b = false

theorem takeWhile_stops {p : UInt8 → Bool} {ds : Str} (hds : ∀ d ∈ ds, p d = true) (hstop : Stops p rest) :
    (ds ++ rest).takeWhile p = ds := by
  have hnone : rest.takeWhile p = [] := by
    cases rest with
    | nil => rfl
    | cons b w =>
      have hb := hstop b rfl
      exact List.takeWhile_cons_of_neg (by rw [hb]; decide)
  rw [List.takeWhile_append_of_pos hds, hnone, List.append_nil]

/-- What comes behind the bytes of a kind. -/
theorem left_takeWhile (p : UInt8 → Bool) (st : Stream) :
    Cursor.left st = (Cursor.left st).takeWhile p ++
      Cursor.left (st.advance ((Cursor.left st).takeWhile p).length) := by
  have hsplit := List.takeWhile_append_dropWhile (p := p) (l := Cursor.left st)
  have hbehind := left_behind hsplit.symm
  change Cursor.left (st.advance _) = _ at hbehind
  rw [hbehind, hsplit]

theorem takeWhile_all (p : UInt8 → Bool) (w : Str) : ∀ d ∈ w.takeWhile p, p d = true :=
  fun d hd => List.all_eq_true.mp List.all_takeWhile d hd

end Loops

/-! ### The parts of a literal -/

section Parts
variable {st st' : Stream} {numI : ℤ} {numF numF' : Option ℚ} {rest : Str}

theorem parseSign_ok {sign : ℤ} (h : parseSign st = .ok (sign, st')) :
    ∃ neg : Bool, Cursor.left st = (if neg then [0x2D] else []) ++ Cursor.left st' ∧ sign = if neg then -1 else 1 := by
  obtain ⟨c, hc, h⟩ := bind_eq_ok.mp h
  obtain ⟨b, w, hleft, rfl⟩ := peekU8_some hc
  split at h
  · next hb =>
    rw [seek_one hleft] at h
    cases h
    have hminus : b = 0x2D := UInt8.toNat_inj.mp hb
    refine ⟨true, ?_, rfl⟩
    rw [hleft, left_advance_one hleft, hminus]
    rfl
  · cases h
    exact ⟨false, rfl, rfl⟩

theorem parseSign_word {neg : Bool} {d : UInt8} {w : Str} (hd : Json.isDigit d = true)
    (hleft : Cursor.left st = (if neg then [0x2D] else []) ++ (d :: w)) :
    ∃ st', parseSign st = .ok (if neg then -1 else 1, st') ∧ Cursor.left st' = d :: w := by
  cases neg with
  | true =>
    refine ⟨st.advance 1, ?_, left_advance_one hleft⟩
    rw [parseSign, peekU8_cons hleft, ok_bind, if_pos rfl, seek_one hleft]
    rfl
  | false =>
    refine ⟨st, ?_, hleft⟩
    simp only [Json.isDigit, Bool.and_eq_true, decide_eq_true_eq] at hd
    rw [parseSign, peekU8_cons hleft, ok_bind, if_neg (by omega)]
    rfl

theorem parseInt_ok (h : parseInt st = .ok (numI, st')) :
    ∃ ds, Digits ds ∧ (ds.head? = some 0x30 → ds = [0x30]) ∧ Cursor.left st = ds ++ Cursor.left st' ∧
      numI = Json.decimal ds ∧ Json.decimal ds < 2 ^ 63 := by
  obtain ⟨c, hc, h⟩ := bind_eq_ok.mp h
  obtain ⟨b, w, hleft, rfl⟩ := peekU8_some hc
  split at h
  · simp [invalid] at h
  · next hdigit =>
    rw [isDigit_toNat, Bool.not_eq_true', Bool.not_eq_false] at hdigit
    split at h
    · next hb =>
      have hlen : (Cursor.left st).length < st.remaining + 1 := by rw [remaining_eq]; omega
      have hfrom := left_takeWhile Json.isDigit st
      have hall := takeWhile_all Json.isDigit (Cursor.left st)
      have hcons : (Cursor.left st).takeWhile Json.isDigit = b :: w.takeWhile Json.isDigit := by
        rw [hleft, List.takeWhile_cons_of_pos hdigit]
      rw [show (0 : ℤ) = ((0 : ℕ) : ℤ) from rfl, intLoop_eq (by decide) hlen
        (by rw [hleft]; exact List.cons_ne_nil _ _)] at h
      split at h
      · next hfits =>
        cases h
        refine ⟨_, ⟨?_, hall⟩, fun hhead => ?_, hfrom, rfl, hfits⟩
        · rw [hcons]
          exact List.cons_ne_nil _ _
        · rw [hcons, List.head?_cons, Option.some.injEq] at hhead
          rw [hhead] at hb
          exact absurd rfl hb
      · simp at h
    · next hb =>
      rw [seek_one hleft] at h
      cases h
      have hzero : b = 0x30 := UInt8.toNat_inj.mp (not_not.mp hb)
      subst hzero
      refine ⟨[0x30], ⟨List.cons_ne_nil _ _, fun d hd => ?_⟩, fun _ => rfl, ?_, rfl, by decide⟩
      · rw [List.mem_singleton.mp hd]
        rfl
      · rw [hleft, left_advance_one hleft]
        rfl

theorem parseInt_word {ds : Str} (hds : Digits ds) (hzero : ds.head? = some 0x30 → ds = [0x30])
    (hleft : Cursor.left st = ds ++ rest) (hstop : Stops Json.isDigit rest) :
    parseInt st = if Json.decimal ds < 2 ^ 63 then .ok ((Json.decimal ds : ℤ), st.advance ds.length)
      else undef "signed overflow" := by
  cases ds with
  | nil => exact absurd rfl hds.nonempty
  | cons d ds =>
    have hd := hds.digits d List.mem_cons_self
    rw [parseInt, peekU8_cons hleft, ok_bind, isDigit_toNat, hd, if_neg (by decide)]
    by_cases hb : d = 0x30
    · obtain rfl : ds = [] := (List.cons.inj (hzero (by rw [hb]; rfl))).2
      subst hb
      rw [if_neg (by decide), seek_one hleft, if_pos (by decide)]
      rfl
    · have hne : d.toNat ≠ 0x30 := fun heq => hb (UInt8.toNat_inj.mp heq)
      have hlen : (Cursor.left st).length < st.remaining + 1 := by rw [remaining_eq]; omega
      rw [if_pos hne, show (0 : ℤ) = ((0 : ℕ) : ℤ) from rfl,
        intLoop_eq (by decide) hlen (by rw [hleft]; exact List.cons_ne_nil _ _), hleft,
        takeWhile_stops hds.digits hstop]
      rfl

/-- The accumulation of an exponent. -/
theorem expFold_eq {ds : Str} (hds : ∀ d ∈ ds, Json.isDigit d = true) :
    ds.foldl (fun a d => addExp a d.toNat) 0 = Json.decimal ds := by
  have hfold : ∀ n : ℕ, ds.foldl (fun a d => addExp a d.toNat) (n : ℤ) = (decimalFrom n ds : ℕ) := by
    intro n
    induction ds generalizing n with
    | nil => rfl
    | cons d ds ih =>
      have hd := hds d List.mem_cons_self
      simp only [Json.isDigit, Bool.and_eq_true, decide_eq_true_eq] at hd
      have hstep : addExp n d.toNat = (n * 10 + Json.digitVal d : ℕ) := by
        rw [addExp, Json.digitVal]
        omega
      rw [List.foldl_cons, hstep, ih (fun x hx => hds x (List.mem_cons_of_mem _ hx))]
      rfl
  exact hfold 0

/-- What the code makes of the digits of a fraction. -/
def weigh (numI : ℤ) (ds : Str) : ℚ := (ds.foldl (fun x d => addFrac x d.toNat) ((numI : ℚ), 1 / 10)).1

theorem parseFraction_ok (h : parseFraction numI st = .ok (numF, st')) :
    ∃ frac : Option Str, (∀ ds ∈ frac, Digits ds) ∧ Cursor.left st = frac.elim [] (0x2E :: ·) ++ Cursor.left st' ∧
      numF = frac.map (weigh numI) := by
  rw [parseFraction] at h
  split at h
  · cases h
    exact ⟨none, fun _ hds => (by cases hds), rfl, rfl⟩
  · obtain ⟨c, hc, h⟩ := bind_eq_ok.mp h
    obtain ⟨b, w, hleft, rfl⟩ := peekU8_some hc
    split at h
    · next hb =>
      rw [seek_one hleft, ok_bind] at h
      obtain ⟨⟨d, st1⟩, hread, h⟩ := bind_eq_ok.mp h
      obtain ⟨d', w', hnext, rfl, rfl⟩ := readU8_some hread
      have hpoint : b = 0x2E := UInt8.toNat_inj.mp hb
      dsimp only at h
      split at h
      · simp [invalid] at h
      · next hdigit =>
        rw [isDigit_toNat, Bool.not_eq_true', Bool.not_eq_false] at hdigit
        have hbehind := left_advance_one hnext
        obtain rfl : w = d' :: w' := (left_advance_one hleft).symm.trans hnext
        rw [digitsLoop_eq _ _ (by rw [remaining_eq]; omega), ok_bind] at h
        cases h
        refine ⟨some (d' :: w'.takeWhile Json.isDigit), fun ds hds => ?_, ?_, ?_⟩
        · cases hds
          refine ⟨List.cons_ne_nil _ _, fun x hx => ?_⟩
          rcases List.mem_cons.mp hx with rfl | hx
          · exact hdigit
          · exact takeWhile_all _ _ x hx
        · have hfrom := left_takeWhile Json.isDigit ((st.advance 1).advance 1)
          rw [hbehind] at hfrom
          rw [hleft, hpoint]
          simp only [Option.elim_some, List.cons_append]
          rw [hbehind, ← hfrom]
        · rw [hbehind]
          rfl
    · cases h
      exact ⟨none, fun _ hds => (by cases hds), rfl, rfl⟩

theorem parseExpSign_ok {neg : Bool} (h : parseExpSign st = .ok (neg, st')) :
    ∃ sign : Option UInt8, (∀ s ∈ sign, s.toNat = 0x2B ∨ s.toNat = 0x2D) ∧
      Cursor.left st = sign.toList ++ Cursor.left st' ∧ neg = decide (sign = some 0x2D) := by
  obtain ⟨c, hc, h⟩ := bind_eq_ok.mp h
  obtain ⟨b, w, hleft, rfl⟩ := peekU8_some hc
  split at h
  · next hb =>
    rw [seek_one hleft] at h
    cases h
    refine ⟨some b, fun s hs => ?_, ?_, ?_⟩
    · cases hs
      exact hb
    · rw [hleft, left_advance_one hleft]
      rfl
    · have hiff : b.toNat = 0x2D ↔ some b = some 0x2D := by
        rw [Option.some.injEq]
        exact ⟨fun heq => UInt8.toNat_inj.mp heq, fun heq => by rw [heq]; rfl⟩
      exact decide_eq_decide.mpr hiff
  · cases h
    exact ⟨none, fun s hs => (by cases hs), rfl, rfl⟩

theorem parseExpDigits_ok {exp : ℤ} (h : parseExpDigits st = .ok (exp, st')) {mark : UInt8}
    (hmark : mark.toNat = 0x65 ∨ mark.toNat = 0x45) :
    ∃ e : Json.Exponent, mark :: Cursor.left st = e.word ++ Cursor.left st' ∧ exp = e.value := by
  obtain ⟨⟨neg, st1⟩, hsign, h⟩ := bind_eq_ok.mp h
  obtain ⟨sign, hsigns, hleft, rfl⟩ := parseExpSign_ok hsign
  obtain ⟨⟨d, st2⟩, hread, h⟩ := bind_eq_ok.mp h
  obtain ⟨d', w, hnext, rfl, rfl⟩ := readU8_some hread
  dsimp only at h
  split at h
  · simp [invalid] at h
  · next hdigit =>
    rw [isDigit_toNat, Bool.not_eq_true', Bool.not_eq_false] at hdigit
    have hbehind := left_advance_one hnext
    rw [digitsLoop_eq _ _ (by rw [remaining_eq]; omega), ok_bind, hbehind] at h
    cases h
    have hdigits : Digits (d' :: w.takeWhile Json.isDigit) := by
      refine ⟨List.cons_ne_nil _ _, fun x hx => ?_⟩
      rcases List.mem_cons.mp hx with rfl | hx
      · exact hdigit
      · exact takeWhile_all _ _ x hx
    refine ⟨⟨mark, sign, _, hmark, hsigns, hdigits⟩, ?_, ?_⟩
    · have hfrom := left_takeWhile Json.isDigit (st1.advance 1)
      rw [hbehind] at hfrom
      rw [hleft, hnext, Json.Exponent.word, List.cons_append, List.append_assoc, List.cons_append, ← hfrom]
    · rw [Json.Exponent.value]
      simp only [decide_eq_true_eq]
      rw [← expFold_eq hdigits.digits]
      rfl

theorem parseExponent_ok (h : parseExponent numI numF st = .ok (numF', st')) :
    ∃ exp : Option Json.Exponent, Cursor.left st = exp.elim [] (·.word) ++ Cursor.left st' ∧
      numF' = exp.elim numF fun e => some (numF.getD numI * 10 ^ e.value) := by
  rw [parseExponent] at h
  split at h
  · cases h
    exact ⟨none, rfl, rfl⟩
  · obtain ⟨c, hc, h⟩ := bind_eq_ok.mp h
    obtain ⟨b, w, hleft, rfl⟩ := peekU8_some hc
    split at h
    · next hb =>
      rw [seek_one hleft, ok_bind] at h
      obtain ⟨⟨exp, st1⟩, hexp, h⟩ := bind_eq_ok.mp h
      cases h
      obtain ⟨e, hword, rfl⟩ := parseExpDigits_ok hexp hb.symm
      refine ⟨some e, ?_, rfl⟩
      rw [left_advance_one hleft] at hword
      rw [hleft, hword]
      rfl
    · cases h
      exact ⟨none, rfl, rfl⟩

/-- Bytes that can stand behind a number; a zero byte is the end of the text. -/
def isFollow (b : UInt8) : Bool := Json.isWs b || b.toNat = 0x2C || b.toNat = 0x5D || b.toNat = 0x7D || b.toNat = 0

/-- The number is over. -/
def Follows (w : Str) : Prop := ∀ b ∈ w.head?, isFollow b = true

theorem isFollow_toNat {b : UInt8} (h : isFollow b = true) : b.toNat = 0x20 ∨ b.toNat = 0x0A ∨ b.toNat = 0x0D ∨
    b.toNat = 0x09 ∨ b.toNat = 0x2C ∨ b.toNat = 0x5D ∨ b.toNat = 0x7D ∨ b.toNat = 0 := by
  simp only [isFollow, Json.isWs, Bool.or_eq_true, decide_eq_true_eq] at h
  omega

/-- Neither a digit nor a point comes behind the digits of the integer and of the fraction. -/
theorem expWord_stops (exp : Option Json.Exponent) (hrest : Follows rest) :
    Stops (fun b => Json.isDigit b || b.toNat = 0x2E) (exp.elim [] (·.word) ++ rest) := by
  intro b hb
  simp only [Json.isDigit, Bool.or_eq_false_iff, Bool.and_eq_false_iff, decide_eq_false_iff_not]
  cases exp with
  | none =>
    have hfollow := isFollow_toNat (hrest b hb)
    omega
  | some e =>
    cases hb
    have hmark := e.mark_eq
    omega

theorem stops_digit {w : Str} (h : Stops (fun b => Json.isDigit b || b.toNat = 0x2E) w) : Stops Json.isDigit w :=
  fun b hb => (Bool.or_eq_false_iff.mp (h b hb)).1

theorem fracWord_stops {frac : Option Str} (h : Stops (fun b => Json.isDigit b || b.toNat = 0x2E) rest) :
    Stops Json.isDigit (frac.elim [] (0x2E :: ·) ++ rest) := by
  cases frac with
  | none => exact stops_digit h
  | some ds =>
    intro b hb
    cases hb
    rfl

theorem parseFraction_word {frac : Option Str} (hfrac : ∀ ds ∈ frac, Digits ds)
    (hleft : Cursor.left st = frac.elim [] (0x2E :: ·) ++ rest)
    (hstop : Stops (fun b => Json.isDigit b || b.toNat = 0x2E) rest) :
    ∃ st', parseFraction numI st = .ok (frac.map (weigh numI), st') ∧ Cursor.left st' = rest := by
  cases frac with
  | none =>
    refine ⟨st, ?_, hleft⟩
    rw [parseFraction]
    by_cases hended : streamEnded st = true
    · rw [if_pos hended]
      rfl
    · cases hrest : rest with
      | nil =>
        rw [hrest] at hleft
        exact absurd (streamEnded_nil hleft) hended
      | cons b w =>
        rw [hrest] at hleft
        have hb := (Bool.or_eq_false_iff.mp (hstop b (by rw [hrest]; rfl))).2
        rw [if_neg hended, peekU8_cons hleft, ok_bind, if_neg (of_decide_eq_false hb)]
        rfl
  | some ds =>
    have hds := hfrac ds rfl
    cases ds with
    | nil => exact absurd rfl hds.nonempty
    | cons d ds =>
      have hd := hds.digits d List.mem_cons_self
      have hpoint : Cursor.left (st.advance 1) = d :: (ds ++ rest) := left_advance_one hleft
      have hbehind := left_advance_one hpoint
      have htake := takeWhile_stops (fun x hx => hds.digits x (List.mem_cons_of_mem _ hx)) (stops_digit hstop)
      rw [parseFraction, streamEnded_cons hleft, if_neg (by decide), peekU8_cons hleft, ok_bind,
        if_pos (show UInt8.toNat 0x2E = 0x2E from rfl), seek_one hleft, ok_bind, readU8_cons hpoint, ok_bind]
      dsimp only
      rw [isDigit_toNat, hd, if_neg (by decide), digitsLoop_eq _ _ (by rw [remaining_eq]; omega), hbehind, htake]
      refine ⟨_, rfl, ?_⟩
      exact left_behind hbehind

theorem parseExpSign_word {sign : Option UInt8} {d : UInt8} {w : Str} (hd : Json.isDigit d = true)
    (hsign : ∀ s ∈ sign, s.toNat = 0x2B ∨ s.toNat = 0x2D) (hleft : Cursor.left st = sign.toList ++ (d :: w)) :
    ∃ st', parseExpSign st = .ok (decide (sign = some 0x2D), st') ∧ Cursor.left st' = d :: w := by
  cases sign with
  | none =>
    refine ⟨st, ?_, hleft⟩
    simp only [Json.isDigit, Bool.and_eq_true, decide_eq_true_eq] at hd
    rw [parseExpSign, peekU8_cons hleft, ok_bind, if_neg (by omega)]
    rfl
  | some s =>
    refine ⟨st.advance 1, ?_, left_advance_one hleft⟩
    have hiff : s.toNat = 0x2D ↔ some s = some 0x2D := by
      rw [Option.some.injEq]
      exact ⟨fun heq => UInt8.toNat_inj.mp heq, fun heq => by rw [heq]; rfl⟩
    rw [parseExpSign, peekU8_cons hleft, ok_bind, if_pos (hsign s rfl), seek_one hleft, ok_bind,
      decide_eq_decide.mpr hiff]

theorem parseExponent_word {exp : Option Json.Exponent} (hleft : Cursor.left st = exp.elim [] (·.word) ++ rest)
    (hrest : Follows rest) :
    ∃ st', parseExponent numI numF st = .ok (exp.elim numF fun e => some (numF.getD numI * 10 ^ e.value), st') ∧
      Cursor.left st' = rest := by
  cases exp with
  | none =>
    refine ⟨st, ?_, hleft⟩
    rw [parseExponent]
    by_cases hended : streamEnded st = true
    · rw [if_pos hended]
      rfl
    · cases hw : rest with
      | nil =>
        rw [hw] at hleft
        exact absurd (streamEnded_nil hleft) hended
      | cons b w =>
        rw [hw] at hleft
        have hfollow := isFollow_toNat (hrest b (by rw [hw]; rfl))
        rw [if_neg hended, peekU8_cons hleft, ok_bind, if_neg (by omega)]
        rfl
  | some e =>
    have hmark := e.mark_eq
    have hnext : Cursor.left (st.advance 1) = e.sign.toList ++ (e.digits ++ rest) :=
      (left_advance_one hleft).trans (List.append_assoc ..)
    have hdigits := e.isDigits
    cases hds : e.digits with
    | nil => exact absurd hds hdigits.nonempty
    | cons d ds =>
      rw [hds] at hdigits
      rw [hds, List.cons_append] at hnext
      have hd := hdigits.digits d List.mem_cons_self
      obtain ⟨st1, hsign, hleft1⟩ := parseExpSign_word hd e.sign_eq hnext
      have hbehind := left_advance_one hleft1
      have hstop : Stops Json.isDigit rest := fun b hb => by
        have hfollow := isFollow_toNat (hrest b hb)
        simp only [Json.isDigit, Bool.and_eq_false_iff, decide_eq_false_iff_not]
        omega
      have htake := takeWhile_stops (fun x hx => hdigits.digits x (List.mem_cons_of_mem _ hx)) hstop
      have hfold := expFold_eq hdigits.digits
      rw [List.foldl_cons] at hfold
      have hended : streamEnded st = false := by
        rw [streamEnded_cons hleft, decide_eq_false_iff_not]
        omega
      have hexp : parseExpDigits (st.advance 1) = .ok (e.value, (st1.advance 1).advance ds.length) := by
        rw [parseExpDigits, hsign, ok_bind]
        dsimp only
        rw [readU8_cons hleft1, ok_bind]
        dsimp only
        rw [isDigit_toNat, hd, if_neg (by decide), digitsLoop_eq _ _ (by rw [remaining_eq]; omega), hbehind, htake,
          hfold, ok_bind, Json.Exponent.value, hds]
        simp only [decide_eq_true_eq]
      rw [parseExponent, hended, if_neg (by decide), peekU8_cons hleft, ok_bind, if_pos hmark.symm,
        seek_one hleft, ok_bind,
        hexp, ok_bind]
      refine ⟨_, rfl, ?_⟩
      exact left_behind hbehind

end Parts

/-! ### Literals -/

/-- What the code makes of a literal. -/
def readLiteral (l : Literal) : JsonNumber :=
  match l.exp.elim (l.frac.map (weigh (Json.decimal l.int))) fun e =>
      some ((l.frac.map (weigh (Json.decimal l.int))).getD (Json.decimal l.int : ℤ) * 10 ^ e.value) with
  | none => .i (Json.decimal l.int * l.sign)
  | some v => .f (v * l.sign)

section Number
variable {st st' : Stream} {rest : Str}

theorem sign_fits {n : ℕ} (hn : n < 2 ^ 63) (neg : Bool) :
    i64.mul n (if neg then -1 else 1) = some ((n : ℤ) * if neg then -1 else 1) := by
  have hfits : i64.Fits ((n : ℤ) * if neg then -1 else 1) := by
    simp only [i64, CInt.Ty.Fits, if_true]
    cases neg with
    | true => rw [if_pos rfl]; omega
    | false => rw [if_neg (by decide)]; omega
  rw [CInt.Ty.mul, CInt.Ty.arith, if_pos (show i64.signed = true from rfl), CInt.Ty.exact, if_pos hfits]

/-- What `json_parse_number` accepts is a literal whose integer fits. -/
theorem parseNumber_ok {x : JsonNumber} (h : parseNumber st = .ok (x, st')) :
    ∃ l : Literal, Cursor.left st = l.word ++ Cursor.left st' ∧ Json.decimal l.int < 2 ^ 63 ∧ x = readLiteral l := by
  obtain ⟨⟨sign, st1⟩, hsign, h⟩ := bind_eq_ok.mp h
  obtain ⟨⟨numI, st2⟩, hint, h⟩ := bind_eq_ok.mp h
  obtain ⟨⟨numF, st3⟩, hfrac, h⟩ := bind_eq_ok.mp h
  obtain ⟨⟨numF', st4⟩, hexp, h⟩ := bind_eq_ok.mp h
  obtain ⟨neg, hneg, rfl⟩ := parseSign_ok hsign
  obtain ⟨ds, hds, hzero, hdigits, rfl, hfits⟩ := parseInt_ok hint
  obtain ⟨frac, hfracs, hpoint, rfl⟩ := parseFraction_ok hfrac
  obtain ⟨exp, hmark, rfl⟩ := parseExponent_ok hexp
  let l : Literal := ⟨neg, ds, frac, exp, hds, hzero, hfracs⟩
  have hword : Cursor.left st = l.word ++ Cursor.left st4 := by
    rw [hneg, hdigits, hpoint, hmark, Literal.word, List.append_assoc, List.append_assoc, List.append_assoc]
    rfl
  dsimp only at h
  cases hread : exp.elim (frac.map (weigh (Json.decimal ds))) fun e =>
      some ((frac.map (weigh (Json.decimal ds))).getD (Json.decimal ds : ℤ) * 10 ^ e.value) with
  | none =>
    rw [hread] at h
    dsimp only at h
    rw [sign_fits hfits] at h
    cases h
    refine ⟨l, hword, hfits, ?_⟩
    simp only [readLiteral, l, hread]
    rfl
  | some v =>
    rw [hread] at h
    cases h
    refine ⟨l, hword, hfits, ?_⟩
    simp only [readLiteral, l, hread]
    rfl

/-- The sign and the digits of the integer. -/
theorem parseInt_literal (l : Literal) (hleft : Cursor.left st = l.word ++ rest) (hrest : Follows rest) :
    ∃ st1 st2, parseSign st = .ok (if l.neg then -1 else 1, st1) ∧
      parseInt st1 = (if Json.decimal l.int < 2 ^ 63 then .ok ((Json.decimal l.int : ℤ), st2)
        else undef "signed overflow") ∧ Cursor.left st2 = l.fracWord ++ (l.expWord ++ rest) := by
  have hsplit : Cursor.left st = l.signWord ++ (l.int ++ (l.fracWord ++ (l.expWord ++ rest))) := by
    rw [hleft, Literal.word, List.append_assoc, List.append_assoc, List.append_assoc]
  obtain ⟨d, ds, hds⟩ := List.exists_cons_of_ne_nil l.isInt.nonempty
  have hd : Json.isDigit d = true := l.isInt.digits d (by rw [hds]; exact List.mem_cons_self)
  have hcons : Cursor.left st = (if l.neg then [0x2D] else []) ++
    (d :: (ds ++ (l.fracWord ++ (l.expWord ++ rest)))) := by
    rw [hsplit, hds]
    rfl
  obtain ⟨st1, hsign, hleft1⟩ := parseSign_word hd hcons
  have hleft1' : Cursor.left st1 = l.int ++ (l.fracWord ++ (l.expWord ++ rest)) := by
    rw [hleft1, hds]
    rfl
  exact ⟨st1, st1.advance l.int.length, hsign,
    parseInt_word l.isInt l.noZero hleft1' (fracWord_stops (expWord_stops l.exp hrest)), left_behind hleft1'⟩

theorem parseNumber_word (l : Literal) (hleft : Cursor.left st = l.word ++ rest) (hrest : Follows rest)
    (hfits : Json.decimal l.int < 2 ^ 63) :
    ∃ st', parseNumber st = .ok (readLiteral l, st') ∧ Cursor.left st' = rest := by
  obtain ⟨st1, st2, hsign, hint, hleft2⟩ := parseInt_literal l hleft hrest
  rw [if_pos hfits] at hint
  obtain ⟨st3, hfrac, hleft3⟩ : ∃ st3, parseFraction (Json.decimal l.int) st2 =
      .ok (l.frac.map (weigh (Json.decimal l.int)), st3) ∧ Cursor.left st3 = l.expWord ++ rest :=
    parseFraction_word l.isFrac hleft2 (expWord_stops l.exp hrest)
  obtain ⟨st4, hexp, hleft4⟩ := @parseExponent_word st3 (Json.decimal l.int)
    (l.frac.map (weigh (Json.decimal l.int))) rest l.exp hleft3 hrest
  refine ⟨st4, ?_, hleft4⟩
  rw [parseNumber, hsign, ok_bind]
  dsimp only
  rw [hint, ok_bind]
  dsimp only
  rw [hfrac, ok_bind]
  dsimp only
  rw [hexp, ok_bind, readLiteral]
  dsimp only
  cases l.exp.elim (l.frac.map (weigh (Json.decimal l.int))) fun e =>
      some ((l.frac.map (weigh (Json.decimal l.int))).getD (Json.decimal l.int : ℤ) * 10 ^ e.value) with
  | none =>
    dsimp only
    rw [sign_fits hfits]
    rfl
  | some v => rfl

theorem parseNumber_overflow (l : Literal) (hleft : Cursor.left st = l.word ++ rest) (hrest : Follows rest)
    (hfits : ¬ Json.decimal l.int < 2 ^ 63) : parseNumber st = undef "signed overflow" := by
  obtain ⟨st1, st2, hsign, hint, -⟩ := parseInt_literal l hleft hrest
  rw [if_neg hfits] at hint
  rw [parseNumber, hsign, ok_bind]
  dsimp only
  rw [hint]
  rfl

end Number

/-! ### Values -/

theorem le_weigh (ds : Str) {x y : ℚ} (hy : 0 ≤ y) : x ≤ (ds.foldl (fun x d => addFrac x d.toNat) (x, y)).1 := by
  induction ds generalizing x y with
  | nil => exact le_refl _
  | cons d ds ih =>
    have hd : (0 : ℚ) ≤ y * d.toNat := by positivity
    have hrest := ih (x := x + y * d.toNat) (y := y * y) (mul_nonneg hy hy)
    rw [List.foldl_cons]
    exact le_trans (by linarith) hrest

/-- The character of a digit is at least 48, so that the first digit alone adds more than 1. -/
theorem weigh_gt {ds : Str} (hds : Digits ds) (numI : ℤ) : (numI : ℚ) + 1 < weigh numI ds := by
  cases ds with
  | nil => exact absurd rfl hds.nonempty
  | cons d ds =>
    have hd := hds.digits d List.mem_cons_self
    simp only [Json.isDigit, Bool.and_eq_true, decide_eq_true_eq] at hd
    have hchar : (48 : ℚ) ≤ d.toNat := by exact_mod_cast hd.1
    have hrest := le_weigh ds (x := (numI : ℚ) + 1 / 10 * d.toNat) (y := 1 / 10 * (1 / 10)) (by norm_num)
    have hfirst : (numI : ℚ) + 1 < numI + 1 / 10 * d.toNat := by linarith
    exact lt_of_lt_of_le hfirst hrest

theorem decimalFrom_lt {ds : Str} (hds : ∀ d ∈ ds, Json.isDigit d = true) (n : ℕ) :
    decimalFrom n ds < (n + 1) * 10 ^ ds.length := by
  induction ds generalizing n with
  | nil => simp [decimalFrom]
  | cons d ds ih =>
    have hd := hds d List.mem_cons_self
    simp only [Json.isDigit, Bool.and_eq_true, decide_eq_true_eq] at hd
    have hval : Json.digitVal d ≤ 9 := by
      rw [Json.digitVal]
      omega
    have hrest := ih (fun x hx => hds x (List.mem_cons_of_mem _ hx)) (n * 10 + Json.digitVal d)
    have hle : (n * 10 + Json.digitVal d + 1) * 10 ^ ds.length ≤ ((n + 1) * 10) * 10 ^ ds.length :=
      Nat.mul_le_mul_right _ (by omega)
    calc decimalFrom n (d :: ds) = decimalFrom (n * 10 + Json.digitVal d) ds := rfl
      _ < (n * 10 + Json.digitVal d + 1) * 10 ^ ds.length := hrest
      _ ≤ (n + 1) * 10 * 10 ^ ds.length := hle
      _ = (n + 1) * 10 ^ (d :: ds).length := by rw [List.length_cons, Nat.pow_succ]; ring

/-- A fraction is less than 1. -/
theorem fraction_lt_one {ds : Str} (hds : ∀ d ∈ ds, Json.isDigit d = true) :
    (Json.decimal ds : ℚ) / 10 ^ ds.length < 1 := by
  have hlt := decimalFrom_lt hds 0
  rw [Nat.zero_add, Nat.one_mul] at hlt
  rw [div_lt_one (by positivity)]
  exact_mod_cast hlt

/-- A fraction without an exponent is never read right. -/
theorem readLiteral_fraction {l : Literal} (hfrac : l.frac.isSome = true) (hexp : l.exp = none) :
    readLiteral l ≠ .f l.value := by
  obtain ⟨ds, hds⟩ := Option.isSome_iff_exists.mp hfrac
  have hdigits := l.isFrac ds hds
  have hgt := weigh_gt hdigits (Json.decimal l.int)
  have hlt := fraction_lt_one hdigits.digits
  have hread : readLiteral l = .f (weigh (Json.decimal l.int) ds * l.sign) := by
    simp only [readLiteral, hexp, hds, Option.elim_none, Option.map_some]
  have hvalue : l.value = l.sign * (Json.decimal l.int + Json.decimal ds / 10 ^ ds.length) := by
    simp only [Literal.value, Literal.fracValue, hexp, hds, Option.elim_none, Option.elim_some, mul_one]
  rw [hread, hvalue]
  intro heq
  have heq := JsonNumber.f.inj heq
  have hsign : (l.sign : ℚ) ≠ 0 := by
    rw [Literal.sign]
    cases l.neg <;> decide
  have hsame : weigh (Json.decimal l.int) ds = Json.decimal l.int + Json.decimal ds / 10 ^ ds.length := by
    rw [mul_comm] at heq
    exact mul_left_cancel₀ hsign heq
  rw [Int.cast_natCast] at hgt
  rw [hsame] at hgt
  linarith

/-- The numbers that an integer literal and a literal with a fraction must be read as. -/
structure ReadRight (st : Stream) (l : Literal) (rest : Str) : Prop where
  integer : l.IsInteger → i64.Fits l.intValue →
    ∃ st', parseNumber st = .ok (.i l.intValue, st') ∧ Cursor.left st' = rest
  fraction : l.frac.isSome = true → l.exp = none →
    ∃ st', parseNumber st = .ok (.f l.value, st') ∧ Cursor.left st' = rest

/-- Wherever a literal stands, it is read right if and only if it is not the smallest integer and has no fraction
without an exponent. -/
theorem parseNumber_value_iff (l : Literal) (st : Stream) (rest : Str) (hleft : Cursor.left st = l.word ++ rest)
    (hrest : Follows rest) :
    ReadRight st l rest ↔ ¬ (l.IsInteger ∧ l.intValue = -2 ^ 63) ∧ ¬ (l.frac.isSome = true ∧ l.exp = none) := by
  have hvalue : l.intValue = if l.neg then -(Json.decimal l.int : ℤ) else Json.decimal l.int := by
    rw [Literal.intValue, Literal.sign]
    cases l.neg <;> simp
  constructor
  · intro h
    constructor
    · rintro ⟨hint, hmin⟩
      have hfits : i64.Fits l.intValue := by
        rw [hmin]
        decide
      obtain ⟨st', hok, -⟩ := h.integer hint hfits
      have hlarge : ¬ Json.decimal l.int < 2 ^ 63 := by
        rw [hvalue] at hmin
        split at hmin <;> omega
      rw [parseNumber_overflow l hleft hrest hlarge] at hok
      simp at hok
    · rintro ⟨hfrac, hexp⟩
      obtain ⟨st', hok, -⟩ := h.fraction hfrac hexp
      by_cases hfits : Json.decimal l.int < 2 ^ 63
      · obtain ⟨st2, hread, -⟩ := parseNumber_word l hleft hrest hfits
        rw [hread] at hok
        exact readLiteral_fraction hfrac hexp (Prod.mk.inj (Except.ok.inj hok)).1
      · rw [parseNumber_overflow l hleft hrest hfits] at hok
        simp at hok
  · rintro ⟨hmin, hfraction⟩
    constructor
    · intro hint hfits
      have hsmall : Json.decimal l.int < 2 ^ 63 := by
        have hne : l.intValue ≠ -2 ^ 63 := fun heq => hmin ⟨hint, heq⟩
        have hrange : -2 ^ 63 ≤ l.intValue ∧ l.intValue < 2 ^ 63 := hfits
        rw [hvalue] at hrange hne
        cases hneg : l.neg with
        | true =>
          rw [hneg, if_pos rfl] at hrange hne
          omega
        | false =>
          rw [hneg, if_neg (by decide)] at hrange hne
          omega
      have hread : readLiteral l = .i l.intValue := by
        obtain ⟨hfrac, hexp⟩ := hint
        simp only [readLiteral, hfrac, hexp, Option.elim_none, Option.map_none, Literal.intValue, mul_comm]
      rw [← hread]
      exact parseNumber_word l hleft hrest hsmall
    · intro hfrac hexp
      exact absurd ⟨hfrac, hexp⟩ hfraction

def twelve : Literal where
  neg := false
  int := [0x31, 0x32]
  frac := none
  exp := none
  isInt := ⟨List.cons_ne_nil _ _, List.all_eq_true.mp rfl⟩
  noZero := by decide
  isFrac := by simp

theorem parseNumber_value_twelve : ReadRight (Stream.from_ (twelve.word ++ [0x20])) twelve [0x20] ↔
    ¬ (twelve.IsInteger ∧ twelve.intValue = -2 ^ 63) ∧ ¬ (twelve.frac.isSome = true ∧ twelve.exp = none) :=
  parseNumber_value_iff twelve (Stream.from_ (twelve.word ++ [0x20])) [0x20] rfl (by rintro _ ⟨⟩; rfl)

/-- `-9223372036854775808` -/
def lowest : Literal where
  neg := true
  int := [0x39, 0x32, 0x32, 0x33, 0x33, 0x37, 0x32, 0x30, 0x33, 0x36, 0x38, 0x35, 0x34, 0x37, 0x37, 0x35, 0x38, 0x30,
    0x38]
  frac := none
  exp := none
  isInt := ⟨List.cons_ne_nil _ _, List.all_eq_true.mp rfl⟩
  noZero := by decide
  isFrac := by simp

/-- `1.5` -/
def oneAndHalf : Literal where
  neg := false
  int := [0x31]
  frac := some [0x35]
  exp := none
  isInt := ⟨List.cons_ne_nil _ _, List.all_eq_true.mp rfl⟩
  noZero := by decide
  isFrac := by
    rintro _ ⟨⟩
    exact ⟨List.cons_ne_nil _ _, List.all_eq_true.mp rfl⟩

/-- The smallest integer overflows on the way, and `1.5` is read as `6.3`. -/
theorem number_misread : ¬ ReadRight (Stream.from_ lowest.word) lowest [] ∧
    ¬ ReadRight (Stream.from_ oneAndHalf.word) oneAndHalf [] := by
  have hlowest : parseNumber (Stream.from_ lowest.word) = undef "signed overflow" := by decide +kernel
  have hhalf : parseNumber (Stream.from_ oneAndHalf.word) =
      .ok (.f (63 / 10), (Stream.from_ oneAndHalf.word).advance 3) := by
    decide +kernel
  constructor
  · intro h
    obtain ⟨st', hok, -⟩ := h.integer ⟨rfl, rfl⟩ (by decide)
    rw [hlowest] at hok
    cases hok
  · intro h
    obtain ⟨st', hok, -⟩ := h.fraction rfl rfl
    rw [hhalf] at hok
    have hvalue : (63 / 10 : ℚ) = oneAndHalf.value := JsonNumber.f.inj (Prod.mk.inj (Except.ok.inj hok)).1
    exact absurd hvalue (by decide +kernel)

end Sjson

end Silverfir
