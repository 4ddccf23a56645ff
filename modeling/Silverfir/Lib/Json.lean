import Mathlib.Data.Rat.Defs
import Mathlib.Algebra.Field.Rat
import Mathlib.Algebra.Order.Field.Basic
import Mathlib.Data.Rat.Lemmas
import Mathlib.Tactic.Common

/-! The grammar of JSON over bytes, as ECMA-404 has it, and the numbers that its literals denote.
Bytes from 0x80 on are not interpreted. -/
namespace Json

abbrev Bytes := List UInt8

/-! ### Characters -/

def isWs (c : UInt8) : Bool := c.toNat = 0x20 || c.toNat = 0x0A || c.toNat = 0x0D || c.toNat = 0x09

/-- Whitespace, of any length. -/
def Ws (w : Bytes) : Prop := ∀ c ∈ w, isWs c = true

def isDigit (c : UInt8) : Bool := 0x30 ≤ c.toNat && c.toNat ≤ 0x39

def isHex (c : UInt8) : Bool :=
  isDigit c || (0x61 ≤ c.toNat && c.toNat ≤ 0x66) || (0x41 ≤ c.toNat && c.toNat ≤ 0x46)

/-- The characters that may stand behind a backslash, `u` apart: a backslash, `"`, `/`, `b`, `f`, `n`, `r`
and `t`. -/
def isEscape (c : UInt8) : Bool :=
  c.toNat = 0x5C || c.toNat = 0x22 || c.toNat = 0x2F || c.toNat = 0x62 || c.toNat = 0x66 || c.toNat = 0x6E ||
    c.toNat = 0x72 || c.toNat = 0x74

/-! ### Numbers -/

/-- One digit or more. -/
structure Digits (ds : Bytes) : Prop where
  nonempty : ds ≠ []
  digits : ∀ d ∈ ds, isDigit d = true

def digitVal (d : UInt8) : ℕ := d.toNat - 0x30

def decimal (ds : Bytes) : ℕ := ds.foldl (fun n d => n * 10 + digitVal d) 0

/-- `e` or `E`, an optional sign, and digits. -/
structure Exponent where
  mark : UInt8
  sign : Option UInt8
  digits : Bytes
  mark_eq : mark.toNat = 0x65 ∨ mark.toNat = 0x45
  sign_eq : ∀ s ∈ sign, s.toNat = 0x2B ∨ s.toNat = 0x2D
  isDigits : Digits digits

def Exponent.word (e : Exponent) : Bytes := e.mark :: (e.sign.toList ++ e.digits)

def Exponent.value (e : Exponent) : ℤ := if e.sign = some 0x2D then -decimal e.digits else decimal e.digits

/-- A number literal. There is no zero in front of another digit of the integer. -/
structure Literal where
  neg : Bool
  int : Bytes
  frac : Option Bytes
  exp : Option Exponent
  isInt : Digits int
  noZero : int.head? = some 0x30 → int = [0x30]
  isFrac : ∀ ds ∈ frac, Digits ds

namespace Literal
variable (l : Literal)

def signWord : Bytes := if l.neg then [0x2D] else []

def fracWord : Bytes := l.frac.elim [] (0x2E :: ·)

def expWord : Bytes := l.exp.elim [] (·.word)

def word : Bytes := l.signWord ++ (l.int ++ (l.fracWord ++ l.expWord))

def sign : ℤ := if l.neg then -1 else 1

/-- The integer in front of the fraction. -/
def intValue : ℤ := l.sign * decimal l.int

def fracValue : ℚ := l.frac.elim 0 fun ds => decimal ds / 10 ^ ds.length

/-- The number that the literal denotes. -/
def value : ℚ := l.sign * (decimal l.int + l.fracValue) * l.exp.elim 1 fun e => 10 ^ e.value

/-- Neither a fraction nor an exponent. -/
def IsInteger : Prop := l.frac = none ∧ l.exp = none

end Literal

/-! ### Strings -/

/-- What stands between the quotes. -/
inductive Chars : Bytes → Prop
  | nil : Chars []
  | plain {c : UInt8} {w : Bytes} (hc : 0x20 ≤ c.toNat) (hq : c ≠ 0x22) (hb : c ≠ 0x5C) (tail : Chars w) :
      Chars (c :: w)
  | escape {c : UInt8} {w : Bytes} (hc : isEscape c = true) (tail : Chars w) : Chars (0x5C :: c :: w)
  | unicode {a b c d : UInt8} {w : Bytes} (ha : isHex a = true) (hb : isHex b = true) (hc : isHex c = true)
      (hd : isHex d = true) (tail : Chars w) : Chars (0x5C :: 0x75 :: a :: b :: c :: d :: w)

/-! ### Values -/

/-- A value with its strings as they stand between the quotes. -/
inductive Tree (ν : Type) where
  | null
  | bool (b : Bool)
  | num (n : ν)
  | str (raw : Bytes)
  | arr (elements : List (Tree ν))
  | obj (members : List (Bytes × Tree ν))

/-- One item or more, with commas between them and whitespace around them. -/
inductive Items {α : Type} (E : α → Bytes → Prop) : List α → Bytes → Prop
  | one {x : α} {l w r : Bytes} (hl : Ws l) (h : E x w) (hr : Ws r) : Items E [x] (l ++ (w ++ r))
  | cons {x : α} {xs : List α} {l w r ws : Bytes} (hl : Ws l) (h : E x w) (hr : Ws r) (tail : Items E xs ws) :
      Items E (x :: xs) (l ++ (w ++ (r ++ (0x2C :: ws))))

/-- A key, a colon and a value. -/
inductive Member {α : Type} (E : α → Bytes → Prop) : Bytes × α → Bytes → Prop
  | mk {k w b c : Bytes} {x : α} (hk : Chars k) (hb : Ws b) (hc : Ws c) (h : E x w) :
      Member E (k, x) (0x22 :: (k ++ (0x22 :: (b ++ (0x3A :: (c ++ w))))))

/-- The bracketed items of an array or of an object. -/
inductive Group {α : Type} (opening closing : UInt8) (E : α → Bytes → Prop) : List α → Bytes → Prop
  | empty {b : Bytes} (hb : Ws b) : Group opening closing E [] (opening :: (b ++ [closing]))
  | items {xs : List α} {w : Bytes} (h : Items E xs w) : Group opening closing E xs (opening :: (w ++ [closing]))

/-- `N` says what number a literal stands for. -/
inductive Value {ν : Type} (N : ν → Literal → Prop) : Tree ν → Bytes → Prop
  | null : Value N .null [0x6E, 0x75, 0x6C, 0x6C]
  | true_ : Value N (.bool true) [0x74, 0x72, 0x75, 0x65]
  | false_ : Value N (.bool false) [0x66, 0x61, 0x6C, 0x73, 0x65]
  | num {n : ν} {l : Literal} (h : N n l) : Value N (.num n) l.word
  | str {raw : Bytes} (h : Chars raw) : Value N (.str raw) (0x22 :: (raw ++ [0x22]))
  | arr {xs : List (Tree ν)} {w : Bytes} (h : Group 0x5B 0x5D (Value N) xs w) : Value N (.arr xs) w
  | obj {xs : List (Bytes × Tree ν)} {w : Bytes} (h : Group 0x7B 0x7D (Member (Value N)) xs w) : Value N (.obj xs) w

/-- A value with whitespace around it. -/
inductive Text {ν : Type} (N : ν → Literal → Prop) : Tree ν → Bytes → Prop
  | mk {t : Tree ν} {l w r : Bytes} (hl : Ws l) (h : Value N t w) (hr : Ws r) : Text N t (l ++ (w ++ r))

/-! ### Facts about the grammar -/

theorem Ws.append {v w : Bytes} (hv : Ws v) (hw : Ws w) : Ws (v ++ w) := by
  intro c hc
  rcases List.mem_append.mp hc with hc | hc
  · exact hv c hc
  · exact hw c hc

/-- A change of what the items are, for items no longer than the whole. -/
theorem Items.imp {α : Type} {E E' : α → Bytes → Prop} {xs : List α} {ws : Bytes} (h : Items E xs ws)
    (himp : ∀ x w, w.length ≤ ws.length → E x w → E' x w) : Items E' xs ws := by
  induction h with
  | @one x l w r hl hx hr =>
    refine .one hl (himp x w ?_ hx) hr
    simp only [List.length_append]
    omega
  | @cons x xs l w r ws hl hx hr tail ih =>
    refine .cons hl (himp x w ?_ hx) hr (ih fun y v hv hy => himp y v ?_ hy)
    · simp only [List.length_append]
      omega
    · simp only [List.length_append, List.length_cons]
      omega

/-- Whitespace in front of the first item belongs to it. -/
theorem Items.space {α : Type} {E : α → Bytes → Prop} {xs : List α} {ws v : Bytes} (hv : Ws v) (h : Items E xs ws) :
    Items E xs (v ++ ws) := by
  cases h with
  | one hl hx hr =>
    rw [← List.append_assoc]
    exact .one (hv.append hl) hx hr
  | cons hl hx hr tail =>
    rw [← List.append_assoc]
    exact .cons (hv.append hl) hx hr tail

theorem Member.imp {α : Type} {E E' : α → Bytes → Prop} {x : Bytes × α} {ws : Bytes} (h : Member E x ws)
    (himp : ∀ x w, w.length < ws.length → E x w → E' x w) : Member E' x ws := by
  cases h with
  | @mk k w b c x hk hb hc hx =>
    refine .mk hk hb hc (himp x w ?_ hx)
    simp only [List.length_cons, List.length_append]
    omega

theorem Group.imp {α : Type} {opening closing : UInt8} {E E' : α → Bytes → Prop} {xs : List α} {ws : Bytes}
    (h : Group opening closing E xs ws) (himp : ∀ x w, w.length < ws.length → E x w → E' x w) :
    Group opening closing E' xs ws := by
  cases h with
  | empty hb => exact .empty hb
  | @items xs w h =>
    refine .items (h.imp fun x v hv => himp x v ?_)
    simp only [List.length_cons, List.length_append]
    omega

theorem Value.imp {ν : Type} {N N' : ν → Literal → Prop} (himp : ∀ n l, N n l → N' n l) {t : Tree ν} {w : Bytes}
    (h : Value N t w) : Value N' t w := by
  induction hk : w.length using Nat.strong_induction_on generalizing t w with
  | _ k ih =>
    subst hk
    cases h with
    | null => exact .null
    | true_ => exact .true_
    | false_ => exact .false_
    | num h => exact .num (himp _ _ h)
    | str h => exact .str h
    | arr h => exact .arr (h.imp fun x v hv hx => ih _ hv hx rfl)
    | obj h =>
      refine .obj (h.imp fun x v hv hx => ?_)
      exact hx.imp fun y u hu hy => ih _ (hu.trans hv) hy rfl

theorem Text.imp {ν : Type} {N N' : ν → Literal → Prop} (himp : ∀ n l, N n l → N' n l) {t : Tree ν} {w : Bytes}
    (h : Text N t w) : Text N' t w := by
  cases h with
  | mk hl hv hr => exact .mk hl (hv.imp himp) hr

/-- The first byte of a value. -/
def isStart (b : UInt8) : Bool :=
  isDigit b || b.toNat = 0x2D || b.toNat = 0x22 || b.toNat = 0x5B || b.toNat = 0x7B || b.toNat = 0x66 ||
    b.toNat = 0x6E || b.toNat = 0x74

theorem Literal.word_start (l : Literal) : ∃ b v, l.word = b :: v ∧ (isDigit b = true ∨ b.toNat = 0x2D) := by
  cases hneg : l.neg with
  | true =>
    refine ⟨0x2D, l.int ++ (l.fracWord ++ l.expWord), ?_, .inr rfl⟩
    rw [word, signWord, hneg]
    rfl
  | false =>
    obtain ⟨d, ds, hds⟩ := List.exists_cons_of_ne_nil l.isInt.nonempty
    refine ⟨d, ds ++ (l.fracWord ++ l.expWord), ?_, .inl (l.isInt.digits d ?_)⟩
    · rw [word, signWord, hneg, hds]
      rfl
    · rw [hds]
      exact List.mem_cons_self

theorem Value.start {ν : Type} {N : ν → Literal → Prop} {t : Tree ν} {w : Bytes} (h : Value N t w) :
    ∃ b v, w = b :: v ∧ isStart b = true := by
  cases h with
  | null => exact ⟨_, _, rfl, by decide⟩
  | true_ => exact ⟨_, _, rfl, by decide⟩
  | false_ => exact ⟨_, _, rfl, by decide⟩
  | @num n l h =>
    obtain ⟨b, v, hword, hb⟩ := l.word_start
    refine ⟨b, v, hword, ?_⟩
    rcases hb with hb | hb
    · rw [isStart, hb]
      rfl
    · rw [isStart, hb]
      simp
  | str h => exact ⟨_, _, rfl, by decide⟩
  | arr h => cases h <;> exact ⟨_, _, rfl, by decide⟩
  | obj h => cases h <;> exact ⟨_, _, rfl, by decide⟩

end Json
