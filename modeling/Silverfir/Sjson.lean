import Silverfir.Stream
import Silverfir.Lib.CInt
import Silverfir.Lib.Json

/-! The parser of `sjson.c`. Allocation succeeds, and the stack holds every recursion. -/
namespace Silverfir

namespace Stream

def peekU8 (st : Stream) : R ℕ :=
  match st.byteAt? 0 with
  | none => notEnough
  | some b => .ok b

/-- `!strncmp((const char *)(st->p), lit, n)` for the `n` characters of `lit`; behind the buffer nothing matches. -/
def startsWith (st : Stream) (lit : Str) : Bool := lit.isPrefixOf (st.s.drop st.p)

end Stream

namespace Sjson

/-- `json_number`; an `f64` is an exact number. -/
inductive JsonNumber where
  | i (v : ℤ)
  | f (v : ℚ)
  deriving DecidableEq, Repr

abbrev JsonValue := Json.Tree JsonNumber

def invalid {α : Type} : R α := err .general "Invalid JSON format"

/-! ### Characters -/

def isWs (c : ℕ) : Bool := c = 0x20 || c = 0x0A || c = 0x0D || c = 0x09

def isDigit (c : ℕ) : Bool := 0x30 ≤ c && c ≤ 0x39

def isHex (c : ℕ) : Bool := isDigit c || (0x61 ≤ c && c ≤ 0x66) || (0x41 ≤ c && c ≤ 0x46)

/-- The loop of `eat_ws`; every pass takes a byte, so that what remains bounds the passes. -/
def eatWsLoop : ℕ → Stream → Stream
  | 0, st => st
  | n + 1, st =>
    match st.byteAt? 0 with
    | none => st
    | some c => if isWs c then eatWsLoop n (st.advance 1) else st

def eatWs (st : Stream) : Stream := eatWsLoop st.remaining st

/-- `stream_ended`: at the end, or at a zero byte. -/
def streamEnded (st : Stream) : Bool :=
  match st.byteAt? 0 with
  | none => true
  | some c => c = 0

/-! ### Strings -/

def parseHex : ℕ → Stream → R Stream
  | 0, st => .ok st
  | n + 1, st => do
    let (h, st) ← st.readU8
    if isHex h then parseHex n st else invalid

def parseEscape (st : Stream) : R Stream := do
  let (c, st) ← st.readU8
  if c = 0x5C ∨ c = 0x22 ∨ c = 0x2F ∨ c = 0x62 ∨ c = 0x66 ∨ c = 0x6E ∨ c = 0x72 ∨ c = 0x74 then .ok st
  else if c = 0x75 then parseHex 4 st
  else invalid

/-- A backslash in the loop of `json_parse_string`. -/
def skipEscape (c : ℕ) (st : Stream) : R Stream := if c = 0x5C then parseEscape st else .ok st

/-- The loop of `json_parse_string`, up to the closing quote. -/
def stringLoop : ℕ → Stream → R Stream
  | 0, _ => undef "while (true)"
  | n + 1, st => do
    let (c, st) ← st.readU8
    if c = 0x22 then .ok st
    else do
      let st ← skipEscape c st
      if c < 0x20 then invalid else stringLoop n st

/-- The string is the slice between the quotes; an empty one is left null. -/
def parseString (st : Stream) : R (Str × Stream) := do
  let (c, st) ← (eatWs st).readU8
  if c ≠ 0x22 then invalid
  else do
    let p := st.p
    let st ← stringLoop (st.remaining + 1) st
    .ok (if st.p ≠ p + 1 then (st.s.drop p).take (st.p - p - 1) else [], st)

/-! ### Numbers -/

def i64 : CInt.Ty := ⟨64, true⟩

def defined {α : Type} (what : String) (x : Option α) : R α :=
  match x with
  | none => undef what
  | some a => .ok a

/-- `num_i = num_i * 10 + (d - '0')` -/
def addDigit (numI : ℤ) (d : ℕ) : R ℤ := do
  let tens ← defined "signed overflow" (i64.mul numI 10)
  defined "signed overflow" (i64.add tens ((d : ℤ) - 0x30))

/-- The digits of the integer. The first is known to be a digit. -/
def intLoop : ℕ → ℤ → Stream → R (ℤ × Stream)
  | 0, _, _ => undef "while (true)"
  | n + 1, numI, st => do
    let (d, st) ← st.readU8
    if !isDigit d then do
      let st ← st.seek (-1)
      .ok (numI, st)
    else do
      let numI ← addDigit numI d
      if streamEnded st then .ok (numI, st) else intLoop n numI st

def parseSign (st : Stream) : R (ℤ × Stream) := do
  let c ← st.peekU8
  if c = 0x2D then do
    let st ← st.seek 1
    .ok (-1, st)
  else .ok (1, st)

def parseInt (st : Stream) : R (ℤ × Stream) := do
  let c ← st.peekU8
  if !isDigit c then invalid
  else if c ≠ 0x30 then intLoop (st.remaining + 1) 0 st
  else do
    let st ← st.seek 1
    .ok (0, st)

/-- The digits behind the first one of a fraction or of an exponent. -/
def digitsLoop {α : Type} (add : α → ℕ → α) : ℕ → α → Stream → R (α × Stream)
  | 0, _, _ => undef "while (true)"
  | n + 1, a, st =>
    if streamEnded st then .ok (a, st)
    else do
      let (d, st) ← st.readU8
      if !isDigit d then do
        let st ← st.seek (-1)
        .ok (a, st)
      else digitsLoop add n (add a d) st

/-- `num_f` and `frac`: the character is taken for the digit, and the weight is squared. -/
def addFrac (x : ℚ × ℚ) (d : ℕ) : ℚ × ℚ := (x.1 + x.2 * d, x.2 * x.2)

/-- `exp` is an `f64` without a fraction. -/
def addExp (exp : ℤ) (d : ℕ) : ℤ := exp * 10 + ((d : ℤ) - 0x30)

/-- The number with the fraction, if there is one. -/
def parseFraction (numI : ℤ) (st : Stream) : R (Option ℚ × Stream) :=
  if streamEnded st then .ok (none, st)
  else do
    let c ← st.peekU8
    if c = 0x2E then do
      let st ← st.seek 1
      let (d, st) ← st.readU8
      if !isDigit d then invalid
      else do
        let (x, st) ← digitsLoop addFrac (st.remaining + 1) (addFrac (numI, 1 / 10) d) st
        .ok (some x.1, st)
    else .ok (none, st)

/-- The sign of an exponent: whether it is negative. -/
def parseExpSign (st : Stream) : R (Bool × Stream) := do
  let d ← st.peekU8
  if d = 0x2B ∨ d = 0x2D then do
    let st ← st.seek 1
    .ok (decide (d = 0x2D), st)
  else .ok (false, st)

/-- What comes behind `e` or `E`. -/
def parseExpDigits (st : Stream) : R (ℤ × Stream) := do
  let (neg, st) ← parseExpSign st
  let (e, st) ← st.readU8
  if !isDigit e then invalid
  else do
    let (exp, st) ← digitsLoop addExp (st.remaining + 1) (addExp 0 e) st
    .ok (if neg then -exp else exp, st)

/-- The number as an `f64`, if there is a fraction or an exponent. -/
def parseExponent (numI : ℤ) (numF : Option ℚ) (st : Stream) : R (Option ℚ × Stream) :=
  if streamEnded st then .ok (numF, st)
  else do
    let c ← st.peekU8
    if c = 0x45 ∨ c = 0x65 then do
      let st ← st.seek 1
      let (exp, st) ← parseExpDigits st
      .ok (some (numF.getD numI * 10 ^ exp), st)
    else .ok (numF, st)

def parseNumber (st : Stream) : R (JsonNumber × Stream) := do
  let (sign, st) ← parseSign st
  let (numI, st) ← parseInt st
  let (numF, st) ← parseFraction numI st
  let (numF, st) ← parseExponent numI numF st
  match numF with
  | none => do
    let v ← defined "signed overflow" (i64.mul numI sign)
    .ok (.i v, st)
  | some v => .ok (.f (v * sign), st)

/-! ### Values -/

/-- The loops of `json_parse_array` and `json_parse_object`. -/
def groupLoop {α : Type} (closing : ℕ) (item : Stream → R (α × Stream)) : ℕ → List α → Stream → R (List α × Stream)
  | 0, _, _ => undef "while (true)"
  | n + 1, xs, st => do
    let (x, st) ← item (eatWs st)
    let (d, st) ← (eatWs st).readU8
    if d = 0x2C then groupLoop closing item n (xs ++ [x]) st
    else if d = closing then .ok (xs ++ [x], st)
    else invalid

/-- What the two functions share. -/
def parseGroup {α : Type} (opening closing : ℕ) (item : Stream → R (α × Stream)) (st : Stream) :
    R (List α × Stream) := do
  let (c, st) ← (eatWs st).readU8
  if c ≠ opening then invalid
  else do
    let st := eatWs st
    let d ← st.peekU8
    if d = closing then do
      let st ← st.seek 1
      .ok ([], st)
    else groupLoop closing item (st.remaining + 1) [] st

/-- `json_parse_array` -/
def parseArray (value : Stream → R (JsonValue × Stream)) : Stream → R (List JsonValue × Stream) :=
  parseGroup 0x5B 0x5D value

/-- One pass of the loop of `json_parse_object`: the key, the colon and the value. -/
def parseMember (value : Stream → R (JsonValue × Stream)) (st : Stream) : R ((Str × JsonValue) × Stream) := do
  let (k, st) ← parseString st
  let (colon, st) ← (eatWs st).readU8
  if colon ≠ 0x3A then invalid
  else do
    let (v, st) ← value (eatWs st)
    .ok ((k, v), st)

/-- `json_parse_object` -/
def parseObject (value : Stream → R (JsonValue × Stream)) : Stream → R (List (Str × JsonValue) × Stream) :=
  parseGroup 0x7B 0x7D (parseMember value)

def trueLit : Str := [0x74, 0x72, 0x75, 0x65]
def falseLit : Str := [0x66, 0x61, 0x6C, 0x73, 0x65]
def nullLit : Str := [0x6E, 0x75, 0x6C, 0x6C]

def caseString (st : Stream) : R (JsonValue × Stream) := do
  let (raw, st) ← parseString st
  .ok (.str raw, st)

def caseNull (st : Stream) : R (JsonValue × Stream) :=
  if st.startsWith nullLit then do
    let (_, st) ← st.slice 4
    .ok (.null, st)
  else caseString st

def caseFalse (st : Stream) : R (JsonValue × Stream) :=
  if st.remaining ≥ 5 ∧ st.startsWith falseLit then do
    let (_, st) ← st.slice 5
    .ok (.bool false, st)
  else caseNull st

def caseTrue (st : Stream) : R (JsonValue × Stream) :=
  if st.startsWith trueLit then do
    let (_, st) ← st.slice 4
    .ok (.bool true, st)
  else caseFalse st

/-- `json_parse_value`. The cases of the words fall through to the next one. The first argument bounds the depth
of the recursion. -/
def parseValue : ℕ → Stream → R (JsonValue × Stream)
  | 0, _ => undef "recursion"
  | n + 1, st => do
    let st := eatWs st
    let c ← st.peekU8
    if c = 0x7B then do
      let (obj, st) ← parseObject (parseValue n) st
      .ok (.obj obj, st)
    else if c = 0x5B then do
      let (arr, st) ← parseArray (parseValue n) st
      .ok (.arr arr, st)
    else if c = 0x74 then caseTrue st
    else if c = 0x66 then caseFalse st
    else if c = 0x6E then caseNull st
    else if c = 0x22 then caseString st
    else do
      let (num, st) ← parseNumber st
      .ok (.num num, st)

/-- `json_parse`; `none` is the value with the tag `json_type_invalid`. -/
def jsonParse (json : Str) : R (Option JsonValue) :=
  if json = [] then .ok none
  else do
    let st := eatWs (Stream.from_ json)
    if streamEnded st then .ok none
    else do
      let (value, st) ← parseValue (st.remaining + 1) st
      if !streamEnded (eatWs st) then invalid else .ok (some value)

end Sjson

end Silverfir
