import Silverfir.Result
import Silverfir.WasmFormat
import Mathlib.Tactic.Ring

/-! The bounds-checked readers of `stream.h` and their unchecked counterparts. A position is
an offset into the buffer; the interpreters keep only the offset, as the source keeps only `p`. -/
namespace Silverfir

structure Stream where
  s : Str
  p : ℕ
  deriving DecidableEq, Repr

namespace Stream

def from_ (s : Str) : Stream := ⟨s, 0⟩

def remaining (st : Stream) : ℕ := st.s.length - st.p

def advance (st : Stream) (n : ℕ) : Stream := { st with p := st.p + n }

def byteAt? (st : Stream) (offset : ℕ) : Option ℕ := (st.s[st.p + offset]?).map UInt8.toNat

def notEnough {α : Type} : R α := err .malformed "stream: not enough data"

def badLeb {α : Type} : R α := err .malformed "stream: invalid LEB123 encoding"

def readU8 (st : Stream) : R (ℕ × Stream) :=
  match st.byteAt? 0 with
  | none => notEnough
  | some b => .ok (b, st.advance 1)

/-- Little-endian, as `stream_read_u32` and the float readers assemble it. -/
def leBytes (bs : Str) : ℕ := bs.foldr (fun b acc => b.toNat + 256 * acc) 0

def readFixed (n : ℕ) (st : Stream) : R (ℕ × Stream) :=
  if st.remaining < n then notEnough
  else .ok (leBytes ((st.s.drop st.p).take n), st.advance n)

def readU32 (st : Stream) : R (ℕ × Stream) := readFixed 4 st
def readF32 (st : Stream) : R (ℕ × Stream) := readFixed 4 st
def readF64 (st : Stream) : R (ℕ × Stream) := readFixed 8 st

/-- The source asserts `size` before it compares it with what is left. -/
def slice (st : Stream) (size : ℕ) : R (Stream × Stream) :=
  if size = 0 then undef "stream_slice: assert(size)"
  else if st.remaining < size then notEnough
  else .ok (from_ ((st.s.drop st.p).take size), st.advance size)

def seek (st : Stream) (len : ℤ) : R Stream :=
  if (st.p : ℤ) + len < 0 ∨ (st.s.length : ℤ) < (st.p : ℤ) + len then
    err .general "stream: seeking position exceeds limit"
  else .ok { st with p := ((st.p : ℤ) + len).toNat }

def readVu7 (st : Stream) : R (ℕ × Stream) :=
  match st.byteAt? 0 with
  | none => notEnough
  | some u => if u ≥ 0x80 then badLeb else .ok (u, st.advance 1)

/-- The sign of a `varint7` is bit 6. -/
def i7Value (u : ℕ) : ℤ := if u % 128 < 64 then u % 128 else (u % 128 : ℕ) - 128

def readVi7 (st : Stream) : R (ℤ × Stream) :=
  match st.byteAt? 0 with
  | none => notEnough
  | some u => if u ≥ 0x80 then badLeb else .ok (i7Value u, st.advance 1)

/-- `LEB_MAX_LEN` for a type of `width` bits. -/
def lebMaxLen (width : ℕ) : ℕ := (width - 1) / 7 + 1

/-- Low byte of `LEB_LAST_BYTE_MASK`. -/
def lebLastByteMask (width : ℕ) : ℕ := 256 - 2 ^ (width % 7)

/-- Low byte of `LEB_LAST_BYTE_MASK >> 1` (an arithmetic shift). -/
def lebLastByteMaskSigned (width : ℕ) : ℕ := 256 - 2 ^ (width % 7 - 1)

/-- The loop of `STREAM_READ_LEB_UNSIGNED_DECL`; `left` counts the bytes still allowed. -/
def readVuLoop (width : ℕ) (st : Stream) : (left offset result : ℕ) → R (ℕ × Stream)
  | 0, _, _ => badLeb
  | left + 1, offset, result =>
    match st.byteAt? offset with
    | none => badLeb
    | some b =>
      let result := result ||| ((b % 128) <<< (7 * offset)) % 2 ^ width
      if b < 0x80 then
        if left = 0 ∧ b &&& lebLastByteMask width ≠ 0 then badLeb
        else .ok (result, st.advance (offset + 1))
      else readVuLoop width st left (offset + 1) result

def readVu32 (st : Stream) : R (ℕ × Stream) := readVuLoop 32 st (lebMaxLen 32) 0 0
def readVu64 (st : Stream) : R (ℕ × Stream) := readVuLoop 64 st (lebMaxLen 64) 0 0

/-- The loop of `STREAM_READ_LEB_SIGNED_DECL`. Signed results are kept as bit patterns. -/
def readViLoop (width : ℕ) (st : Stream) : (left offset result : ℕ) → R (ℕ × Stream)
  | 0, _, _ => badLeb
  | left + 1, offset, result =>
    match st.byteAt? offset with
    | none => badLeb
    | some b =>
      let result := result ||| ((b % 128) <<< (7 * offset)) % 2 ^ width
      let shift := 7 * (offset + 1)
      if b < 0x80 then
        if left = 0 ∧ (if b < 0x40 then b &&& lebLastByteMaskSigned width
            else (127 - b) &&& lebLastByteMaskSigned width) ≠ 0 then badLeb
        else if shift < width ∧ 0x40 ≤ b then
          .ok (result ||| ((2 ^ 64 - 1) <<< shift) % 2 ^ width, st.advance (offset + 1))
        else .ok (result, st.advance (offset + 1))
      else readViLoop width st left (offset + 1) result

def readVi32 (st : Stream) : R (ℕ × Stream) := readViLoop 32 st (lebMaxLen 32) 0 0
def readVi64 (st : Stream) : R (ℕ × Stream) := readViLoop 64 st (lebMaxLen 64) 0 0

end Stream

/-! ### Unchecked readers

They take the buffer and `p`; reading past the end of the buffer is undefined. -/

namespace Unchecked

def byteAt (code : Str) (p : ℕ) : R ℕ :=
  match code[p]? with
  | none => undef "read outside the code"
  | some b => .ok b.toNat

def readFixed (n : ℕ) (code : Str) (p : ℕ) : R (ℕ × ℕ) :=
  if code.length < p + n then undef "read outside the code"
  else .ok (Stream.leBytes ((code.drop p).take n), p + n)

/-- `__stream_read_vu*_unchecked`, unrolled in the source: the continuation bit is added with
the byte and subtracted again, except at the last byte. -/
def readVuLoop (width : ℕ) (code : Str) (p : ℕ) : (left offset result : ℕ) → R (ℕ × ℕ)
  | 0, offset, result => .ok (result, p + offset)
  | left + 1, offset, result => do
    let b ← byteAt code (p + offset)
    let result := (result + b <<< (7 * offset)) % 2 ^ width
    if b < 0x80 then .ok (result, p + offset + 1)
    else if left = 0 then .ok (result, p + offset + 1)
    else
      readVuLoop width code p left (offset + 1)
        ((result + 2 ^ width - (0x80 <<< (7 * offset)) % 2 ^ width) % 2 ^ width)

def readVu32 (code : Str) (p : ℕ) : R (ℕ × ℕ) := readVuLoop 32 code p 5 0 0
def readVu64 (code : Str) (p : ℕ) : R (ℕ × ℕ) := readVuLoop 64 code p 10 0 0

/-- `__stream_read_vi*_unchecked`. The last byte is not sign extended when it ends the number;
when its continuation bit is set, `shift` is still zero. -/
def readViLoop (width : ℕ) (code : Str) (p : ℕ) : (left offset result : ℕ) → R (ℕ × ℕ)
  | 0, offset, result => .ok (result, p + offset)
  | left + 1, offset, result => do
    let b ← byteAt code (p + offset)
    let result := (result + b <<< (7 * offset)) % 2 ^ width
    let extend := fun shift =>
      if b &&& 0x40 ≠ 0 then result ||| ((2 ^ width - 1) <<< shift) % 2 ^ width else result
    if left = 0 then
      .ok (if b < 0x80 then result else extend 0, p + offset + 1)
    else if b < 0x80 then .ok (extend (7 * (offset + 1)), p + offset + 1)
    else
      readViLoop width code p left (offset + 1)
        ((result + 2 ^ width - (0x80 <<< (7 * offset)) % 2 ^ width) % 2 ^ width)

def readVi32 (code : Str) (p : ℕ) : R (ℕ × ℕ) := readViLoop 32 code p 5 0 0
def readVi64 (code : Str) (p : ℕ) : R (ℕ × ℕ) := readViLoop 64 code p 10 0 0

end Unchecked

end Silverfir
