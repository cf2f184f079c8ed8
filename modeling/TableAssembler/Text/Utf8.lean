import TableAssembler.Text.Quoted

/-!
# UTF-8

A program file is a sequence of bytes in UTF-8.  A character is a leading byte and up to three more
bytes, each from a range that the leading byte sets.

* `Utf8.ranges`   the ranges of the bytes after a leading byte;
* `Utf8.Error`    the bytes that are no character, and why, with `Utf8.Error.message`;
* `Utf8.decode`   the characters of a byte sequence, or its first error.
-/

namespace TableAssembler.Text.Utf8

/-! ## errors -/

/-- Why some bytes are no character. -/
inductive Reason where
  | invalidStart
  | invalidContinuation
  | unexpectedEnd
deriving DecidableEq, Repr

/-- The bytes from `start` up to `stop` are no character.  `first` is the leading one. -/
structure Error where
  first : UInt8
  start : Nat
  stop : Nat
  reason : Reason
deriving DecidableEq, Repr

def Reason.message : Reason → String
  | .invalidStart => "invalid start byte"
  | .invalidContinuation => "invalid continuation byte"
  | .unexpectedEnd => "unexpected end of data"

/-- The words for an error.  A single byte is named, several only by their positions. -/
def Error.message (e : Error) : String :=
  let place :=
    if e.stop = e.start + 1 then
      "byte 0x" ++ hexDigits 2 e.first.toNat ++ " in position " ++ toString e.start
    else "bytes in position " ++ toString e.start ++ "-" ++ toString (e.stop - 1)
  "'utf-8' codec can't decode " ++ place ++ ": " ++ e.reason.message

/-! ## decoding -/

/-- The range that a continuation byte lies in if nothing else is said. -/
def anyTail : Nat × Nat := (0x80, 0xbf)

/-- The ranges of the bytes that must follow a leading byte, `none` if no character starts with
it.  The narrow ranges exclude overlong forms, surrogates and what lies beyond the last plane. -/
def ranges (b : Nat) : Option (List (Nat × Nat)) :=
  if b < 0x80 then some []
  else if b < 0xc2 then none
  else if b < 0xe0 then some [anyTail]
  else if b = 0xe0 then some [(0xa0, 0xbf), anyTail]
  else if b = 0xed then some [(0x80, 0x9f), anyTail]
  else if b < 0xf0 then some [anyTail, anyTail]
  else if b = 0xf0 then some [(0x90, 0xbf), anyTail, anyTail]
  else if b < 0xf4 then some [anyTail, anyTail, anyTail]
  else if b = 0xf4 then some [(0x80, 0x8f), anyTail, anyTail]
  else none

/-- The bits of a character that its leading byte holds, given how many bytes follow. -/
def leadingBits (b : Nat) : Nat → Nat
  | 0 => b
  | 1 => b % 32
  | 2 => b % 16
  | _ => b % 8

/-- A character that is not complete: its leading byte and position, its bits so far, the range of
the next byte and of those after it. -/
structure Partial where
  first : UInt8
  start : Nat
  bits : Nat
  range : Nat × Nat
  more : List (Nat × Nat)

/-- The characters of the bytes from a position on, with a character begun before it or none. -/
def decodeFrom (position : Nat) : Option Partial → List UInt8 → Except Error (List Char)
  | none, [] => .ok []
  | some p, [] => .error ⟨p.first, p.start, position, .unexpectedEnd⟩
  | none, b :: bytes =>
    match ranges b.toNat with
    | none => .error ⟨b, position, position + 1, .invalidStart⟩
    | some [] => (Char.ofNat b.toNat :: ·) <$> decodeFrom (position + 1) none bytes
    | some (range :: more) =>
      let bits := leadingBits b.toNat (more.length + 1)
      decodeFrom (position + 1) (some ⟨b, position, bits, range, more⟩) bytes
  | some p, b :: bytes =>
    if p.range.1 ≤ b.toNat ∧ b.toNat ≤ p.range.2 then
      let bits := p.bits * 64 + b.toNat % 64
      match p.more with
      | [] => (Char.ofNat bits :: ·) <$> decodeFrom (position + 1) none bytes
      | range :: more =>
        decodeFrom (position + 1) (some ⟨p.first, p.start, bits, range, more⟩) bytes
    else .error ⟨p.first, p.start, position, .invalidContinuation⟩

/-- The characters of a byte sequence, or its first error. -/
def decode (bytes : List UInt8) : Except Error (List Char) := decodeFrom 0 none bytes

end TableAssembler.Text.Utf8
