/-!
# UTF-8

Bytes are read as characters one by one. Bytes that begin no character, or begin one that is not
completed, form a fault; each longest such run that could still have become a character is one
fault.
-/

namespace Bundler

/-- The content of a file. -/
abbrev Bytes := List UInt8

namespace Text.Utf8

/-- A character of which the first bytes were read: how many bytes are missing, the range of the
next one, and the bits so far. -/
structure Partial where
  missing : Nat
  low : UInt8
  high : UInt8
  bits : Nat

/-- What the first byte of a longer character announces. -/
def announced (b : UInt8) : Option Partial :=
  if 0xC2 ≤ b && b ≤ 0xDF then some ⟨1, 0x80, 0xBF, b.toNat - 0xC0⟩
  else if b = 0xE0 then some ⟨2, 0xA0, 0xBF, 0⟩
  else if b = 0xED then some ⟨2, 0x80, 0x9F, 0xD⟩
  else if 0xE1 ≤ b && b ≤ 0xEF then some ⟨2, 0x80, 0xBF, b.toNat - 0xE0⟩
  else if b = 0xF0 then some ⟨3, 0x90, 0xBF, 0⟩
  else if 0xF1 ≤ b && b ≤ 0xF3 then some ⟨3, 0x80, 0xBF, b.toNat - 0xF0⟩
  else if b = 0xF4 then some ⟨3, 0x80, 0x8F, 4⟩
  else none

/-- Reads a byte that begins a character. -/
def first (b : UInt8) : List (Option Char) × Option Partial :=
  if b < 0x80 then ([some (Char.ofNat b.toNat)], none)
  else match announced b with
    | some p => ([], some p)
    | none => ([none], none)

/-- The characters of `bytes`, with `none` for each fault, after the part of one. -/
def readFrom : Option Partial → Bytes → List (Option Char)
  | none, [] => []
  | some _, [] => [none]
  | none, b :: rest => (first b).1 ++ readFrom (first b).2 rest
  | some p, b :: rest =>
    if p.low ≤ b && b ≤ p.high then
      let bits := p.bits * 64 + (b.toNat - 0x80)
      if p.missing = 1 then some (Char.ofNat bits) :: readFrom none rest
      else readFrom (some ⟨p.missing - 1, 0x80, 0xBF, bits⟩) rest
    else none :: ((first b).1 ++ readFrom (first b).2 rest)

def read (bytes : Bytes) : List (Option Char) := readFrom none bytes

/-- The text of `bytes` with U+FFFD for each fault. -/
def lossy (bytes : Bytes) : String := String.ofList ((read bytes).map (·.getD '\uFFFD'))

/-- The text of `bytes`, if there is no fault. -/
def decode? (bytes : Bytes) : Option String := ((read bytes).mapM id).map String.ofList

/-- How many bytes stand before the first fault. -/
def soundLength (bytes : Bytes) : Nat :=
  (String.ofList (((read bytes).takeWhile Option.isSome).filterMap id)).utf8ByteSize

def encode (s : String) : Bytes := s.toUTF8.toList

end Text.Utf8

/-- The number of bytes that `s` takes. -/
def Text.byteLength (s : String) : Nat := s.utf8ByteSize

end Bundler
