/-! # Texts as bytes

A text is written as bytes in UTF-8.  Bytes need not be UTF-8; `decode` reads them all the same
and puts the replacement character for what is not.

* The first byte of a character says how many bytes follow it, and in which range the first of
  these must be: this rules out numbers that could be written in fewer bytes, the surrogates, and
  numbers beyond the last character.  All further bytes are from `0x80` to `0xBF`.
* A byte that does not go on with a character that has been begun ends it, and is then read as a
  first byte itself.
* What has been begun and not completed is one replacement character, and so is a byte that
  begins no character. -/

namespace LineCalc

namespace Utf8

/-- The bytes of a text. -/
def encode (text : String) : List UInt8 := text.toList.flatMap String.utf8EncodeChar

/-- Whether some bytes are those of a text. -/
def isValid (bytes : List UInt8) : Bool := bytes.toByteArray.validateUTF8

/-- What stands for bytes that are no character. -/
def replacement : Char := '\uFFFD'

/-- A character that has been begun: the bits read so far, how many bytes are missing after the
next one, and the range of the next one. -/
structure Begun where
  bits : Nat
  missing : Nat
  low : UInt8
  high : UInt8
deriving DecidableEq

/-- What a first byte begins, if it is neither a character by itself nor wrong. -/
def begin? (b : UInt8) : Option Begun :=
  if 0xC2 ≤ b ∧ b ≤ 0xDF then some ⟨b.toNat - 0xC0, 0, 0x80, 0xBF⟩
  else if b = 0xE0 then some ⟨0x0, 1, 0xA0, 0xBF⟩
  else if b = 0xED then some ⟨0xD, 1, 0x80, 0x9F⟩
  else if 0xE1 ≤ b ∧ b ≤ 0xEF then some ⟨b.toNat - 0xE0, 1, 0x80, 0xBF⟩
  else if b = 0xF0 then some ⟨0x0, 2, 0x90, 0xBF⟩
  else if 0xF1 ≤ b ∧ b ≤ 0xF3 then some ⟨b.toNat - 0xF0, 2, 0x80, 0xBF⟩
  else if b = 0xF4 then some ⟨0x4, 2, 0x80, 0x8F⟩
  else none

/-- How far some bytes have been read. -/
structure Reading where
  complete : Array Char
  begun? : Option Begun

namespace Reading

def initial : Reading := ⟨#[], none⟩

/-- Reads the first byte of a character. -/
def first (complete : Array Char) (b : UInt8) : Reading :=
  if b < 0x80 then ⟨complete.push (Char.ofNat b.toNat), none⟩
  else match begin? b with
    | some begun => ⟨complete, some begun⟩
    | none => ⟨complete.push replacement, none⟩

/-- Reads a byte. -/
def step (r : Reading) (b : UInt8) : Reading :=
  match r.begun? with
  | none => first r.complete b
  | some begun =>
    if begun.low ≤ b ∧ b ≤ begun.high then
      let bits := begun.bits * 64 + (b.toNat - 0x80)
      match begun.missing with
      | 0 => ⟨r.complete.push (Char.ofNat bits), none⟩
      | n + 1 => ⟨r.complete, some ⟨bits, n, 0x80, 0xBF⟩⟩
    else first (r.complete.push replacement) b

/-- The characters of bytes that end here. -/
def finish (r : Reading) : List Char :=
  match r.begun? with
  | none => r.complete.toList
  | some _ => (r.complete.push replacement).toList

end Reading

/-- Reads bytes as a text. -/
def decode (bytes : List UInt8) : String :=
  String.ofList (bytes.foldl Reading.step Reading.initial).finish

end Utf8

end LineCalc
