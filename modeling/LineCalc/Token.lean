import LineCalc.Number.Reading

/-! # Tokens

A line is a row of tokens: numerals, identifiers, ten one-character symbols, and *stray* runs of
characters that are none of these.

* A numeral keeps the text it was written as beside its value, because `.5` and `007` are written
  out again exactly as they stood.
* `Token.text` is the text of a token.  The texts of a line's tokens, in order, are the line
  without its blanks.
* `Token.agrees` compares two tokens as numbers are compared: what is not a number agrees with
  nothing, and the two zeros agree. -/

namespace LineCalc

/-- A number as it is written. -/
structure Numeral where
  value : Float
  text : String
deriving DecidableEq

namespace Numeral

/-- Reads a text as a number and keeps it. -/
def parse? (text : String) : Option Numeral := (Number.parse? text).map (⟨·, text⟩)

/-- The numeral of a row of digits. -/
def ofWhole (digits : String) : Numeral :=
  ⟨Number.ofDecimal false (Decimal.ofDigits digits.toList []), digits⟩

/-- The numeral of the digits before a point, if any, and those after it. -/
def ofPointed (whole fraction : String) : Numeral :=
  ⟨Number.ofDecimal false (Decimal.ofDigits whole.toList fraction.toList),
    whole ++ "." ++ fraction⟩

end Numeral

/-- The smallest meaningful pieces of a line. -/
inductive Token where
  | number (numeral : Numeral)
  | identifier (name : String)
  | stray (text : String)
  | plus
  | minus
  | star
  | slash
  | percent
  | equals
  | greater
  | leftParen
  | rightParen
deriving DecidableEq

namespace Token

/-- The text of a token. -/
def text : Token → String
  | number numeral => numeral.text
  | identifier name => name
  | stray text => text
  | plus => "+"
  | minus => "-"
  | star => "*"
  | slash => "/"
  | percent => "%"
  | equals => "="
  | greater => ">"
  | leftParen => "("
  | rightParen => ")"

/-- The name of an identifier that consists of letters only. -/
def plainName? : Token → Option String
  | identifier name => if name.toList.all Char.isAlpha then some name else none
  | _ => none

/-- Whether two tokens are the same, where the values of numerals are compared as numbers. -/
def agrees : Token → Token → Bool
  | number a, number b => a.value == b.value && a.text == b.text
  | number _, _ => false
  | _, number _ => false
  | a, b => a == b

/-- The texts of a row of tokens without anything between them. -/
def joinedText (tokens : List Token) : String := String.join (tokens.map text)

end Token

end LineCalc
