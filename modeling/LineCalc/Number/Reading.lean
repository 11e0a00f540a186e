import LineCalc.Number.Decimal

/-! # How numbers are read

A text denotes a number if it is one of

* an optional sign, digits with an optional point among, before or after them (at least one
  digit), and an optional exponent: `e` or `E`, an optional sign and digits;
* an optional sign and `inf`, `infinity` or `nan`, in capital or small letters.

Nothing may stand before, between or after these parts.  The value is the binary64 number
nearest to what is written.  The digits of an exponent count until it reaches `2 ^ 16`, far
beyond the reach of any number. -/

namespace LineCalc

namespace Decimal

/-- Splits an optional sign off, and says whether it was a minus. -/
def splitSign : List Char → Bool × List Char
  | '-' :: rest => (true, rest)
  | '+' :: rest => (false, rest)
  | rest => (false, rest)

/-- The digits at the start, and what follows them. -/
def splitDigits (text : List Char) : List Char × List Char := text.span Char.isDigit

/-- The value of an exponent's digits. -/
def exponentValue (digits : List Char) : Nat :=
  digits.foldl (fun n c => if n < Nat.pow 2 16 then 10 * n + digitValue c else n) 0

/-- Reads an exponent that ends the text; no text at all is the exponent zero. -/
def exponent? : List Char → Option Int
  | [] => some 0
  | mark :: rest =>
    if mark = 'e' ∨ mark = 'E' then
      let (negative, rest) := splitSign rest
      match splitDigits rest with
      | ([], _) => none
      | (digits, []) =>
        let n : Int := exponentValue digits
        some (if negative then -n else n)
      | _ => none
    else none

/-- Reads a decimal without a sign that ends the text. -/
def ofText? (text : List Char) : Option Decimal :=
  let (whole, rest) := splitDigits text
  let (fraction, rest) := match rest with
    | '.' :: rest => splitDigits rest
    | rest => ([], rest)
  if whole ++ fraction = [] then none
  else (exponent? rest).map (ofDigits whole fraction).scale

end Decimal

namespace Number

/-- The number with a given sign that is nearest in size to a decimal. -/
def ofDecimal (negative : Bool) (d : Decimal) : Float := ofPattern negative d.pattern

/-- Reads a number that is not written in digits. -/
def ofWord? (negative : Bool) (text : List Char) : Option Float :=
  let word := text.map Char.toLower
  if word = "inf".toList ∨ word = "infinity".toList then some (infinity negative)
  else if word = "nan".toList then some nan
  else none

/-- Reads a number. -/
def parse? (text : String) : Option Float :=
  let (negative, rest) := Decimal.splitSign text.toList
  match Decimal.ofText? rest with
  | some d => some (ofDecimal negative d)
  | none => ofWord? negative rest

end Number

end LineCalc
