import LineCalc.Number.Decimal

/-! # How numbers are written

There are two layouts, both of the shortest decimal that reads back as the number.

* **Plain** (`Number.text`), for answers: digits and, where needed, a point.  However large or
  small the number, there is never an exponent, and a whole number has no point.
* **Detailed** (`Number.detailed`), for traces: a whole number is written with `.0`, and a
  number other than zero whose size is not from `0.0001` up to but not including `10 ^ 16` is
  written with one digit before the point and an exponent.

A negative number, zero included, has a minus sign in front.  What is not a number has no
sign. -/

namespace LineCalc

namespace Decimal

/-- The digits before the point and those after it. -/
def places (d : Decimal) : List Char × List Char :=
  let digits := Nat.toDigits 10 d.coefficient
  if 0 ≤ d.exponent then (digits ++ List.replicate d.exponent.toNat '0', [])
  else
    let n := (-d.exponent).toNat
    let padded := List.replicate (n + 1 - digits.length) '0' ++ digits
    padded.splitAt (padded.length - n)

/-- Digits and a point, the point only where digits follow it. -/
def plain (d : Decimal) : String :=
  match d.places with
  | (whole, []) => String.ofList whole
  | (whole, fraction) => String.ofList (whole ++ '.' :: fraction)

/-- Digits and a point with at least one digit after it. -/
def pointed (d : Decimal) : String :=
  match d.places with
  | (whole, []) => String.ofList (whole ++ ['.', '0'])
  | (whole, fraction) => String.ofList (whole ++ '.' :: fraction)

/-- One digit before the point, and the power of ten that makes up for it. -/
def scientific (d : Decimal) : String :=
  match Nat.toDigits 10 d.coefficient with
  | [] => ""
  | first :: rest =>
    let fraction := if rest = [] then [] else '.' :: rest
    String.ofList (first :: fraction ++ 'e' :: (toString (d.exponent + rest.length)).toList)

end Decimal

namespace Number

/-- Puts a minus sign in front of a negative number. -/
def signed (negative : Bool) (text : String) : String := if negative then "-" ++ text else text

/-- The plain layout. -/
def text (x : Float) : String :=
  match Shape.ofFloat x with
  | .nan => "NaN"
  | .infinite negative => signed negative "inf"
  | .finite negative p => signed negative (Decimal.shortest p).plain

/-- Whether the detailed layout writes a size, given as a pattern, without an exponent. -/
def withoutExponent (p : Nat) : Bool :=
  p = 0 || (⟨1, -4⟩ : Decimal).pattern ≤ p && p < (⟨1, 16⟩ : Decimal).pattern

/-- The detailed layout. -/
def detailed (x : Float) : String :=
  match Shape.ofFloat x with
  | .nan => "NaN"
  | .infinite negative => signed negative "inf"
  | .finite negative p =>
    let d := Decimal.shortest p
    signed negative (if withoutExponent p then d.pointed else d.scientific)

end Number

end LineCalc
