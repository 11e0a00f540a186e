import LineCalc.Number.Binary

/-! # Decimals

A decimal is a whole coefficient times a power of ten.

* **Reading.**  `ofDigits whole fraction` is the decimal whose digits stand before and after a
  point, and `pattern` is the binary64 number nearest to it, ties to even.
* **Shortest.**  `shortest p` is a decimal that reads back as the finite number with pattern
  `p`.  It looks at ever finer grids `10 ^ e`, and on each only at the two neighbours of the
  number, below and above.  The first grid with a neighbour that reads back wins, which makes
  the digits as few as can be; of two neighbours that both read back the nearer one wins, and
  the upper one where both are equally near. -/

namespace LineCalc

/-- The number `coefficient * 10 ^ exponent`. -/
structure Decimal where
  coefficient : Nat
  exponent : Int
deriving DecidableEq

namespace Decimal

/-- The value of a decimal digit. -/
def digitValue (c : Char) : Nat := c.toNat - '0'.toNat

/-- The whole number that a row of digits denotes. -/
def wholeValue (digits : List Char) : Nat :=
  digits.foldl (fun n c => 10 * n + digitValue c) 0

/-- The decimal with the given digits before and after the point. -/
def ofDigits (whole fraction : List Char) : Decimal :=
  ⟨wholeValue (whole ++ fraction), -(fraction.length : Int)⟩

/-- Multiplies by a power of ten. -/
def scale (d : Decimal) (e : Int) : Decimal := { d with exponent := d.exponent + e }

/-- The pattern of the binary64 number nearest to a decimal.  Decimals from `10 ^ 400` on are
infinite and those below `10 ^ (-399)` are zero, so no larger power is ever worked out. -/
def pattern (d : Decimal) : Nat :=
  if d.coefficient = 0 then 0
  else if 400 ≤ d.exponent then Pattern.infinity
  else if d.exponent ≤ -(400 + d.coefficient.log2 : Nat) then 0
  else Pattern.nearest (d.coefficient * Nat.pow 10 d.exponent.toNat * Pattern.one)
    (Nat.pow 10 (-d.exponent).toNat)

/-- The decimal of exponent `e` next to the number with pattern `p` that reads back as it, if
there is one. -/
def closest? (p : Nat) (e : Int) : Option Decimal :=
  let n := Pattern.units p * Nat.pow 10 (-e).toNat
  let d := Nat.pow 10 e.toNat * Pattern.one
  let below : Decimal := ⟨n / d, e⟩
  let above : Decimal := ⟨n / d + 1, e⟩
  if below.pattern = p then
    if above.pattern = p ∧ d ≤ 2 * (n % d) then some above else some below
  else if above.pattern = p then some above
  else none

/-- A power of ten above the number with pattern `p`, by at most a factor of a hundred: the
logarithm of two is a little under `30103 / 100000`. -/
def magnitude (p : Nat) : Int :=
  (((Pattern.units p).log2 : Int) + 1 - Pattern.unitBits) * 30103 / 100000 + 1

/-- All digits of the number with pattern `p`: halving is multiplying by five and dividing by
ten. -/
def exact (p : Nat) : Decimal :=
  ⟨Pattern.units p * Nat.pow 5 Pattern.unitBits, -(Pattern.unitBits : Int)⟩

/-- The decimal with the fewest digits that reads back as the finite number with pattern `p`,
and the nearest of those.  Seventeen digits tell any two numbers apart, so a grid within twenty
steps of the magnitude has it. -/
def shortest (p : Nat) : Decimal :=
  if p = 0 then ⟨0, 0⟩
  else ((List.range 20).findSome? fun (i : Nat) => closest? p (magnitude p - i)).getD (exact p)

theorem pattern_of_closest? {p : Nat} {e : Int} {d : Decimal} (h : closest? p e = some d) :
    d.pattern = p := by
  simp only [closest?] at h
  split at h
  · split at h <;> cases h
    · exact And.left ‹_›
    · assumption
  · split at h <;> cases h
    assumption

end Decimal

end LineCalc
