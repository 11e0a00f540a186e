/-! # Binary64 numbers as whole multiples of a unit

Every finite binary64 number is a whole multiple of `2 ^ (-1074)`, the *unit*.  This module
gives the two directions between bit patterns and whole numbers of units.

* **Patterns.**  A pattern is the bits of a number without its sign bit: a natural number
  below `2 ^ 63`.  The finite ones are those below `infinity`; `infinity` itself is the
  infinity and everything above it is not a number.  Patterns are ordered as the numbers are.
* **Units.**  `units p` is the number of units of the finite pattern `p`.  The patterns below
  `2 ^ 53` are their own number of units; after that the units of a pattern double their
  spacing with every further `2 ^ 52` patterns.
* **Rounding.**  `nearest n d` is the pattern of the number closest to `n / d` units; of two
  equally close ones it is the one with an even pattern, and what lies half a step or more
  beyond the largest finite number becomes `infinity`.
* **Remainder.**  On units the remainder of a division is the remainder of whole numbers, so
  it is exact. -/

namespace LineCalc

namespace Pattern

/-- One is `2 ^ unitBits` units. -/
def unitBits : Nat := 1074

/-- How many units one is. -/
def one : Nat := Nat.pow 2 unitBits

/-- How many patterns in a row have the same spacing: `2 ^ 52`. -/
def binade : Nat := Nat.pow 2 52

/-- The pattern of infinity, the least one that is not a finite number. -/
def infinity : Nat := 2047 * binade

/-- What a minus sign adds to a pattern: `2 ^ 63`. -/
def signBit : Nat := Nat.pow 2 63

/-- How many units a finite pattern stands for. -/
def units (p : Nat) : Nat :=
  if p < binade then p else (binade + p % binade) * Nat.pow 2 (p / binade - 1)

/-- The whole number nearest to `n / d`, of two equally near ones the even one. -/
def roundEven (n d : Nat) : Nat :=
  let q := n / d
  let twice := 2 * (n % d)
  if twice < d then q
  else if d < twice then q + 1
  else q + q % 2

/-- How often the spacing of patterns has doubled at `u` units. -/
def doublings (u : Nat) : Nat := u.log2 - 52

/-- The pattern nearest to `n / d` units. -/
def nearest (n d : Nat) : Nat :=
  let k := doublings (n / d)
  min infinity (k * binade + roundEven n (d * Nat.pow 2 k))

theorem roundEven_mul_self (q : Nat) {d : Nat} (hd : 0 < d) : roundEven (q * d) d = q := by
  simp [roundEven, hd]

end Pattern

/-- What a binary64 number is: its sign and its pattern, unless it is not a number. -/
inductive Shape where
  | nan
  | infinite (negative : Bool)
  | finite (negative : Bool) (pattern : Nat)
deriving DecidableEq

namespace Shape

/-- Reads the shape off the bits of a number. -/
def ofFloat (x : Float) : Shape :=
  let bits := x.toBits.toNat
  let negative := Pattern.signBit ≤ bits
  let pattern := bits % Pattern.signBit
  if pattern < Pattern.infinity then .finite negative pattern
  else if pattern = Pattern.infinity then .infinite negative
  else .nan

end Shape

namespace Number

/-- The number with a given sign and pattern. -/
def ofPattern (negative : Bool) (pattern : Nat) : Float :=
  Float.ofBits (UInt64.ofNat (if negative then Pattern.signBit + pattern else pattern))

/-- The number that is not a number. -/
def nan : Float := ofPattern false (Pattern.infinity + Pattern.binade / 2)

/-- The infinity of a given sign. -/
def infinity (negative : Bool) : Float := ofPattern negative Pattern.infinity

/-- What is left of `x` after taking `y` away from its size as often as it goes: exact, smaller
than `y` in size, and of the sign of `x`.  Without a finite `x` and a `y` other than zero there
is no such number. -/
def remainder (x y : Float) : Float :=
  match Shape.ofFloat x, Shape.ofFloat y with
  | .finite negative p, .finite _ q =>
    if Pattern.units q = 0 then nan
    else ofPattern negative (Pattern.nearest (Pattern.units p % Pattern.units q) 1)
  | .finite _ _, .infinite _ => x
  | _, _ => nan

end Number

end LineCalc
