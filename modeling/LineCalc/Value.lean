import LineCalc.Token
import LineCalc.Fault

/-! # Values and products

The value of an operand is a number, or a name that stands for nothing.  Such a name becomes a
fault only where a number is needed, so that what follows it on the line is looked at first. -/

namespace LineCalc

inductive Value where
  | number (x : Float)
  /-- A name that is no function, parameter or variable. -/
  | unresolved (name : String)
deriving DecidableEq

namespace Value

/-- The number that a value is. -/
def toNumber : Value → Except Fault Float
  | number x => .ok x
  | unresolved name => .error (.undefinedVariable name)

end Value

/-- The operators that bind more tightly than sum and difference. -/
inductive ProductOperator where
  | times
  | dividedBy
  /-- The remainder of a division, with the sign of the left operand. -/
  | remainder
deriving DecidableEq

namespace ProductOperator

def ofToken? : Token → Option ProductOperator
  | .star => some times
  | .slash => some dividedBy
  | .percent => some remainder
  | _ => none

/-- Computes with the operator.  A division by zero gives an infinity, or what is not a number. -/
def apply (op : ProductOperator) (x y : Float) : Float :=
  match op with
  | times => x * y
  | dividedBy => x / y
  | remainder => Number.remainder x y

end ProductOperator

end LineCalc
