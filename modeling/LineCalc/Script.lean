import LineCalc.Line
import LineCalc.Text.Lines

/-! # Scripts

A script is a text whose lines are evaluated one after the other.  A line that fails neither
stops those after it nor undoes what those before it have left. -/

namespace LineCalc

namespace Script

/-- What each line of a script gives, from a calculator that remembers nothing. -/
def outcomes (source : String) : List Outcome :=
  ((Calculator.empty Calculator.defaultLimit).evaluateAll (Lines.ofText source)).map (·.outcome)

end Script

end LineCalc
