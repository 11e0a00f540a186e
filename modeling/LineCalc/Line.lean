import LineCalc.Expression

/-! # Lines

A line is blank, or a definition if its first token is the word `fn`, or an expression, of which
nothing may be left over.  An expression gives a number; a blank line and a definition give none.

A line that fails leaves the assignments that were made before it failed, and its trace. -/

namespace LineCalc

/-- What a line gives: a number, nothing, or a fault. -/
abbrev Outcome : Type := Except Fault (Option Float)

namespace Outcome

/-- What the user is told: the number, nothing, or what went wrong. -/
def text : Outcome → String
  | .ok (some x) => Number.text x
  | .ok none => ""
  | .error fault => fault.message

end Outcome

namespace Eval

/-- An expression that takes up the whole of a line. -/
def wholeExpression (line : String) (budget : Nat) : Eval Float := do
  let x ← expression budget []
  if (← get).cursor.remainingCount = 0 then return x
  else fail (.trailingTokens line)

/-- A definition, after the word `fn`. -/
def definition (tokens : List Token) : Eval Unit := do
  let table := (← get).calculator.variableTable
  let (name, f) ← ofExcept (Definition.ofTokens table.contains tokens)
  define name f

/-- A line. -/
def line (text : String) (budget : Nat) : Eval (Option Float) := do
  match ← lex text with
  | [] => return none
  | first :: rest =>
    if first = .identifier Definition.keyword then
      definition rest
      return none
    else
      return some (← within (first :: rest) (wholeExpression text budget))

end Eval

/-- What evaluating a line gives, what is remembered after it, and what happened. -/
structure Report where
  outcome : Outcome
  calculator : Calculator
  trace : Array Record

namespace Calculator

/-- The characters of all stored bodies. -/
def bodyLength (c : Calculator) : Nat :=
  c.functionTable.foldl (fun n _ f => n + f.joined.length) 0

/-- A budget that every evaluation of a line keeps to: expressions are nested at most `limit`
deep, and a sum or product has no more operators than the text it stands in has characters. -/
def budget (c : Calculator) (text : String) : Nat := c.limit + text.length + c.bodyLength + 4

/-- Evaluates a line.  The budget suffices, so the last case does not arise. -/
def evaluate (c : Calculator) (text : String) : Report :=
  match Eval.line text (c.budget text) (.start c) with
  | .ok value m => ⟨.ok value, m.calculator, m.trace⟩
  | .error (.fault fault) m => ⟨.error fault, m.calculator, m.trace⟩
  | .error .exhausted m => ⟨.error (.depthExceeded c.limit), m.calculator, m.trace⟩

/-- Evaluates lines one after the other, each with what is remembered after those before it. -/
def evaluateAll (c : Calculator) : List String → List Report
  | [] => []
  | text :: rest =>
    let report := c.evaluate text
    report :: report.calculator.evaluateAll rest

end Calculator

end LineCalc
