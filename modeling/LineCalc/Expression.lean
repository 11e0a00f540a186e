import LineCalc.Machine
import LineCalc.Value

/-! # Expressions

The grammar, from the loosest level to the tightest:

* an *expression* is an assignment or a sum;
* an *assignment* is a name, `=` and an expression.  It is one if its second token is `=` and
  something follows;
* a *sum* is products with `+` and `-` between them;
* a *product* is operands with `*`, `/` and `%` between them;
* an *operand* is a numeral, a name with its arguments or an expression in parentheses, with an
  optional `-` in front.  The minus sign concerns numerals only.

Every level evaluates what it reads at once, from left to right, and puts the token back that
does not continue it.

* **Names.**  A function comes before a parameter of the same name, and a parameter before a
  variable.
* **Calls.**  A call reads as many expressions as the function has parameters, from the tokens
  that follow the name.  The body is then read as a text of its own; what is left of it after an
  expression does not count.
* **Parameters.**  They are known in the body itself and in its parentheses, not in arguments and
  not to the right of `=`.  The value of a parameter is written out and read as an operand, so
  what is not a finite number is read as a name.
* **Parentheses.**  The token after the expression in parentheses is dropped without a look at
  it, and may be missing.

Each level is given the next expression to evaluate as `deeper`; only `expression` closes the
circle.  Its budget falls with every expression inside another one and bounds the operators of a
sum and of a product; an evaluation that needs more stops as exhausted. -/

namespace LineCalc

namespace Eval

/-- The values of the parameters of the function whose body is evaluated. -/
abbrev Bindings : Type := List (String × Float)

/-- Reads a minus sign, if there is one, and says whether there was. -/
def readMinus : Eval Bool := do
  if (← get).cursor.peekIs .minus then
    discard read
    return true
  else
    return false

/-- Reads an operand, given how to evaluate what stands in parentheses and how to go on after a
name. -/
def operand (group : Eval Float) (resolve : String → Eval Value) : Eval Value := do
  let negative ← readMinus
  match ← read with
  | some (.number numeral) => return .number (if negative then -numeral.value else numeral.value)
  | some (.identifier name) => resolve name
  | some .leftParen =>
    let x ← group
    discard read
    return .number x
  | some other =>
    unread
    fail (.unexpectedToken other.text)
  | none => fail .endOfInput

/-- Goes on with a product whose value so far is `x`. -/
def productFrom (operand : Eval Value) : Nat → Value → Eval Value
  | 0, _ => throw .exhausted
  | n + 1, x => do
    match (← read).bind ProductOperator.ofToken? with
    | none =>
      unread
      return x
    | some op =>
      let y ← operand
      let x ← ofExcept x.toNumber
      let y ← ofExcept y.toNumber
      productFrom operand n (.number (op.apply x y))

/-- A product, whose value must be a number. -/
def product (operand : Eval Value) (budget : Nat) : Eval Float := do
  let x ← operand
  ofExcept (← productFrom operand budget x).toNumber

/-- Goes on with a sum whose value so far is `x`. -/
def sumFrom (product : Eval Float) : Nat → Float → Eval Float
  | 0, _ => throw .exhausted
  | n + 1, x => do
    match ← read with
    | some .plus => sumFrom product n (x + (← product))
    | some .minus => sumFrom product n (x - (← product))
    | _ =>
      unread
      return x

/-- A sum. -/
def sum (product : Eval Float) (budget : Nat) : Eval Float := do
  sumFrom product budget (← product)

/-- Whether the tokens that follow are an assignment. -/
def atAssignment : Eval Bool := do
  match (← get).cursor.remaining with
  | _ :: .equals :: _ :: _ => return true
  | _ => return false

/-- An assignment, given how to evaluate its right-hand side. -/
def assignment (value : Eval Float) : Eval Float := do
  match ← read with
  | some (.identifier name) =>
    if (← get).calculator.functionTable.contains name then
      fail (.nameIsFunction name)
    else
      discard read
      let x ← value
      assign name x
      return x
  | some other => fail (.invalidTarget other.text)
  | none => fail .endOfInput

section Levels

variable (deeper : Bindings → Eval Float)

/-- The arguments of a call, one for each parameter. -/
def arguments : List String → Eval Bindings
  | [] => return []
  | parameter :: rest => do
    let x ← deeper []
    return (parameter, x) :: (← arguments rest)

/-- A call: reads the arguments, then the body. -/
def call (name : String) (f : Definition) : Eval Float := do
  let bindings ← arguments deeper f.parameters
  note (.calling name bindings)
  let tokens ← lex f.joined
  within tokens (deeper bindings)

/-- What a name stands for that is no parameter. -/
def resolveGlobal (name : String) : Eval Value := do
  match (← get).calculator.functionOf? name with
  | some f => return .number (← call deeper name f)
  | none =>
    match (← get).calculator.valueOf? name with
    | some x => return .number x
    | none => return .unresolved name

/-- The value of a parameter: its text is read as an operand. -/
def reread (x : Float) : Eval Value := do
  let text := Number.text x
  note (.reread text)
  let tokens ← lex text
  within tokens (operand (deeper []) (resolveGlobal deeper))

/-- What a name stands for where `bindings` are in force. -/
def resolve (bindings : Bindings) (name : String) : Eval Value := do
  match (← get).calculator.functionOf? name, bindings.lookup name with
  | none, some x => reread deeper x
  | _, _ => resolveGlobal deeper name

/-- An expression, given how to evaluate one that is one level deeper. -/
def level (budget : Nat) (bindings : Bindings) : Eval Float := do
  if ← atAssignment then
    assignment (deeper [])
  else
    sum (product (operand (deeper bindings) (resolve deeper bindings)) budget) budget

end Levels

/-- An expression. -/
def expression : Nat → Bindings → Eval Float
  | 0, _ => throw .exhausted
  | n + 1, bindings => nested (level (expression n) n bindings)

end Eval

end LineCalc
