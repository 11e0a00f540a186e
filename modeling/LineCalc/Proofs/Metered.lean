import LineCalc.Line

/-! # Evaluations with a budget of steps

The *metered* evaluator is the evaluator with a budget of steps.  Each of its eight functions
(`expression`, `content`, `assigning`, `term`, `primary`, `named`, `invoke` and `parameter`) takes one
step of the budget whenever it is called, and stops as exhausted if there is none left.  The levels of
the grammar are those of the evaluator otherwise. -/

namespace LineCalc

namespace Eval

/-- An evaluation that is given how many steps are left, and says how many it leaves. -/
abbrev Metered : Type → Type := StateT Nat Eval

namespace Metered

variable {α β : Type}

/-- Takes one of the steps that are left. -/
def step (x : Metered α) : Metered α
  | 0 => throw .exhausted
  | left + 1 => x left

/-- Evaluates one level deeper, or stops at the limit. -/
def nested (x : Metered α) : Metered α := fun left => Eval.nested (x left)

/-- Evaluates with other tokens to read. -/
def within (tokens : List Token) (x : Metered α) : Metered α := fun left => Eval.within tokens (x left)

/-! ### The grammar -/

/-- Reads an operand, given how to evaluate what stands in parentheses and how to go on after a
name. -/
def operand (group : Metered Float) (resolve : String → Metered Value) : Metered Value := do
  let negative ← readMinus
  match ← (read : Eval _) with
  | some (.number numeral) => return .number (if negative then -numeral.value else numeral.value)
  | some (.identifier name) => resolve name
  | some .leftParen =>
    let x ← group
    (discard read : Eval Unit)
    return .number x
  | some other =>
    unread
    fail (.unexpectedToken other.text)
  | none => fail .endOfInput

/-- Goes on with a product whose value so far is `x`. -/
def productFrom (operand : Metered Value) : Nat → Value → Metered Value
  | 0, _ => throw .exhausted
  | n + 1, x => do
    match (← (read : Eval _)).bind ProductOperator.ofToken? with
    | none =>
      unread
      return x
    | some op =>
      let y ← operand
      let x ← ofExcept x.toNumber
      let y ← ofExcept y.toNumber
      productFrom operand n (.number (op.apply x y))

/-- A product, whose value must be a number. -/
def product (operand : Metered Value) (rounds : Nat) : Metered Float := do
  let x ← operand
  ofExcept (← productFrom operand rounds x).toNumber

/-- Goes on with a sum whose value so far is `x`. -/
def sumFrom (product : Metered Float) : Nat → Float → Metered Float
  | 0, _ => throw .exhausted
  | n + 1, x => do
    match ← (read : Eval _) with
    | some .plus => sumFrom product n (x + (← product))
    | some .minus => sumFrom product n (x - (← product))
    | _ =>
      unread
      return x

/-- A sum. -/
def sum (product : Metered Float) (rounds : Nat) : Metered Float := do
  sumFrom product rounds (← product)

/-- An assignment, given how to evaluate its right-hand side. -/
def assignment (value : Metered Float) : Metered Float := do
  match ← (read : Eval _) with
  | some (.identifier name) =>
    if (← (get : Eval Machine)).calculator.functionTable.contains name then
      fail (.nameIsFunction name)
    else
      (discard read : Eval Unit)
      let x ← value
      assign name x
      return x
  | some other => fail (.invalidTarget other.text)
  | none => fail .endOfInput

/-- The arguments of a call, one for each parameter. -/
def arguments (deeper : Bindings → Metered Float) : List String → Metered Bindings
  | [] => return []
  | parameter :: rest => do
    let x ← deeper []
    return (parameter, x) :: (← arguments deeper rest)

/-- A call: reads the arguments, then the body. -/
def call (deeper : Bindings → Metered Float) (name : String) (f : Definition) : Metered Float := do
  let bindings ← arguments deeper f.parameters
  note (.calling name bindings)
  let tokens ← lex f.joined
  within tokens (deeper bindings)

/-- What a name stands for, given how to call the function of that name and how to look up the value
of a parameter. -/
def resolve (call : Definition → Metered Float) (parameter : Float → Metered Value)
    (bindings : Bindings) (name : String) : Metered Value := do
  match (← (get : Eval Machine)).calculator.functionOf? name with
  | some f => return .number (← call f)
  | none =>
    match bindings.lookup name with
    | some x => parameter x
    | none =>
      match (← (get : Eval Machine)).calculator.valueOf? name with
      | some x => return .number x
      | none => return .unresolved name

/-- The value of a parameter: its text is read as an operand. -/
def reread (operand : Metered Value) (x : Float) : Metered Value := do
  let text := Number.text x
  note (.reread text)
  let tokens ← lex text
  within tokens operand

/-! ### The eight functions

Their first argument is at least the number of steps that are left, so it never stops an evaluation
that has a step left.  The rounds of a sum or product are more than the steps that are left. -/

mutual

/-- An expression. -/
def expression : Nat → Bindings → Metered Float
  | 0, _ => throw .exhausted
  | n + 1, bindings => step (nested (content n bindings))

/-- What an expression consists of: an assignment or a sum. -/
def content : Nat → Bindings → Metered Float
  | 0, _ => throw .exhausted
  | n + 1, bindings => step do
    if ← atAssignment then
      assigning n
    else
      sum (term n bindings) (n + 1)

/-- An assignment. -/
def assigning : Nat → Metered Float
  | 0 => throw .exhausted
  | n + 1 => step (assignment (expression n []))

/-- A term of a sum. -/
def term : Nat → Bindings → Metered Float
  | 0, _ => throw .exhausted
  | n + 1, bindings => step (product (primary n bindings) (n + 1))

/-- A factor of a product. -/
def primary : Nat → Bindings → Metered Value
  | 0, _ => throw .exhausted
  | n + 1, bindings => step (operand (expression n bindings) fun name => named n bindings name)

/-- What a name stands for. -/
def named : Nat → Bindings → String → Metered Value
  | 0, _, _ => throw .exhausted
  | n + 1, bindings, name =>
    step (resolve (fun f => invoke n name f) (fun x => parameter n x) bindings name)

/-- A call. -/
def invoke : Nat → String → Definition → Metered Float
  | 0, _, _ => throw .exhausted
  | n + 1, name, f => step (call (fun bindings => expression n bindings) name f)

/-- The value of a parameter. -/
def parameter : Nat → Float → Metered Value
  | 0, _ => throw .exhausted
  | n + 1, x => step (reread (primary n []) x)

end

/-! ### Lines -/

/-- An expression that takes up the whole of a line. -/
def whole (value : Metered Float) (text : String) : Metered Float := do
  let x ← value
  if (← (get : Eval Machine)).cursor.remainingCount = 0 then return x
  else fail (.trailingTokens text)

/-- A line, with a budget of steps. -/
def line (text : String) (budget : Nat) : Metered (Option Float) := do
  match ← lex text with
  | [] => return none
  | first :: rest =>
    if first = .identifier Definition.keyword then
      definition rest
      return none
    else
      return some (← within (first :: rest) (whole (expression budget []) text))

end Metered

end Eval

end LineCalc
