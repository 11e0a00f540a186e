import LineCalc.Calculator
import LineCalc.Cursor
import LineCalc.Record
import LineCalc.Token.Scan

/-! # The machine that evaluates a line

A line is evaluated while it is read.  The machine holds everything that this changes:

* the calculator, whose variables an assignment writes at once;
* how deep the expression that is being evaluated is nested;
* the cursor on the tokens that are being read: those of the line, of the body of a function or
  of the value of a parameter;
* the trace.

An evaluation (`Eval`) takes a machine and gives a result or stops, and leaves a machine in both
cases.  It stops with a fault, or because a budget was too small (`Stop.exhausted`).

`nested` and `within` change the machine for the time of another evaluation, whether that one
succeeds or stops: the first counts it as one level deeper and refuses it at the limit, the
second lets it read other tokens. -/

namespace LineCalc

structure Machine where
  calculator : Calculator
  depth : Nat
  cursor : Cursor
  trace : Array Record

/-- Why an evaluation gives no result. -/
inductive Stop where
  | fault (fault : Fault)
  /-- The budget of steps was used up. -/
  | exhausted
deriving DecidableEq

abbrev Eval : Type → Type := EStateM Stop Machine

namespace Machine

/-- A machine before anything has been read. -/
def start (c : Calculator) : Machine := ⟨c, 0, .ofTokens [], #[]⟩

/-- Adds a record to the trace. -/
def note (m : Machine) (r : Record) : Machine := { m with trace := m.trace.push r }

end Machine

namespace Eval

variable {α : Type}

def fail (fault : Fault) : Eval α := throw (.fault fault)

def ofExcept : Except Fault α → Eval α
  | .ok a => pure a
  | .error fault => fail fault

/-- Adds a record to the trace. -/
def note (r : Record) : Eval Unit := modify fun m => m.note r

/-- Reads the next token; there is none in the one reading allowed at the end. -/
def read : Eval (Option Token) := fun m =>
  match m.cursor.next with
  | .ok (token, cursor) => .ok token { m with cursor := cursor }
  | .error fault => .error (.fault fault) m

/-- Puts the token back that was read last. -/
def unread : Eval Unit := modify fun m => { m with cursor := m.cursor.back }

/-- Cuts a text into tokens. -/
def lex (text : String) : Eval (List Token) := do
  let tokens := Token.ofText text
  note (.lexed text tokens.length)
  return tokens

/-- Changes the machine that an evaluation leaves. -/
def onMachine (f : Machine → Machine) : EStateM.Result Stop Machine α → EStateM.Result Stop Machine α
  | .ok a m => .ok a (f m)
  | .error e m => .error e (f m)

/-- Evaluates one level deeper, or stops at the limit. -/
def nested (inner : Eval α) : Eval α := fun m =>
  if m.depth < m.calculator.limit then
    onMachine (fun m => { m with depth := m.depth - 1 }) (inner { m with depth := m.depth + 1 })
  else
    .error (.fault (.depthExceeded m.calculator.limit)) (m.note (.depthReached m.calculator.limit))

/-- Evaluates with other tokens to read, and goes on with the present ones afterwards. -/
def within (tokens : List Token) (inner : Eval α) : Eval α := fun m =>
  let cursor := m.cursor
  onMachine (fun m => { m with cursor := cursor }) (inner { m with cursor := .ofTokens tokens })

/-- Writes a variable. -/
def assign (name : String) (x : Float) : Eval Unit := do
  note (.assigned name x)
  modify fun m => { m with calculator := m.calculator.assign name x }

/-- Stores a function. -/
def define (name : String) (f : Definition) : Eval Unit := do
  note (.defined name f.parameters)
  modify fun m => { m with calculator := m.calculator.define name f }

end Eval

end LineCalc
