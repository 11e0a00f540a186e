import LineCalc.Number.Text
import LineCalc.Fault

/-! # Records

What happens while lines are evaluated is recorded, in order: the *trace*.

* A *warning* says that the bound on nesting has been reached.
* *Debug* records tell of assignments, definitions, calls and failed lines.
* *Trace* records tell of every text that is cut into tokens, and of every parameter value that
  is about to be read again.

A reader of the trace asks for a level and gets what is at least as severe. -/

namespace LineCalc

/-- How severe a record is, the most severe first. -/
inductive Level where
  | warn
  | debug
  | trace
deriving DecidableEq

namespace Level

def name : Level → String
  | warn => "WARN"
  | debug => "DEBUG"
  | trace => "TRACE"

/-- How many levels are more severe. -/
def rank : Level → Nat
  | warn => 0
  | debug => 1
  | trace => 2

/-- Whether a reader who asks for level `asked` gets records of this level. -/
def shownAt (level asked : Level) : Bool := level.rank ≤ asked.rank

end Level

/-- One thing that happened. -/
inductive Record where
  /-- An expression would be nested deeper than the limit. -/
  | depthReached (limit : Nat)
  /-- A variable is about to be written. -/
  | assigned (name : String) (value : Float)
  /-- A function is about to be stored. -/
  | defined (name : String) (parameters : List String)
  /-- The arguments of a call are known. -/
  | calling (name : String) (arguments : List (String × Float))
  /-- A text has been cut into tokens. -/
  | lexed (text : String) (count : Nat)
  /-- The text of a parameter's value is about to be read. -/
  | reread (text : String)
  /-- A line of a session has failed. -/
  | failed (line : String) (fault : Fault)
deriving DecidableEq

namespace Record

def level : Record → Level
  | depthReached _ => .warn
  | assigned .. | defined .. | calling .. | failed .. => .debug
  | lexed .. | reread _ => .trace

/-- One argument of a call: the parameter and its value. -/
def argumentText (argument : String × Float) : String :=
  quoted argument.1 ++ ": " ++ Number.detailed argument.2

/-- The arguments of a call in the order of their texts, between braces. -/
def argumentsText (arguments : List (String × Float)) : String :=
  let texts := (arguments.map argumentText).mergeSort fun a b => decide (a ≤ b)
  "\x7b" ++ String.intercalate ", " texts ++ "\x7d"

/-- What a record says. -/
def message : Record → String
  | depthReached limit => "evaluation depth limit of " ++ toString limit ++ " reached"
  | assigned name value => "assigned " ++ name ++ " = " ++ Number.text value
  | defined name parameters =>
    "defined function " ++ name ++ "(" ++ String.intercalate ", " parameters ++ ")"
  | calling name arguments => "calling " ++ name ++ " with " ++ argumentsText arguments
  | lexed text count => "lexed " ++ quoted text ++ " into " ++ toString count ++ " tokens"
  | reread text => "re-reading parameter value " ++ quoted text
  | failed line fault => "line " ++ quoted line ++ " failed: " ++ fault.detail

/-- A record with its level. -/
def text (r : Record) : String := r.level.name ++ " " ++ r.message

end Record

end LineCalc
