import LineCalc.Text.Quoted

/-! # Faults

What can go wrong with a line.  A fault concerns its own line only.

* The *form* of the line may be wrong: `endOfInput` to `invalidTarget`.
* Its *meaning* may be: `nameIsVariable` to `depthExceeded`.

`Fault.message` is what the user is told, and `Fault.detail` names the fault and what it is
about for the trace. -/

namespace LineCalc

inductive Fault where
  /-- A token is needed after the last one. -/
  | endOfInput
  /-- Something is left of the line after its expression. -/
  | trailingTokens (line : String)
  /-- A definition repeats a parameter. -/
  | repeatedParameter (name : String)
  /-- A definition has something else where its grammar wants a certain token. -/
  | malformedDefinition (found : String)
  /-- Nothing follows the arrow of a definition. -/
  | emptyBody (name : String)
  /-- Something that begins no operand stands where one is needed. -/
  | unexpectedToken (found : String)
  /-- What stands left of `=` is no name. -/
  | invalidTarget (found : String)
  /-- A definition's name belongs to a variable. -/
  | nameIsVariable (name : String)
  /-- An assignment's name belongs to a function. -/
  | nameIsFunction (name : String)
  /-- The body of a definition has a plain name that is no parameter. -/
  | unknownIdentifier (name : String)
  /-- A name that stands for nothing is used as a number. -/
  | undefinedVariable (name : String)
  /-- Expressions are nested more than `limit` deep. -/
  | depthExceeded (limit : Nat)
deriving DecidableEq

namespace Fault

/-- What the user is told. -/
def message : Fault → String
  | endOfInput => "Error: unexpected end of input"
  | trailingTokens line => "Error: illegal expression '" ++ line ++ "'"
  | repeatedParameter name => "Error: parameter conflict '" ++ name ++ "'"
  | malformedDefinition found => "Error: illegal function definition near '" ++ found ++ "'"
  | emptyBody name => "Error: function '" ++ name ++ "' has an empty body"
  | unexpectedToken found => "Error: unexpected token '" ++ found ++ "'"
  | invalidTarget found => "Error: cannot assign to '" ++ found ++ "'"
  | nameIsVariable name => "Error: " ++ name ++ " is a variable"
  | nameIsFunction name => "Error: " ++ name ++ " is a function"
  | unknownIdentifier name => "Error: unknown identifier '" ++ name ++ "'"
  | undefinedVariable name => "Error: undefined variable '" ++ name ++ "'"
  | depthExceeded limit => "Error: maximum evaluation depth of " ++ toString limit ++ " exceeded"

/-- A name with one field, as the trace writes it. -/
def withField (name field value : String) : String :=
  name ++ " \x7b " ++ field ++ ": " ++ value ++ " \x7d"

/-- The fault as the trace writes it. -/
def detail : Fault → String
  | endOfInput => "Parse(EndOfInput)"
  | trailingTokens line => "Parse(" ++ withField "TrailingTokens" "input" (quoted line) ++ ")"
  | repeatedParameter name => "Parse(" ++ withField "ParamConflict" "name" (quoted name) ++ ")"
  | malformedDefinition found =>
    "Parse(" ++ withField "MalformedDefinition" "found" (quoted found) ++ ")"
  | emptyBody name => "Parse(" ++ withField "EmptyBody" "name" (quoted name) ++ ")"
  | unexpectedToken found => "Parse(" ++ withField "UnexpectedToken" "found" (quoted found) ++ ")"
  | invalidTarget found =>
    "Parse(" ++ withField "InvalidAssignmentTarget" "target" (quoted found) ++ ")"
  | nameIsVariable name => "Runtime(" ++ withField "NameIsVariable" "name" (quoted name) ++ ")"
  | nameIsFunction name => "Runtime(" ++ withField "NameIsFunction" "name" (quoted name) ++ ")"
  | unknownIdentifier name =>
    "Runtime(" ++ withField "UnknownIdentifier" "name" (quoted name) ++ ")"
  | undefinedVariable name =>
    "Runtime(" ++ withField "UndefinedVariable" "name" (quoted name) ++ ")"
  | depthExceeded limit => "Runtime(" ++ withField "DepthExceeded" "limit" (toString limit) ++ ")"

end Fault

end LineCalc
