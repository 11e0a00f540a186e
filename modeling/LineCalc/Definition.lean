import LineCalc.Token
import LineCalc.Fault

/-! # Definitions of functions

A definition is the rest of a line after the word `fn`: a name, parameters, `=`, `>` and a body.

* The name must not be that of a variable.  A function of the same name is replaced.
* The parameters are names, and no two of them are the same.
* The body is everything after the arrow, and there must be something.  It is not evaluated, but
  every identifier in it that consists of letters only must be a parameter.

The faults are looked for in the order in which the line is read, and the first one counts.

A call reads the body as a text: that of its tokens, with nothing between them
(`Definition.joined`). -/

namespace LineCalc

/-- A function: the names of its parameters and the tokens of its body. -/
structure Definition where
  parameters : List String
  body : List Token
deriving DecidableEq

namespace Definition

/-- The word that begins a definition. -/
def keyword : String := "fn"

/-- The text that a call reads. -/
def joined (f : Definition) : String := Token.joinedText f.body

/-- Reads parameters up to and with the `=`, after those that have been read already. -/
def readParameters (names : List String) : List Token → Except Fault (List String × List Token)
  | [] => .error .endOfInput
  | .equals :: rest => .ok (names, rest)
  | .identifier name :: rest =>
    if name ∈ names then .error (.repeatedParameter name)
    else readParameters (names ++ [name]) rest
  | other :: _ => .error (.malformedDefinition other.text)

/-- Reads the second half of the arrow and gives the body. -/
def readBody : List Token → Except Fault (List Token)
  | .greater :: body => .ok body
  | other :: _ => .error (.malformedDefinition other.text)
  | [] => .error (.malformedDefinition "end of input")

/-- The first plain name of a body that is no parameter. -/
def unknown? (parameters : List String) (body : List Token) : Option String :=
  (body.filterMap Token.plainName?).find? (· ∉ parameters)

/-- Reads what follows the name of a function. -/
def ofRest (name : String) (rest : List Token) : Except Fault Definition := do
  let (parameters, rest) ← readParameters [] rest
  let body ← readBody rest
  if body = [] then throw (.emptyBody name)
  match unknown? parameters body with
  | some unknown => throw (.unknownIdentifier unknown)
  | none => return ⟨parameters, body⟩

/-- Reads what follows the word `fn`: the name of a function and its definition. -/
def ofTokens (isVariable : String → Bool) : List Token → Except Fault (String × Definition)
  | [] => .error .endOfInput
  | .identifier name :: rest =>
    if isVariable name then .error (.nameIsVariable name)
    else (ofRest name rest).map (name, ·)
  | other :: _ => .error (.malformedDefinition other.text)

end Definition

end LineCalc
