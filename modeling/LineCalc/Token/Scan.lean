import LineCalc.Token

/-! # Cutting a text into tokens

A text is read once, character by character.  Between two characters the reader holds the
tokens that are complete and the *piece* that the next character may still extend.

* **Blanks** are the space, the tab, the carriage return, the line feed and the form feed.  They
  end every piece and are dropped.
* **Names** begin with a letter or an underscore and go on with letters, digits and underscores,
  ASCII only.
* **Numerals** are digits, digits around a point, or a point and digits.  As many characters as
  possible belong to one numeral.  A point that turns out to have no digit after it is not part
  of it: `5.` is the numeral `5` and a stray point.
* **Symbols** stand for themselves.
* **Strays** are all other characters.  Those that follow each other directly are one token,
  points without a digit after them included.

No text is refused. -/

namespace LineCalc

namespace Token

/-- The characters that separate tokens and are dropped. -/
def isBlank (c : Char) : Bool := c = ' ' || c = '\t' || c = '\r' || c = '\n' || c = '\x0c'

def isNameStart (c : Char) : Bool := c.isAlpha || c = '_'

def isNamePart (c : Char) : Bool := c.isAlphanum || c = '_'

/-- The token of a character that is a token by itself. -/
def ofSymbol? (c : Char) : Option Token :=
  if c = '+' then some plus
  else if c = '-' then some minus
  else if c = '*' then some star
  else if c = '/' then some slash
  else if c = '%' then some percent
  else if c = '=' then some equals
  else if c = '>' then some greater
  else if c = '(' then some leftParen
  else if c = ')' then some rightParen
  else none

/-- The characters that belong to no other token. -/
def isStray (c : Char) : Bool :=
  !isBlank c && !isNamePart c && c ≠ '.' && (ofSymbol? c).isNone

/-- What has been read of a token that the next character may extend. -/
inductive Piece where
  /-- Nothing. -/
  | nothing
  | name (text : String)
  /-- Digits. -/
  | whole (digits : String)
  /-- Digits and a point after them. -/
  | point (digits : String)
  /-- Digits, if any, a point, and digits after it. -/
  | pointed (digits fraction : String)
  /-- A stray run that does not end in a point. -/
  | stray (text : String)
  /-- A stray run, if any, and a point after it, with which a numeral may begin. -/
  | strayPoint (text : String)
deriving DecidableEq

namespace Piece

/-- The tokens of a piece that is not extended. -/
def tokens : Piece → List Token
  | nothing => []
  | name text => [.identifier text]
  | whole digits => [.number (.ofWhole digits)]
  | point digits => [.number (.ofWhole digits), .stray "."]
  | pointed digits fraction => [.number (.ofPointed digits fraction)]
  | stray text => [.stray text]
  | strayPoint text => [.stray (text.push '.')]

/-- The complete tokens and the piece after a character that extends a piece, if it does. -/
def extend? (piece : Piece) (c : Char) : Option (List Token × Piece) :=
  match piece with
  | nothing => none
  | name text => if isNamePart c then some ([], name (text.push c)) else none
  | whole digits =>
    if c.isDigit then some ([], whole (digits.push c))
    else if c = '.' then some ([], point digits)
    else none
  | point digits =>
    if c.isDigit then some ([], pointed digits (String.singleton c))
    else if c = '.' then some ([.number (.ofWhole digits)], strayPoint ".")
    else if isStray c then some ([.number (.ofWhole digits)], stray ("." ++ String.singleton c))
    else none
  | pointed digits fraction =>
    if c.isDigit then some ([], pointed digits (fraction.push c)) else none
  | stray text =>
    if c = '.' then some ([], strayPoint text)
    else if isStray c then some ([], stray (text.push c))
    else none
  | strayPoint text =>
    if c.isDigit then some (if text = "" then [] else [.stray text], pointed "" (String.singleton c))
    else if c = '.' then some ([], strayPoint (text.push '.'))
    else if isStray c then some ([], stray ((text.push '.').push c))
    else none

/-- The complete tokens and the piece after a character that nothing extends to. -/
def start (c : Char) : List Token × Piece :=
  if isBlank c then ([], nothing)
  else if isNameStart c then ([], name (String.singleton c))
  else if c.isDigit then ([], whole (String.singleton c))
  else if c = '.' then ([], strayPoint "")
  else match ofSymbol? c with
    | some token => ([token], nothing)
    | none => ([], stray (String.singleton c))

end Piece

/-- How far a text has been read. -/
structure Scan where
  complete : Array Token
  piece : Piece

namespace Scan

/-- Nothing has been read. -/
def initial : Scan := ⟨#[], .nothing⟩

/-- Reads a character: it extends the piece, or ends it and starts the next one. -/
def step (s : Scan) (c : Char) : Scan :=
  match s.piece.extend? c with
  | some (tokens, piece) => ⟨s.complete ++ tokens, piece⟩
  | none =>
    let (tokens, piece) := Piece.start c
    ⟨s.complete ++ s.piece.tokens ++ tokens, piece⟩

/-- The tokens of a text that ends here. -/
def finish (s : Scan) : List Token := (s.complete ++ s.piece.tokens).toList

end Scan

/-- The tokens of a text. -/
def ofText (text : String) : List Token := (text.toList.foldl Scan.step Scan.initial).finish

end Token

end LineCalc
