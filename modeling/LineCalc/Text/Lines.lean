/-! # Cutting into lines

A text, or a row of bytes, is cut after each of its line feeds.  So every line ends in a line
feed, except a last one that the text breaks off; no line is empty, and the lines joined together
are the text.

What a line says is the line without its ending: a line feed, and a carriage return directly in
front of it.  A carriage return that no line feed follows is part of what the line says. -/

namespace LineCalc

namespace Lines

variable {α : Type}

/-- Puts an element in front of the first line, or ends a line with it. -/
def extend (isEnd : α → Bool) (a : α) (lines : List (List α)) : List (List α) :=
  if isEnd a then [a] :: lines
  else match lines with
    | [] => [[a]]
    | line :: rest => (a :: line) :: rest

/-- Cuts a row after each element that ends a line. -/
def cut (isEnd : α → Bool) (row : List α) : List (List α) := row.foldr (extend isEnd) []

@[simp] theorem cut_nil (isEnd : α → Bool) : cut isEnd [] = [] := rfl

@[simp] theorem cut_cons (isEnd : α → Bool) (a : α) (row : List α) :
    cut isEnd (a :: row) = extend isEnd a (cut isEnd row) := rfl

/-- What a line says: the line without its ending. -/
def content (line : List Char) : List Char :=
  if line.getLast? = some '\n' then
    let body := line.dropLast
    if body.getLast? = some '\r' then body.dropLast else body
  else line

/-- What the lines of a text say. -/
def ofText (text : String) : List String :=
  (cut (· = '\n') text.toList).map fun line => String.ofList (content line)

end Lines

end LineCalc
