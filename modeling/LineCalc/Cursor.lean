import LineCalc.Token
import LineCalc.Fault

/-! # A cursor on a row of tokens

A cursor stands between the tokens that have been read and those that have not.  Whoever reads a
token may put it back.

* Reading once at the end is allowed and finds no token; the cursor then stands *past the end*.
  So a reader may look for an operator without asking first whether the line goes on.
* Reading past the end is the fault `Fault.endOfInput` and leaves the cursor as it is.
* Stepping back undoes one reading, also the one at the end.  At the start it does nothing. -/

namespace LineCalc

/-- The tokens that have been read, the last one first, and those that have not; there are none
of the latter past the end. -/
structure Cursor where
  before : List Token
  after? : Option (List Token)
deriving DecidableEq

namespace Cursor

/-- Stands before the first token. -/
def ofTokens (tokens : List Token) : Cursor := ⟨[], some tokens⟩

/-- Reads a token; there is none in the one reading allowed at the end. -/
def next (c : Cursor) : Except Fault (Option Token × Cursor) :=
  match c.after? with
  | none => .error .endOfInput
  | some [] => .ok (none, ⟨c.before, none⟩)
  | some (token :: rest) => .ok (some token, ⟨token :: c.before, some rest⟩)

/-- Undoes a reading. -/
def back (c : Cursor) : Cursor :=
  match c.before, c.after? with
  | before, none => ⟨before, some []⟩
  | [], some after => ⟨[], some after⟩
  | token :: before, some after => ⟨before, some (token :: after)⟩

/-- The tokens that have not been read. -/
def remaining (c : Cursor) : List Token := c.after?.getD []

/-- How many tokens have not been read; past the end it is one less than none. -/
def remainingCount (c : Cursor) : Int :=
  match c.after? with
  | none => -1
  | some after => after.length

/-- Whether the next token agrees with a given one. -/
def peekIs (c : Cursor) (token : Token) : Bool :=
  match c.remaining with
  | [] => false
  | first :: _ => first.agrees token

/-- Whether there are no tokens at all, read or not. -/
def isEmpty (c : Cursor) : Bool := c.before.isEmpty && c.remaining.isEmpty

/-- How many readings lie behind, the one at the end included. -/
def position (c : Cursor) : Nat :=
  match c.after? with
  | none => c.before.length + 1
  | some _ => c.before.length

/-- The whole row. -/
def tokens (c : Cursor) : List Token := c.before.reverse ++ c.remaining

@[simp] theorem remaining_ofTokens (tokens : List Token) :
    (ofTokens tokens).remaining = tokens := rfl

@[simp] theorem tokens_back (c : Cursor) : c.back.tokens = c.tokens := by
  rcases c with ⟨_ | ⟨t, before⟩, _ | after⟩ <;> simp [back, tokens, remaining]

theorem tokens_of_next {c c' : Cursor} {t : Option Token} (h : c.next = .ok (t, c')) :
    c'.tokens = c.tokens := by
  rcases c with ⟨before, _ | _ | ⟨u, after⟩⟩ <;> simp [next] at h <;>
    obtain ⟨rfl, rfl⟩ := h <;> simp [tokens, remaining]

theorem remainingCount_eq (c : Cursor) :
    c.remainingCount = (c.tokens.length : Int) - c.position := by
  rcases c with ⟨before, _ | after⟩
  · simp only [remainingCount, tokens, remaining, position, Option.getD_none, List.append_nil,
      List.length_reverse]
    omega
  · simp only [remainingCount, tokens, remaining, position, Option.getD_some, List.length_append,
      List.length_reverse]
    omega

end Cursor

end LineCalc
