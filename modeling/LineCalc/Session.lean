import LineCalc.Line
import LineCalc.Text.Utf8
import LineCalc.Text.Lines

/-! # Sessions

A session reads lines, evaluates each of them, and writes what it gives.

* **Reading.**  The source is bytes, cut into lines after each line feed.  A line is decoded, its
  ending is dropped, and the rest is evaluated.  A source ends, or it *breaks* after the bytes
  that it has delivered; a line that is broken off is not evaluated.
* **Writing.**  Before each attempt to read a line comes the prompt, if there is one, and after
  each line what it gives and a line feed.  The sink takes everything, or only so many bytes; it
  then takes the part of a writing for which it has room, and refuses the rest.
* **Ending.**  A line that fails does not end the session.  It ends with its source, or at the
  first reading or writing that fails.  A line is evaluated before what it gives is written. -/

namespace LineCalc

namespace Session

/-- The bytes that can be read, and whether reading then fails instead of coming to an end. -/
structure Source where
  bytes : List UInt8
  breaks : Bool

def isLineFeed (b : UInt8) : Bool := b = 10

/-- The lines that can be read completely. -/
def Source.lines (s : Source) : List (List UInt8) :=
  let lines := Lines.cut isLineFeed s.bytes
  if s.breaks then lines.filter fun line => line.getLast?.any isLineFeed else lines

/-- What has been written, and for how many more bytes there is room, if there is a bound. -/
structure Sink where
  written : Array UInt8
  room? : Option Nat

/-- Writes bytes, as far as there is room, and says whether there was room for all of them. -/
def Sink.write (s : Sink) (bytes : List UInt8) : Bool × Sink :=
  match s.room? with
  | none => (true, ⟨s.written ++ bytes, none⟩)
  | some room =>
    if bytes.length ≤ room then (true, ⟨s.written ++ bytes, some (room - bytes.length)⟩)
    else (false, ⟨s.written ++ bytes.take room, some 0⟩)

/-- Why a session ends before its source does. -/
inductive Failure where
  | read
  | write
deriving DecidableEq

/-- How far a session has come. -/
structure Progress where
  calculator : Calculator
  trace : Array Record
  sink : Sink
  failure? : Option Failure

/-- The text of a line as it is evaluated. -/
def lineText (line : List UInt8) : String :=
  String.ofList (Lines.content (Utf8.decode line).toList)

/-- Evaluates a line of bytes, and records if it fails. -/
def answer (c : Calculator) (line : List UInt8) : Report :=
  let text := lineText line
  let report := c.evaluate text
  match report.outcome with
  | .ok _ => report
  | .error fault => { report with trace := report.trace.push (.failed text fault) }

/-- What is written after a line. -/
def outputLine (outcome : Outcome) : List UInt8 := Utf8.encode (outcome.text ++ "\n")

namespace Progress

/-- Nothing has been read or written. -/
def start (c : Calculator) (room? : Option Nat) : Progress := ⟨c, #[], ⟨#[], room?⟩, none⟩

/-- Writes bytes, unless the session has failed. -/
def write (p : Progress) (bytes : List UInt8) : Progress :=
  match p.failure? with
  | some _ => p
  | none =>
    let (ok, sink) := p.sink.write bytes
    { p with sink := sink, failure? := if ok then none else some .write }

/-- Evaluates a line, unless the session has failed, and writes what it gives. -/
def evaluate (p : Progress) (line : List UInt8) : Progress :=
  match p.failure? with
  | some _ => p
  | none =>
    let report := answer p.calculator line
    { p with calculator := report.calculator, trace := p.trace ++ report.trace }.write
      (outputLine report.outcome)

/-- Writes the prompt, then evaluates a line. -/
def step (prompt : List UInt8) (p : Progress) (line : List UInt8) : Progress :=
  (p.write prompt).evaluate line

/-- Writes the prompt, then finds that there are no more lines. -/
def finish (prompt : List UInt8) (breaks : Bool) (p : Progress) : Progress :=
  let p := p.write prompt
  { p with failure? := p.failure?.or (if breaks then some .read else none) }

end Progress

/-- Runs a session from a calculator, with a prompt, which may be empty, and room for so many
bytes of output, if there is a bound. -/
def run (c : Calculator) (source : Source) (prompt : String) (room? : Option Nat) : Progress :=
  let prompt := Utf8.encode prompt
  (source.lines.foldl (Progress.step prompt) (.start c room?)).finish prompt source.breaks

end Session

end LineCalc
