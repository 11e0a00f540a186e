import LineCalc.Session

/-! # The command line

The program takes these arguments, in any order:

* `-f`, `--file`: what stands on the command line is the name of a file to evaluate, not a line;
* `-q`, `--quiet`: no prompt is written;
* `--max-depth N` or `--max-depth=N`: how deep expressions may be nested, from zero to
  `2 ^ 64 - 1`, digits with an optional `+` in front;
* `-h`, `--help` and `-V`, `--version`: the program says something about itself and does nothing
  else;
* one line, or the name of a file.  Without it, lines are read from the standard input.

Short options may be put together after one dash.  An option may be given only once, and only
`--max-depth` has a value.  What begins with a dash and is not the dash alone is an option, unless
`--` stands somewhere before it.  Arguments are looked at from the first to the last, so an
error before `--version` counts, and one after it does not. -/

namespace LineCalc

namespace CommandLine

/-- The settings of a run. -/
structure Options where
  file : Bool
  quiet : Bool
  limit? : Option Nat
  contents? : Option String
deriving DecidableEq

/-- What the arguments ask for. -/
inductive Request where
  | run (options : Options)
  | version
  | help
deriving DecidableEq

namespace Options

/-- No argument has been given. -/
def initial : Options := ⟨false, false, none, none⟩

/-- How deep expressions may be nested. -/
def limit (o : Options) : Nat := o.limit?.getD Calculator.defaultLimit

def prompt (o : Options) : String := if o.quiet then "" else ">>> "

end Options

/-- Reads the value of `--max-depth`. -/
def limit? (text : String) : Option Nat :=
  let digits := match text.toList with
    | '+' :: rest => rest
    | rest => rest
  if digits = [] ∨ ¬ digits.all Char.isDigit then none
  else
    let n := Decimal.wholeValue digits
    if n < Nat.pow 2 64 then some n else none

/-- Sets the limit, which must be given only once. -/
def setLimit (o : Options) (text : String) : Option Options :=
  match o.limit?, limit? text with
  | none, some n => some { o with limit? := some n }
  | _, _ => none

def setFile (o : Options) : Option Options := if o.file then none else some { o with file := true }

def setQuiet (o : Options) : Option Options :=
  if o.quiet then none else some { o with quiet := true }

/-- Takes the line or the name of the file, of which there is at most one. -/
def setContents (o : Options) (text : String) : Option Options :=
  match o.contents? with
  | none => some { o with contents? := some text }
  | some _ => none

/-- Reads short options that are put together: the settings, or a request that ends the reading. -/
def shortOptions (o : Options) : List Char → Option (Options ⊕ Request)
  | [] => some (.inl o)
  | 'f' :: rest => (setFile o).bind (shortOptions · rest)
  | 'q' :: rest => (setQuiet o).bind (shortOptions · rest)
  | 'h' :: _ => some (.inr .help)
  | 'V' :: _ => some (.inr .version)
  | _ => none

/-- Takes everything as a line or the name of a file. -/
def plainArguments (o : Options) : List String → Option Options
  | [] => some o
  | text :: rest => (setContents o text).bind (plainArguments · rest)

/-- The value of an option that is written together with it. -/
def attached? (option text : String) : Option String :=
  let start := option.toList ++ ['=']
  if start.isPrefixOf text.toList then some (String.ofList (text.toList.drop start.length)) else none

/-- Reads the arguments after the settings that have been read already; nothing if they are
wrong. -/
def read (o : Options) : List String → Option Request
  | [] => some (.run o)
  | "--" :: rest => (plainArguments o rest).map .run
  | "--file" :: rest => (setFile o).bind (read · rest)
  | "--quiet" :: rest => (setQuiet o).bind (read · rest)
  | "--help" :: _ => some .help
  | "--version" :: _ => some .version
  | ["--max-depth"] => none
  | "--max-depth" :: value :: rest => (setLimit o value).bind (read · rest)
  | argument :: rest =>
    match argument.toList with
    | '-' :: '-' :: _ =>
      ((attached? "--max-depth" argument).bind (setLimit o)).bind (read · rest)
    | '-' :: letter :: letters =>
      match shortOptions o (letter :: letters) with
      | some (.inl o) => read o rest
      | some (.inr request) => some request
      | none => none
    | _ => (setContents o argument).bind (read · rest)

/-- Reads all arguments. -/
def ofArguments (arguments : List String) : Option Request := read .initial arguments

/-- What the program says about its version. -/
def versionText : String := "tokcalc 0.1.0\n"

/-- What the program says when it cannot read a file as a text. -/
def unreadableText (name : String) : String :=
  "Failed to read the input file '" ++ name ++ "'. Perhaps this file does not exist?\n"

/-- The exit status of a program and what it writes. -/
structure Exit where
  status : Nat
  output : List UInt8
  errors : String

/-- Evaluates the lines of some bytes.  What the system says of a session that fails is left out. -/
def runOn (o : Options) (bytes : List UInt8) (prompt : String) : Exit :=
  let session := Session.run (.empty o.limit) ⟨bytes, false⟩ prompt none
  ⟨if session.failure?.isNone then 0 else 1, session.sink.written.toList, ""⟩

/-- What the program does with given arguments, the files that there are, and the bytes on the
standard input.  What it says of its arguments, as help or because they are wrong, is left out. -/
def execute (file? : String → Option (List UInt8)) (input : List UInt8)
    (arguments : List String) : Exit :=
  match ofArguments arguments with
  | none => ⟨2, [], ""⟩
  | some .version => ⟨0, Utf8.encode versionText, ""⟩
  | some .help => ⟨0, [], ""⟩
  | some (.run o) =>
    match o.contents? with
    | none => runOn o input o.prompt
    | some contents =>
      if o.file then
        match (file? contents).filter Utf8.isValid with
        | some bytes => runOn o bytes ""
        | none => ⟨1, [], unreadableText contents⟩
      else runOn o (Utf8.encode contents) ""

end CommandLine

end LineCalc
