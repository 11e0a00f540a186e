import LineCalc.CommandLine

/-! # The program

The outer layer: it reads the arguments, files and the standard input, writes what the library
says, and decides nothing.  Lines from the standard input are answered one by one, as they come: the
session takes the steps of `Session.run`, and what it writes is handed on after each of them. -/

namespace LineCalc

namespace Main

open IO.FS (Stream)

/-- Reads bytes up to and with the next line feed, or up to the end. -/
partial def readLine (input : Stream) (line : Array UInt8) : IO (List UInt8) := do
  let bytes ← input.read 1
  if bytes.isEmpty then return line.toList
  let line := line ++ bytes.data
  if bytes.data.any Session.isLineFeed then return line.toList
  readLine input line

def write (output : Stream) (bytes : List UInt8) : IO Unit := do
  output.write bytes.toByteArray
  output.flush

/-- Goes on with a session until a stream ends.  The prompt is there before the line is read; what the
step adds to it is written after that. -/
partial def converse (input output : Stream) (prompt : List UInt8) (p : Session.Progress) :
    IO Session.Progress := do
  write output prompt
  let line ← readLine input #[]
  if line.isEmpty then return p.finish prompt false
  let start := p.sink.written.size + prompt.length
  let p := p.step prompt line
  write output (p.sink.written.extract start).toList
  converse input output prompt p

/-- The bytes of a file, if it can be read. -/
def file? (name : String) : IO (Option (List UInt8)) := do
  try
    return some (← IO.FS.readBinFile name).toList
  catch _ =>
    return none

/-- Does what the arguments ask for, where that does not need the standard input. -/
def finish (arguments : List String) (files : String → Option (List UInt8)) : IO UInt32 := do
  let exit := CommandLine.execute files [] arguments
  write (← IO.getStdout) exit.output
  write (← IO.getStderr) (Utf8.encode exit.errors)
  return exit.status.toUInt32

end Main

end LineCalc

open LineCalc in
def main (arguments : List String) : IO UInt32 := do
  match CommandLine.ofArguments arguments with
  | some (.run options) =>
    match options.contents? with
    | none =>
      let session ← Main.converse (← IO.getStdin) (← IO.getStdout) (Utf8.encode options.prompt)
        (.start (.empty options.limit) none)
      return if session.failure?.isNone then 0 else 1
    | some contents =>
      let bytes? ← if options.file then Main.file? contents else pure none
      Main.finish arguments fun _ => bytes?
  | _ => Main.finish arguments fun _ => none
