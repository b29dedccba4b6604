import Lox.Command
import Std.Time.DateTime.Timestamp

/-!
# The command line

Reads files and standard input and writes what the commands answer. The clock of a program starts
at the time the program was started.
-/

namespace Lox.Main

/-- More nested steps than any program takes that ends. -/
def fuel : Nat := Nat.pow 2 62

def usage : String :=
  joinLines ["Usage: lox tokenize FILE [--json]", "       lox parse FILE [--json]",
    "       lox evaluate FILE", "       lox run [FILE]"]

/-- The clock, started now. -/
def startClock : IO (Nat → Float) := do
  let now ← Std.Time.Timestamp.now
  return steadyClock now.toMillisecondsSinceUnixEpoch.val.toNat

/-- The bytes of a file, or none if there is no file. -/
def contents? (path : String) : IO (Option ByteArray) := do
  try
    return some (← IO.FS.readBinFile path)
  catch
    | .noFileOrDirectory .. => return none
    | e => throw e

/-- Writes an outcome, and gives its exit status. -/
def finish (outcome : Outcome) : IO UInt32 := do
  IO.print outcome.out
  IO.eprint outcome.err
  return outcome.code.toUInt32

/-- Carries out a command on a file. -/
def onFile (path : String) (c : Command) : IO UInt32 := do
  match c.onFile fuel (← startClock) path (← contents? path) with
  | some outcome => finish outcome
  | none => throw (IO.userError "out of fuel")

/-- The next line of a stream with its end, or what is left of the stream. -/
partial def readLine (input : IO.FS.Stream) (line : ByteArray) : IO ByteArray := do
  let bytes ← input.read 1
  let line := line ++ bytes
  if bytes.isEmpty || bytes.data.contains 10 then
    return line
  else
    readLine input line

/-- Runs a session on the lines of standard input. -/
partial def prompt (session : Session) : IO UInt32 := do
  IO.print Prompt.mark
  (← IO.getStdout).flush
  let line ← readLine (← IO.getStdin) .empty
  if line.isEmpty then
    return 0
  match Prompt.step fuel session (Prompt.splitLine line.toList).1 with
  | none => throw (IO.userError "out of fuel")
  | some (outcome, next?) =>
    let code ← finish outcome
    match next? with
    | none => return code
    | some session => prompt session

/-- The command and the file that some words ask for; a session has no file. -/
def request? : List String → Option (Option (Command × String))
  | ["run"] => some none
  | ["run", path] => some (some (.run, path))
  | ["evaluate", path] => some (some (.evaluate, path))
  | ["tokenize", path] => some (some (.tokenize false, path))
  | ["tokenize", "--json", path] => some (some (.tokenize true, path))
  | ["tokenize", path, "--json"] => some (some (.tokenize true, path))
  | ["parse", path] => some (some (.parse false, path))
  | ["parse", "--json", path] => some (some (.parse true, path))
  | ["parse", path, "--json"] => some (some (.parse true, path))
  | _ => none

end Lox.Main

open Lox Lox.Main in
def main (words : List String) : IO UInt32 := do
  match request? words with
  | some (some (command, path)) => onFile path command
  | some none => prompt (.initial (← startClock) .unbounded)
  | none => finish { code := 2, err := usage }
