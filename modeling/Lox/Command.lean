import Lox.Session
import Lox.Tree.Document
import Lox.Tree.Printer

/-!
# Commands

What each command does with a source text, as the texts it writes and the status it exits with.
Errors go to the error output, a line each; the status says at which stage the first of them was
found. None stands for a program that needed more fuel.
-/

namespace Lox

/-- What a command leaves behind. -/
structure Outcome where
  code : Nat := 0
  out : String := ""
  err : String := ""
  deriving DecidableEq, Repr

/-- Texts, each on lines of its own. -/
def joinLines (texts : List String) : String :=
  String.join (texts.map (·.push '\n'))

/-- The lines that tell of some errors. -/
def Diagnostic.lines (ds : List Diagnostic) : String :=
  joinLines (ds.map (·.text))

/-- Why a file gives no source text. -/
inductive FileFault where
  | missing
  | notText
  deriving DecidableEq, Repr

namespace FileFault

/-- What was tried with the file. -/
def attempt : FileFault → String
  | missing => "open"
  | notText => "read"

def cause : FileFault → String
  | missing => "No such file or directory (os error 2)"
  | notText => "stream did not contain valid UTF-8"

def outcome (f : FileFault) (path : String) : Outcome :=
  { code := 1
    err := joinLines ["Error: Failed to " ++ f.attempt ++ " file " ++ Json.quote path, "",
      "Caused by:", "    " ++ f.cause] }

end FileFault

/-- How many ticks take a millisecond. -/
def ticksPerMillisecond : Nat := 1000

/-- A clock that starts at some millisecond. It says seconds, and shows whole milliseconds only. -/
def steadyClock (start : Nat) (ticks : Nat) : Float :=
  (start + ticks / ticksPerMillisecond).toFloat / 1000

/-- What can be done with a source text. -/
inductive Command where
  | tokenize (json : Bool)
  | parse (json : Bool)
  | evaluate
  | run
  deriving DecidableEq, Repr

namespace Command

/-- Lists the tokens of a text, as JSON or in short. -/
def listTokens (json : Bool) (source : String) : Outcome :=
  let errors := (lexicalErrors source).map (·.diagnostic)
  { code := if errors.isEmpty then 0 else Report.refused
    out := joinLines ((tokens source).map fun t => if json then t.json.compact else t.listing)
    err := Diagnostic.lines errors }

/-- The expression that a text spells, or its faults. -/
def readExpression (source : String) : Except (List Diagnostic) Expr :=
  let lexical := (lexicalErrors source).map (·.diagnostic)
  match (Grammar.parseExpression 0 (tokens source)).result with
  | .error faults => .error (lexical ++ faults.map (·.diagnostic))
  | .ok e => if lexical.isEmpty then .ok e else .error lexical

/-- The outcome of a text that is refused. -/
def refuse (errors : List Diagnostic) : Outcome :=
  { code := Report.refused, err := Diagnostic.lines errors }

/-- Shows the tree of an expression, as JSON or in brackets. -/
def showTree (json : Bool) (source : String) : Outcome :=
  match readExpression source with
  | .error errors => refuse errors
  | .ok e => { out := joinLines [if json then e.json.pretty else e.bracketed] }

/-- Shows the value of an expression. -/
def showValue (fuel : Nat) (clock : Nat → Float) (source : String) : Option Outcome :=
  match readExpression source with
  | .error errors => some (refuse errors)
  | .ok e =>
    match Lox.evaluate fuel e (.initial clock .unbounded) with
    | .ok v _ => some { out := joinLines [v.text] }
    | .error (.error e) _ =>
      some { code := Report.failed, err := Diagnostic.lines [e.diagnostic] }
    | .error .outOfFuel _ => none

/-- Runs a program. -/
def runProgram (fuel : Nat) (clock : Nat → Float) (source : String) : Option Outcome :=
  let run := (Session.initial clock .unbounded).run fuel source
  run.report?.map fun report =>
    { code := report.exitCode?.getD 0
      out := run.session.takeOutput.1
      err := Diagnostic.lines report.diagnostics }

/-- Carries out a command on a source text. -/
def onText (fuel : Nat) (clock : Nat → Float) (source : String) : Command → Option Outcome
  | tokenize json => some (listTokens json source)
  | parse json => some (showTree json source)
  | evaluate => showValue fuel clock source
  | run => runProgram fuel clock source

/-- Carries out a command on a file, if there is one at the path. -/
def onFile (fuel : Nat) (clock : Nat → Float) (path : String) (contents? : Option ByteArray)
    (c : Command) : Option Outcome :=
  match contents? with
  | none => some (FileFault.missing.outcome path)
  | some bytes =>
    match String.fromUTF8? bytes with
    | none => some (FileFault.notText.outcome path)
    | some source => c.onText fuel clock source

end Command

namespace Prompt

/-- What is written before each line is read. -/
def mark : String := "> "

/-- What a line that is no text ends the prompt with. -/
def notText : String :=
  joinLines ["Error: " ++ FileFault.notText.cause]

/-- The first line of some bytes, without its end, and the bytes after it. A line ends at a newline,
with a carriage return before it or without. -/
def splitLine (bytes : List UInt8) : List UInt8 × List UInt8 :=
  let line := bytes.takeWhile (· ≠ 10)
  match bytes.dropWhile (· ≠ 10) with
  | [] => (line, [])
  | _ :: rest => (if line.getLast? = some 13 then line.dropLast else line, rest)

/-- Runs one line in a session: what it leaves behind, and the session to go on with. A line that is
no text ends the prompt. -/
def step (fuel : Nat) (session : Session) (line : List UInt8) :
    Option (Outcome × Option Session) :=
  match String.fromUTF8? ⟨line.toArray⟩ with
  | none => some ({ code := 1, err := notText }, none)
  | some source =>
    let run := session.run fuel source
    run.report?.map fun report =>
      let (out, session) := run.session.takeOutput
      ({ out, err := Diagnostic.lines report.diagnostics }, some session)

/-- Runs the lines of some bytes in a session. There are at most as many lines as bytes. -/
def runLines (fuel : Nat) : Nat → Session → List UInt8 → Option Outcome
  | 0, _, _ => some { out := mark }
  | _, _, [] => some { out := mark }
  | n + 1, session, bytes => do
    let (line, rest) := splitLine bytes
    let (first, next?) ← step fuel session line
    match next? with
    | none => return { first with out := mark ++ first.out }
    | some session =>
      let others ← runLines fuel n session rest
      return { others with out := mark ++ first.out ++ others.out, err := first.err ++ others.err }

/-- Runs what is typed at the prompt. -/
def run (fuel : Nat) (clock : Nat → Float) (input : ByteArray) : Option Outcome :=
  runLines fuel input.size (.initial clock .unbounded) input.toList

end Prompt

end Lox
