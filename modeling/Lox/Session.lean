import Lox.Diagnostic
import Lox.Eval

/-!
# Sessions

A session runs one program after the other on one state: what a program leaves bound, the next one
finds. A program with a fault in its text is refused and changes nothing but the numbers of
references.
-/

namespace Lox

/-- Records the references of a program. One that breaks a rule of declaration will not run, so its
references are forgotten again. -/
def State.resolve (s : State) (program : List Stmt) : List BindingError × State :=
  let noted := references program
  let recorded := s.distances.record noted
  match violations s.globalNames program with
  | [] => ([], { s with distances := recorded })
  | faults => (faults, { s with distances := recorded.forget noted })

/-- The state with the references of a program recorded, unless the program breaks a rule of
declaration. -/
def State.admit (s : State) (program : List Stmt) : Except (List BindingError) State :=
  match s.resolve program with
  | ([], s) => .ok s
  | (faults, _) => .error faults

structure Session where
  state : State
  nextId : NodeId

/-- What came of one program. There is no report on a run that needed more fuel. -/
structure Run where
  report? : Option Report
  session : Session

namespace Session

def initial (clock : Nat → Float) (sink : Sink) : Session :=
  ⟨.initial clock sink, 0⟩

/-- Runs a program on a state that knows its references. -/
def runProgram (fuel : Nat) (program : List Stmt) (nextId : NodeId) (state : State) : Run :=
  match interpret fuel program state with
  | .ok () state => ⟨some {}, ⟨state, nextId⟩⟩
  | .error (.error e) state => ⟨some { runtime := e.diagnostic }, ⟨state, nextId⟩⟩
  | .error .outOfFuel state => ⟨none, ⟨state, nextId⟩⟩

/-- Runs a source text. Lexical faults do not keep the grammar from being checked, but either kind
keeps the program from going further. -/
def run (fuel : Nat) (source : String) (session : Session) : Run :=
  let lexical := (lexicalErrors source).map (·.diagnostic)
  let parse := Grammar.parseProgram session.nextId (tokens source)
  let session := { session with nextId := parse.nextId }
  match parse.result with
  | .error faults => ⟨some { lexical, grammar := faults.map (·.diagnostic) }, session⟩
  | .ok program =>
    if !lexical.isEmpty then
      ⟨some { lexical }, session⟩
    else
      match session.state.resolve program with
      | ([], state) => runProgram fuel program session.nextId state
      | (faults, state) =>
        ⟨some { binding := faults.map (·.diagnostic) }, { session with state }⟩

/-- What the session has printed since the last time, and the session without it. -/
def takeOutput (session : Session) : String × Session :=
  let (bytes, sink) := session.state.sink.drain
  (readableText bytes, { session with state := { session.state with sink } })

end Session

end Lox
