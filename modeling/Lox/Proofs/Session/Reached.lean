import Lox.Proofs.Eval.Kept
import Lox.Proofs.Eval.Tracks

/-!
# Reached sessions

A session runs sources one after the other, each to an end, and its output is taken in between
(`Session.Reached`). Between two sources the global scope is current, and all numbers of references
in the state were given out: those with a distance and those in the functions that are kept
(`Session.Sound`).
-/

namespace Lox

/-- Nothing is moved, and the references below a number have the same distance. -/
def Mirror.below (next : NodeId) (extra : Nat) : Mirror where
  line := id
  tokens _ := True
  known := (· < next)
  extra := extra

/-- The functions that are bound refer only to numbers below one. -/
def Scopes.Below (next : NodeId) (s : Scopes) : Prop :=
  s.Holds (Value.Within (fun _ => True) (· < next))

theorem Scopes.Below.mono {s : Scopes} {first next : NodeId} (h : s.Below first)
    (hle : first ≤ next) : s.Below next :=
  h.imp fun _ hv => hv.imp (fun _ => id) fun _ hi => Nat.lt_of_lt_of_le hi hle

/-- At first only `clock` is bound. -/
theorem State.holds_initial {P : Value → Prop} (h : P (.callable (.clock 0)))
    (clock : Nat → Float) (sink : Sink) : (State.initial clock sink).scopes.Holds P := by
  have hempty : Scopes.empty.Holds P := by
    intro i x v hv
    cases hv
  exact (hempty.add none).define h _ _

section Below

variable {next : NodeId} {extra : Nat} {s s' : State} {program : List Stmt}

theorem State.Mirrors.of_below (h : s.scopes.Below next) : s.Mirrors (.below next extra) s :=
  ⟨h, s.scopes.reline_id.symm, rfl, fun _ _ => rfl, rfl, rfl, rfl, rfl⟩

/-- States that mirror each other where they are differ in distances only. -/
theorem State.Mirrors.eq_of_below (h : s.Mirrors (.below next extra) s') :
    s' = { s with distances := s'.distances } := by
  have hs := h.eq_reline
  rwa [show s.reline (Mirror.below next extra).line = s from s.reline_id] at hs

theorem executeProgram_tracks_below (n extra : Nat)
    (h : Stmt.WithinAll (fun _ => True) (· < next) program) :
    Tracks (.below next extra) (executeProgram n program) (executeProgram (n + extra) program)
      fun _ _ => True := by
  have htracks := executeProgram_tracks (m := .below next extra) n program h
  have hsame : Stmt.relineAll (Mirror.below next extra).line program = program :=
    Stmt.relineAll_id program
  rwa [hsame] at htracks

end Below

namespace Session

inductive Reached : Session → Prop where
  | initial (clock : Nat → Float) (sink : Sink) : Reached (.initial clock sink)
  | run {S : Session} {n : Nat} {source : String} {report : Report} (h : Reached S)
      (hreport : (S.run n source).report? = some report) : Reached (S.run n source).session
  | takeOutput {S : Session} (h : Reached S) : Reached S.takeOutput.2

structure Sound (S : Session) : Prop where
  current : S.state.current = State.globals
  globals : State.globals < S.state.scopes.size
  distances : S.state.distances.Below S.nextId
  functions : S.state.scopes.Below S.nextId

variable {S : Session} {source : String} {program : List Stmt}

theorem Accepts.within (h : S.Accepts source program) :
    Stmt.WithinAll (fun _ => True) (· < S.nextAfter source) program :=
  (Stmt.withinAll_iff program).2 ⟨fun _ _ => trivial, fun i hi => (h.numbers.bounds i hi).2⟩

theorem Sound.initial (clock : Nat → Float) (sink : Sink) : (Session.initial clock sink).Sound where
  current := rfl
  globals := Nat.one_pos
  distances := List.forall_mem_nil _
  functions := State.holds_initial trivial clock sink

theorem Sound.later {next : NodeId} (h : S.Sound) (hle : S.nextId ≤ next) :
    (⟨S.state, next⟩ : Session).Sound :=
  ⟨h.current, h.globals, h.distances.mono hle, h.functions.mono hle⟩

/-- A program that runs leaves a sound session, however it ends. -/
theorem Accepts.sound (h : S.Accepts source program) (hS : S.Sound) (n : Nat) :
    (S.run n source).session.Sound := by
  rw [h.run_eq hS.distances, runProgram_session, stateOf_interpret]
  have hkept := executeProgram_keeps n program (S.ready program)
  have hready : (S.ready program).scopes.Below (S.nextAfter source) :=
    hS.functions.mono h.numbers.le
  have htracks := executeProgram_tracks_below n 0 h.within _ _ (.of_below hready)
  exact
    { current := hkept.current.trans hS.current
      globals := Nat.lt_of_lt_of_le hS.globals hkept.size
      distances := hkept.distances ▸ Distances.below_record hS.distances h.numbers
      functions := (htracks.stateOf rfl).within }

theorem Reached.sound (h : S.Reached) : S.Sound := by
  induction h with
  | initial clock sink => exact .initial clock sink
  | @run S n source report _ _ hS =>
    rcases run_cases hS.distances n source with ⟨program, h, -⟩ | ⟨-, other, -, -, hrun⟩
    · exact h.sound hS n
    · rw [hrun]
      exact hS.later (Grammar.firstId_le_nextId _ _)
  | takeOutput _ hS => exact ⟨hS.current, hS.globals, hS.distances, hS.functions⟩

end Session

end Lox
