import Lox.Proofs.Binding.Recorded
import Lox.Proofs.Grammar.Program

/-!
# Accepted sources

A source runs if it is read without a fault as a program that keeps the rules of declaration
(`Session.Accepts`); any other one is refused, uses up numbers of references and changes nothing
else (`Session.run_cases`).
-/

namespace Lox

/-- A program is admitted when it breaks no rule, with its references recorded. -/
theorem State.admit_eq_ok {s s' : State} {program : List Stmt} : s.admit program = .ok s' ↔
    violations s.globalNames program = [] ∧
      s' = { s with distances := s.distances.record (references program) } := by
  unfold State.admit State.resolve
  cases hv : violations s.globalNames program with
  | nil => simp [eq_comm]
  | cons fault faults => simp

/-- A program that breaks a rule leaves the state as it was if its references are new. -/
theorem State.resolve_eq {s : State} {first next : NodeId} {program : List Stmt}
    (hd : s.distances.Below first) (hids : Numbers first next (Stmt.idsOfAll program)) :
    s.resolve program = match violations s.globalNames program with
      | [] => ([], { s with distances := s.distances.record (references program) })
      | faults => (faults, s) := by
  have hforget := Distances.forget_record_program hd hids
  unfold State.resolve
  cases violations s.globalNames program with
  | nil => rfl
  | cons fault faults => simp only [hforget]

/-- A refused source uses up numbers of references and changes nothing else. -/
theorem Session.run_eq {S : Session} (hd : S.state.distances.Below S.nextId) (n : Nat)
    (source : String) : S.run n source =
    let next := (Grammar.parseProgram S.nextId (tokens source)).nextId
    let lexical := (lexicalErrors source).map (·.diagnostic)
    match (Grammar.parseProgram S.nextId (tokens source)).result with
    | .error faults =>
      ⟨some { lexical, grammar := faults.map (·.diagnostic) }, ⟨S.state, next⟩⟩
    | .ok program =>
      if !lexical.isEmpty then
        ⟨some { lexical }, ⟨S.state, next⟩⟩
      else
        match violations S.state.globalNames program with
        | [] => Session.runProgram n program next
          { S.state with distances := S.state.distances.record (references program) }
        | faults => ⟨some { binding := faults.map (·.diagnostic) }, ⟨S.state, next⟩⟩ := by
  unfold Session.run
  cases hp : (Grammar.parseProgram S.nextId (tokens source)).result with
  | error faults => simp only [hp]
  | ok program =>
    simp only [hp, State.resolve_eq hd (Grammar.parseProgram_sound hp).2]
    split
    · rfl
    · cases violations S.state.globalNames program <;> rfl

namespace Session

/-- A source that is read without a fault as a program that keeps the rules of declaration. -/
structure Accepts (S : Session) (source : String) (program : List Stmt) : Prop where
  lexical : lexicalErrors source = []
  grammar : (Grammar.parseProgram S.nextId (tokens source)).result = .ok program
  binding : violations S.state.globalNames program = []

/-- The number that a session goes on with behind a source. -/
def nextAfter (S : Session) (source : String) : NodeId :=
  (Grammar.parseProgram S.nextId (tokens source)).nextId

/-- The state in which a program runs, with its references recorded. -/
def ready (S : Session) (program : List Stmt) : State :=
  { S.state with distances := S.state.distances.record (references program) }

variable {S : Session} {source : String} {program : List Stmt} {n : Nat} {report : Report}

/-- A source that is accepted runs, and any other one is refused and changes nothing. -/
theorem run_cases (hd : S.state.distances.Below S.nextId) (n : Nat) (source : String) :
    (∃ program, S.Accepts source program ∧
      S.run n source = runProgram n program (S.nextAfter source) (S.ready program)) ∨
    (∀ program, ¬ S.Accepts source program) ∧ ∃ report : Report, report.hadError = true ∧
      report.runtime = none ∧ S.run n source = ⟨some report, ⟨S.state, S.nextAfter source⟩⟩ := by
  rw [run_eq hd]
  cases hp : (Grammar.parseProgram S.nextId (tokens source)).result with
  | error faults =>
    have hne : faults ≠ [] := by
      rintro rfl
      exact Grammar.run_ne_error_nil _ _ _ hp
    have hnone : ∀ program, ¬ S.Accepts source program := by
      intro program h
      cases hp.symm.trans h.grammar
    exact .inr ⟨hnone, _, by simp [Report.hadError, hne], rfl, rfl⟩
  | ok program =>
    cases hl : lexicalErrors source with
    | cons e es =>
      have hnone : ∀ program, ¬ S.Accepts source program := by
        intro program h
        cases hl.symm.trans h.lexical
      exact .inr ⟨hnone, _, rfl, rfl, rfl⟩
    | nil =>
      cases hv : violations S.state.globalNames program with
      | cons fault faults =>
        have hnone : ∀ program, ¬ S.Accepts source program := by
          intro program h
          cases hp.symm.trans h.grammar
          cases hv.symm.trans h.binding
        simp only [hv]
        exact .inr ⟨hnone, _, rfl, rfl, rfl⟩
      | nil =>
        simp only [hv]
        exact .inl ⟨program, ⟨hl, hp, hv⟩, rfl⟩

theorem Accepts.run_eq (h : S.Accepts source program) (hd : S.state.distances.Below S.nextId)
    (n : Nat) :
    S.run n source = runProgram n program (S.nextAfter source) (S.ready program) := by
  rw [Session.run_eq hd]
  simp only [h.grammar, h.lexical, h.binding]
  rfl

theorem accepts_of_report (hd : S.state.distances.Below S.nextId)
    (hreport : (S.run n source).report? = some report) (he : report.hadError = false) :
    ∃ program, S.Accepts source program := by
  rcases run_cases hd n source with ⟨program, h, -⟩ | ⟨-, other, herror, -, hrun⟩
  · exact ⟨program, h⟩
  · rw [hrun] at hreport
    cases hreport
    rw [he] at herror
    cases herror

namespace Accepts

variable (h : S.Accepts source program)

include h

theorem numbers : Numbers S.nextId (S.nextAfter source) (Stmt.idsOfAll program) :=
  (Grammar.parseProgram_sound h.grammar).2

theorem proper : Stmt.ProperAll program :=
  Stmt.ProperAll.of_unnumbered _ (Grammar.parseProgram_sound h.grammar).1.proper

end Accepts

end Session

end Lox
