import Lox.Proofs.Grammar.Joined
import Lox.Proofs.Grammar.StatementRepeats

/-!
# The errors of a program

A program is always read to the end of its row (`program_finishes`), and what comes of it, trees and
complaints, is the same wherever the row is read (`program_repeats`). So the errors of a row of
tokens are the complaints of one run, and they do not depend on the first number of a reference
(`syntaxErrors_firstId`).
-/

namespace Lox

/-- The error that a complaint becomes. -/
def Complaint.located (ts : List Token) (c : Complaint) : SyntaxError :=
  ⟨c.cause, c.token?.getD (Grammar.endToken ts)⟩

namespace Grammar

variable {α : Type} {σ : Later} {n n' count : Nat} {row mid : Row} {ts : List Token}
  {firstId : NodeId}

/-- The errors of a row of tokens, none if it is read. -/
def syntaxErrors (firstId : NodeId) (ts : List Token) : List SyntaxError :=
  match (parseProgram firstId ts).result with
  | .ok _ => []
  | .error es => es

theorem syntaxErrors_eq_nil :
    syntaxErrors firstId ts = [] ↔ ∃ p, (parseProgram firstId ts).result = .ok p := by
  have hne := run_ne_error_nil program firstId ts
  unfold syntaxErrors parseProgram
  cases h : (run program firstId ts).result with
  | ok p => exact ⟨fun _ => ⟨p, rfl⟩, fun _ => rfl⟩
  | error es => exact ⟨fun hes => absurd (h.trans (congrArg _ hes)) hne, nofun⟩

theorem atEnd_eq (row : Row) : atEnd row = .ok row.tokens.head?.isNone row := by
  rcases row with ⟨_ | ⟨t, ts⟩, id, cs⟩ <;> rfl

theorem recovering_ok (r : Reader α) (row : Row) :
    ∃ a? mid, recovering r row = .ok a? mid := by
  unfold recovering
  split
  · exact ⟨_, _, rfl⟩
  · exact ⟨_, _, rfl⟩

theorem declaration_ok (n : Nat) (row : Row) : ∃ s? mid, declaration n row = .ok s? mid := by
  cases n <;> exact recovering_ok _ row

theorem declarations_finish : ∀ {count : Nat} {row : Row}, row.tokens.length ≤ n →
    row.tokens.length ≤ count →
    ∃ ss mid, declarations (declaration n) atEnd count row = .ok ss mid ∧ mid.tokens = [] := by
  intro count
  induction count with
  | zero => exact fun _ hcount => ⟨[], _, rfl, List.length_eq_zero_iff.1 (Nat.le_zero.1 hcount)⟩
  | succ count ih =>
    intro row hn hcount
    by_cases hempty : row.tokens = []
    · exact ⟨[], row, declarations_over hempty, hempty⟩
    · obtain ⟨s?, mid, hfirst⟩ := declaration_ok n row
      have hrepeats := (statement_declaration_repeats (σ := ⟨0, []⟩) (Nat.le_refl n)
        (Nat.le_refl n)).2
      have hshorter := hrepeats.takes hfirst hn
      obtain ⟨ss, row', hothers, hover⟩ : ∃ ss row', declarations (declaration n) atEnd count mid =
          .ok ss row' ∧ row'.tokens = [] := ih (by omega) (by omega)
      refine ⟨s?.toList ++ ss, row', ?_, hover⟩
      rw [declarations_next hempty, Reader.bind_of_ok hfirst, afterwards,
        Reader.bind_of_ok hothers]
      rfl

/-- A program is read to the end of its row. -/
theorem program_finishes (row : Row) (h : row.tokens.length ≤ n) :
    ∃ ss mid, program n row = .ok ss mid ∧ mid.tokens = [] :=
  declarations_finish h h

/-- A program is read again as it was. -/
theorem program_repeats (hn : n ≤ n') (hcount : n ≤ count) :
    Repeats σ n 0 (program n) (declarations (declaration n') atEnd count)
      (Stmt.shiftAll σ.shift) :=
  declarations_repeats (statement_declaration_repeats (Nat.le_refl n) hn).2 atEnd_eq rfl
    (Nat.le_refl n) hcount (Nat.le_refl n)

/-- An expression that is read alone is read again as it was. -/
theorem wholeExpression_repeats (hn : n ≤ n') :
    Repeats σ n 0 (wholeExpression n) (wholeExpression n') (·.shift σ.shift) :=
  (expression_repeats (Nat.le_refl n) hn).bind fun _ =>
    .ifTest atEnd_eq (.pure rfl) (.fail .endMissing)

/-- The run whose complaints are the errors of some tokens. -/
theorem exists_run (firstId : NodeId) (ts : List Token) : ∃ ss id cs,
    program (beforeEnd ts).length ⟨beforeEnd ts, firstId, []⟩ = .ok ss ⟨[], id, cs⟩ ∧
      syntaxErrors firstId ts = cs.reverse.map (·.located ts) := by
  obtain ⟨ss, ⟨_, id, cs⟩, hrun, rfl⟩ :=
    program_finishes ⟨beforeEnd ts, firstId, []⟩ (Nat.le_refl _)
  refine ⟨ss, id, cs, hrun, ?_⟩
  simp only [syntaxErrors, parseProgram, run, hrun]
  cases cs <;> rfl

theorem syntaxErrors_of_run {ss : List Stmt} {id : NodeId} {cs : List Complaint}
    (h : program (beforeEnd ts).length ⟨beforeEnd ts, firstId, []⟩ = .ok ss ⟨[], id, cs⟩) :
    syntaxErrors firstId ts = cs.reverse.map (·.located ts) := by
  obtain ⟨_, _, _, hrun, herrors⟩ := exists_run firstId ts
  cases h.symm.trans hrun
  exact herrors

/-- The errors do not depend on the first number. -/
theorem syntaxErrors_firstId (firstId otherId : NodeId) (ts : List Token) :
    syntaxErrors firstId ts = syntaxErrors otherId ts := by
  have hzero (id : NodeId) : syntaxErrors id ts = syntaxErrors 0 ts := by
    obtain ⟨ss, last, cs, hrun, herrors⟩ := exists_run 0 ts
    have hagain : program (beforeEnd ts).length ⟨beforeEnd ts, 0 + id, []⟩ = _ :=
      (program_repeats (σ := ⟨id, []⟩) (Nat.le_refl _) (Nat.le_refl _)).run ⟨beforeEnd ts, 0, []⟩
        (Nat.le_refl _)
    rw [hrun, Nat.zero_add] at hagain
    rw [herrors, syntaxErrors_of_run hagain, List.append_nil]
  rw [hzero firstId, hzero otherId]

end Grammar

end Lox
