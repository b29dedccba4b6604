import Lox.Proofs.Grammar.Repeats
import Lox.Proofs.Grammar.StatementPredicts

/-!
# The same statements again
-/

namespace Lox.Grammar

variable {α β : Type} {σ : Later} {bound most n n' : Nat}

section Declarations

variable {declaration declaration' : Reader (Option Stmt)}
  (h : Repeats σ bound 1 declaration declaration' (Option.map (·.shift σ.shift)))

include h

theorem declarations_repeats {stop : Reader Bool} {ended : Option Token → Bool}
    (hstop : ∀ row, stop row = .ok (ended row.tokens.head?) row) (hended : ended none = true) :
    ∀ {n n' most : Nat}, most ≤ n → n ≤ n' → most ≤ bound →
      Repeats σ most 0 (declarations declaration stop n) (declarations declaration' stop n')
        (Stmt.shiftAll σ.shift)
  | 0, n', most, hmost, _, _ => by
    obtain rfl := Nat.le_zero.1 hmost
    refine .ended (.pure rfl) fun id cs => ?_
    cases n' with
    | zero => rfl
    | succ n' =>
      simp only [declarations, Bind.bind, EStateM.bind, hstop, List.head?_nil, hended, if_true]
      rfl
  | n + 1, n' + 1, most, hmost, hn, hbound => by
    refine .ifTest hstop (.pure rfl) ((h.shorter hbound).bind_last fun first? => ?_)
    refine (declarations_repeats hstop hended (by omega) (by omega) (by omega)).bind
      fun others => .pure ?_
    cases first? <;> rfl

theorem block_repeats (hmost : most ≤ n) (hn : n ≤ n') (hbound : most ≤ bound) :
    Repeats σ most 1 (block n declaration) (block n' declaration') (Stmt.shiftAll σ.shift) :=
  (declarations_repeats h (fun _ => rfl) rfl hmost hn hbound).bind_last fun _ =>
    (Repeats.symbol .rightBrace .block).bind fun _ => .pure rfl

theorem function_repeats (hmost : most ≤ n) (hn : n ≤ n') (hbound : most ≤ bound) :
    Repeats σ most 1 (function n declaration) (function n' declaration') (·.shift σ.shift) := by
  have hparam : Repeats σ most 0 (Reader.name .parameter) (Reader.name .parameter) id :=
    (Repeats.name .parameter).weaken (Nat.zero_le _)
  refine (Repeats.name .function).bind_last fun name => ?_
  refine (Repeats.symbol .leftParen .functionName).bind_last fun _ => ?_
  refine (listToParen_repeats (hparam.shorter (by omega)) .tooManyParameters (by omega) hn
    (Nat.le_refl _)).bind_last fun params => ?_
  refine (Repeats.symbol .rightParen .parameters).bind_last fun _ => ?_
  refine (Repeats.symbol .leftBrace .functionBody).bind_last fun _ => ?_
  refine (block_repeats h (by omega) hn (by omega)).bind fun body => .pure ?_
  rw [List.map_id]
  exact congrArg (Stmt.function name · _) (List.map_id params)

end Declarations

section Simple

theorem variableDeclaration_repeats (hmost : most ≤ n) (hn : n ≤ n') :
    Repeats σ most 1 (variableDeclaration n) (variableDeclaration n') (·.shift σ.shift) := by
  unfold variableDeclaration
  dsimp only
  refine (Repeats.name .var).bind_last fun name => ?_
  refine .ifAccept (fun equals => ?_) ?_ (Nat.le_refl _)
  · refine (expression_repeats (by omega) hn).map_some.bind fun initial => ?_
    refine .weaken (?_ : Repeats σ _ 1 _ _ _) (Nat.zero_le _)
    exact (Repeats.symbol .semicolon .declaration).bind fun _ => .pure rfl
  · simp only [pure_bind]
    exact (Repeats.symbol .semicolon .declaration).bind fun _ => .pure rfl

/-- An expression before a semicolon that ends a statement. -/
theorem terminated_repeats {node : Expr → α} {node' : Expr → β} {g : α → β} (place : Place)
    (hg : ∀ e, g (node e) = node' (e.shift σ.shift)) (hmost : most ≤ n) (hn : n ≤ n') :
    Repeats σ most 1
      (do
        let value ← expression n
        let _ ← Reader.symbol .semicolon place
        return node value)
      (do
        let value ← expression n'
        let _ ← Reader.symbol .semicolon place
        return node' value) g :=
  (expression_repeats hmost hn).bind_last fun value =>
    (Repeats.symbol .semicolon place).bind fun _ => .pure (hg value)

theorem optional_repeats (stop : Symbol) (hmost : most ≤ n) (hn : n ≤ n') :
    Repeats σ most 0 (Grammar.optional n stop) (Grammar.optional n' stop)
      (Option.map (·.shift σ.shift)) :=
  .ifTest (fun _ => rfl) (.pure rfl) ((expression_repeats hmost hn).bind fun _ => .pure rfl)

theorem returnStatement_repeats (keyword : Token) (hmost : most ≤ n) (hn : n ≤ n') :
    Repeats σ most 1 (returnStatement n keyword) (returnStatement n' keyword)
      (·.shift σ.shift) :=
  (optional_repeats .semicolon hmost hn).bind_last fun _ =>
    (Repeats.symbol .semicolon .returnValue).bind fun _ => .pure rfl

theorem expressionStatement_repeats (hmost : most ≤ n) (hn : n ≤ n') :
    Repeats σ most 1 (expressionStatement n) (expressionStatement n') (·.shift σ.shift) :=
  terminated_repeats .expression (fun _ => rfl) hmost hn

theorem printStatement_repeats (hmost : most ≤ n) (hn : n ≤ n') :
    Repeats σ most 1 (printStatement n) (printStatement n') (·.shift σ.shift) :=
  terminated_repeats .value (fun _ => rfl) hmost hn

theorem forInitial_repeats (hmost : most ≤ n) (hn : n ≤ n') :
    Repeats σ most 0 (forInitial n) (forInitial n') (Option.map (·.shift σ.shift)) := by
  refine .ifAccept (fun _ => .pure rfl) (.ifAccept (fun _ => ?_) ?_ (Nat.zero_le _)) (Nat.zero_le _)
  · exact (variableDeclaration_repeats (by omega) hn).map_some.weaken (Nat.zero_le _)
  · exact (expressionStatement_repeats hmost hn).map_some.weaken (Nat.zero_le _)

end Simple

section Nested

variable {statement statement' : Reader Stmt}
  (h : Repeats σ bound 1 statement statement' (·.shift σ.shift))

include h

theorem forStatement_repeats (hmost : most ≤ n) (hn : n ≤ n') (hbound : most ≤ bound) :
    Repeats σ most 1 (forStatement n statement) (forStatement n' statement')
      (·.shift σ.shift) := by
  refine (Repeats.symbol .leftParen .forKeyword).bind_last fun _ => ?_
  refine (forInitial_repeats (by omega) hn).bind_last fun initial => ?_
  refine (optional_repeats .semicolon (by omega) hn).bind_last fun condition => ?_
  refine (Repeats.symbol .semicolon .loopCondition).bind_last fun _ => ?_
  refine (optional_repeats .rightParen (by omega) hn).bind_last fun increment => ?_
  refine (Repeats.symbol .rightParen .forClauses).bind_last fun _ => ?_
  exact (h.shorter (by omega)).bind fun body => .pure (Stmt.shift_counted ..)

theorem whileStatement_repeats (hmost : most ≤ n) (hn : n ≤ n') (hbound : most ≤ bound) :
    Repeats σ most 1 (whileStatement n statement) (whileStatement n' statement')
      (·.shift σ.shift) := by
  refine (Repeats.symbol .leftParen .whileKeyword).bind_last fun _ => ?_
  refine (expression_repeats (by omega) hn).bind_last fun condition => ?_
  refine (Repeats.symbol .rightParen .condition).bind_last fun _ => ?_
  exact (h.shorter (by omega)).bind fun body => .pure rfl

theorem ifStatement_repeats (hmost : most ≤ n) (hn : n ≤ n') (hbound : most ≤ bound) :
    Repeats σ most 1 (ifStatement n statement) (ifStatement n' statement')
      (·.shift σ.shift) := by
  unfold ifStatement
  dsimp only
  refine (Repeats.symbol .leftParen .ifKeyword).bind_last fun _ => ?_
  refine (expression_repeats (by omega) hn).bind_last fun condition => ?_
  refine (Repeats.symbol .rightParen .ifCondition).bind_last fun _ => ?_
  refine (h.shorter (by omega)).bind fun onTrue => ?_
  refine .ifAccept (fun _ => ?_) ?_ (Nat.zero_le _)
  · refine ((h.shorter (by omega)).map_some.weaken (Nat.zero_le _)).bind fun onFalse => ?_
    exact .pure (Stmt.shift_branch condition onTrue onFalse)
  · simp only [pure_bind]
    exact .pure (Stmt.shift_branch condition onTrue none)

end Nested

section Rules

variable {statement statement' : Reader Stmt} {declaration declaration' : Reader (Option Stmt)}
  (hs : Repeats σ bound 1 statement statement' (·.shift σ.shift))
  (hd : Repeats σ bound 1 declaration declaration' (Option.map (·.shift σ.shift)))
  (hmost : most ≤ n) (hn : n ≤ n') (hbound : most ≤ bound + 1)

include hs hd hmost hn hbound

theorem statementRule_repeats :
    Repeats σ most 1 (statementRule n statement declaration)
      (statementRule n' statement' declaration') (·.shift σ.shift) := by
  rw [statementRule_eq, statementRule_eq]
  refine .ifAccept (fun _ => ?_) (.ifAccept (fun _ => ?_) (.ifAccept (fun _ => ?_)
    (.ifAccept (fun _ => ?_) (.ifAccept (fun _ => ?_) (.ifAccept (fun keyword => ?_)
      (expressionStatement_repeats hmost hn) (Nat.le_refl _)) (Nat.le_refl _)) (Nat.le_refl _))
        (Nat.le_refl _)) (Nat.le_refl _)) (Nat.le_refl _)
  · exact (forStatement_repeats hs (by omega) hn (by omega)).weaken (Nat.zero_le _)
  · exact (printStatement_repeats (by omega) hn).weaken (Nat.zero_le _)
  · refine .weaken (?_ : Repeats σ (most - 1) 1 _ _ _) (Nat.zero_le _)
    exact (block_repeats hd (by omega) hn (by omega)).map fun _ => rfl
  · exact (ifStatement_repeats hs (by omega) hn (by omega)).weaken (Nat.zero_le _)
  · exact (whileStatement_repeats hs (by omega) hn (by omega)).weaken (Nat.zero_le _)
  · exact (returnStatement_repeats keyword (by omega) hn).weaken (Nat.zero_le _)

theorem declarationRule_repeats :
    Repeats σ most 1 (declarationRule n statement declaration)
      (declarationRule n' statement' declaration') (·.shift σ.shift) := by
  refine .ifAccept (fun _ => ?_) (.ifAccept (fun _ => ?_)
    (statementRule_repeats hs hd hmost hn hbound) (Nat.le_refl _)) (Nat.le_refl _)
  · exact (function_repeats hd (by omega) hn (by omega)).weaken (Nat.zero_le _)
  · exact (variableDeclaration_repeats (by omega) hn).weaken (Nat.zero_le _)

end Rules

/-- At the end of a row there is no statement. -/
theorem statement_nil (n : Nat) (id : NodeId) (cs : List Complaint) :
    statement n ⟨[], id, cs⟩ = .error ⟨.expressionMissing, none⟩ ⟨[], id, cs⟩ := by
  cases n with
  | zero => rfl
  | succ n =>
    have h : expressionStatement (n + 1) ⟨[], id, cs⟩ = _ :=
      Reader.bind_of_error (expression_nil (n + 1) id cs)
    exact h

theorem declaration_nil (n : Nat) (id : NodeId) (cs : List Complaint) :
    declaration n ⟨[], id, cs⟩ = .ok none ⟨[], id, ⟨.expressionMissing, none⟩ :: cs⟩ := by
  cases n with
  | zero => rfl
  | succ n =>
    have h : declarationRule (n + 1) (statement n) (declaration n) ⟨[], id, cs⟩ = _ :=
      statement_nil (n + 1) id cs
    rw [declaration, recovering, h]
    rfl

/-- Statements and declarations are read again as they were. -/
theorem statement_declaration_repeats : ∀ {n n' most : Nat}, most ≤ n → n ≤ n' →
    Repeats σ most 1 (statement n) (statement n') (·.shift σ.shift) ∧
      Repeats σ most 1 (declaration n) (declaration n') (Option.map (·.shift σ.shift))
  | 0, n', most, hmost, _ => by
    obtain rfl := Nat.le_zero.1 hmost
    refine ⟨.ended (.fail .expressionMissing) (statement_nil n'), ?_⟩
    exact .ended (.recovering (.fail .expressionMissing) Row.Onward.refl) (declaration_nil n')
  | n + 1, n' + 1, most, hmost, hn => by
    obtain ⟨hs, hd⟩ := statement_declaration_repeats (Nat.le_refl n) (Nat.le_of_succ_le_succ hn)
    have ⟨hps, hpd⟩ := statement_declaration_predicts (Nat.le_refl n)
    exact ⟨statementRule_repeats hs hd hmost hn hmost,
      (declarationRule_repeats hs hd hmost hn hmost).recovering
        (declarationRule_predicts hps hpd hmost hmost).forward⟩

end Lox.Grammar
