import Lox.Proofs.Grammar.ExpressionCarries

/-!
# Statements on longer rows

A statement ends where its last token is taken, and only an `else` behind it could still belong to
it. So a statement is the same on a longer row that does not go on with `else`
(`statement_declaration_carries`), and a row of declarations that are all read is read first on any
such row (`declarations_append`).
-/

namespace Lox.Grammar

variable {σ : Setting} {o : Bool} {bound most n n' : Nat}

section Declarations

variable {declaration declaration' : Reader (Option Stmt)}
  (h : Carries σ true bound 1 declaration declaration' (Option.map (·.shift σ.toShift)))

include h

/-- Declarations of a block, whose end is in front of a token. -/
theorem declarations_carries {stop : Reader Bool} {ended : Row → Bool}
    (hstop : ∀ row, stop row = .ok (ended row) row)
    (hended : ∀ row, row.tokens ≠ [] → ended (row.into σ) = ended row) :
    ∀ {n n' most : Nat}, most ≤ n → n ≤ n' → most ≤ bound →
      Carries σ true most 0 (declarations declaration stop n)
        (declarations declaration' stop n') (Stmt.shiftAll σ.toShift)
  | 0, _, _, hmost, _, _ => .empty (.pure []) (Nat.le_zero.1 hmost)
  | n + 1, n' + 1, most, hmost, hn, hbound => by
    refine .ifTest hstop hended (.pure rfl) ((h.shorter hbound).bind fun first? => ?_)
    refine (declarations_carries hstop hended (by omega) (by omega) (by omega)).bind
      fun others => .pure ?_
    cases first? <;> rfl

theorem block_carries (hmost : most ≤ n) (hn : n ≤ n') (hbound : most ≤ bound) :
    Carries σ o most 1 (block n declaration) (block n' declaration')
      (Stmt.shiftAll σ.toShift) := by
  have hended : ∀ row : Row, row.tokens ≠ [] →
      (row.into σ).tokens.head?.all (·.isSymbol .rightBrace) =
        row.tokens.head?.all (·.isSymbol .rightBrace) := by
    intro row hne
    rw [Row.head?_into hne, Option.all_map]
    rfl
  exact (declarations_carries h (fun _ => rfl) hended hmost hn hbound).bind_last fun body =>
    (Carries.symbol .rightBrace .block).bind_first fun _ => .pure rfl

theorem function_carries (hmost : most ≤ n) (hn : n ≤ n') (hbound : most ≤ bound) :
    Carries σ o most 1 (function n declaration) (function n' declaration')
      (·.shift σ.toShift) := by
  have hparam : Carries σ true most 0 (Reader.name .parameter) (Reader.name .parameter)
      (·.down σ.lines) := (Carries.name .parameter).opened.weaken (Nat.zero_le _)
  refine (Carries.name .function).bind_last fun name => ?_
  refine (Carries.symbol .leftParen .functionName).bind_last fun _ => ?_
  refine (listToParen_carries hparam .tooManyParameters (by omega) hn (by omega)).bind_last
    fun params => ?_
  refine (Carries.symbol .rightParen .parameters).bind_last fun _ => ?_
  refine (Carries.symbol .leftBrace .functionBody).bind_last fun _ => ?_
  exact (block_carries h (by omega) hn (by omega)).bind_first fun body => .pure rfl

end Declarations

section Simple

theorem variableDeclaration_carries (hmost : most ≤ n) (hn : n ≤ n') :
    Carries σ o most 1 (variableDeclaration n) (variableDeclaration n')
      (·.shift σ.toShift) := by
  unfold variableDeclaration
  dsimp only
  refine (Carries.name .var).bind_last fun name => ?_
  refine .ifAccept (fun _ => rfl) ?_ (fun equals => ?_) (Nat.le_refl _) (.inl (.inr Nat.one_pos))
  · simp only [pure_bind]
    exact (Carries.symbol .semicolon .declaration).bind_first fun _ => .pure rfl
  · refine ((expression_carries (by omega) hn).map_some.bind_last fun initial => ?_).weaken
      (Nat.zero_le _)
    exact (Carries.symbol .semicolon .declaration).bind_first fun _ => .pure rfl

theorem expressionStatement_carries (hmost : most ≤ n) (hn : n ≤ n') :
    Carries σ o most 1 (expressionStatement n) (expressionStatement n') (·.shift σ.toShift) :=
  (expression_carries hmost hn).bind_last fun _ =>
    (Carries.symbol .semicolon .expression).bind_first fun _ => .pure rfl

theorem printStatement_carries (hmost : most ≤ n) (hn : n ≤ n') :
    Carries σ o most 1 (printStatement n) (printStatement n') (·.shift σ.toShift) :=
  (expression_carries hmost hn).bind_last fun _ =>
    (Carries.symbol .semicolon .value).bind_first fun _ => .pure rfl

theorem optional_carries (stop : Symbol) (hmost : most ≤ n) (hn : n ≤ n') :
    Carries σ true most 0 (optional n stop) (optional n' stop) (Option.map (·.shift σ.toShift)) :=
  .ifTest (fun _ => rfl) (fun _ hne => Row.any_head?_into (fun _ => rfl) hne) (.pure rfl)
    ((expression_carries hmost hn).bind fun _ => .pure rfl)

theorem returnStatement_carries (keyword : Token) (hmost : most ≤ n) (hn : n ≤ n') :
    Carries σ o most 1 (returnStatement n keyword)
      (returnStatement n' (keyword.down σ.lines)) (·.shift σ.toShift) :=
  (optional_carries .semicolon hmost hn).bind_last fun _ =>
    (Carries.symbol .semicolon .returnValue).bind_first fun _ => .pure rfl

theorem forInitial_carries (hmost : most ≤ n) (hn : n ≤ n') :
    Carries σ true most 0 (forInitial n) (forInitial n') (Option.map (·.shift σ.toShift)) := by
  refine .ifAccept (fun _ => rfl) ?_ (fun _ => .pure rfl) (Nat.zero_le _) (.inl (.inl rfl))
  refine .ifAccept (fun _ => rfl) ?_ (fun _ => ?_) (Nat.zero_le _) (.inl (.inl rfl))
  · exact (expressionStatement_carries hmost hn).map_some.weaken (Nat.zero_le _)
  · exact (variableDeclaration_carries (by omega) hn).map_some.weaken (Nat.zero_le _)

end Simple

section Nested

variable {statement statement' : Reader Stmt}
  (h : Carries σ false bound 1 statement statement' (·.shift σ.toShift))

include h

theorem forStatement_carries (hmost : most ≤ n) (hn : n ≤ n') (hbound : most ≤ bound) :
    Carries σ false most 1 (forStatement n statement) (forStatement n' statement')
      (·.shift σ.toShift) := by
  refine (Carries.symbol .leftParen .forKeyword).bind_last fun _ => ?_
  refine (forInitial_carries (by omega) hn).bind_last fun initial => ?_
  refine (optional_carries .semicolon (by omega) hn).bind_last fun condition => ?_
  refine (Carries.symbol .semicolon .loopCondition).bind_last fun _ => ?_
  refine (optional_carries .rightParen (by omega) hn).bind_last fun increment => ?_
  refine (Carries.symbol .rightParen .forClauses).bind_last fun _ => ?_
  exact (h.shorter (by omega)).bind_first fun body => .pure (Stmt.shift_counted ..)

theorem whileStatement_carries (hmost : most ≤ n) (hn : n ≤ n') (hbound : most ≤ bound) :
    Carries σ false most 1 (whileStatement n statement) (whileStatement n' statement')
      (·.shift σ.toShift) := by
  refine (Carries.symbol .leftParen .whileKeyword).bind_last fun _ => ?_
  refine (expression_carries (by omega) hn).bind_last fun condition => ?_
  refine (Carries.symbol .rightParen .condition).bind_last fun _ => ?_
  exact (h.shorter (by omega)).bind_first fun body => .pure rfl

/-- Behind its first branch an `if` looks for an `else`. -/
theorem ifStatement_carries (helse : ∀ t ∈ σ.behind.head?, t.isKeyword .elseKw = false)
    (hmost : most ≤ n) (hn : n ≤ n') (hbound : most ≤ bound) :
    Carries σ false most 1 (ifStatement n statement) (ifStatement n' statement')
      (·.shift σ.toShift) := by
  unfold ifStatement
  dsimp only
  refine (Carries.symbol .leftParen .ifKeyword).bind_last fun _ => ?_
  refine (expression_carries (by omega) hn).bind_last fun condition => ?_
  refine (Carries.symbol .rightParen .ifCondition).bind_last fun _ => ?_
  refine (h.shorter (by omega)).bind_first fun onTrue => ?_
  refine .ifAccept (fun _ => rfl) ?_ (fun _ => ?_) (Nat.zero_le _) (.inr helse)
  · simp only [pure_bind]
    exact .pure (Stmt.shift_branch condition onTrue none)
  · refine ((h.shorter (by omega)).map_some.bind_first fun onFalse => ?_).weaken (Nat.zero_le _)
    exact .pure (Stmt.shift_branch condition onTrue onFalse)

end Nested

section Rules

variable {statement statement' : Reader Stmt} {declaration declaration' : Reader (Option Stmt)}
  (hs : Carries σ false bound 1 statement statement' (·.shift σ.toShift))
  (hd : Carries σ true bound 1 declaration declaration' (Option.map (·.shift σ.toShift)))
  (helse : ∀ t ∈ σ.behind.head?, t.isKeyword .elseKw = false)
  (hmost : most ≤ n) (hn : n ≤ n') (hbound : most ≤ bound + 1)

include hs hd helse hmost hn hbound

theorem statementRule_carries :
    Carries σ false most 1 (statementRule n statement declaration)
      (statementRule n' statement' declaration') (·.shift σ.toShift) := by
  refine .ifPeek (expressionStatement_carries hmost hn) (fun t row hrow => ?_) (.inr Nat.one_pos)
  have hkind : (t.down σ.lines).kind = t.kind := rfl
  have hskip {r r' : Reader Stmt} (h : Carries σ false (most - 1) 1 r r' (·.shift σ.toShift)) :
      CarriesAt σ false most 1 (do Reader.skip; r) (do Reader.skip; r') (·.shift σ.toShift) row :=
    Carries.skip hrow (h.weaken (Nat.zero_le _)) (Nat.le_refl _)
  dsimp only
  rw [hkind]
  split
  · exact hskip (forStatement_carries hs (by omega) hn (by omega))
  · exact hskip (printStatement_carries (by omega) hn)
  · exact hskip ((block_carries hd (by omega) hn (by omega)).map fun _ => rfl)
  · exact hskip (ifStatement_carries hs helse (by omega) hn (by omega))
  · exact hskip (whileStatement_carries hs (by omega) hn (by omega))
  · exact hskip (returnStatement_carries t (by omega) hn)
  · exact expressionStatement_carries hmost hn row

theorem declarationRule_carries :
    Carries σ false most 1 (declarationRule n statement declaration)
      (declarationRule n' statement' declaration') (·.shift σ.toShift) := by
  refine .ifAccept (fun _ => rfl) ?_ (fun _ => ?_) (Nat.le_refl _) (.inl (.inr Nat.one_pos))
  · refine .ifAccept (fun _ => rfl) ?_ (fun _ => ?_) (Nat.le_refl _) (.inl (.inr Nat.one_pos))
    · exact statementRule_carries hs hd helse hmost hn hbound
    · exact (variableDeclaration_carries (by omega) hn).weaken (Nat.zero_le _)
  · exact (function_carries hd (by omega) hn (by omega)).weaken (Nat.zero_le _)

end Rules

section Whole

variable (helse : ∀ t ∈ σ.behind.head?, t.isKeyword .elseKw = false)

include helse

/-- A statement that is read is the same on a longer row, and so is a declaration behind which
something is left. -/
theorem statement_declaration_carries : ∀ {n n' most : Nat}, most ≤ n → n ≤ n' →
    Carries σ false most 1 (statement n) (statement n') (·.shift σ.toShift) ∧
      Carries σ true most 1 (declaration n) (declaration n') (Option.map (·.shift σ.toShift))
  | 0, n', most, hmost, _ => by
    have hfail (r' : Reader Stmt) : Carries σ false most 1 (Reader.fail .expressionMissing) r'
        (Stmt.shift σ.toShift) := .fail_empty _ (Nat.le_zero.1 hmost)
    refine ⟨hfail _, ?_⟩
    cases n' <;> exact (hfail _).recovering (Nat.le_refl _)
  | n + 1, n' + 1, most, hmost, hn => by
    obtain ⟨hs, hd⟩ := statement_declaration_carries (Nat.le_refl n) (Nat.le_of_succ_le_succ hn)
    exact ⟨statementRule_carries hs hd helse hmost hn hmost,
      (declarationRule_carries hs hd helse hmost hn hmost).recovering (Nat.le_refl _)⟩

end Whole

end Lox.Grammar
