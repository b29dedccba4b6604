import Lox.Proofs.Indexed.Tracks

/-!
# Every rule by position

A rule that has more fuel than there are tokens in front of it does what the rule of `Lox.Grammar`
does. A rule that starts another one at the same token hands on its fuel; one that starts itself or
another one with less fuel has taken a token first.
-/

namespace Lox.Indexed

variable {α : Type} {v : Closed} {bound most n : Nat}

section Expressions

theorem chain_tracks {level : Grammar.Level} {side : Parser Expr} {side' : Reader Expr}
    (hs : Tracks v bound 0 side side') :
    ∀ {n most : Nat} (left : Expr), most < n → most ≤ bound →
      Tracks v most 0 (chain level side n left) (Grammar.chain level side' n left)
  | n + 1, most, left, hn, hbound => by
    refine .ifAccept (fun op hpos => ?_) (.pure left) (Nat.zero_le _)
    refine (hs.shorter (by omega)).bind_last fun right => ?_
    exact chain_tracks hs _ (by omega) (by omega)

theorem binary_tracks {operand : Parser Expr} {operand' : Reader Expr} (hn : most < n)
    (h : Tracks v most 0 operand operand') : ∀ levels : List Grammar.Level,
      Tracks v most 0 (binary n operand levels) (Grammar.binary n operand' levels)
  | [] => h
  | _ :: tighter =>
    have hside := binary_tracks hn h tighter
    hside.bind fun left => chain_tracks hside left hn (Nat.le_refl _)

theorem unary_tracks {operand : Parser Expr} {operand' : Reader Expr}
    (h : Tracks v bound 0 operand operand') : ∀ {n most : Nat}, most < n → most ≤ bound →
      Tracks v most 0 (unary operand n) (Grammar.unary operand' n)
  | n + 1, most, hn, hbound => by
    refine .ifAccept (fun op hpos => ?_) (h.shorter hbound) (Nat.zero_le _)
    exact (unary_tracks h (by omega) (by omega)).bind fun operand => .pure _

section List

variable {item : Parser α} {item' : Reader α} (h : Tracks v bound 0 item item')
  (excess : SyntaxFault)

include h

theorem commaList_tracks : ∀ {n most : Nat} (count : Nat), most < n → most ≤ bound →
    Tracks v most 0 (commaList excess item n count) (Grammar.commaList excess item' n count)
  | n + 1, most, count, hn, hbound => by
    refine .reportIf ((h.shorter hbound).bind fun first => ?_)
    refine .ifAccept (fun comma hpos => ?_) (.pure [first]) (Nat.zero_le _)
    exact (commaList_tracks (count + 1) (by omega) (by omega)).bind fun others => .pure _

theorem listToParen_tracks (hn : most < n) (hbound : most ≤ bound) :
    Tracks v most 0 (listToParen n excess item) (Grammar.listToParen n excess item') :=
  .ifCheck (.pure []) (commaList_tracks h excess 0 hn hbound)

end List

section Call

variable {inner : Parser Expr} {inner' : Reader Expr}
  (h : ∀ k < bound, Tracks v k 0 inner inner')

include h

theorem calls_tracks : ∀ {k most : Nat} (callee : Expr), most < k → most ≤ bound → most ≤ n →
    Tracks v most 0 (calls n inner k callee) (Grammar.calls n inner' k callee)
  | k + 1, most, callee, hk, hbound, hn => by
    refine .ifAccept (fun opening hpos => ?_) (.pure callee) (Nat.zero_le _)
    refine (listToParen_tracks (h (most - 1) (by omega)) .tooManyArguments (by omega)
      (Nat.le_refl _)).bind fun arguments => ?_
    refine (Tracks.symbol .rightParen .arguments).bind_last fun paren => ?_
    exact calls_tracks _ (by omega) (by omega) (by omega)

theorem primary_tracks (hbound : most ≤ bound) :
    Tracks v most 0 (primary inner) (Grammar.primary inner') := by
  rw [Grammar.primary_eq]
  refine .ifAccept (fun t _ => .pure _) (.ifAccept (fun t _ => ?_) ?_ (Nat.zero_le _))
    (Nat.zero_le _)
  · exact Tracks.freshId.bind fun id => .pure _
  · refine Tracks.weaken (.expect_bind fun _ hpos => ?_) (Nat.zero_le 1)
    refine (h (most - 1) (by omega)).bind fun e => ?_
    exact (Tracks.symbol .rightParen .expression).bind_last fun _ => .pure _

theorem assignment_tracks (hn : most < n) (hbound : most ≤ bound) :
    Tracks v most 0 (assignment n inner) (Grammar.assignment n inner') := by
  have hcall : Tracks v most 0 (call n inner) (Grammar.call n inner') :=
    (primary_tracks h hbound).bind fun callee => calls_tracks h callee hn hbound (Nat.le_of_lt hn)
  have hunary := unary_tracks hcall hn (Nat.le_refl _)
  refine (binary_tracks hn hunary Grammar.levels).bind fun target => ?_
  refine .ifAccept (fun equals hpos => ?_) (.pure target) (Nat.zero_le _)
  refine (h _ (by omega)).bind fun value => ?_
  cases target with
  | read id name => exact Tracks.freshId.bind fun id => .pure _
  | _ => exact (Tracks.report ⟨.invalidTarget, some equals⟩).bind fun _ => .pure value

end Call

theorem expression_tracks : ∀ {n most : Nat}, most < n →
    Tracks v most 0 (expression n) (Grammar.expression n)
  | n + 1, most, hn => by
    have hinner (k : Nat) (hk : k < most) : Tracks v k 0 (expression n) (Grammar.expression n) :=
      expression_tracks (by omega)
    exact assignment_tracks hinner hn (Nat.le_refl _)

end Expressions

section Simple

theorem variableDeclaration_tracks (hn : most < n) :
    Tracks v most 1 (variableDeclaration n) (Grammar.variableDeclaration n) := by
  unfold variableDeclaration Grammar.variableDeclaration
  dsimp only
  refine (Tracks.name .var).bind_last fun name => ?_
  refine .ifAccept (fun equals _ => ?_) ?_ (Nat.le_refl _)
  · refine ((expression_tracks (by omega)).map some).bind fun initial => ?_
    exact (Tracks.symbol .semicolon .declaration).bind_last fun _ => .pure _
  · simp only [pure_bind]
    exact (Tracks.symbol .semicolon .declaration).bind fun _ => .pure _

/-- An expression before a semicolon that ends a statement. -/
theorem terminated_tracks (node : Expr → Stmt) (place : Place) (hn : most < n) :
    Tracks v most 1
      (do
        let value ← expression n
        let _ ← symbol .semicolon place
        return node value)
      (do
        let value ← Grammar.expression n
        let _ ← Reader.symbol .semicolon place
        return node value) :=
  (expression_tracks hn).bind_last fun _ =>
    (Tracks.symbol .semicolon place).bind fun _ => .pure _

theorem optional_tracks (stop : Symbol) (hn : most < n) :
    Tracks v most 0 (Indexed.optional n stop) (Grammar.optional n stop) :=
  .ifCheck (.pure none) ((expression_tracks hn).bind fun _ => .pure _)

theorem returnStatement_tracks (keyword : Token) (hn : most < n) :
    Tracks v most 1 (returnStatement n keyword) (Grammar.returnStatement n keyword) :=
  (optional_tracks .semicolon hn).bind_last fun _ =>
    (Tracks.symbol .semicolon .returnValue).bind fun _ => .pure _

theorem expressionStatement_tracks (hn : most < n) :
    Tracks v most 1 (expressionStatement n) (Grammar.expressionStatement n) :=
  terminated_tracks .expression .expression hn

theorem printStatement_tracks (hn : most < n) :
    Tracks v most 1 (printStatement n) (Grammar.printStatement n) :=
  terminated_tracks .print .value hn

theorem forInitial_tracks (hn : most < n) :
    Tracks v most 0 (forInitial n) (Grammar.forInitial n) := by
  refine .ifAccept (fun _ _ => .pure none) (.ifAccept (fun _ _ => ?_) ?_ (Nat.zero_le _))
    (Nat.zero_le _)
  · exact ((variableDeclaration_tracks (by omega)).map some).weaken (Nat.zero_le _)
  · exact ((expressionStatement_tracks hn).map some).weaken (Nat.zero_le _)

end Simple

section Nested

variable {statement : Parser Stmt} {statement' : Reader Stmt}
  (h : Tracks v bound 1 statement statement')

include h

theorem forStatement_tracks (hn : most < n) (hbound : most ≤ bound) :
    Tracks v most 1 (forStatement n statement) (Grammar.forStatement n statement') := by
  refine (Tracks.symbol .leftParen .forKeyword).bind_last fun _ => ?_
  refine (forInitial_tracks (by omega)).bind_last fun initial => ?_
  refine (optional_tracks .semicolon (by omega)).bind_last fun condition => ?_
  refine (Tracks.symbol .semicolon .loopCondition).bind_last fun _ => ?_
  refine (optional_tracks .rightParen (by omega)).bind_last fun increment => ?_
  refine (Tracks.symbol .rightParen .forClauses).bind_last fun _ => ?_
  exact (h.shorter (by omega)).bind fun body => .pure _

theorem whileStatement_tracks (hn : most < n) (hbound : most ≤ bound) :
    Tracks v most 1 (whileStatement n statement) (Grammar.whileStatement n statement') := by
  refine (Tracks.symbol .leftParen .whileKeyword).bind_last fun _ => ?_
  refine (expression_tracks (by omega)).bind_last fun condition => ?_
  refine (Tracks.symbol .rightParen .condition).bind_last fun _ => ?_
  exact (h.shorter (by omega)).bind fun body => .pure _

theorem ifStatement_tracks (hn : most < n) (hbound : most ≤ bound) :
    Tracks v most 1 (ifStatement n statement) (Grammar.ifStatement n statement') := by
  unfold ifStatement Grammar.ifStatement
  dsimp only
  refine (Tracks.symbol .leftParen .ifKeyword).bind_last fun _ => ?_
  refine (expression_tracks (by omega)).bind_last fun condition => ?_
  refine (Tracks.symbol .rightParen .ifCondition).bind_last fun _ => ?_
  refine (h.shorter (by omega)).bind fun onTrue => ?_
  refine .ifAccept (fun _ _ => ?_) ?_ (Nat.zero_le _)
  · exact (((h.shorter (by omega)).map some).weaken (Nat.zero_le _)).bind fun onFalse => .pure _
  · simp only [pure_bind]
    exact .pure _

end Nested

section Declarations

variable {declaration : Parser (Option Stmt)} {declaration' : Reader (Option Stmt)}
  (h : Tracks v bound 1 declaration declaration')

include h

/-- Each declaration takes a token at least, so there are no more of them than tokens. -/
theorem declarations_tracks {stop : Parser Bool} {stop' : Reader Bool} {b : Row → Bool}
    (hstop : ∀ {looked s row}, At v looked s row →
      ∃ s', stop s = .ok (b row) s' ∧ At v looked s' row)
    (hstop' : ∀ row, stop' row = .ok (b row) row)
    (hover : ∀ row : Row, row.tokens = [] → b row = true) :
    ∀ {n most : Nat}, most < n → most ≤ bound →
      Tracks v most 0 (declarations declaration stop n)
        (Grammar.declarations declaration' stop' n)
  | n + 1, most, hn, hbound => by
    refine .ifTest hstop hstop' (.pure []) fun row hgoes hrow => ?_
    have hpos : 0 < row.tokens.length := by
      refine List.length_pos_iff.2 fun hnil => ?_
      rw [hover row hnil] at hgoes
      cases hgoes
    refine (h.shorter hbound).bind_last fun first? => ?_
    refine (declarations_tracks hstop hstop' hover (by omega) (by omega)).bind fun others => .pure _

theorem block_tracks (hn : most < n) (hbound : most ≤ bound) :
    Tracks v most 1 (block n declaration) (Grammar.block n declaration') := by
  have hover (row : Row) (hrow : row.tokens = []) :
      row.tokens.head?.all (·.isSymbol .rightBrace) = true := by rw [hrow]; rfl
  refine (declarations_tracks h (·.blockOver) (fun _ => rfl) hover hn hbound).bind_last
    fun body => ?_
  exact (Tracks.symbol .rightBrace .block).bind fun _ => .pure body

theorem function_tracks (hn : most < n) (hbound : most ≤ bound) :
    Tracks v most 1 (function n declaration) (Grammar.function n declaration') := by
  refine (Tracks.name .function).bind_last fun name => ?_
  refine (Tracks.symbol .leftParen .functionName).bind_last fun _ => ?_
  refine (listToParen_tracks ((Tracks.name .parameter).weaken (Nat.zero_le _)) .tooManyParameters
    (by omega) (Nat.le_refl _)).bind_last fun params => ?_
  refine (Tracks.symbol .rightParen .parameters).bind_last fun _ => ?_
  refine (Tracks.symbol .leftBrace .functionBody).bind_last fun _ => ?_
  exact (block_tracks h (by omega) (by omega)).bind fun body => .pure _

end Declarations

section Rules

variable {statement : Parser Stmt} {statement' : Reader Stmt} {declaration : Parser (Option Stmt)}
  {declaration' : Reader (Option Stmt)} (hs : ∀ k < most, Tracks v k 1 statement statement')
  (hd : ∀ k < most, Tracks v k 1 declaration declaration') (hn : most < n)

include hs hd hn

theorem statementRule_tracks :
    Tracks v most 1 (statementRule n statement declaration)
      (Grammar.statementRule n statement' declaration') := by
  rw [Grammar.statementRule_eq]
  refine .ifAccept (fun _ hpos => ?_) (.ifAccept (fun _ _ => ?_) (.ifAccept (fun _ hpos => ?_)
    (.ifAccept (fun _ hpos => ?_) (.ifAccept (fun _ hpos => ?_) (.ifAccept (fun keyword _ => ?_)
      (expressionStatement_tracks hn) (Nat.le_refl _)) (Nat.le_refl _)) (Nat.le_refl _))
        (Nat.le_refl _)) (Nat.le_refl _)) (Nat.le_refl _)
  · have hs := hs (most - 1) (by omega)
    exact (forStatement_tracks hs (by omega) (Nat.le_refl _)).weaken (Nat.zero_le _)
  · exact (printStatement_tracks (by omega)).weaken (Nat.zero_le _)
  · have hd := hd (most - 1) (by omega)
    exact ((block_tracks hd (by omega) (Nat.le_refl _)).map _).weaken (Nat.zero_le _)
  · have hs := hs (most - 1) (by omega)
    exact (ifStatement_tracks hs (by omega) (Nat.le_refl _)).weaken (Nat.zero_le _)
  · have hs := hs (most - 1) (by omega)
    exact (whileStatement_tracks hs (by omega) (Nat.le_refl _)).weaken (Nat.zero_le _)
  · exact (returnStatement_tracks keyword (by omega)).weaken (Nat.zero_le _)

theorem declarationRule_tracks :
    Tracks v most 1 (declarationRule n statement declaration)
      (Grammar.declarationRule n statement' declaration') := by
  refine .ifAccept (fun _ hpos => ?_) (.ifAccept (fun _ _ => ?_)
    (statementRule_tracks hs hd hn) (Nat.le_refl _)) (Nat.le_refl _)
  · have hd := hd (most - 1) (by omega)
    exact (function_tracks hd (by omega) (Nat.le_refl _)).weaken (Nat.zero_le _)
  · exact (variableDeclaration_tracks (by omega)).weaken (Nat.zero_le _)

end Rules

theorem statement_declaration_tracks : ∀ {n most : Nat}, most < n →
    Tracks v most 1 (statement n) (Grammar.statement n) ∧
      Tracks v most 1 (declaration n) (Grammar.declaration n)
  | n + 1, most, hn => by
    have hs (k : Nat) (hk : k < most) : Tracks v k 1 (statement n) (Grammar.statement n) :=
      (statement_declaration_tracks (by omega)).1
    have hd (k : Nat) (hk : k < most) : Tracks v k 1 (declaration n) (Grammar.declaration n) :=
      (statement_declaration_tracks (by omega)).2
    exact ⟨statementRule_tracks hs hd hn, (declarationRule_tracks hs hd hn).recovering hn⟩

theorem program_tracks (hn : most < n) : Tracks v most 0 (program n) (Grammar.program n) :=
  declarations_tracks (statement_declaration_tracks hn).2
    (fun hat => ⟨_, hat.isAtEnd, hat.look⟩) (fun _ => rfl) (fun _ => List.isEmpty_iff.2) hn
    (Nat.le_refl _)

theorem wholeExpression_tracks (hn : most < n) :
    Tracks v most 0 (wholeExpression n) (Grammar.wholeExpression n) :=
  (expression_tracks hn).bind fun e =>
    .ifTest (fun hat => ⟨_, hat.isAtEnd, hat.look⟩) (fun _ => rfl) (.pure e)
      fun _ _ _ => .fail .endMissing

end Lox.Indexed
