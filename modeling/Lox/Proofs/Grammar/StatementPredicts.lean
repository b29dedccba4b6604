import Lox.Proofs.Grammar.ExpressionPredicts

/-!
# Statements stop at once

Behind a statement an `else` may stand only if a statement goes on with it there too (`Absorbs`),
since the nearest `if` takes it. In front of such tokens the rules of statements fail exactly where
no statement goes on, and a fault is recovered from only between braces
(`statement_declaration_predicts`).
-/

namespace Lox.Grammar

open Computability
open Relaxed
open Sentence (Rank StartsExpression StartsStatement)

/-- Where an `else` may stand behind a statement, what is behind the `else` is a statement before
what may stand there again. -/
def Absorbs (K : Language Token) : Prop :=
  ∀ t v, t.isKeyword .elseKw = true → t :: v ∈ K → v ∈ statements .statement * K

variable {ρ : Recovery} {follow : Language Token → Prop} {n bound most : Nat}
  {kinds : List Token.Kind} {K : Language Token}

theorem Absorbs.otherwise (h : Absorbs K) :
    Absorbs ((keyword .elseKw * statements .statement + 1) * K) := by
  intro t v ht hmem
  have hv : v ∈ statements .statement * K := by
    rw [add_mul, one_mul, mul_assoc] at hmem
    rcases hmem with hmem | hmem
    · obtain ⟨_, _, -, hv, heq⟩ := mem_token_mul.1 hmem
      cases heq
      exact hv
    · exact h t v ht hmem
  obtain ⟨ts, us, hts, hus, rfl⟩ := mem_mul.1 hv
  refine append_mem hts ?_
  rw [add_mul, one_mul]
  exact .inr hus

theorem Avoids.absorbs (h : Avoids [.keyword .elseKw] K) : Absorbs K :=
  fun t v ht hmem => absurd (List.mem_singleton.2 (isKeyword_iff.1 ht)) (h t v hmem)

theorem Avoids.statements {kind : Token.Kind} {phrase : Phrase}
    (h : ¬ phrase.Starts kind) : Avoids [kind] (statements phrase) := by
  intro t v hmem hk
  obtain ⟨_, _, heq, hstarts⟩ := Statement.first hmem
  cases heq
  exact h (List.mem_singleton.1 hk ▸ hstarts)

theorem nil_not_mem_statements {phrase : Phrase} : [] ∉ statements phrase := by
  intro h
  obtain ⟨_, _, heq, -⟩ := Statement.first h
  cases heq

section Simple

theorem semicolon_mul_avoids {L : Language Token} : Avoids continues (symbol .semicolon * L) :=
  .symbol_mul (by simp [continues, Rank.operators])

theorem rightParen_mul_avoids {L : Language Token} : Avoids continues (symbol .rightParen * L) :=
  .symbol_mul (by simp [continues, Rank.operators])

/-- An expression before a semicolon that ends a statement. -/
theorem terminated_predicts {α : Type} (place : Place) (node : Expr → α) (hmost : most ≤ n) :
    Predicts ρ follow most
      (do
        let value ← expression n
        let _ ← Reader.symbol .semicolon place
        return node value)
      (expressions .assignment * symbol .semicolon) := by
  refine (expression_predicts hmost).bind (fun value => ?_) fun K _ => ?_
  · exact (Predicts.symbol .semicolon place).bind_pure fun _ => node value
  · exact semicolon_mul_avoids

theorem variableDeclaration_predicts (hmost : most ≤ n) :
    Predicts ρ follow most (variableDeclaration n) variableRest := by
  unfold variableDeclaration
  dsimp only
  refine (Predicts.name .var).bind_token fun name => ?_
  refine ifSymbol (fun _ => ?_) ?_ fun K _ => .symbol_mul (by simp)
  · refine ((expression_predicts (by omega)).map some).bind (fun initial => ?_) fun K _ => ?_
    · exact (Predicts.symbol .semicolon .declaration).bind_pure fun _ => Stmt.var name initial
    · exact semicolon_mul_avoids
  · simp only [pure_bind]
    exact (Predicts.symbol .semicolon .declaration).bind_pure fun _ => Stmt.var name none

theorem optional_predicts (stop : Symbol) (hmost : most ≤ n) (hstop : .symbol stop ∉ continues)
    (hstarts : ¬ StartsExpression (.symbol stop)) :
    Predicts ρ (StartsWith (·.isSymbol stop)) most (Grammar.optional n stop) Relaxed.optional := by
  refine .ifTest (fun _ => rfl) ((expression_predicts hmost).bind_pure some) ?_ ?_
  · intro w hw _
    obtain ⟨t, ts, rfl, ht⟩ := Expression.first hw
    refine eq_false_of_ne_true fun h => hstarts ?_
    rwa [← isSymbol_iff.1 h]
  · exact fun K hK => ⟨hK.avoids hstop, hK⟩

theorem returnStatement_predicts (keyword : Token) (hmost : most ≤ n) :
    Predicts ρ follow most (returnStatement n keyword) (Relaxed.optional * symbol .semicolon) := by
  refine (optional_predicts .semicolon hmost (by simp [continues, Rank.operators])
    fun h => h.ne_closing.2 rfl).bind (fun value => ?_) fun K _ => .symbol_mul
  exact (Predicts.symbol .semicolon .returnValue).bind_pure fun _ => Stmt.exit keyword value

theorem forInitial_predicts (hmost : most ≤ n) :
    Predicts ρ follow most (forInitial n) initial := by
  have hexpression : Predicts ρ follow most (some <$> expressionStatement n)
      (expressions .assignment * symbol .semicolon) :=
    (terminated_predicts .expression Stmt.expression hmost).map some
  have havoid {k : Token.Kind} {L K : Language Token} (h : ¬ StartsExpression k) :
      Avoids [k] (expressions .assignment * L * K) := by
    rw [mul_assoc]
    exact (Avoids.expressions (by simpa using h)).mul_of_ne nil_not_mem_expressions
  have hshort : initial = symbol .semicolon * 1 +
      (keyword .varKw * variableRest + expressions .assignment * symbol .semicolon) := by
    rw [mul_one]
    rfl
  rw [hshort]
  refine ifSymbol (fun _ => .pure none) (ifKeyword (fun _ => ?_) hexpression fun K _ => ?_)
    fun K _ => ?_
  · exact (variableDeclaration_predicts (by omega)).map some
  · exact havoid fun h => h.ne_keyword.2 rfl
  · rw [add_mul]
    refine .add ?_ (havoid fun h => h.ne_closing.2 rfl)
    rw [mul_assoc]
    exact .keyword_mul (by simp)

end Simple

section Declarations

variable {declaration : Reader (Option Stmt)}
  (h : Predicts .anywhere Absorbs bound declaration (statements .declaration))

include h

/-- Declarations up to an end that none of them starts with. -/
theorem declarations_predicts {stop : Reader Bool} {ended : Option Token → Bool}
    (hstop : ∀ row, stop row = .ok (ended row.tokens.head?) row)
    (hended : ∀ t, ended (some t) = true → t.kind = .symbol .rightBrace) :
    ∀ {n most : Nat}, most ≤ n → most ≤ bound →
      Predicts .anywhere (fun K => ∀ y ∈ K, ended y.head? = true) most
        (declarations declaration stop n) (statements .declaration)∗
  | 0, most, hmost, _ => by
    obtain rfl := Nat.le_zero.1 hmost
    exact .nothing [] (Language.nil_mem_kstar _)
  | n + 1, most, hmost, hbound => by
    have hlen : ∀ w ∈ statements .declaration, 1 ≤ w.length := by
      intro w hw
      obtain ⟨t, ts, rfl, -⟩ := Statement.first hw
      exact Nat.succ_pos _
    have hbrace : Avoids [.symbol .rightBrace] (statements .declaration) :=
      .statements fun h => h.ne.2 rfl
    have helse : Avoids [.keyword .elseKw] (statements .declaration) :=
      .statements fun h => h.ne.1 rfl
    rw [← one_add_mul_kstar, add_comm (1 : Language Token)]
    have hothers (first? : Option Stmt) := (declarations_predicts hstop hended
      (Nat.sub_le_of_le_add hmost) (Nat.le_trans (Nat.sub_le most 1) hbound)).bind_pure
        (first?.toList ++ ·)
    refine .ifTest hstop ((h.shorter hbound).bind_at hlen hothers (fun K hK => ?_)
      fun _ _ _ _ => trivial) (fun w hw hne => ?_) fun K hK => ⟨hK, hK⟩
    · refine Avoids.absorbs (.mul (.kstar helse) fun t v hmem hk => ?_)
      cases (List.mem_singleton.1 hk).symm.trans (hended t (hK _ hmem))
    · obtain ⟨t, ts, rfl⟩ := List.exists_cons_of_ne_nil hne
      refine eq_false_of_ne_true fun h => ?_
      exact hbrace.mul_of_ne nil_not_mem_statements t ts hw
        (List.mem_singleton.2 (hended t h))

theorem block_predicts (hmost : most ≤ n) (hbound : most ≤ bound) :
    Predicts .anywhere follow most (block n declaration) blockRest := by
  have hended : ∀ t : Token, (some t).all (·.isSymbol .rightBrace) = true →
      t.kind = .symbol .rightBrace := fun t ht => isSymbol_iff.1 ht
  refine (declarations_predicts h (fun _ => rfl) hended hmost hbound).bind (fun body => ?_) ?_
  · exact (Predicts.symbol .rightBrace .block).bind_pure fun _ => body
  · intro K _ y hy
    obtain ⟨t, v, ht, -, rfl⟩ := mem_token_mul.1 hy
    exact ht

theorem function_predicts (hmost : most ≤ n) (hbound : most ≤ bound) :
    Predicts .inBraces follow most (function n declaration) functionRest := by
  have hparam : Predicts .inBraces (Avoids []) most (Reader.name .parameter)
      (token (·.isIdentifier)) := .name .parameter
  have hnil : [] ∉ token (·.isIdentifier) := fun ⟨_, _, heq⟩ => by cases heq
  have hname : Avoids [.symbol .rightParen] (token (·.isIdentifier)) :=
    .of_token fun t ht hk => by
      cases (isIdentifier_iff.1 ht).symm.trans (List.mem_singleton.1 hk)
  refine (Predicts.name .function).bind_token fun name => ?_
  refine (Predicts.symbol .leftParen .functionName).bind_token fun _ => ?_
  refine (listToParen_predicts (by simp) hnil hparam rfl (by simp) hname (by omega)
    (by omega)).bind (fun params => ?_) fun K _ => ?_
  · refine (Predicts.symbol .rightParen .parameters).bind_token fun _ => ?_
    refine .bind_brace .functionBody fun _ => ?_
    exact (block_predicts h (by omega) (by omega)).bind_pure fun body =>
      Stmt.function name params body
  · rw [mul_assoc]
    exact .symbol_mul

end Declarations

section Nested

variable {statement : Reader Stmt}
  (h : Predicts .inBraces Absorbs bound statement (statements .statement))

include h

theorem forStatement_predicts (hmost : most ≤ n) (hbound : most ≤ bound) :
    Predicts .inBraces Absorbs most (forStatement n statement) forRest := by
  refine (Predicts.symbol .leftParen .forKeyword).bind_token fun _ => ?_
  have hinitial : Predicts .inBraces (fun _ => True) (most - 1) (forInitial n) initial :=
    forInitial_predicts (by omega)
  refine hinitial.bind (fun first => ?_) fun _ _ => trivial
  refine (optional_predicts .semicolon (by omega) (by simp [continues, Rank.operators])
    fun h => h.ne_closing.2 rfl).bind (fun condition => ?_) fun K _ => ?_
  · refine (Predicts.symbol .semicolon .loopCondition).bind_token fun _ => ?_
    refine (optional_predicts .rightParen (by omega) (by simp [continues, Rank.operators])
      fun h => h.ne_closing.1 rfl).bind (fun increment => ?_) fun K _ => ?_
    · refine (Predicts.symbol .rightParen .forClauses).bind_token fun _ => ?_
      exact (h.shorter (by omega)).bind_pure fun body =>
        Stmt.counted first condition increment body
    · rw [mul_assoc]
      exact .symbol_mul
  · rw [mul_assoc]
    exact .symbol_mul

theorem whileStatement_predicts (hmost : most ≤ n) (hbound : most ≤ bound) :
    Predicts .inBraces Absorbs most (whileStatement n statement) whileRest := by
  refine (Predicts.symbol .leftParen .whileKeyword).bind_token fun _ => ?_
  refine (expression_predicts (by omega)).bind (fun condition => ?_) fun K _ => ?_
  · refine (Predicts.symbol .rightParen .condition).bind_token fun _ => ?_
    exact (h.shorter (by omega)).bind_pure fun body => Stmt.loop condition body
  · rw [mul_assoc]
    exact rightParen_mul_avoids

/-- The nearest `if` takes an `else`, and the ones around it may take the next. -/
theorem ifStatement_predicts (hmost : most ≤ n) (hbound : most ≤ bound) :
    Predicts .inBraces Absorbs most (ifStatement n statement) ifRest := by
  unfold ifStatement
  dsimp only
  refine (Predicts.symbol .leftParen .ifKeyword).bind_token fun _ => ?_
  refine (expression_predicts (by omega)).bind (fun condition => ?_) fun K _ => ?_
  · refine (Predicts.symbol .rightParen .ifCondition).bind_token fun _ => ?_
    refine (h.shorter (by omega)).bind (fun onTrue => ?_) fun K hK => ?_
    · refine .ifAccept ⟨⟨.keyword .elseKw, "", 1⟩, rfl⟩ (fun _ => ?_) ?_ ?_
      · exact ((h.shorter (by omega)).map some).bind_pure fun onFalse =>
          Stmt.branch condition onTrue onFalse
      · simp only [pure_bind]
        exact .pure _
      · intro K hK t v ht hmem
        exact hK t v ht (by rwa [one_mul] at hmem)
    · exact hK.otherwise
  · rw [mul_assoc]
    exact rightParen_mul_avoids

end Nested

/-- The statement rule as one choice after the other. -/
theorem statementRule_eq (n : Nat) (statement : Reader Stmt)
    (declaration : Reader (Option Stmt)) : statementRule n statement declaration = (do
    match ← Reader.accept? (·.isKeyword .forKw) with
    | some _ => forStatement n statement
    | none =>
      match ← Reader.accept? (·.isKeyword .printKw) with
      | some _ => printStatement n
      | none =>
        match ← Reader.accept? (·.isSymbol .leftBrace) with
        | some _ => Stmt.block <$> Grammar.block n declaration
        | none =>
          match ← Reader.accept? (·.isKeyword .ifKw) with
          | some _ => ifStatement n statement
          | none =>
            match ← Reader.accept? (·.isKeyword .whileKw) with
            | some _ => whileStatement n statement
            | none =>
              match ← Reader.accept? (·.isKeyword .returnKw) with
              | some keyword => returnStatement n keyword
              | none => expressionStatement n) := by
  funext row
  rcases row with ⟨_ | ⟨⟨kind, lexeme, line⟩, ts⟩, id, cs⟩
  · rfl
  · cases kind with
    | symbol s => cases s <;> rfl
    | keyword k => cases k <;> rfl
    | _ => rfl

section Rules

variable {statement : Reader Stmt} {declaration : Reader (Option Stmt)}
  (hs : Predicts .inBraces Absorbs bound statement (statements .statement))
  (hd : Predicts .anywhere Absorbs bound declaration (statements .declaration))

include hs hd

theorem statementRule_predicts (hmost : most ≤ n) (hbound : most ≤ bound + 1) :
    Predicts .inBraces Absorbs most (statementRule n statement declaration)
      (statements .statement) := by
  rw [statementRule_eq, statements_statement]
  have hexpression (K : Language Token) : Avoids [.keyword .forKw, .keyword .printKw,
      .symbol .leftBrace, .keyword .ifKw, .keyword .whileKw, .keyword .returnKw]
      (expressions .assignment * symbol .semicolon * K) := by
    rw [mul_assoc]
    refine (Avoids.expressions ?_).mul_of_ne nil_not_mem_expressions
    simp only [List.mem_cons, List.not_mem_nil, or_false]
    rintro kind (rfl | rfl | rfl | rfl | rfl | rfl) (h | _ | _ | _ | _) <;> cases h
  -- Each keyword is told from what the choices behind it start with.
  refine ifKeyword (fun _ => forStatement_predicts hs (by omega) (by omega)) (ifKeyword
    (fun _ => terminated_predicts .value Stmt.print (by omega)) (ifBrace
      (fun _ => (block_predicts hd (by omega) (by omega)).map _) (ifKeyword
        (fun _ => ifStatement_predicts hs (by omega) (by omega)) (ifKeyword
          (fun _ => whileStatement_predicts hs (by omega) (by omega)) (ifKeyword
            (fun keyword => returnStatement_predicts keyword (by omega))
            (terminated_predicts .expression Stmt.expression hmost) ?_) ?_) ?_) ?_) ?_) ?_
  · exact fun K _ => (hexpression K).subset (by simp)
  · exact fun K _ => .add_mul (.keyword_mul_mul (by simp)) <| (hexpression K).subset (by simp)
  · exact fun K _ => .add_mul (.keyword_mul_mul (by simp)) <|
      .add_mul (.keyword_mul_mul (by simp)) <| (hexpression K).subset (by simp)
  · exact fun K _ => .add_mul (.keyword_mul_mul (by simp)) <|
      .add_mul (.keyword_mul_mul (by simp)) <| .add_mul (.keyword_mul_mul (by simp)) <|
        (hexpression K).subset (by simp)
  · exact fun K _ => .add_mul (.symbol_mul_mul (by simp)) <|
      .add_mul (.keyword_mul_mul (by simp)) <| .add_mul (.keyword_mul_mul (by simp)) <|
        .add_mul (.keyword_mul_mul (by simp)) <| (hexpression K).subset (by simp)
  · exact fun K _ => .add_mul (.keyword_mul_mul (by simp)) <|
      .add_mul (.symbol_mul_mul (by simp)) <| .add_mul (.keyword_mul_mul (by simp)) <|
        .add_mul (.keyword_mul_mul (by simp)) <| .add_mul (.keyword_mul_mul (by simp)) <|
          (hexpression K).subset (by simp)

theorem declarationRule_predicts (hmost : most ≤ n) (hbound : most ≤ bound + 1) :
    Predicts .inBraces Absorbs most (declarationRule n statement declaration)
      (statements .declaration) := by
  rw [statements_declaration]
  refine ifKeyword (fun _ => function_predicts hd (by omega) (by omega)) (ifKeyword
    (fun _ => variableDeclaration_predicts (by omega))
    (statementRule_predicts hs hd hmost hbound) fun K _ => ?_) fun K _ => ?_
  · refine (Avoids.statements ?_).mul_of_ne nil_not_mem_statements
    exact fun h => (StartsStatement.ne_keyword h).2 rfl
  · refine .add_mul (.keyword_mul_mul (by simp))
      ((Avoids.statements ?_).mul_of_ne nil_not_mem_statements)
    exact fun h => (StartsStatement.ne_keyword h).1 rfl

end Rules

/-- A statement or declaration is read up to where none goes on. -/
theorem statement_declaration_predicts : ∀ {n most : Nat}, most ≤ n →
    Predicts .inBraces Absorbs most (statement n) (statements .statement) ∧
      Predicts .anywhere Absorbs most (declaration n) (statements .declaration)
  | 0, most, hmost => by
    obtain rfl := Nat.le_zero.1 hmost
    have hword : [⟨.keyword .nilKw, "", 1⟩, ⟨.symbol .semicolon, "", 1⟩] ∈ statements .statement :=
      Statement.expression (.mk _ nil_mem_expressions rfl)
    have hfail {ρ : Recovery} {phrase : Phrase} (h : ∃ w, w ∈ statements phrase) :
        Predicts ρ Absorbs 0 (Reader.fail .expressionMissing : Reader Stmt) (statements phrase) :=
      .fail_nothing _ rfl h nil_not_mem_statements
    have hdeclaration : Predicts .never Absorbs 0 _ _ := hfail ⟨_, Statement.statement hword⟩
    exact ⟨hfail ⟨_, hword⟩, hdeclaration.recovering⟩
  | n + 1, most, hmost => by
    obtain ⟨hs, hd⟩ := statement_declaration_predicts (Nat.le_refl n)
    exact ⟨statementRule_predicts hs hd hmost hmost,
      (declarationRule_predicts hs hd hmost hmost).recovering⟩

end Lox.Grammar
