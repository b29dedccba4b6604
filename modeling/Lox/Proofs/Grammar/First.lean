import Lox.Proofs.Grammar.Sentence

/-!
# First tokens

Every sentence has a first token, and its kind tells expressions, statements and declarations from
what may stand after them: no sentence starts with `else`, a comma, a semicolon or a closing
parenthesis or brace.
-/

namespace Lox.Sentence

/-- The kinds of token that an expression starts with. -/
inductive StartsExpression : Token.Kind → Prop where
  | literal {kind : Token.Kind} {value : Literal} (h : Denotes kind value) : StartsExpression kind
  | name : StartsExpression .identifier
  | opening : StartsExpression (.symbol .leftParen)
  | bang : StartsExpression (.symbol .bang)
  | minus : StartsExpression (.symbol .minus)

inductive StartsStatement : Token.Kind → Prop where
  | expression {kind : Token.Kind} (h : StartsExpression kind) : StartsStatement kind
  | print : StartsStatement (.keyword .printKw)
  | block : StartsStatement (.symbol .leftBrace)
  | exit : StartsStatement (.keyword .returnKw)
  | loop : StartsStatement (.keyword .whileKw)
  | counted : StartsStatement (.keyword .forKw)
  | branch : StartsStatement (.keyword .ifKw)

/-- The kinds of token that a declaration or statement starts with. -/
def Phrase.Starts : Phrase → Token.Kind → Prop
  | .declaration, kind => StartsStatement kind ∨ kind = .keyword .funKw ∨ kind = .keyword .varKw
  | .statement _, kind => StartsStatement kind

/-- What closes an expression starts none. -/
theorem StartsExpression.ne_closing {kind : Token.Kind} (h : StartsExpression kind) :
    kind ≠ .symbol .rightParen ∧ kind ≠ .symbol .semicolon := by
  cases h with
  | literal h => cases h <;> exact ⟨nofun, nofun⟩
  | _ => exact ⟨nofun, nofun⟩

theorem StartsExpression.ne_keyword {kind : Token.Kind} (h : StartsExpression kind) :
    kind ≠ .keyword .funKw ∧ kind ≠ .keyword .varKw := by
  cases h with
  | literal h => cases h <;> exact ⟨nofun, nofun⟩
  | _ => exact ⟨nofun, nofun⟩

/-- A primary expression is the operand of every operator. -/
theorem Expression.of_primary {ts : List Token} {e : Expr} (h : Expression .primary ts e) :
    Expression .or ts e := by
  iterate 8 refine .operand (by decide) ?_
  exact h

theorem Expression.first {rank : Rank} {ts : List Token} {e : Expr} (h : Expression rank ts e) :
    ∃ t us, ts = t :: us ∧ StartsExpression t.kind := by
  induction h with
  | assign name equals hn => exact ⟨_, _, rfl, hn ▸ .name⟩
  | operand _ _ ih => exact ih
  | operator op _ _ _ ih =>
    obtain ⟨t, us, rfl, ht⟩ := ih
    exact ⟨t, _, rfl, ht⟩
  | unary op ho =>
    refine ⟨_, _, rfl, ?_⟩
    rcases ho with ho | ho <;> rw [ho]
    · exact .bang
    · exact .minus
  | call arguments opening closing _ _ _ _ _ _ ih =>
    obtain ⟨t, us, rfl, ht⟩ := ih
    exact ⟨t, _, rfl, ht⟩
  | literal t h => exact ⟨_, _, rfl, .literal h⟩
  | name t h => exact ⟨_, _, rfl, h ▸ .name⟩
  | grouping opening closing ho => exact ⟨_, _, rfl, ho ▸ .opening⟩

theorem VarDecl.first {ts : List Token} {s : Stmt} (h : VarDecl ts s) :
    ∃ t us, ts = t :: us ∧ t.kind = .keyword .varKw := by
  cases h with
  | plain var name semicolon hv => exact ⟨_, _, rfl, hv⟩
  | initialized var name equals semicolon hv => exact ⟨_, _, rfl, hv⟩

theorem ExprStmt.first {ts : List Token} {s : Stmt} (h : ExprStmt ts s) :
    ∃ t us, ts = t :: us ∧ StartsExpression t.kind := by
  obtain ⟨semicolon, h, -⟩ := h
  obtain ⟨t, us, rfl, ht⟩ := h.first
  exact ⟨t, _, rfl, ht⟩

theorem Statement.first {phrase : Phrase} {ts : List Token} {s : Stmt}
    (h : Statement phrase ts s) : ∃ t us, ts = t :: us ∧ phrase.Starts t.kind := by
  induction h with
  | function _ _ _ _ _ _ _ _ hk => exact ⟨_, _, rfl, .inr (.inl hk)⟩
  | var h =>
    obtain ⟨t, us, rfl, ht⟩ := h.first
    exact ⟨t, us, rfl, .inr (.inr ht)⟩
  | statement _ ih =>
    obtain ⟨t, us, rfl, ht⟩ := ih
    exact ⟨t, us, rfl, .inl ht⟩
  | expression h =>
    obtain ⟨t, us, rfl, ht⟩ := h.first
    exact ⟨t, us, rfl, .expression ht⟩
  | print keyword _ hk => exact ⟨_, _, rfl, show StartsStatement _ from hk ▸ .print⟩
  | block _ _ _ hl => exact ⟨_, _, rfl, show StartsStatement _ from hl ▸ .block⟩
  | exit keyword _ hk => exact ⟨_, _, rfl, show StartsStatement _ from hk ▸ .exit⟩
  | loop keyword _ _ hk => exact ⟨_, _, rfl, show StartsStatement _ from hk ▸ .loop⟩
  | counted keyword _ _ _ hk => exact ⟨_, _, rfl, show StartsStatement _ from hk ▸ .counted⟩
  | ifThen keyword _ _ hk => exact ⟨_, _, rfl, show StartsStatement _ from hk ▸ .branch⟩
  | ifElse keyword _ _ _ hk => exact ⟨_, _, rfl, show StartsStatement _ from hk ▸ .branch⟩

theorem StartsStatement.ne_keyword {kind : Token.Kind} (h : StartsStatement kind) :
    kind ≠ .keyword .funKw ∧ kind ≠ .keyword .varKw := by
  cases h with
  | expression h => exact h.ne_keyword
  | _ => exact ⟨nofun, nofun⟩

/-- What stands after a phrase starts none. -/
theorem Phrase.Starts.ne {phrase : Phrase} {kind : Token.Kind} (h : phrase.Starts kind) :
    kind ≠ .keyword .elseKw ∧ kind ≠ .symbol .rightBrace := by
  have hs : ∀ {kind}, StartsStatement kind →
      kind ≠ .keyword .elseKw ∧ kind ≠ .symbol .rightBrace := by
    intro kind h
    cases h with
    | expression h =>
      cases h with
      | literal h => cases h <;> exact ⟨nofun, nofun⟩
      | _ => exact ⟨nofun, nofun⟩
    | _ => exact ⟨nofun, nofun⟩
  cases phrase with
  | declaration =>
    rcases h with h | rfl | rfl
    · exact hs h
    · exact ⟨nofun, nofun⟩
    · exact ⟨nofun, nofun⟩
  | statement isOpen => exact hs h

theorem length_le_flatMap {parts : List (List Token × Stmt)}
    (h : ∀ p ∈ parts, Statement .declaration p.1 p.2) :
    parts.length ≤ (parts.flatMap (·.1)).length := by
  induction parts with
  | nil => simp
  | cons p parts ih =>
    obtain ⟨hp, h⟩ := List.forall_mem_cons.1 h
    obtain ⟨t, us, hts, -⟩ := hp.first
    have := ih h
    simp only [List.flatMap_cons, List.length_append, List.length_cons, hts]
    omega

end Lox.Sentence
