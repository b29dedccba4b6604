import Lox.Proofs.Grammar.ExpressionComplete
import Lox.Proofs.Grammar.Program

/-!
# Single expressions

`parseExpression` answers a row of tokens with a tree exactly when the tokens before the first end
token are one expression of the grammar. The grammar gives them no other tree, and the tree spells
them: its words in order, with the parentheses, commas and `=` that it leaves out put back, are the
tokens by kind, by what the kind carries and by the text of names (`Expr.spelling`).
-/

namespace Lox

/-- What a token says: its kind with what it carries, and the text of a name. -/
def Token.content (t : Token) : Token.Kind × Option String :=
  (t.kind, if t.isIdentifier then some t.lexeme else none)

/-- What a symbol says that a tree leaves out. -/
def Symbol.content (s : Symbol) : Token.Kind × Option String :=
  (.symbol s, none)

/-- The kind of the token that a literal is written with. -/
def Literal.kind : Literal → Token.Kind
  | number x => .number x
  | string s => .string s
  | bool true => .keyword .trueKw
  | bool false => .keyword .falseKw
  | nil => .keyword .nilKw

mutual

/-- What the tokens say that an expression is read from, in order. -/
def Expr.spelling : Expr → List (Token.Kind × Option String)
  | .literal value => [(value.kind, none)]
  | .grouping inner =>
    Symbol.leftParen.content :: inner.spelling ++ [Symbol.rightParen.content]
  | .unary operator operand => operator.content :: operand.spelling
  | .binary left operator right => left.spelling ++ operator.content :: right.spelling
  | .logical left operator right => left.spelling ++ operator.content :: right.spelling
  | .read _ name => [name.content]
  | .assign _ name value => name.content :: Symbol.equal.content :: value.spelling
  | .call callee paren arguments =>
    callee.spelling ++ Symbol.leftParen.content :: spellingOfAll arguments ++ [paren.content]

/-- The same for expressions with commas between them. -/
def Expr.spellingOfAll : List Expr → List (Token.Kind × Option String)
  | [] => []
  | [e] => e.spelling
  | e :: e' :: es => e.spelling ++ Symbol.comma.content :: spellingOfAll (e' :: es)

end

mutual

theorem Expr.spelling_unnumbered : ∀ e : Expr, e.unnumbered.spelling = e.spelling
  | .literal _ | .read _ _ => rfl
  | .grouping e | .unary _ e | .assign _ _ e => by
    simp only [Expr.unnumbered, Expr.spelling, Expr.spelling_unnumbered e]
  | .binary left _ right | .logical left _ right => by
    simp only [Expr.unnumbered, Expr.spelling, Expr.spelling_unnumbered left,
      Expr.spelling_unnumbered right]
  | .call callee _ arguments => by
    simp only [Expr.unnumbered, Expr.spelling, Expr.spelling_unnumbered callee,
      Expr.spellingOfAll_unnumbered arguments]

theorem Expr.spellingOfAll_unnumbered : ∀ es : List Expr,
    Expr.spellingOfAll (Expr.unnumberedAll es) = Expr.spellingOfAll es
  | [] => rfl
  | [e] => Expr.spelling_unnumbered e
  | e :: e' :: es => by
    have htail := Expr.spellingOfAll_unnumbered (e' :: es)
    simp only [Expr.unnumberedAll] at htail
    simp only [Expr.unnumberedAll, Expr.spellingOfAll, Expr.spelling_unnumbered e, htail]

end

theorem Token.content_of_kind {t : Token} {k : Token.Kind} (h : t.kind = k)
    (hk : k ≠ .identifier) : t.content = (k, none) := by
  simp [Token.content, Token.isIdentifier, h, hk]

theorem Token.content_of_symbol {t : Token} {s : Symbol} (h : t.kind = .symbol s) :
    t.content = s.content :=
  t.content_of_kind h nofun

namespace Sentence

theorem Denotes.content {t : Token} {value : Literal} (h : Denotes t.kind value) :
    t.content = (value.kind, none) := by
  generalize hk : t.kind = k at h
  cases h <;> exact t.content_of_kind hk nofun

/-- Phrases that are spelled by their trees are so with the commas between them. -/
theorem Separated.spelling : ∀ {parts : List (List Token × Expr)} {ts : List Token},
    Separated (parts.map (·.1)) ts → (∀ p ∈ parts, p.2.spelling = p.1.map (·.content)) →
      Expr.spellingOfAll (parts.map (·.2)) = ts.map (·.content)
  | [], _, h, _ => by
    cases h
    rfl
  | [p], _, h, hp => by
    cases h
    exact hp p (List.mem_singleton_self p)
  | p :: q :: parts, _, h, hp => by
    cases h with
    | more _ comma hc hr =>
      obtain ⟨hp, hrest⟩ := List.forall_mem_cons.1 hp
      have htail : Expr.spellingOfAll ((q :: parts).map (·.2)) = _ := Separated.spelling hr hrest
      simp only [List.map_cons] at htail
      simp only [List.map_cons, Expr.spellingOfAll, htail, hp, List.map_append,
        comma.content_of_symbol hc]

/-- The tree of an expression spells its tokens. -/
theorem Expression.spelling {rank : Rank} {ts : List Token} {e : Expr}
    (h : Expression rank ts e) : e.spelling = ts.map (·.content) := by
  induction h with
  | assign name equals _ he _ ih =>
    simp only [Expr.spelling, ih, List.map_cons, equals.content_of_symbol he]
  | operand _ _ ih => exact ih
  | @operator rank left right a b op _ _ _ ihl ihr =>
    have hnode : (rank.node a op b).spelling = a.spelling ++ op.content :: b.spelling := by
      cases rank <;> rfl
    rw [hnode, ihl, ihr, List.map_append, List.map_cons]
  | unary op _ _ ih => simp only [Expr.spelling, ih, List.map_cons]
  | call arguments opening closing _ ho _ hs _ _ ihf iha =>
    simp only [Expr.spelling, ihf, hs.spelling iha, List.map_append, List.map_cons, List.map_nil,
      opening.content_of_symbol ho]
  | literal t h => simp only [Expr.spelling, List.map_cons, List.map_nil, h.content]
  | name t _ => rfl
  | grouping opening closing ho _ hc ih =>
    simp only [Expr.spelling, ih, List.map_append, List.map_cons, List.map_nil,
      opening.content_of_symbol ho, closing.content_of_symbol hc]

end Sentence

namespace Grammar

open Sentence

variable {firstId : NodeId} {ts : List Token}

/-- An expression that is read up to the end of the row leaves nothing. -/
theorem wholeExpression_reads (n : Nat) : Reads (wholeExpression n) fun row e row' =>
    Spells .assignment row e row' ∧ row'.tokens = [] := by
  refine ((expression_reads n).bind fun e =>
    Reads.ifTest (r := atEnd) (fun _ => rfl) (Reads.pure e) (Reads.fail .endMissing)
      (Q := fun _ _ _ => False)).mono ?_
  rintro row e row' ⟨e', mid, hspells, hend⟩
  split at hend
  · rename_i hempty
    obtain ⟨rfl, rfl⟩ := hend
    exact ⟨hspells, List.isEmpty_iff.1 hempty⟩
  · exact hend.elim

theorem parseExpression_sound {e : Expr} (h : (parseExpression firstId ts).result = .ok e) :
    Expression .assignment (beforeEnd ts) e.unnumbered := by
  obtain ⟨row', ⟨⟨us, htok, he, -⟩, hover⟩, -⟩ :=
    (run_reads (wholeExpression_reads _) firstId).2 e h
  rw [hover, List.append_nil] at htok
  obtain rfl : beforeEnd ts = us := htok
  exact he

theorem parseExpression_complete {tree : Expr} (h : Expression .assignment (beforeEnd ts) tree) :
    ∃ e, (parseExpression firstId ts).result = .ok e ∧ e.unnumbered = tree := by
  have hexpression := expression_complete _ (beforeEnd ts) tree [] h (Nat.le_refl _) nofun
  have hwhole : Accepts (wholeExpression (beforeEnd ts).length) (beforeEnd ts) []
      (·.unnumbered = tree) :=
    hexpression.bind_last fun e he => .test (fun _ => rfl) (fun _ _ => rfl) (.pure he)
  obtain ⟨e, id', hrun, he⟩ := hwhole firstId []
  refine ⟨e, ?_, he⟩
  rw [List.append_nil] at hrun
  simp only [parseExpression, run, hrun]

/-- The grammar gives the tokens at most one tree, since reading them gives one. -/
theorem expression_unique {tree tree' : Expr} (h : Expression .assignment (beforeEnd ts) tree)
    (h' : Expression .assignment (beforeEnd ts) tree') : tree = tree' := by
  obtain ⟨e, he, rfl⟩ := @parseExpression_complete 0 ts _ h
  obtain ⟨e', he', rfl⟩ := @parseExpression_complete 0 ts _ h'
  cases he.symm.trans he'
  rfl

/-- Tokens are read as an expression if and only if those before the first end token are one by the
grammar, with the one tree that it gives them, and this tree spells them. Otherwise there are
errors. -/
theorem parseExpression_iff_sentence (firstId : NodeId) (ts : List Token) :
    (∀ tree, (∃ e, (parseExpression firstId ts).result = .ok e ∧ e.unnumbered = tree) ↔
      Expression .assignment (beforeEnd ts) tree) ∧
    (∀ tree tree', Expression .assignment (beforeEnd ts) tree →
      Expression .assignment (beforeEnd ts) tree' → tree = tree') ∧
    (∀ e, (parseExpression firstId ts).result = .ok e →
      e.spelling = (beforeEnd ts).map (·.content)) ∧
    (parseExpression firstId ts).result ≠ .error [] := by
  refine ⟨fun tree => ⟨?_, parseExpression_complete⟩, fun tree tree' => expression_unique,
    fun e he => ?_, run_ne_error_nil _ _ _⟩
  · rintro ⟨e, he, rfl⟩
    exact parseExpression_sound he
  · rw [← e.spelling_unnumbered]
    exact (parseExpression_sound he).spelling

end Grammar

end Lox
