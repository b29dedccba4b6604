import Lox.Proofs.Grammar.First
import Lox.Proofs.Grammar.ExpressionComplete
import Mathlib.Computability.Language

/-!
# The relaxed grammar

The grammar of the language without the rules that are checked beside it: any `logic_or` may stand
left of `=`, and lists may have any length.

```text
program     → declaration*
declaration → "fun" NAME "(" ( NAME ( "," NAME )* )? ")" block | varDecl | statement
varDecl     → "var" NAME ( "=" expression )? ";"
statement   → exprStmt | forStmt | printStmt | whileStmt | ifStmt | block | returnStmt
exprStmt    → expression ";"
forStmt     → "for" "(" ( varDecl | exprStmt | ";" ) expression? ";" expression? ")" statement
printStmt   → "print" expression ";"
whileStmt   → "while" "(" expression ")" statement
ifStmt      → "if" "(" expression ")" statement ( "else" statement )?
block       → "{" declaration* "}"
returnStmt  → "return" expression? ";"
expression  → assignment
assignment  → logic_or "=" assignment | logic_or
logic_or … factor → six ranks of left-associative operators
unary       → ( "!" | "-" ) unary | call
call        → primary ( "(" ( expression ( "," expression )* )? ")" )*
primary     → NUMBER | STRING | "true" | "false" | "nil" | NAME | "(" expression ")"
```

Nothing is said of trees, so an `else` may belong to any `if` before it. The second half of the
module gives the rules as equations between languages (`expressions_assignment`,
`statements_statement` and so on), in which they can be compared with readers.
-/

namespace Lox.Relaxed

open Computability
open Sentence (Rank Denotes Separated StartsExpression StartsStatement)

/-- An expression of a rank. -/
inductive Expression : Rank → List Token → Prop where
  | assign {target value : List Token} (equals : Token) (ht : Expression .or target)
      (he : equals.kind = .symbol .equal) (hv : Expression .assignment value) :
      Expression .assignment (target ++ equals :: value)
  | operand {rank : Rank} {ts : List Token} (hr : rank ≠ .primary)
      (h : Expression rank.tighter ts) : Expression rank ts
  | operator {rank : Rank} {left right : List Token} (op : Token)
      (ho : op.kind ∈ rank.operators) (hl : Expression rank left)
      (hr : Expression rank.tighter right) : Expression rank (left ++ op :: right)
  | unary {ts : List Token} (op : Token)
      (ho : op.kind = .symbol .bang ∨ op.kind = .symbol .minus) (h : Expression .unary ts) :
      Expression .unary (op :: ts)
  | call {callee inner : List Token} (arguments : List (List Token)) (opening closing : Token)
      (hf : Expression .call callee) (ho : opening.kind = .symbol .leftParen)
      (ha : ∀ a ∈ arguments, Expression .assignment a) (hs : Separated arguments inner)
      (hc : closing.kind = .symbol .rightParen) :
      Expression .call (callee ++ opening :: inner ++ [closing])
  | literal {value : Literal} (t : Token) (h : Denotes t.kind value) : Expression .primary [t]
  | name (t : Token) (h : t.kind = .identifier) : Expression .primary [t]
  | grouping {inner : List Token} (opening closing : Token)
      (ho : opening.kind = .symbol .leftParen) (h : Expression .assignment inner)
      (hc : closing.kind = .symbol .rightParen) :
      Expression .primary (opening :: inner ++ [closing])

inductive Optional : List Token → Prop where
  | none : Optional []
  | some {ts : List Token} (h : Expression .assignment ts) : Optional ts

inductive VarDecl : List Token → Prop where
  | plain (var name semicolon : Token) (hv : var.kind = .keyword .varKw)
      (hn : name.kind = .identifier) (hs : semicolon.kind = .symbol .semicolon) :
      VarDecl [var, name, semicolon]
  | initialized {ts : List Token} (var name equals semicolon : Token)
      (hv : var.kind = .keyword .varKw) (hn : name.kind = .identifier)
      (he : equals.kind = .symbol .equal) (h : Expression .assignment ts)
      (hs : semicolon.kind = .symbol .semicolon) :
      VarDecl (var :: name :: equals :: ts ++ [semicolon])

inductive ExprStmt : List Token → Prop where
  | mk {ts : List Token} (semicolon : Token) (h : Expression .assignment ts)
      (hs : semicolon.kind = .symbol .semicolon) : ExprStmt (ts ++ [semicolon])

/-- The first clause of a `for`. -/
inductive ForInitial : List Token → Prop where
  | none (semicolon : Token) (hs : semicolon.kind = .symbol .semicolon) : ForInitial [semicolon]
  | var {ts : List Token} (h : VarDecl ts) : ForInitial ts
  | expression {ts : List Token} (h : ExprStmt ts) : ForInitial ts

inductive Phrase where
  | declaration | statement
  deriving DecidableEq, Repr

/-- A declaration or statement. -/
inductive Statement : Phrase → List Token → Prop where
  | function {inner : List Token} (params : List Token) (body : List (List Token))
      (fn name opening closing left right : Token) (hk : fn.kind = .keyword .funKw)
      (hn : name.kind = .identifier) (ho : opening.kind = .symbol .leftParen)
      (hp : ∀ p ∈ params, p.kind = .identifier) (hs : Separated (params.map ([·])) inner)
      (hc : closing.kind = .symbol .rightParen) (hl : left.kind = .symbol .leftBrace)
      (hb : ∀ d ∈ body, Statement .declaration d) (hr : right.kind = .symbol .rightBrace) :
      Statement .declaration
        (fn :: name :: opening :: inner ++ closing :: left :: body.flatten ++ [right])
  | var {ts : List Token} (h : VarDecl ts) : Statement .declaration ts
  | statement {ts : List Token} (h : Statement .statement ts) : Statement .declaration ts
  | expression {ts : List Token} (h : ExprStmt ts) : Statement .statement ts
  | print {ts : List Token} (keyword semicolon : Token) (hk : keyword.kind = .keyword .printKw)
      (h : Expression .assignment ts) (hs : semicolon.kind = .symbol .semicolon) :
      Statement .statement (keyword :: ts ++ [semicolon])
  | block (body : List (List Token)) (left right : Token) (hl : left.kind = .symbol .leftBrace)
      (hb : ∀ d ∈ body, Statement .declaration d) (hr : right.kind = .symbol .rightBrace) :
      Statement .statement (left :: body.flatten ++ [right])
  | exit {ts : List Token} (keyword semicolon : Token) (hk : keyword.kind = .keyword .returnKw)
      (h : Optional ts) (hs : semicolon.kind = .symbol .semicolon) :
      Statement .statement (keyword :: ts ++ [semicolon])
  | loop {cs ts : List Token} (keyword opening closing : Token)
      (hk : keyword.kind = .keyword .whileKw) (ho : opening.kind = .symbol .leftParen)
      (h : Expression .assignment cs) (hc : closing.kind = .symbol .rightParen)
      (hb : Statement .statement ts) :
      Statement .statement (keyword :: opening :: cs ++ closing :: ts)
  | counted {is cs ns ts : List Token} (keyword opening semicolon closing : Token)
      (hk : keyword.kind = .keyword .forKw) (ho : opening.kind = .symbol .leftParen)
      (hi : ForInitial is) (h : Optional cs) (hs : semicolon.kind = .symbol .semicolon)
      (hn : Optional ns) (hc : closing.kind = .symbol .rightParen)
      (hb : Statement .statement ts) :
      Statement .statement (keyword :: opening :: is ++ cs ++ semicolon :: ns ++ closing :: ts)
  | ifThen {cs ts : List Token} (keyword opening closing : Token)
      (hk : keyword.kind = .keyword .ifKw) (ho : opening.kind = .symbol .leftParen)
      (h : Expression .assignment cs) (hc : closing.kind = .symbol .rightParen)
      (ht : Statement .statement ts) :
      Statement .statement (keyword :: opening :: cs ++ closing :: ts)
  | ifElse {cs ts es : List Token} (keyword opening closing otherwise : Token)
      (hk : keyword.kind = .keyword .ifKw) (ho : opening.kind = .symbol .leftParen)
      (h : Expression .assignment cs) (hc : closing.kind = .symbol .rightParen)
      (ht : Statement .statement ts) (he : otherwise.kind = .keyword .elseKw)
      (hf : Statement .statement es) :
      Statement .statement (keyword :: opening :: cs ++ closing :: ts ++ otherwise :: es)

/-! ## Languages -/

def expressions (rank : Rank) : Language Token :=
  {ts | Expression rank ts}

def statements (phrase : Phrase) : Language Token :=
  {ts | Statement phrase ts}

/-- The sentences: declarations one after the other. -/
def program : Language Token :=
  (statements .declaration)∗

/-- The tokens that pass a test. -/
def token (p : Token → Bool) : Language Token :=
  {ts | ∃ t, p t = true ∧ ts = [t]}

def symbol (s : Symbol) : Language Token :=
  token (·.isSymbol s)

def keyword (k : Keyword) : Language Token :=
  token (·.isKeyword k)

/-- Items with commas between them. -/
def list (item : Language Token) : Language Token :=
  item * (symbol .comma * item)∗

section Membership

variable {p : Token → Bool} {L K : Language Token} {t : Token} {ts us w : List Token}

theorem token_mem (h : p t = true) : [t] ∈ token p :=
  ⟨t, h, rfl⟩

theorem cons_mem (h : p t = true) (hts : ts ∈ L) : t :: ts ∈ token p * L :=
  Language.mem_mul.2 ⟨[t], token_mem h, ts, hts, rfl⟩

theorem append_mem (hts : ts ∈ L) (hus : us ∈ K) : ts ++ us ∈ L * K :=
  Language.mem_mul.2 ⟨ts, hts, us, hus, rfl⟩

theorem mem_mul : w ∈ L * K ↔ ∃ ts us, ts ∈ L ∧ us ∈ K ∧ w = ts ++ us := by
  constructor
  · rintro ⟨ts, hts, us, hus, rfl⟩
    exact ⟨ts, us, hts, hus, rfl⟩
  · rintro ⟨ts, us, hts, hus, rfl⟩
    exact append_mem hts hus

theorem mem_token_mul : w ∈ token p * L ↔ ∃ t v, p t = true ∧ v ∈ L ∧ w = t :: v := by
  constructor
  · rintro ⟨_, ⟨t, ht, rfl⟩, v, hv, rfl⟩
    exact ⟨t, v, ht, hv, rfl⟩
  · rintro ⟨t, v, ht, hv, rfl⟩
    exact cons_mem ht hv

theorem head_token_mul (h : t :: ts ∈ token p * L * K) : p t = true := by
  rw [mul_assoc] at h
  obtain ⟨_, _, ht, -, heq⟩ := mem_token_mul.1 h
  cases heq
  exact ht

theorem isSymbol_iff {s : Symbol} : t.isSymbol s = true ↔ t.kind = .symbol s := by
  simp [Token.isSymbol]

theorem isKeyword_iff {k : Keyword} : t.isKeyword k = true ↔ t.kind = .keyword k := by
  simp [Token.isKeyword]

theorem mul_mem_of_nil (hts : ts ∈ L) (hnil : [] ∈ K) : ts ∈ L * K := by
  rw [← List.append_nil ts]
  exact append_mem hts hnil

theorem mul_kstar_append (hts : ts ∈ L * K∗) (hus : us ∈ K) : ts ++ us ∈ L * K∗ := by
  have h : ts ++ us ∈ L * (K∗ * K) := mul_assoc L K∗ K ▸ append_mem hts hus
  exact mul_le_mul_right kstar_mul_le_kstar L h

theorem isIdentifier_iff : t.isIdentifier = true ↔ t.kind = .identifier := by
  simp [Token.isIdentifier]

/-- Pieces that start with a token are a first one and the others, or none. -/
theorem kstar_token_mul (p : Token → Bool) (L : Language Token) :
    (token p * L)∗ = token p * (L * (token p * L)∗) + 1 := by
  rw [← mul_assoc, add_comm, one_add_mul_kstar]

theorem kstar_symbol_mul (s : Symbol) (L : Language Token) :
    (symbol s * L)∗ = symbol s * (L * (symbol s * L)∗) + 1 :=
  kstar_token_mul _ L

/-- A list is an item, or one before a comma and a list. -/
theorem list_eq (item : Language Token) :
    list item = item * (symbol .comma * list item + 1) := by
  rw [list, ← kstar_symbol_mul]

/-- Phrases that are separated are items with commas between them. -/
theorem mem_list_iff {item : Language Token} : w ∈ list item ↔
    ∃ first others, (∀ ts ∈ first :: others, ts ∈ item) ∧ Separated (first :: others) w := by
  constructor
  · intro h
    obtain ⟨ts, _, hts, hus, rfl⟩ := mem_mul.1 h
    obtain ⟨rest, rfl, hrest⟩ := Language.mem_kstar.1 hus
    clear h hus
    induction rest generalizing ts with
    | nil =>
      refine ⟨ts, [], List.forall_mem_singleton.2 hts, ?_⟩
      rw [List.flatten_nil, List.append_nil]
      exact .one ts
    | cons y rest ih =>
      obtain ⟨hy, hothers⟩ := List.forall_mem_cons.1 hrest
      obtain ⟨comma, v, hc, hv, rfl⟩ := mem_token_mul.1 hy
      obtain ⟨first, others, hmem, hsep⟩ := ih v hv hothers
      exact ⟨ts, first :: others, List.forall_mem_cons.2 ⟨hts, hmem⟩,
        .more ts comma (isSymbol_iff.1 hc) hsep⟩
  · rintro ⟨first, others, hmem, hsep⟩
    generalize hphrases : first :: others = phrases at hmem hsep
    induction hsep generalizing first others with
    | none => cases hphrases
    | one ts => exact mul_mem_of_nil (hmem ts List.mem_cons_self) (Language.nil_mem_kstar _)
    | more ts comma hc _ ih =>
      obtain ⟨hts, hmem⟩ := List.forall_mem_cons.1 hmem
      rw [list_eq]
      exact append_mem hts (.inl (cons_mem (isSymbol_iff.2 hc) (ih _ _ rfl hmem)))

/-- A list that may be empty. -/
theorem mem_list_add_one {item : Language Token} :
    w ∈ list item + 1 ↔ ∃ phrases, (∀ ts ∈ phrases, ts ∈ item) ∧ Separated phrases w := by
  constructor
  · rintro (h | rfl)
    · obtain ⟨first, others, h⟩ := mem_list_iff.1 h
      exact ⟨_, h⟩
    · exact ⟨[], List.forall_mem_nil _, .none⟩
  · rintro ⟨_ | ⟨first, others⟩, hmem, hsep⟩
    · cases hsep
      exact .inr rfl
    · exact .inl (mem_list_iff.2 ⟨first, others, hmem, hsep⟩)

end Membership

/-! ## Expressions -/

section Expressions

theorem Expression.first {rank : Rank} {ts : List Token} (h : Expression rank ts) :
    ∃ t us, ts = t :: us ∧ StartsExpression t.kind := by
  induction h with
  | assign _ _ _ _ ih _ | operator _ _ _ _ ih _ | call _ _ _ _ _ _ _ _ ih _ =>
    obtain ⟨t, us, rfl, ht⟩ := ih
    exact ⟨t, _, rfl, ht⟩
  | operand _ _ ih => exact ih
  | unary op ho =>
    refine ⟨_, _, rfl, ?_⟩
    rcases ho with ho | ho <;> rw [ho]
    · exact .bang
    · exact .minus
  | literal t h => exact ⟨_, _, rfl, .literal h⟩
  | name t h => exact ⟨_, _, rfl, h ▸ .name⟩
  | grouping opening closing ho => exact ⟨_, _, rfl, ho ▸ .opening⟩

theorem expressions_assignment : expressions .assignment = expressions .or *
    (symbol .equal * expressions .assignment + 1) := by
  ext w
  constructor
  · rintro (⟨equals, ht, he, hv⟩ | ⟨hr, h⟩ | ⟨op, ho, hl, hr⟩)
    · exact append_mem ht (.inl (cons_mem (isSymbol_iff.2 he) hv))
    · exact mul_mem_of_nil h (.inr rfl)
    · cases ho
  · intro h
    obtain ⟨target, rest, ht, hrest | rfl, rfl⟩ := mem_mul.1 h
    · obtain ⟨equals, value, he, hv, rfl⟩ := mem_token_mul.1 hrest
      exact .assign equals ht (isSymbol_iff.1 he) hv
    · rw [List.append_nil]
      exact .operand (by decide) ht

/-- The operators of a rank. -/
def operators (rank : Rank) : Language Token :=
  token (fun t => t.kind ∈ rank.operators)

/-- The ranks of left-associative operators. -/
def Associative (rank : Rank) : Prop :=
  rank ∈ [Rank.or, .and, .equality, .comparison, .term, .factor]

theorem expressions_associative {rank : Rank} (hr : Associative rank) :
    expressions rank = expressions rank.tighter * (operators rank * expressions rank.tighter)∗ := by
  refine le_antisymm ?_ (mul_kstar_le ?_ ?_)
  · intro w h
    have hchain : ∀ {rank : Rank} {w : List Token}, Expression rank w → Associative rank →
        w ∈ expressions rank.tighter * (operators rank * expressions rank.tighter)∗ := by
      intro rank w h
      induction h with
      | assign | unary | call | literal | name | grouping =>
        exact fun hr => by simp [Associative] at hr
      | operand hne h => exact fun _ => mul_mem_of_nil h (Language.nil_mem_kstar _)
      | operator op ho hl hr ih _ =>
        exact fun h => mul_kstar_append (ih h) (cons_mem (decide_eq_true ho) hr)
    exact hchain h hr
  · intro w h
    exact Expression.operand (by rintro rfl; simp [Associative] at hr) h
  · intro w h
    obtain ⟨left, rest, hl, hrest, rfl⟩ := mem_mul.1 h
    obtain ⟨op, right, ho, hr, rfl⟩ := mem_token_mul.1 hrest
    exact .operator op (of_decide_eq_true ho) hl hr

theorem expressions_unary : expressions .unary =
    token (fun t => t.isSymbol .bang || t.isSymbol .minus) * expressions .unary +
      expressions .call := by
  ext w
  constructor
  · rintro (_ | ⟨hr, h⟩ | ⟨op, ho, hl, hr⟩ | ⟨op, ho, h⟩)
    · exact .inr h
    · cases ho
    · exact .inl (cons_mem (by simpa [isSymbol_iff] using ho) h)
  · rintro (h | h)
    · obtain ⟨op, ts, ho, hts, rfl⟩ := mem_token_mul.1 h
      exact .unary op (by simpa [isSymbol_iff] using ho) hts
    · exact .operand (by decide) h

/-- The arguments of a call, behind the opening parenthesis. -/
def arguments : Language Token :=
  (list (expressions .assignment) + 1) * symbol .rightParen

theorem expressions_call : expressions .call =
    expressions .primary * (symbol .leftParen * arguments)∗ := by
  refine le_antisymm ?_ (mul_kstar_le ?_ ?_)
  · intro w h
    have hchain : ∀ {rank : Rank} {w : List Token}, Expression rank w → rank = .call →
        w ∈ expressions .primary * (symbol .leftParen * arguments)∗ := by
      intro rank w h
      induction h with
      | assign | unary | literal | name | grouping => exact nofun
      | operand hne h =>
        rintro rfl
        exact mul_mem_of_nil h (Language.nil_mem_kstar _)
      | operator op ho =>
        rintro rfl
        cases ho
      | @call callee inner items opening closing _ ho ha hs hc ih _ =>
        intro _
        rw [List.append_assoc]
        refine mul_kstar_append (ih rfl) (cons_mem (isSymbol_iff.2 ho) ?_)
        exact append_mem (mem_list_add_one.2 ⟨items, ha, hs⟩) (token_mem (isSymbol_iff.2 hc))
    exact hchain h rfl
  · exact fun w h => Expression.operand (by decide) h
  · intro w h
    obtain ⟨callee, _, hf, hrest, rfl⟩ := mem_mul.1 h
    obtain ⟨opening, _, ho, hlist, rfl⟩ := mem_token_mul.1 hrest
    obtain ⟨inner, _, hi, ⟨closing, hc, rfl⟩, rfl⟩ := mem_mul.1 hlist
    obtain ⟨items, ha, hs⟩ := mem_list_add_one.1 hi
    have hcall := Expression.call items opening closing hf (isSymbol_iff.1 ho) ha hs
      (isSymbol_iff.1 hc)
    rw [List.append_assoc] at hcall
    exact hcall

theorem expressions_primary :
    expressions .primary = token (fun t => (Grammar.literal? t).isSome) +
      (token (·.isIdentifier) +
        symbol .leftParen * (expressions .assignment * symbol .rightParen)) := by
  ext w
  constructor
  · rintro (_ | ⟨hr, h⟩ | ⟨op, ho, hl, hr⟩ | _ | _ | ⟨t, h⟩ | ⟨t, h⟩ |
      ⟨opening, closing, ho, h, hc⟩)
    · exact absurd rfl hr
    · cases ho
    · exact .inl (token_mem (by rw [Grammar.literal?_of_denotes h]; rfl))
    · exact .inr (.inl (token_mem (isIdentifier_iff.2 h)))
    · refine .inr (.inr (cons_mem (isSymbol_iff.2 ho) (append_mem h ?_)))
      exact token_mem (isSymbol_iff.2 hc)
  · rintro (⟨t, h, rfl⟩ | ⟨t, h, rfl⟩ | h)
    · obtain ⟨value, hvalue⟩ := Option.isSome_iff_exists.1 h
      exact .literal t (Grammar.denotes_of_literal? hvalue)
    · exact .name t (isIdentifier_iff.1 h)
    · obtain ⟨opening, _, ho, hrest, rfl⟩ := mem_token_mul.1 h
      obtain ⟨inner, _, hi, ⟨closing, hc, rfl⟩, rfl⟩ := mem_mul.1 hrest
      exact .grouping opening closing (isSymbol_iff.1 ho) hi (isSymbol_iff.1 hc)

end Expressions

/-! ## Statements -/

section Statements

theorem VarDecl.first {ts : List Token} (h : VarDecl ts) :
    ∃ t us, ts = t :: us ∧ t.kind = .keyword .varKw := by
  cases h with
  | plain var name semicolon hv => exact ⟨_, _, rfl, hv⟩
  | initialized var name equals semicolon hv => exact ⟨_, _, rfl, hv⟩

/-- The kinds of token that a phrase starts with. -/
def Phrase.Starts : Phrase → Token.Kind → Prop
  | .declaration => Sentence.Phrase.declaration.Starts
  | .statement => StartsStatement

theorem Phrase.Starts.ne {phrase : Phrase} {kind : Token.Kind} (h : phrase.Starts kind) :
    kind ≠ .keyword .elseKw ∧ kind ≠ .symbol .rightBrace := by
  have hstarts : Sentence.Phrase.declaration.Starts kind := by
    cases phrase with
    | declaration => exact h
    | statement => exact .inl h
  exact hstarts.ne

theorem Statement.first {phrase : Phrase} {ts : List Token} (h : Statement phrase ts) :
    ∃ t us, ts = t :: us ∧ phrase.Starts t.kind := by
  induction h with
  | function _ _ _ _ _ _ _ _ hk => exact ⟨_, _, rfl, .inr (.inl hk)⟩
  | var h =>
    obtain ⟨t, us, rfl, ht⟩ := h.first
    exact ⟨t, us, rfl, .inr (.inr ht)⟩
  | statement _ ih =>
    obtain ⟨t, us, rfl, ht⟩ := ih
    exact ⟨t, us, rfl, .inl ht⟩
  | expression h =>
    obtain ⟨semicolon, h, -⟩ := h
    obtain ⟨t, us, rfl, ht⟩ := h.first
    exact ⟨t, _, rfl, StartsStatement.expression ht⟩
  | print keyword _ hk => exact ⟨_, _, rfl, show StartsStatement _ from hk ▸ .print⟩
  | block _ _ _ hl => exact ⟨_, _, rfl, show StartsStatement _ from hl ▸ .block⟩
  | exit keyword _ hk => exact ⟨_, _, rfl, show StartsStatement _ from hk ▸ .exit⟩
  | loop keyword _ _ hk => exact ⟨_, _, rfl, show StartsStatement _ from hk ▸ .loop⟩
  | counted keyword _ _ _ hk => exact ⟨_, _, rfl, show StartsStatement _ from hk ▸ .counted⟩
  | ifThen keyword _ _ hk => exact ⟨_, _, rfl, show StartsStatement _ from hk ▸ .branch⟩
  | ifElse keyword _ _ _ hk => exact ⟨_, _, rfl, show StartsStatement _ from hk ▸ .branch⟩

/-- An expression that may be left out. -/
def optional : Language Token :=
  expressions .assignment + 1

/-- A variable after its keyword. -/
def variableRest : Language Token :=
  token (·.isIdentifier) *
    (symbol .equal * (expressions .assignment * symbol .semicolon) + symbol .semicolon)

/-- Declarations up to a closing brace. -/
def blockRest : Language Token :=
  (statements .declaration)∗ * symbol .rightBrace

/-- A function after its keyword. -/
def functionRest : Language Token :=
  token (·.isIdentifier) * (symbol .leftParen * ((list (token (·.isIdentifier)) + 1) *
    (symbol .rightParen * (symbol .leftBrace * blockRest))))

/-- An `if` after its keyword. -/
def ifRest : Language Token :=
  symbol .leftParen * (expressions .assignment * (symbol .rightParen * (statements .statement *
    (keyword .elseKw * statements .statement + 1))))

/-- A `while` after its keyword. -/
def whileRest : Language Token :=
  symbol .leftParen * (expressions .assignment * (symbol .rightParen * statements .statement))

theorem mem_variableRest {var : Token} (hv : var.kind = .keyword .varKw) {ts : List Token} :
    VarDecl (var :: ts) ↔ ts ∈ variableRest := by
  constructor
  · rintro (⟨_, name, semicolon, -, hn, hs⟩ | ⟨_, name, equals, semicolon, -, hn, he, h, hs⟩)
    · exact cons_mem (isIdentifier_iff.2 hn) (.inr (token_mem (isSymbol_iff.2 hs)))
    · exact cons_mem (isIdentifier_iff.2 hn) (.inl (cons_mem (isSymbol_iff.2 he)
        (append_mem h (token_mem (isSymbol_iff.2 hs)))))
  · intro h
    obtain ⟨name, _, hn, hrest, rfl⟩ := mem_token_mul.1 h
    have hname : name.kind = .identifier := isIdentifier_iff.1 hn
    rcases hrest with hrest | ⟨semicolon, hs, rfl⟩
    · obtain ⟨equals, _, he, hvalue, rfl⟩ := mem_token_mul.1 hrest
      obtain ⟨value, _, hexp, ⟨semicolon, hs, rfl⟩, rfl⟩ := mem_mul.1 hvalue
      exact .initialized var name equals semicolon hv hname (isSymbol_iff.1 he) hexp
        (isSymbol_iff.1 hs)
    · exact .plain var name semicolon hv hname (isSymbol_iff.1 hs)

theorem mem_optional {ts : List Token} : Optional ts ↔ ts ∈ optional := by
  constructor
  · rintro (_ | h)
    · exact .inr rfl
    · exact .inl h
  · rintro (h | rfl)
    · exact .some h
    · exact .none

theorem mem_exprStmt {ts : List Token} :
    ExprStmt ts ↔ ts ∈ expressions .assignment * symbol .semicolon := by
  constructor
  · rintro ⟨semicolon, h, hs⟩
    exact append_mem h (token_mem (isSymbol_iff.2 hs))
  · intro h
    obtain ⟨value, _, hexp, ⟨semicolon, hs, rfl⟩, rfl⟩ := mem_mul.1 h
    exact .mk semicolon hexp (isSymbol_iff.1 hs)

/-- The first clause of a `for`. -/
def initial : Language Token :=
  symbol .semicolon + (keyword .varKw * variableRest + expressions .assignment * symbol .semicolon)

theorem mem_initial {ts : List Token} : ForInitial ts ↔ ts ∈ initial := by
  constructor
  · rintro (⟨semicolon, hs⟩ | h | h)
    · exact .inl (token_mem (isSymbol_iff.2 hs))
    · obtain ⟨var, rest, rfl, hv⟩ := h.first
      exact .inr (.inl (cons_mem (isKeyword_iff.2 hv) ((mem_variableRest hv).1 h)))
    · exact .inr (.inr (mem_exprStmt.1 h))
  · rintro (⟨semicolon, hs, rfl⟩ | h | h)
    · exact .none semicolon (isSymbol_iff.1 hs)
    · obtain ⟨var, rest, hv, hrest, rfl⟩ := mem_token_mul.1 h
      exact .var ((mem_variableRest (isKeyword_iff.1 hv)).2 hrest)
    · exact .expression (mem_exprStmt.2 h)

/-- A `for` after its keyword. -/
def forRest : Language Token :=
  symbol .leftParen * (initial * (optional * (symbol .semicolon * (optional *
    (symbol .rightParen * statements .statement)))))

theorem mem_forRest {keyword : Token} (hk : keyword.kind = .keyword .forKw) {w : List Token}
    (h : w ∈ forRest) : Statement .statement (keyword :: w) := by
  obtain ⟨opening, _, ho, h₁, rfl⟩ := mem_token_mul.1 h
  obtain ⟨is, _, hi, h₂, rfl⟩ := mem_mul.1 h₁
  obtain ⟨cs, _, hcs, h₃, rfl⟩ := mem_mul.1 h₂
  obtain ⟨semicolon, _, hs, h₄, rfl⟩ := mem_token_mul.1 h₃
  obtain ⟨ns, _, hn, h₅, rfl⟩ := mem_mul.1 h₄
  obtain ⟨closing, ts, hc, hts, rfl⟩ := mem_token_mul.1 h₅
  have hfor := Statement.counted keyword opening semicolon closing hk (isSymbol_iff.1 ho)
    (mem_initial.2 hi) (mem_optional.2 hcs) (isSymbol_iff.1 hs) (mem_optional.2 hn)
    (isSymbol_iff.1 hc) hts
  simpa using hfor

theorem mem_ifRest {keyword : Token} (hk : keyword.kind = .keyword .ifKw) {w : List Token}
    (h : w ∈ ifRest) : Statement .statement (keyword :: w) := by
  obtain ⟨opening, _, ho, h₁, rfl⟩ := mem_token_mul.1 h
  obtain ⟨cs, _, hcs, h₂, rfl⟩ := mem_mul.1 h₁
  obtain ⟨closing, _, hc, h₃, rfl⟩ := mem_token_mul.1 h₂
  obtain ⟨ts, _, hts, h₄ | rfl, rfl⟩ := mem_mul.1 h₃
  · obtain ⟨otherwise, es, he, hes, rfl⟩ := mem_token_mul.1 h₄
    have hif := Statement.ifElse keyword opening closing otherwise hk (isSymbol_iff.1 ho) hcs
      (isSymbol_iff.1 hc) hts (isKeyword_iff.1 he) hes
    simpa using hif
  · rw [List.append_nil]
    exact .ifThen keyword opening closing hk (isSymbol_iff.1 ho) hcs (isSymbol_iff.1 hc) hts

theorem mem_whileRest {keyword : Token} (hk : keyword.kind = .keyword .whileKw) {w : List Token}
    (h : w ∈ whileRest) : Statement .statement (keyword :: w) := by
  obtain ⟨opening, _, ho, h₁, rfl⟩ := mem_token_mul.1 h
  obtain ⟨cs, _, hcs, h₂, rfl⟩ := mem_mul.1 h₁
  obtain ⟨closing, ts, hc, hts, rfl⟩ := mem_token_mul.1 h₂
  exact .loop keyword opening closing hk (isSymbol_iff.1 ho) hcs (isSymbol_iff.1 hc) hts

/-- A statement is told by its first token. -/
theorem statements_statement : statements .statement =
    keyword .forKw * forRest + (keyword .printKw * (expressions .assignment * symbol .semicolon) +
      (symbol .leftBrace * blockRest + (keyword .ifKw * ifRest + (keyword .whileKw * whileRest +
        (keyword .returnKw * (optional * symbol .semicolon) +
          expressions .assignment * symbol .semicolon))))) := by
  ext w
  constructor
  · rintro (_ | _ | _ | h | ⟨_, semicolon, hk, h, hs⟩ | ⟨body, left, right, hl, hb, hr⟩ |
      ⟨_, semicolon, hk, h, hs⟩ | ⟨_, opening, closing, hk, ho, h, hc, hb⟩ |
      ⟨_, opening, semicolon, closing, hk, ho, hi, h, hs, hn, hc, hb⟩ |
      ⟨_, opening, closing, hk, ho, h, hc, ht⟩ |
      ⟨_, opening, closing, otherwise, hk, ho, h, hc, ht, he, hf⟩)
    · exact .inr <| .inr <| .inr <| .inr <| .inr <| .inr (mem_exprStmt.1 h)
    · exact .inr <| .inl <| cons_mem (isKeyword_iff.2 hk)
        (append_mem h (token_mem (isSymbol_iff.2 hs)))
    · exact .inr <| .inr <| .inl <| cons_mem (isSymbol_iff.2 hl)
        (append_mem (Language.join_mem_kstar hb) (token_mem (isSymbol_iff.2 hr)))
    · exact .inr <| .inr <| .inr <| .inr <| .inr <| .inl <| cons_mem (isKeyword_iff.2 hk)
        (append_mem (mem_optional.1 h) (token_mem (isSymbol_iff.2 hs)))
    · exact .inr <| .inr <| .inr <| .inr <| .inl <| cons_mem (isKeyword_iff.2 hk) <|
        cons_mem (isSymbol_iff.2 ho) <| append_mem h <| cons_mem (isSymbol_iff.2 hc) hb
    · refine .inl ?_
      simp only [List.append_assoc]
      exact cons_mem (isKeyword_iff.2 hk) <| cons_mem (isSymbol_iff.2 ho) <|
        append_mem (mem_initial.1 hi) <| append_mem (mem_optional.1 h) <|
          cons_mem (isSymbol_iff.2 hs) <| append_mem (mem_optional.1 hn) <|
            cons_mem (isSymbol_iff.2 hc) hb
    · refine .inr <| .inr <| .inr <| .inl <| cons_mem (isKeyword_iff.2 hk) <|
        cons_mem (isSymbol_iff.2 ho) <| append_mem h <| cons_mem (isSymbol_iff.2 hc) ?_
      exact mul_mem_of_nil ht (.inr rfl)
    · refine .inr <| .inr <| .inr <| .inl ?_
      simp only [List.append_assoc]
      exact cons_mem (isKeyword_iff.2 hk) <| cons_mem (isSymbol_iff.2 ho) <| append_mem h <|
        cons_mem (isSymbol_iff.2 hc) <| append_mem ht (.inl (cons_mem (isKeyword_iff.2 he) hf))
  · rintro (h | h | h | h | h | h | h)
    · obtain ⟨keyword, rest, hk, hrest, rfl⟩ := mem_token_mul.1 h
      exact mem_forRest (isKeyword_iff.1 hk) hrest
    · obtain ⟨keyword, _, hk, hrest, rfl⟩ := mem_token_mul.1 h
      obtain ⟨value, _, hexp, ⟨semicolon, hs, rfl⟩, rfl⟩ := mem_mul.1 hrest
      exact .print keyword semicolon (isKeyword_iff.1 hk) hexp (isSymbol_iff.1 hs)
    · obtain ⟨left, _, hl, hrest, rfl⟩ := mem_token_mul.1 h
      obtain ⟨_, _, hbody, ⟨right, hr, rfl⟩, rfl⟩ := mem_mul.1 hrest
      obtain ⟨body, rfl, hb⟩ := Language.mem_kstar.1 hbody
      exact .block body left right (isSymbol_iff.1 hl) hb (isSymbol_iff.1 hr)
    · obtain ⟨keyword, rest, hk, hrest, rfl⟩ := mem_token_mul.1 h
      exact mem_ifRest (isKeyword_iff.1 hk) hrest
    · obtain ⟨keyword, rest, hk, hrest, rfl⟩ := mem_token_mul.1 h
      exact mem_whileRest (isKeyword_iff.1 hk) hrest
    · obtain ⟨keyword, _, hk, hrest, rfl⟩ := mem_token_mul.1 h
      obtain ⟨value, _, hvalue, ⟨semicolon, hs, rfl⟩, rfl⟩ := mem_mul.1 hrest
      exact .exit keyword semicolon (isKeyword_iff.1 hk) (mem_optional.2 hvalue)
        (isSymbol_iff.1 hs)
    · exact .expression (mem_exprStmt.2 h)

theorem mem_params {w : List Token} : w ∈ list (token (·.isIdentifier)) + 1 ↔
    ∃ params : List Token, (∀ p ∈ params, p.kind = .identifier) ∧
      Separated (params.map ([·])) w := by
  rw [mem_list_add_one]
  constructor
  · rintro ⟨phrases, hmem, hsep⟩
    obtain ⟨params, hp, rfl⟩ : ∃ params : List Token, (∀ p ∈ params, p.kind = .identifier) ∧
        phrases = params.map ([·]) := by
      clear hsep
      induction phrases with
      | nil => exact ⟨[], List.forall_mem_nil _, rfl⟩
      | cons ts phrases ih =>
        obtain ⟨⟨p, hp, rfl⟩, hothers⟩ := List.forall_mem_cons.1 hmem
        obtain ⟨params, hparams, rfl⟩ := ih hothers
        exact ⟨p :: params, List.forall_mem_cons.2 ⟨isIdentifier_iff.1 hp, hparams⟩, rfl⟩
    exact ⟨params, hp, hsep⟩
  · rintro ⟨params, hp, hsep⟩
    refine ⟨_, ?_, hsep⟩
    rw [List.forall_mem_map]
    exact fun p h => token_mem (isIdentifier_iff.2 (hp p h))

theorem mem_functionRest {fn : Token} (hk : fn.kind = .keyword .funKw) {w : List Token}
    (h : w ∈ functionRest) : Statement .declaration (fn :: w) := by
  obtain ⟨name, _, hn, h₁, rfl⟩ := mem_token_mul.1 h
  obtain ⟨opening, _, ho, h₂, rfl⟩ := mem_token_mul.1 h₁
  obtain ⟨inner, _, hi, h₃, rfl⟩ := mem_mul.1 h₂
  obtain ⟨closing, _, hc, h₄, rfl⟩ := mem_token_mul.1 h₃
  obtain ⟨left, _, hl, h₅, rfl⟩ := mem_token_mul.1 h₄
  obtain ⟨_, _, hbody, ⟨right, hr, rfl⟩, rfl⟩ := mem_mul.1 h₅
  obtain ⟨body, rfl, hb⟩ := Language.mem_kstar.1 hbody
  obtain ⟨params, hp, hs⟩ := mem_params.1 hi
  have hfun := Statement.function params body fn name opening closing left right hk
    (isIdentifier_iff.1 hn) (isSymbol_iff.1 ho) hp hs (isSymbol_iff.1 hc) (isSymbol_iff.1 hl) hb
    (isSymbol_iff.1 hr)
  simpa using hfun

theorem statements_declaration : statements .declaration =
    keyword .funKw * functionRest + (keyword .varKw * variableRest + statements .statement) := by
  ext w
  constructor
  · rintro (⟨params, body, fn, name, opening, closing, left, right, hk, hn, ho, hp, hs, hc, hl, hb,
      hr⟩ | h | h)
    · refine .inl ?_
      simp only [List.append_assoc]
      exact cons_mem (isKeyword_iff.2 hk) <| cons_mem (isIdentifier_iff.2 hn) <|
        cons_mem (isSymbol_iff.2 ho) <| append_mem (mem_params.2 ⟨params, hp, hs⟩) <|
          cons_mem (isSymbol_iff.2 hc) <| cons_mem (isSymbol_iff.2 hl) <|
            append_mem (Language.join_mem_kstar hb) (token_mem (isSymbol_iff.2 hr))
    · obtain ⟨var, rest, rfl, hv⟩ := h.first
      exact .inr (.inl (cons_mem (isKeyword_iff.2 hv) ((mem_variableRest hv).1 h)))
    · exact .inr (.inr h)
  · rintro (h | h | h)
    · obtain ⟨fn, rest, hk, hrest, rfl⟩ := mem_token_mul.1 h
      exact mem_functionRest (isKeyword_iff.1 hk) hrest
    · obtain ⟨var, rest, hv, hrest, rfl⟩ := mem_token_mul.1 h
      exact .var ((mem_variableRest (isKeyword_iff.1 hv)).2 hrest)
    · exact .statement h

end Statements

end Lox.Relaxed
