import Lox.Proofs.Grammar.ExpressionComplete
import Lox.Proofs.Grammar.StatementSound

/-!
# Sentences are read as statements

A sentence of at most `n` tokens is taken as a whole by `statement n` or `declaration n`, with the
tree of the grammar. After an open statement the row must not go on with `else`, which the `if` at
its end would take (`statement_declaration_complete`).
-/

namespace Lox.Grammar

open Sentence

/-- The row does not go on with `else`. -/
def NoElse (rest : List Token) : Prop :=
  ∀ t ∈ rest.head?, t.kind ≠ .keyword .elseKw

/-- No declaration starts with `else`. -/
theorem NoElse.behind {rest : List Token} (hrest : NoElse rest)
    {parts : List (List Token × Stmt)} (hparts : ∀ p ∈ parts, Statement .declaration p.1 p.2) :
    NoElse (parts.flatMap (·.1) ++ rest) := by
  rcases parts with _ | ⟨p, parts⟩
  · exact hrest
  · obtain ⟨u, us, hus, hu⟩ := (hparts p List.mem_cons_self).first
    intro t ht
    obtain rfl : u = t := by simpa [hus] using ht
    exact hu.ne.1

section Simple

variable {n : Nat} {rest ts : List Token}

theorem expression_accepts {e : Expr} (h : Expression .assignment ts e) (hlen : ts.length ≤ n)
    {t : Token}
    (ht : t.kind ∈ [Token.Kind.symbol .comma, .symbol .rightParen, .symbol .semicolon]) :
    Accepts (expression n) ts (t :: rest) (·.unnumbered = e) :=
  expression_complete n ts e _ h hlen (.closing ht)

theorem expressionStatement_accepts {s : Stmt} (h : ExprStmt ts s) (hlen : ts.length ≤ n) :
    Accepts (expressionStatement n) ts rest (·.unnumbered = s) := by
  obtain ⟨semicolon, h, hs⟩ := h
  simp only [List.length_append, List.length_singleton] at hlen
  refine .bind (expression_accepts h (by omega) (by simp [hs])) fun e he => .symbol hs (.pure ?_)
  rw [Stmt.unnumbered, he]

theorem printStatement_accepts {e : Expr} {semicolon : Token} (h : Expression .assignment ts e)
    (hs : semicolon.kind = .symbol .semicolon) (hlen : ts.length ≤ n) :
    Accepts (printStatement n) (ts ++ [semicolon]) rest (·.unnumbered = .print e) := by
  refine .bind (expression_accepts h hlen (by simp [hs])) fun e he => .symbol hs (.pure ?_)
  rw [Stmt.unnumbered, he]

theorem optional_accepts {stop : Symbol} {e : Option Expr} {t : Token} (h : Optional ts e)
    (hlen : ts.length ≤ n) (ht : t.kind = .symbol stop)
    (hstop : stop = .semicolon ∨ stop = .rightParen) :
    Accepts (optional n stop) ts (t :: rest) (·.map (·.unnumbered) = e) := by
  cases h with
  | none =>
    exact .test (b := true) (fun _ => rfl) (fun _ _ => by simp [Token.isSymbol, ht]) (.pure rfl)
  | some h =>
    obtain ⟨u, us, rfl, hu⟩ := h.first
    have hne : u.kind ≠ .symbol stop := by
      rcases hstop with rfl | rfl
      · exact hu.ne_closing.2
      · exact hu.ne_closing.1
    refine .test (b := false) (fun _ => rfl) (fun _ _ => by simp [Token.isSymbol, hne]) ?_
    refine .bind_last (expression_accepts h hlen ?_) fun e he => .pure (by rw [← he]; rfl)
    rcases hstop with rfl | rfl <;> simp [ht]

theorem returnStatement_accepts {value : Option Expr} {keyword semicolon : Token}
    (h : Optional ts value) (hs : semicolon.kind = .symbol .semicolon) (hlen : ts.length ≤ n) :
    Accepts (returnStatement n keyword) (ts ++ [semicolon]) rest
      (·.unnumbered = .exit keyword value) := by
  refine .bind (optional_accepts h hlen hs (.inl rfl)) fun e he => .symbol hs (.pure ?_)
  rw [Stmt.unnumbered, he]

theorem variableDeclaration_accepts {s : Stmt} {var : Token} (h : VarDecl (var :: ts) s)
    (hlen : ts.length ≤ n) : Accepts (variableDeclaration n) ts rest (·.unnumbered = s) := by
  unfold variableDeclaration
  dsimp only
  cases h with
  | plain var name semicolon hv hn hs =>
    refine .name hn (.leave ?_ (.bind_nothing (.pure (Q := (· = none)) rfl) ?_))
    · rintro t ⟨⟩
      simp [Token.isSymbol, hs]
    · rintro _ rfl
      exact .symbol hs (.pure rfl)
  | @initialized ts e var name equals semicolon hv hn he h hs =>
    simp only [List.append_eq, List.cons_append, List.length_cons, List.length_append] at hlen
    refine .name hn (.take (by simp [Token.isSymbol, he]) (.bind (.map (expression_accepts h
      (by omega) (by simp [hs])) (Q := (·.map (·.unnumbered) = some e)) fun e he => ?_)
      fun e? he => .symbol hs (.pure ?_)))
    · rw [← he]
      rfl
    · rw [Stmt.unnumbered, he]

theorem forInitial_accepts {initial : Option Stmt} (h : ForInitial ts initial)
    (hlen : ts.length ≤ n) :
    Accepts (forInitial n) ts rest (·.map (·.unnumbered) = initial) := by
  unfold forInitial
  cases h with
  | none semicolon hs => exact .take (by simp [Token.isSymbol, hs]) (.pure rfl)
  | var h =>
    obtain ⟨var, us, rfl, hv⟩ := h.first
    simp only [List.length_cons] at hlen
    refine .leave ?_ (.take (by simp [Token.isKeyword, hv])
      (.map (variableDeclaration_accepts h (by omega)) fun s hs => by rw [← hs]; rfl))
    rintro t ⟨⟩
    simp [Token.isSymbol, hv]
  | expression h =>
    obtain ⟨t, us, rfl, ht⟩ := h.first
    refine .leave ?_ (.leave ?_ (.map (expressionStatement_accepts h hlen)
      fun s hs => by rw [← hs]; rfl))
    · rintro t ⟨⟩
      simpa [Token.isSymbol] using ht.ne_closing.2
    · rintro t ⟨⟩
      simpa [Token.isKeyword] using ht.ne_keyword.2

end Simple

/-- A reader takes every statement that has at most `n` tokens. -/
def CompleteStatement (n : Nat) (r : Reader Stmt) : Prop :=
  ∀ isOpen ts s rest, Statement (.statement isOpen) ts s → ts.length ≤ n →
    (isOpen = true → NoElse rest) → Accepts r ts rest (·.unnumbered = s)

def CompleteDeclaration (n : Nat) (r : Reader (Option Stmt)) : Prop :=
  ∀ ts s rest, Statement .declaration ts s → ts.length ≤ n → NoElse rest →
    Accepts r ts rest fun s? => ∃ s', s? = some s' ∧ s'.unnumbered = s

section Block

variable {n : Nat} {declaration : Reader (Option Stmt)} (hd : CompleteDeclaration n declaration)

include hd

/-- Declarations are read until `stop` holds, which it does after the last of them only. -/
theorem declarations_accepts {stop : Reader Bool} {ended : Row → Bool} {rest : List Token}
    (hstop : ∀ row, stop row = .ok (ended row) row)
    (hgo : ∀ t ts id cs, Phrase.declaration.Starts t.kind → ended ⟨t :: ts, id, cs⟩ = false)
    (hover : ∀ id cs, ended ⟨rest, id, cs⟩ = true) (hrest : NoElse rest) :
    ∀ k (parts : List (List Token × Stmt)), parts.length ≤ k →
      (∀ p ∈ parts, Statement .declaration p.1 p.2) → (parts.flatMap (·.1)).length ≤ n →
      Accepts (declarations declaration stop k) (parts.flatMap (·.1)) rest
        (Stmt.unnumberedAll · = parts.map (·.2))
  | 0, parts, hlen, _, _ => by
    obtain rfl : parts = [] := List.length_eq_zero_iff.1 (by omega)
    exact .pure rfl
  | k + 1, [], _, _, _ => .test hstop hover (.pure rfl)
  | k + 1, p :: parts, hlen, hparts, htoks => by
    obtain ⟨hp, hparts⟩ := List.forall_mem_cons.1 hparts
    obtain ⟨t, us, hts, ht⟩ := hp.first
    simp only [List.flatMap_cons, List.length_append] at htoks
    simp only [List.length_cons] at hlen
    refine .test (b := false) hstop (fun id cs => by simp [hts, hgo t _ id cs ht]) ?_
    refine .bind (hd p.1 p.2 _ hp (by omega) (hrest.behind hparts)) ?_
    rintro _ ⟨s, rfl, hs⟩
    refine .bind_last (declarations_accepts hstop hgo hover hrest k parts (by omega) hparts
      (by omega)) fun others h => .pure ?_
    simp [Stmt.unnumberedAll, hs, h]

theorem block_accepts {parts : List (List Token × Stmt)} {right : Token} {rest : List Token}
    (hparts : ∀ p ∈ parts, Statement .declaration p.1 p.2)
    (hr : right.kind = .symbol .rightBrace) {k : Nat} (hk : n ≤ k)
    (hlen : (parts.flatMap (·.1)).length ≤ n) :
    Accepts (block k declaration) (parts.flatMap (·.1) ++ [right]) rest
      (Stmt.unnumberedAll · = parts.map (·.2)) := by
  have hcount := length_le_flatMap hparts
  refine .bind (declarations_accepts hd (fun _ => rfl) ?_ ?_ ?_ k parts (by omega) hparts hlen)
    fun body hbody => .symbol hr (.pure hbody)
  · intro t ts id cs ht
    simpa [Token.isSymbol] using ht.ne.2
  · intro id cs
    simp [Token.isSymbol, hr]
  · rintro t ⟨⟩
    simp [hr]

theorem function_accepts {params : List Token} {parts : List (List Token × Stmt)}
    {inner rest : List Token} {name opening closing left right : Token}
    (hn : name.kind = .identifier) (ho : opening.kind = .symbol .leftParen)
    (hp : ∀ p ∈ params, p.kind = .identifier) (hs : Separated (params.map ([·])) inner)
    (hmax : params.length ≤ 255) (hc : closing.kind = .symbol .rightParen)
    (hl : left.kind = .symbol .leftBrace)
    (hparts : ∀ p ∈ parts, Statement .declaration p.1 p.2) (hr : right.kind = .symbol .rightBrace)
    {k : Nat} (hk : n ≤ k) (hinner : inner.length ≤ n)
    (hlen : (parts.flatMap (·.1)).length ≤ n) :
    Accepts (function k declaration)
      (name :: opening :: (inner ++ closing :: left :: (parts.flatMap (·.1) ++ [right]))) rest
      (·.unnumbered = .function name params (parts.map (·.2))) := by
  have hparams : Accepts (listToParen k .tooManyParameters (Reader.name .parameter)) inner
      (closing :: left :: (parts.flatMap (·.1) ++ [right]) ++ rest)
      (·.map id = (params.map fun p => ([p], p)).map (·.2)) := by
    refine listToParen_accepts .tooManyParameters hc (by simpa [Function.comp_def] using hs) ?_
      (by simpa using hmax) ?_ ?_
    · have := hs.card_le
      simp only [List.length_map] at this ⊢
      omega
    · intro p h
      obtain ⟨q, hq, rfl⟩ := List.mem_map.1 h
      exact ⟨q, [], rfl, by simp [hp q hq]⟩
    · intro p h t rest _
      obtain ⟨q, hq, rfl⟩ := List.mem_map.1 h
      have hname : q.isIdentifier = true := by simp [Token.isIdentifier, hp q hq]
      exact fun id cs => ⟨q, id, by simp [Reader.name, Reader.expect, hname], rfl⟩
  refine .name hn (.symbol ho (.bind hparams fun ps hps => .symbol hc (.symbol hl
    (.bind_last (block_accepts hd hparts hr hk hlen) fun body hbody => .pure ?_))))
  have hps : ps = params := by simpa [Function.comp_def] using hps
  rw [Stmt.unnumbered, hps, hbody]

end Block

section Rules

variable {n : Nat} {statement : Reader Stmt} {declaration : Reader (Option Stmt)}

theorem statementRule_of_expression {k : Nat} {t : Token} {us rest : List Token}
    {Q : Stmt → Prop} (ht : StartsExpression t.kind)
    (h : Accepts (expressionStatement k) (t :: us) rest Q) :
    Accepts (statementRule k statement declaration) (t :: us) rest Q := by
  refine .peek ?_
  generalize hk : t.kind = kind at ht
  cases ht with
  | literal hd => cases hd <;> simpa only [hk] using h
  | _ => simpa only [hk] using h

variable (hs : CompleteStatement n statement) (hd : CompleteDeclaration n declaration)

include hs hd

theorem statementRule_complete :
    CompleteStatement (n + 1) (statementRule (n + 1) statement declaration) := by
  intro isOpen ts s rest h hlen helse
  cases h with
  | expression h =>
    obtain ⟨t, us, rfl, ht⟩ := h.first
    exact statementRule_of_expression ht (expressionStatement_accepts h hlen)
  | print keyword semicolon hk h hs =>
    simp only [List.length_append, List.length_cons] at hlen
    refine .peek ?_
    simp only [hk]
    exact .skip (printStatement_accepts h hs (by omega))
  | block body left right hl hb hr =>
    simp only [List.length_append, List.length_cons] at hlen
    refine .peek ?_
    simp only [hl]
    refine .skip (.map (block_accepts hd hb hr (by omega) (by omega)) fun body h => ?_)
    rw [Stmt.unnumbered, h]
  | exit keyword semicolon hk h hs =>
    simp only [List.length_append, List.length_cons] at hlen
    refine .peek ?_
    simp only [hk]
    exact .skip (returnStatement_accepts h hs (by omega))
  | loop keyword opening closing hk ho h hc hb =>
    simp only [List.length_append, List.length_cons] at hlen
    refine .peek ?_
    simp only [hk]
    refine .skip (.symbol ho (.bind (expression_accepts h (by omega) (by simp [hc]))
      fun c hc' => .symbol hc (.bind_last (hs _ _ _ _ hb (by omega) helse) fun body hbody =>
        .pure ?_)))
    rw [Stmt.unnumbered, hc', hbody]
  | @counted _ is cs ns ts initial condition increment body keyword opening semicolon closing hk ho
      hi h hsc hn hc hb =>
    simp only [List.length_append, List.length_cons] at hlen
    simp only [List.append_assoc, List.cons_append]
    refine .peek ?_
    simp only [hk]
    refine .skip (.symbol ho (.bind (forInitial_accepts hi (by omega)) fun i hi' =>
      .bind (optional_accepts h (by omega) hsc (.inl rfl)) fun c hc' => .symbol hsc
        (.bind (optional_accepts hn (by omega) hc (.inr rfl)) fun n hn' => .symbol hc
          (.bind_last (hs _ _ _ _ hb (by omega) helse) fun body hbody => .pure ?_))))
    rw [Stmt.unnumbered_counted, hi', hc', hn', hbody, loopOf_eq_counted]
  | ifThen keyword opening closing hk ho h hc ht =>
    simp only [List.length_append, List.length_cons] at hlen
    refine .peek ?_
    simp only [hk]
    unfold ifStatement
    dsimp only
    refine .skip (.symbol ho (.bind (expression_accepts h (by omega) (by simp [hc]))
      fun c hc' => .symbol hc (.bind_last (hs _ _ _ _ ht (by omega) fun _ => helse rfl)
        fun onTrue ht' => .leave ?_ (.bind_nothing (.pure (Q := (· = none)) rfl) ?_))))
    · intro t ht
      simpa [Token.isKeyword] using helse rfl t ht
    · rintro _ rfl
      refine .pure ?_
      rw [Stmt.unnumbered_branch, hc', ht']
      rfl
  | @ifElse _ cs ts es c onTrue onFalse keyword opening closing otherwise hk ho h hc ht he hf =>
    simp only [List.length_append, List.length_cons] at hlen
    simp only [List.append_assoc, List.cons_append]
    refine .peek ?_
    simp only [hk]
    unfold ifStatement
    dsimp only
    refine .skip (.symbol ho (.bind (expression_accepts h (by omega) (by simp [hc]))
      fun c hc' => .symbol hc (.bind (hs _ _ _ _ ht (by omega) (by simp)) fun onTrue ht' =>
        .take (by simp [Token.isKeyword, he]) (.bind_last (.map (hs _ _ _ _ hf (by omega) helse)
          (Q := (·.map (·.unnumbered) = some onFalse)) fun s hs => by rw [← hs]; rfl)
          fun onFalse? hf' => .pure ?_))))
    rw [Stmt.unnumbered_branch, hc', ht', hf']

theorem declarationRule_complete {ts rest : List Token} {s : Stmt}
    (h : Statement .declaration ts s) (hlen : ts.length ≤ n + 1) (helse : NoElse rest) :
    Accepts (declarationRule (n + 1) statement declaration) ts rest (·.unnumbered = s) := by
  cases h with
  | function params body fn name opening closing left right hk hn ho hp hs hmax hc hl hb hr =>
    simp only [List.length_append, List.length_cons] at hlen
    simp only [List.append_assoc, List.cons_append]
    refine .take (by simp [Token.isKeyword, hk]) ?_
    exact function_accepts hd hn ho hp hs hmax hc hl hb hr (by omega) (by omega) (by omega)
  | var h =>
    obtain ⟨var, us, rfl, hv⟩ := h.first
    simp only [List.length_cons] at hlen
    refine .leave ?_ (.take (by simp [Token.isKeyword, hv])
      (variableDeclaration_accepts h (by omega)))
    rintro t ⟨⟩
    simp [Token.isKeyword, hv]
  | statement h =>
    obtain ⟨t, us, rfl, ht⟩ := h.first
    refine .leave ?_ (.leave ?_ (statementRule_complete hs hd _ _ _ _ h hlen fun _ => helse))
    · rintro t ⟨⟩
      simpa [Token.isKeyword] using ht.ne_keyword.1
    · rintro t ⟨⟩
      simpa [Token.isKeyword] using ht.ne_keyword.2

end Rules

/-- Statements and declarations are read as a whole. -/
theorem statement_declaration_complete :
    ∀ n, CompleteStatement n (statement n) ∧ CompleteDeclaration n (declaration n)
  | 0 => by
    refine ⟨fun isOpen ts s rest h hlen => ?_, fun ts s rest h hlen => ?_⟩ <;>
    · obtain ⟨t, us, rfl, -⟩ := h.first
      simp at hlen
  | n + 1 => by
    obtain ⟨hs, hd⟩ := statement_declaration_complete n
    exact ⟨statementRule_complete hs hd, fun ts s rest h hlen helse =>
      .recovering (declarationRule_complete hs hd h hlen helse)⟩

end Lox.Grammar
