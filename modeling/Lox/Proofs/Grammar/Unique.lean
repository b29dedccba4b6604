import Lox.Proofs.Grammar.StatementComplete

/-!
# Clauses that one row spells once

A reader takes one sentence from a row, so two sentences of the same kind in front of the same row
are one (`Accepts.unique`). A `for` is told apart into its clauses in one way (`counted_unique`),
and its keyword stands in no expression and no clause (`Expression.noFor`), so that where it stands
in a sentence a statement starts (`after_noFor`).
-/

namespace Lox

/-- A reader takes the same tokens from the same row. -/
theorem Accepts.unique {α : Type} {r : Reader α} {ts rest ts' rest' : List Token} {P Q : α → Prop}
    (h : Accepts r ts rest P) (h' : Accepts r ts' rest' Q) (heq : ts ++ rest = ts' ++ rest') :
    ts = ts' ∧ rest = rest' ∧ ∃ a, P a ∧ Q a := by
  obtain ⟨a, id, hrun, ha⟩ := h 0 []
  obtain ⟨b, id', hrun', hb⟩ := h' 0 []
  rw [heq, hrun'] at hrun
  cases hrun
  exact ⟨List.append_cancel_right heq, rfl, a, ha, hb⟩

namespace Grammar

open Sentence

/-- No token of the row is the keyword `for`. -/
def NoFor (ts : List Token) : Prop :=
  ∀ t ∈ ts, t.kind ≠ .keyword .forKw

section NoFor

variable {t : Token} {ts us : List Token}

theorem NoFor.nil : NoFor [] :=
  nofun

theorem noFor_cons : NoFor (t :: ts) ↔ t.kind ≠ .keyword .forKw ∧ NoFor ts :=
  List.forall_mem_cons

theorem noFor_append : NoFor (ts ++ us) ↔ NoFor ts ∧ NoFor us :=
  List.forall_mem_append

theorem noFor_singleton : NoFor [t] ↔ t.kind ≠ .keyword .forKw :=
  List.forall_mem_singleton

/-- Where a `for` stands behind tokens without one. -/
theorem after_noFor {pre back : List Token} {keyword : Token} (front : List Token)
    (hk : keyword.kind = .keyword .forKw) (h : NoFor front)
    (heq : front ++ back = pre ++ keyword :: ts) :
    ∃ pre', pre = front ++ pre' ∧ back = pre' ++ keyword :: ts := by
  rcases List.append_eq_append_iff.1 heq with ⟨pre', hpre, hback⟩ | ⟨others, hfront, hback⟩
  · exact ⟨pre', hpre, hback⟩
  · cases others with
    | nil => exact ⟨[], by rw [hfront, List.append_nil, List.append_nil], hback.symm⟩
    | cons u others =>
      obtain ⟨rfl, -⟩ := List.cons.inj hback
      exact absurd hk (h keyword (by simp [hfront]))

end NoFor

end Grammar

namespace Sentence

open Grammar

theorem Separated.noFor {phrases : List (List Token)} {ts : List Token}
    (h : Separated phrases ts) (hall : ∀ phrase ∈ phrases, NoFor phrase) : NoFor ts := by
  induction h with
  | none => exact .nil
  | one ts => exact hall ts (List.mem_singleton_self ts)
  | more ts comma hc _ ih =>
    obtain ⟨hts, hothers⟩ := List.forall_mem_cons.1 hall
    exact noFor_append.2 ⟨hts, noFor_cons.2 ⟨by simp [hc], ih hothers⟩⟩

theorem Rank.operators_ne_for {rank : Rank} {kind : Token.Kind} (h : kind ∈ rank.operators) :
    kind ≠ .keyword .forKw := by
  rintro rfl
  cases rank <;> simp [Rank.operators] at h

theorem Denotes.ne_for {kind : Token.Kind} {value : Literal} (h : Denotes kind value) :
    kind ≠ .keyword .forKw := by
  cases h <;> exact nofun

theorem Expression.noFor {rank : Rank} {ts : List Token} {e : Expr} (h : Expression rank ts e) :
    NoFor ts := by
  induction h with
  | assign name equals hn he _ ih =>
    exact noFor_cons.2 ⟨by simp [hn], noFor_cons.2 ⟨by simp [he], ih⟩⟩
  | operand _ _ ih => exact ih
  | operator op ho _ _ ihl ihr =>
    exact noFor_append.2 ⟨ihl, noFor_cons.2 ⟨Rank.operators_ne_for ho, ihr⟩⟩
  | unary op ho _ ih =>
    refine noFor_cons.2 ⟨?_, ih⟩
    rcases ho with ho | ho <;> simp [ho]
  | call arguments opening closing _ ho _ hs _ hc ihf iha =>
    refine noFor_append.2 ⟨noFor_append.2 ⟨ihf, noFor_cons.2 ⟨by simp [ho], hs.noFor ?_⟩⟩,
      noFor_singleton.2 (by simp [hc])⟩
    simpa using fun ts e he => iha (ts, e) he
  | literal t h => exact noFor_singleton.2 h.ne_for
  | name t h => exact noFor_singleton.2 (by simp [h])
  | grouping opening closing ho _ hc ih =>
    exact noFor_append.2 ⟨noFor_cons.2 ⟨by simp [ho], ih⟩, noFor_singleton.2 (by simp [hc])⟩

theorem Optional.noFor {ts : List Token} {e? : Option Expr} (h : Optional ts e?) : NoFor ts := by
  cases h with
  | none => exact .nil
  | some h => exact h.noFor

theorem VarDecl.noFor {ts : List Token} {s : Stmt} (h : VarDecl ts s) : NoFor ts := by
  cases h with
  | plain var name semicolon hv hn hs => simp [noFor_cons, NoFor.nil, hv, hn, hs]
  | initialized var name equals semicolon hv hn he h hs =>
    simp [noFor_cons, noFor_append, NoFor.nil, h.noFor, hv, hn, he, hs]

theorem ExprStmt.noFor {ts : List Token} {s : Stmt} (h : ExprStmt ts s) : NoFor ts := by
  obtain ⟨semicolon, h, hs⟩ := h
  exact noFor_append.2 ⟨h.noFor, noFor_singleton.2 (by simp [hs])⟩

theorem ForInitial.noFor {ts : List Token} {initial : Option Stmt} (h : ForInitial ts initial) :
    NoFor ts := by
  cases h with
  | none semicolon hs => exact noFor_singleton.2 (by simp [hs])
  | var h => exact h.noFor
  | expression h => exact h.noFor

end Sentence

namespace Grammar

open Sentence

section Counted

variable {is is' cs cs' ns ns' ss ss' rest rest' : List Token} {initial initial' : Option Stmt}
  {condition condition' increment increment' : Option Expr} {body body' : Stmt}
  {isOpen isOpen' : Bool} {semicolon semicolon' closing closing' : Token}

/-- A row behind `for (` spells the clauses of one statement. -/
theorem counted_unique (hi : ForInitial is initial) (hi' : ForInitial is' initial')
    (hc : Optional cs condition) (hc' : Optional cs' condition')
    (hs : semicolon.kind = .symbol .semicolon) (hs' : semicolon'.kind = .symbol .semicolon)
    (hn : Optional ns increment) (hn' : Optional ns' increment')
    (hp : closing.kind = .symbol .rightParen) (hp' : closing'.kind = .symbol .rightParen)
    (hb : Statement (.statement isOpen) ss body) (hb' : Statement (.statement isOpen') ss' body')
    (hrest : isOpen = true → NoElse rest) (hrest' : isOpen' = true → NoElse rest')
    (heq : is ++ (cs ++ semicolon :: (ns ++ closing :: (ss ++ rest))) =
      is' ++ (cs' ++ semicolon' :: (ns' ++ closing' :: (ss' ++ rest')))) :
    (is = is' ∧ initial = initial') ∧ (cs = cs' ∧ condition = condition') ∧
      (ns = ns' ∧ increment = increment') ∧ ss = ss' ∧ body = body' ∧ rest = rest' := by
  obtain ⟨rfl, heq, i, hi, hi'⟩ := (forInitial_accepts hi (Nat.le_max_left _ _)).unique
    (forInitial_accepts hi' (Nat.le_max_right _ _)) heq
  obtain ⟨rfl, heq, c, hc, hc'⟩ :=
    (optional_accepts hc (Nat.le_max_left _ _) hs (.inl rfl)).unique
      (optional_accepts hc' (Nat.le_max_right _ _) hs' (.inl rfl)) heq
  obtain ⟨rfl, heq, n, hn, hn'⟩ :=
    (optional_accepts hn (Nat.le_max_left _ _) hp (.inr rfl)).unique
      (optional_accepts hn' (Nat.le_max_right _ _) hp' (.inr rfl)) (List.cons.inj heq).2
  obtain ⟨rfl, rfl, s, hs, hs'⟩ :=
    ((statement_declaration_complete _).1 _ _ _ _ hb (Nat.le_max_left _ _) hrest).unique
      ((statement_declaration_complete _).1 _ _ _ _ hb' (Nat.le_max_right _ _) hrest')
      (List.cons.inj heq).2
  exact ⟨⟨rfl, hi.symm.trans hi'⟩, ⟨rfl, hc.symm.trans hc'⟩, ⟨rfl, hn.symm.trans hn'⟩, rfl,
    hs.symm.trans hs', rfl⟩

end Counted

end Grammar

end Lox
