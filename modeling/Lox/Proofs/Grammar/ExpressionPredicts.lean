import Lox.Proofs.Grammar.Predicts

/-!
# Expressions stop at once

What may stand behind an expression of some rank is no operator of that rank or of a tighter one
and no opening parenthesis (`continues`). In front of such tokens the rules of expressions fail
exactly where no expression goes on (`expression_predicts`).
-/

namespace Lox.Grammar

open Computability
open Relaxed
open Sentence (Rank StartsExpression)

/-- No word of a language starts with one of some kinds of token. -/
def Avoids (kinds : List Token.Kind) (K : Language Token) : Prop :=
  ∀ t v, t :: v ∈ K → t.kind ∉ kinds

section Avoids

variable {kinds kinds' : List Token.Kind} {L K : Language Token} {p : Token → Bool}

theorem Avoids.subset (h : Avoids kinds' K) (hsub : kinds ⊆ kinds') : Avoids kinds K :=
  fun t v hmem hk => h t v hmem (hsub hk)

theorem Avoids.mul (hL : Avoids kinds L) (hK : Avoids kinds K) : Avoids kinds (L * K) := by
  intro t v hmem
  obtain ⟨ts, us, hts, hus, heq⟩ := mem_mul.1 hmem
  cases ts with
  | nil => exact hK t v (heq ▸ hus)
  | cons u ts =>
    cases heq
    exact hL t ts hts

theorem Avoids.add (hL : Avoids kinds L) (hK : Avoids kinds K) : Avoids kinds (L + K) := by
  rintro t v (h | h)
  · exact hL t v h
  · exact hK t v h

theorem Avoids.one : Avoids kinds (1 : Language Token) := by
  rintro t v h
  cases h

theorem Avoids.mul_of_ne (hL : Avoids kinds L) (hnil : [] ∉ L) : Avoids kinds (L * K) := by
  intro t v hmem
  obtain ⟨ts, us, hts, hus, heq⟩ := mem_mul.1 hmem
  cases ts with
  | nil => exact absurd hts hnil
  | cons u ts =>
    cases heq
    exact hL t ts hts

/-- A language whose words start with other tokens. -/
theorem Avoids.token_mul (hp : ∀ t, p t = true → t.kind ∉ kinds) :
    Avoids kinds (token p * L) := by
  intro t v hmem
  obtain ⟨u, w, hu, -, heq⟩ := mem_token_mul.1 hmem
  cases heq
  exact hp t hu

theorem Avoids.of_token (hp : ∀ t, p t = true → t.kind ∉ kinds) : Avoids kinds (token p) := by
  rintro t v ⟨u, hu, heq⟩
  cases heq
  exact hp t hu

theorem Avoids.symbol_mul {s : Symbol} (hs : .symbol s ∉ kinds) :
    Avoids kinds (symbol s * L) :=
  .token_mul fun _ ht => isSymbol_iff.1 ht ▸ hs

theorem Avoids.keyword_mul {k : Keyword} (hk : .keyword k ∉ kinds) :
    Avoids kinds (keyword k * L) :=
  .token_mul fun _ ht => isKeyword_iff.1 ht ▸ hk

theorem Avoids.add_mul {L' : Language Token} (hL : Avoids kinds (L * K))
    (hL' : Avoids kinds (L' * K)) : Avoids kinds ((L + L') * K) := by
  rintro t v ⟨ts, hts | hts, us, hus, heq⟩
  · exact hL t v ⟨ts, hts, us, hus, heq⟩
  · exact hL' t v ⟨ts, hts, us, hus, heq⟩

theorem Avoids.symbol_mul_mul {s : Symbol} (hs : .symbol s ∉ kinds) :
    Avoids kinds (symbol s * L * K) := by
  rw [mul_assoc]
  exact .symbol_mul hs

theorem Avoids.keyword_mul_mul {k : Keyword} (hk : .keyword k ∉ kinds) :
    Avoids kinds (keyword k * L * K) := by
  rw [mul_assoc]
  exact .keyword_mul hk

theorem Avoids.kstar (hL : Avoids kinds L) : Avoids kinds L∗ := by
  intro t v hmem
  obtain ⟨parts, heq, hparts⟩ := Language.mem_kstar.1 hmem
  induction parts with
  | nil => cases heq
  | cons part parts ih =>
    obtain ⟨hpart, hothers⟩ := List.forall_mem_cons.1 hparts
    cases part with
    | nil => exact ih heq hothers
    | cons u us =>
      cases heq
      exact hL t us hpart

theorem Avoids.expressions {rank : Rank} (h : ∀ kind ∈ kinds, ¬ StartsExpression kind) :
    Avoids kinds (expressions rank) := by
  intro t v hmem hk
  obtain ⟨_, _, heq, hstarts⟩ := Expression.first hmem
  cases heq
  exact h _ hk hstarts

end Avoids

section Choice

variable {ρ : Recovery} {follow : Language Token → Prop} {β : Type} {most : Nat}
  {L₁ L₂ : Language Token} {f : Option Token → Reader β}

/-- A choice by a symbol that stands nowhere else. -/
theorem ifSymbol {s : Symbol} (hsome : ∀ t, Predicts ρ follow (most - 1) (f (some t)) L₁)
    (hnone : Predicts ρ follow most (f none) L₂)
    (havoid : ∀ K, follow K → Avoids [.symbol s] (L₂ * K)) :
    Predicts ρ follow most (Reader.accept? (·.isSymbol s) >>= f) (symbol s * L₁ + L₂) :=
  .ifAccept ⟨⟨.symbol s, "", 1⟩, isSymbol_iff.2 rfl⟩ hsome hnone fun K hK t v ht hmem =>
    absurd (List.mem_singleton.2 (isSymbol_iff.1 ht)) (havoid K hK t v hmem)

/-- A choice by a keyword that stands nowhere else. -/
theorem ifKeyword {k : Keyword} (hsome : ∀ t, Predicts ρ follow (most - 1) (f (some t)) L₁)
    (hnone : Predicts ρ follow most (f none) L₂)
    (havoid : ∀ K, follow K → Avoids [.keyword k] (L₂ * K)) :
    Predicts ρ follow most (Reader.accept? (·.isKeyword k) >>= f) (keyword k * L₁ + L₂) :=
  .ifAccept ⟨⟨.keyword k, "", 1⟩, isKeyword_iff.2 rfl⟩ hsome hnone fun K hK t v ht hmem =>
    absurd (List.mem_singleton.2 (isKeyword_iff.1 ht)) (havoid K hK t v hmem)

/-- A choice by an opening brace that stands nowhere else. -/
theorem ifBrace (hsome : ∀ t, Predicts .anywhere follow (most - 1) (f (some t)) L₁)
    (hnone : Predicts .inBraces follow most (f none) L₂)
    (havoid : ∀ K, follow K → Avoids [.symbol .leftBrace] (L₂ * K)) :
    Predicts .inBraces follow most (Reader.accept? (·.isSymbol .leftBrace) >>= f)
      (symbol .leftBrace * L₁ + L₂) :=
  .ifAccept_at ⟨⟨.symbol .leftBrace, "", 1⟩, rfl⟩ hsome hnone
    (fun K hK t v ht hmem =>
      absurd (List.mem_singleton.2 (isSymbol_iff.1 ht)) (havoid K hK t v hmem))
    fun t _ ht _ => ⟨t, List.mem_cons_self, ht⟩

end Choice

/-- The kinds of token that go on with an expression: what opens arguments, the operators from the
tightest to the loosest, and what assigns. -/
def continues : List Token.Kind :=
  .symbol .equal :: (Rank.or.operators ++ (Rank.and.operators ++ (Rank.equality.operators ++
    (Rank.comparison.operators ++ (Rank.term.operators ++ (Rank.factor.operators ++
      [.symbol .leftParen]))))))

theorem nil_mem_expressions : [⟨.keyword .nilKw, "", 1⟩] ∈ expressions .assignment := by
  have hprimary : Expression .primary [⟨.keyword .nilKw, "", 1⟩] := .literal _ .nil
  iterate 9 refine Expression.operand (by decide) ?_
  exact hprimary

theorem nil_not_mem_expressions {rank : Rank} : [] ∉ expressions rank := by
  intro h
  obtain ⟨_, _, heq, -⟩ := Expression.first h
  cases heq

variable {α : Type} {ρ : Recovery} {n bound most : Nat} {kinds : List Token.Kind}

section Binary

variable {level : Level} {rank : Rank} {side operand : Reader Expr} {tighter : List Level}

theorem chain_predicts (hf : level.Fits rank) (hop : ∃ t : Token, t.kind ∈ rank.operators)
    (hkinds : ∀ kind ∈ rank.operators, kind ∉ kinds)
    (hs : Predicts ρ (Avoids kinds) bound side (expressions rank.tighter)) :
    ∀ {n most : Nat} (left : Expr), most ≤ n → most ≤ bound →
      Predicts ρ (Avoids (rank.operators ++ kinds)) most (chain level side n left)
        (operators rank * expressions rank.tighter)∗
  | 0, most, left, hmost, _ => by
    obtain rfl := Nat.le_zero.1 hmost
    exact .nothing left (Language.nil_mem_kstar _)
  | n + 1, most, left, hmost, hbound => by
    have hholds : token level.holds = operators rank := by
      refine congrArg token (funext fun t => ?_)
      rw [Bool.eq_iff_iff, decide_eq_true_iff, hf.operators]
    rw [← hholds, kstar_token_mul]
    refine .ifAccept ?_ (fun op => ?_) ?_ ?_
    · obtain ⟨t, ht⟩ := hop
      exact ⟨t, (hf.operators t).2 ht⟩
    · rw [hholds]
      refine (hs.shorter (by omega)).bind
        (fun right => chain_predicts hf hop hkinds hs _ (by omega) (by omega)) fun K hK => ?_
      refine .mul (.kstar (.token_mul fun t ht => hkinds _ (of_decide_eq_true ht))) ?_
      exact hK.subset (List.subset_append_right _ _)
    · exact .pure left
    · intro K hK t v ht hmem
      rw [one_mul] at hmem
      exact absurd (List.mem_append_left _ ((hf.operators t).1 ht)) (hK t v hmem)

theorem level_predicts (rank : Rank) (hr : Associative rank) (hf : level.Fits rank)
    (hop : ∃ t : Token, t.kind ∈ rank.operators)
    (hkinds : ∀ kind ∈ rank.operators, kind ∉ kinds) (hmost : most ≤ n)
    (h : Predicts ρ (Avoids kinds) most (binary n operand tighter) (expressions rank.tighter)) :
    Predicts ρ (Avoids (rank.operators ++ kinds)) most (binary n operand (level :: tighter))
      (expressions rank) := by
  rw [expressions_associative hr]
  refine h.bind (fun left => chain_predicts hf hop hkinds h left hmost (Nat.le_refl _)) ?_
  intro K hK
  refine .mul (.kstar (.token_mul fun t ht => hkinds _ (of_decide_eq_true ht))) ?_
  exact hK.subset (List.subset_append_right _ _)

theorem binary_predicts (hmost : most ≤ n)
    (h : Predicts ρ (Avoids [.symbol .leftParen]) most operand (expressions .unary)) :
    Predicts ρ (Avoids continues.tail) most (binary n operand levels) (expressions .or) := by
  have hunary : Predicts ρ (Avoids [.symbol .leftParen]) most (binary n operand [])
      (expressions .unary) := h
  have hfactor := level_predicts .factor (by simp [Associative])
    (fits_symbols [.slash, .star] rfl rfl) ⟨⟨.symbol .star, "", 1⟩, by simp [Rank.operators]⟩
    (by simp [Rank.operators]) hmost hunary
  have hterm := level_predicts .term (by simp [Associative])
    (fits_symbols [.minus, .plus] rfl rfl) ⟨⟨.symbol .plus, "", 1⟩, by simp [Rank.operators]⟩
    (by simp [Rank.operators]) hmost hfactor
  have hcomparison := level_predicts .comparison (by simp [Associative])
    (fits_symbols [.greater, .greaterEqual, .less, .lessEqual] rfl rfl)
    ⟨⟨.symbol .less, "", 1⟩, by simp [Rank.operators]⟩ (by simp [Rank.operators]) hmost hterm
  have hequality := level_predicts .equality (by simp [Associative])
    (fits_symbols [.bangEqual, .equalEqual] rfl rfl)
    ⟨⟨.symbol .equalEqual, "", 1⟩, by simp [Rank.operators]⟩ (by simp [Rank.operators]) hmost
    hcomparison
  have hand := level_predicts .and (by simp [Associative]) (fits_keyword .andKw rfl rfl)
    ⟨⟨.keyword .andKw, "", 1⟩, by simp [Rank.operators]⟩ (by simp [Rank.operators]) hmost hequality
  exact level_predicts .or (by simp [Associative]) (fits_keyword .orKw rfl rfl)
    ⟨⟨.keyword .orKw, "", 1⟩, by simp [Rank.operators]⟩ (by simp [Rank.operators]) hmost hand

end Binary

section Unary

/-- No call starts with the operators that stand before one. -/
theorem avoids_call : Avoids [.symbol .bang, .symbol .minus] (expressions .call) := by
  have hliteral (t : Token) (h : (literal? t).isSome = true) :
      t.kind ∉ [.symbol .bang, .symbol .minus] := by
    obtain ⟨value, hvalue⟩ := Option.isSome_iff_exists.1 h
    have hdenotes := denotes_of_literal? hvalue
    generalize t.kind = kind at hdenotes
    cases hdenotes <;> simp
  have hname (t : Token) (h : t.isIdentifier = true) :
      t.kind ∉ [.symbol .bang, .symbol .minus] := by
    rw [isIdentifier_iff.1 h]
    simp
  rw [expressions_call, expressions_primary]
  exact .mul (.add (.of_token hliteral) (.add (.of_token hname) (.symbol_mul (by simp))))
    (.kstar (.symbol_mul (by simp)))

theorem unary_predicts {call : Reader Expr}
    (h : Predicts ρ (Avoids [.symbol .leftParen]) bound call (expressions .call)) :
    ∀ {n most : Nat}, most ≤ n → most ≤ bound →
      Predicts ρ (Avoids [.symbol .leftParen]) most (unary call n) (expressions .unary)
  | 0, most, hmost, hbound => by
    obtain rfl := Nat.le_zero.1 hmost
    refine (h.shorter hbound).widen_nothing ?_ nil_not_mem_expressions
    rw [expressions_unary]
    exact fun _ => .inr
  | n + 1, most, hmost, hbound => by
    rw [expressions_unary]
    refine .ifAccept ⟨⟨.symbol .bang, "", 1⟩, rfl⟩ (fun op => ?_) (h.shorter hbound) ?_
    · exact (unary_predicts h (by omega) (by omega)).bind_pure (Expr.unary op)
    · intro K _ t v ht hmem
      refine absurd ?_ (avoids_call.mul_of_ne nil_not_mem_expressions t v hmem)
      simpa [isSymbol_iff] using ht

end Unary

section List

theorem nil_not_mem_list {X : Language Token} (hX : [] ∉ X) : [] ∉ list X := by
  intro hnil
  obtain ⟨ts, us, hts, -, heq⟩ := mem_mul.1 hnil
  exact hX ((List.append_eq_nil_iff.1 heq.symm).1 ▸ hts)

/-- The words of a language start with a token that passes a test. -/
def StartsWith (p : Token → Bool) (K : Language Token) : Prop :=
  ∀ y ∈ K, y.head?.any p = true

theorem StartsWith.avoids {s : Symbol} {kinds : List Token.Kind} {K : Language Token}
    (h : StartsWith (·.isSymbol s) K) (hs : .symbol s ∉ kinds) : Avoids kinds K := by
  intro t v hmem
  have ht : t.isSymbol s = true := h _ hmem
  rwa [isSymbol_iff.1 ht]

theorem StartsWith.symbol_mul {s : Symbol} {K : Language Token} :
    StartsWith (·.isSymbol s) (symbol s * K) := by
  intro y hy
  obtain ⟨t, v, ht, -, rfl⟩ := mem_token_mul.1 hy
  exact ht

variable {item : Reader α} {X : Language Token} (hkinds : .symbol .comma ∉ kinds)
  (hX : [] ∉ X) (h : Predicts ρ (Avoids kinds) bound item X) {excess : SyntaxFault}
  (hexcess : excess.isSoft = true)

include hkinds hX h hexcess

theorem commaList_predicts [Nonempty α] : ∀ {n most : Nat} (count : Nat), most ≤ n → most ≤ bound →
    Predicts ρ (Avoids (.symbol .comma :: kinds)) most (commaList excess item n count) (list X)
  | 0, most, count, hmost, hbound => by
    obtain rfl := Nat.le_zero.1 hmost
    have hone : Predicts ρ (Avoids (.symbol .comma :: kinds)) 0 (commaList excess item 0 count) X :=
      .complainIf hexcess (((h.shorter hbound).bind_pure fun first => [first]).mono fun K hK =>
        hK.subset (List.subset_cons_self _ _))
    exact hone.widen_nothing (fun _ hw => mul_mem_of_nil hw (Language.nil_mem_kstar _))
      (nil_not_mem_list hX)
  | n + 1, most, count, hmost, hbound => by
    rw [list_eq]
    refine .complainIf hexcess ((h.shorter hbound).bind (fun first => ?_) fun K hK => ?_)
    · refine ifSymbol (fun comma => ?_) ?_ fun K hK => .mul .one (hK.subset (by simp))
      · exact (commaList_predicts (count + 1) (by omega) (by omega)).bind_pure (first :: ·)
      · exact .pure [first]
    · exact .mul (.add (.symbol_mul hkinds) .one) (hK.subset (List.subset_cons_self _ _))

theorem listToParen_predicts [Nonempty α] (hparen : .symbol .rightParen ∉ kinds)
    (hitem : Avoids [.symbol .rightParen] X) (hmost : most ≤ n) (hbound : most ≤ bound) :
    Predicts ρ (StartsWith (·.isSymbol .rightParen)) most (listToParen n excess item)
      (list X + 1) := by
  refine .ifTest (fun _ => rfl) (commaList_predicts hkinds hX h hexcess 0 hmost hbound) ?_ ?_
  · intro w hw hne
    obtain ⟨t, ts, rfl⟩ := List.exists_cons_of_ne_nil hne
    have ht : t.kind ∉ [Token.Kind.symbol .rightParen] := hitem.mul_of_ne hX t ts hw
    simpa [Token.isSymbol] using ht
  · intro K hK
    refine ⟨hK.avoids ?_, hK⟩
    simpa using hparen

end List

section Call

variable {shorter : Reader Expr}
  (h : Predicts ρ (Avoids continues) bound shorter (expressions .assignment))

include h

theorem calls_predicts (hb : bound ≤ n) : ∀ {k most : Nat} (callee : Expr), most ≤ k →
    most ≤ bound + 1 → Predicts ρ (Avoids [.symbol .leftParen]) most (calls n shorter k callee)
      (symbol .leftParen * arguments)∗
  | 0, most, callee, hmost, _ => by
    obtain rfl := Nat.le_zero.1 hmost
    exact .nothing callee (Language.nil_mem_kstar _)
  | k + 1, most, callee, hmost, hbound => by
    rw [kstar_symbol_mul]
    refine ifSymbol (fun opening => ?_) ?_ fun K hK => .mul .one hK
    · unfold arguments
      rw [mul_assoc]
      refine (listToParen_predicts (by simp [continues, Rank.operators]) nil_not_mem_expressions h
        rfl (by simp [continues, Rank.operators]) ?_ (by omega) (by omega)).bind
          (fun items => ?_) fun K _ => ?_
      · exact .expressions fun kind hk hstarts => hstarts.ne_closing.1 (List.mem_singleton.1 hk)
      · exact (Predicts.symbol .rightParen .arguments).bind_token fun paren =>
          calls_predicts hb _ (by omega) (by omega)
      · rw [mul_assoc]
        exact .symbol_mul
    · exact .pure callee

omit h in
/-- The rule for primary expressions as one choice after the other. -/
theorem primary_eq (expression : Reader Expr) : primary expression = (do
    match ← Reader.accept? fun t => (literal? t).isSome with
    | some t => return .literal ((literal? t).getD .nil)
    | none =>
      match ← Reader.accept? (·.isIdentifier) with
      | some t =>
        let id ← Reader.freshId
        return .read id t
      | none =>
        let _ ← Reader.expect (·.isSymbol .leftParen) .expressionMissing
        let inner ← expression
        let _ ← Reader.symbol .rightParen .expression
        return .grouping inner) := by
  funext row
  rcases row with ⟨_ | ⟨⟨kind, lexeme, line⟩, ts⟩, id, cs⟩
  · rfl
  · cases kind with
    | symbol s => cases s <;> rfl
    | keyword k => cases k <;> rfl
    | _ => rfl

theorem primary_predicts (hbound : most ≤ bound + 1) :
    Predicts ρ (Avoids []) most (primary shorter) (expressions .primary) := by
  rw [primary_eq, expressions_primary, ← mul_one (token fun t => (literal? t).isSome),
    ← mul_one (token (·.isIdentifier))]
  refine .ifAccept ⟨⟨.keyword .nilKw, "", 1⟩, rfl⟩ (fun t => .pure _) (.ifAccept
    ⟨⟨.identifier, "", 1⟩, rfl⟩ (fun t => .freshId_bind fun id => .pure _) ?_ ?_) ?_
  · refine (Predicts.expect _ rfl ⟨⟨.symbol .leftParen, "", 1⟩, rfl⟩).bind_token fun _ => ?_
    refine ((h.shorter (by omega)).bind (fun inner => ?_) fun K _ => ?_)
    · exact (Predicts.symbol .rightParen .expression).bind_pure fun _ => Expr.grouping inner
    · exact .symbol_mul (by simp [continues, Rank.operators])
  · intro K _ t v ht hmem
    cases (isIdentifier_iff.1 ht).symm.trans (isSymbol_iff.1 (head_token_mul hmem))
  · intro K _ t v ht hmem
    rw [add_mul] at hmem
    obtain ⟨value, hvalue⟩ := Option.isSome_iff_exists.1 ht
    have hdenotes := denotes_of_literal? hvalue
    rcases hmem with hmem | hmem
    · rw [isIdentifier_iff.1 (head_token_mul hmem)] at hdenotes
      cases hdenotes
    · rw [isSymbol_iff.1 (head_token_mul hmem)] at hdenotes
      cases hdenotes

theorem call_predicts (hb : bound ≤ n) (hmost : most ≤ n) (hbound : most ≤ bound + 1) :
    Predicts ρ (Avoids [.symbol .leftParen]) most (call n shorter) (expressions .call) := by
  rw [expressions_call]
  refine (primary_predicts h hbound).bind (fun callee => ?_) fun K _ => ?_
  · exact calls_predicts h hb callee hmost hbound
  · exact fun _ _ _ hk => by cases hk

omit h in
theorem assign_predicts {follow : Language Token → Prop} (target : Expr) (equals : Token)
    (value : Expr) : Predicts ρ follow most (assign target equals value) 1 := by
  cases target with
  | read id name => exact .freshId_bind fun id => .pure _
  | _ => exact .complain_bind rfl (.pure _)

theorem assignment_predicts (hb : bound ≤ n) (hmost : most ≤ n) (hbound : most ≤ bound + 1) :
    Predicts ρ (Avoids continues) most (assignment n shorter) (expressions .assignment) := by
  rw [expressions_assignment]
  have hcall := call_predicts h hb hmost hbound
  refine (binary_predicts hmost (unary_predicts hcall hmost (Nat.le_refl _))).bind
    (fun target => ?_) fun K hK => ?_
  · refine ifSymbol (fun equals => ?_) ?_ fun K hK => .mul .one (hK.subset (by simp [continues]))
    · rw [← mul_one (expressions .assignment)]
      refine (h.shorter (by omega)).bind (fun value => assign_predicts target equals value) ?_
      intro K hK
      rwa [one_mul]
    · exact .pure target
  · exact .mul (.add (.symbol_mul (by simp [continues, Rank.operators])) .one)
      (hK.subset (List.subset_cons_self _ _))

end Call

/-- An expression is read up to where none goes on. -/
theorem expression_predicts : ∀ {n most : Nat}, most ≤ n →
    Predicts ρ (Avoids continues) most (expression n) (expressions .assignment)
  | 0, most, hmost => by
    obtain rfl := Nat.le_zero.1 hmost
    exact .fail_nothing _ rfl ⟨_, nil_mem_expressions⟩ nil_not_mem_expressions
  | n + 1, most, hmost =>
    assignment_predicts (expression_predicts (Nat.le_refl n)) (Nat.le_succ n) hmost hmost

end Lox.Grammar
