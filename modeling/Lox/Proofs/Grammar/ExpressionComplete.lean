import Lox.Proofs.Grammar.Accepts
import Lox.Proofs.Grammar.ExpressionSound
import Lox.Proofs.Grammar.First

/-!
# Sentences are read as expressions

A sentence of at most `n` tokens is taken by `expression n` as a whole, with the tree of the
grammar, wherever the token after it does not continue it (`expression_complete`).
-/

namespace Lox.Sentence

namespace Rank

/-- The kinds of token that continue an expression of a rank. -/
def continuing : Rank → List Token.Kind
  | primary => []
  | call | unary => [.symbol .leftParen]
  | factor => factor.operators ++ [.symbol .leftParen]
  | term => term.operators ++ (factor.operators ++ [.symbol .leftParen])
  | comparison =>
    comparison.operators ++ (term.operators ++ (factor.operators ++ [.symbol .leftParen]))
  | equality => equality.operators ++ (comparison.operators ++ (term.operators ++
      (factor.operators ++ [.symbol .leftParen])))
  | and => and.operators ++ (equality.operators ++ (comparison.operators ++ (term.operators ++
      (factor.operators ++ [.symbol .leftParen]))))
  | or => or.operators ++ (and.operators ++ (equality.operators ++ (comparison.operators ++
      (term.operators ++ (factor.operators ++ [.symbol .leftParen])))))
  | assignment => .symbol .equal :: (or.operators ++ (and.operators ++ (equality.operators ++
      (comparison.operators ++ (term.operators ++ (factor.operators ++ [.symbol .leftParen]))))))

end Rank

/-- What follows does not continue an expression of a rank. -/
def Stops (rank : Rank) (rest : List Token) : Prop :=
  ∀ t ∈ rest.head?, t.kind ∉ rank.continuing

theorem Rank.continuing_tighter (rank : Rank) : rank.tighter.continuing ⊆ rank.continuing := by
  cases rank <;> decide

theorem Stops.tighter {rank : Rank} {rest : List Token} (h : Stops rank rest) :
    Stops rank.tighter rest :=
  fun t ht hk => h t ht (rank.continuing_tighter hk)

theorem Rank.operators_not_continuing (rank : Rank) :
    ∀ kind ∈ rank.operators, kind ∉ rank.tighter.continuing := by
  cases rank <;> decide

theorem Stops.operator {rank : Rank} {op : Token} {ts : List Token}
    (h : op.kind ∈ rank.operators) : Stops rank.tighter (op :: ts) := by
  rintro t ⟨⟩
  exact rank.operators_not_continuing _ h

/-- An expression in a list, in parentheses or in a statement is followed by a token that does not
continue it. -/
theorem Stops.closing {t : Token} {ts : List Token} (h : t.kind ∈
    [Token.Kind.symbol .comma, .symbol .rightParen, .symbol .semicolon]) :
    Stops .assignment (t :: ts) := by
  rintro t ⟨⟩
  have : ∀ kind ∈ [Token.Kind.symbol .comma, .symbol .rightParen, .symbol .semicolon],
      kind ∉ Rank.assignment.continuing := by decide
  exact this _ h

theorem Separated.first {us : List Token} {phrases : List (List Token)} {ts : List Token}
    (h : Separated (us :: phrases) ts) : ∃ vs, ts = us ++ vs := by
  cases h with
  | one => exact ⟨[], by simp⟩
  | more _ comma => exact ⟨comma :: _, rfl⟩

theorem Separated.length_le {phrases : List (List Token)} {ts : List Token}
    (h : Separated phrases ts) : ∀ p ∈ phrases, p.length ≤ ts.length := by
  induction h with
  | none => simp
  | one ts => simp
  | more ts comma _ _ ih =>
    intro p hp
    simp only [List.length_append, List.length_cons]
    rcases List.mem_cons.1 hp with rfl | hp
    · omega
    · have := ih p hp
      omega

theorem Separated.card_le {phrases : List (List Token)} {ts : List Token}
    (h : Separated phrases ts) : phrases.length ≤ ts.length + 1 := by
  induction h with
  | none => simp
  | one ts => simp
  | more ts comma _ _ ih =>
    simp only [List.length_append, List.length_cons] at ih ⊢
    omega

end Lox.Sentence

namespace Lox.Grammar

open Sentence

/-- A reader takes every sentence of a rank that has at most `n` tokens. -/
def Complete (n : Nat) (rank : Rank) (r : Reader Expr) : Prop :=
  ∀ ts e rest, Expression rank ts e → ts.length ≤ n → Stops rank rest →
    Accepts r ts rest (·.unnumbered = e)

section Binary

variable {level : Level} {rank : Rank} {n : Nat} {operand : Reader Expr} {tighter : List Level}

theorem Level.Fits.holds_eq_false (hf : level.Fits rank) {rest : List Token}
    (h : Stops rank rest) (ho : rank.operators ⊆ rank.continuing) :
    ∀ t ∈ rest.head?, level.holds t = false := by
  intro t ht
  cases hl : level.holds t with
  | false => rfl
  | true => exact absurd (ho ((hf.operators t).1 hl)) (h t ht)

/-- On a sentence of its rank, a level of operators gets to the end of the sentence with the
sentence's tree on its left and with bound enough to go on. -/
theorem level_leads (hf : level.Fits rank)
    (h : Complete n rank.tighter (binary n operand tighter)) {ts : List Token} {e : Expr}
    (he : Expression rank ts e) (hne : rank.operators ≠ []) :
    ∀ rest, ts.length ≤ n → Stops rank.tighter rest → ∀ id cs, ∃ left id' k,
      binary n operand (level :: tighter) ⟨ts ++ rest, id, cs⟩ =
        chain level (binary n operand tighter) k left ⟨rest, id', cs⟩ ∧
      left.unnumbered = e ∧ n < k + ts.length := by
  induction he with
  | operand hr he =>
    rename_i rank ts e _
    intro rest hlen hstop id cs
    obtain ⟨left, id', hrun, hleft⟩ := h _ _ rest he hlen hstop id cs
    obtain ⟨t, us, rfl, -⟩ := he.first
    refine ⟨left, id', n, ?_, hleft, by simp⟩
    simp only [binary, Bind.bind, EStateM.bind, hrun]
  | operator op ho hl hr ihl =>
    rename_i rank us vs a b _
    intro rest hlen hstop id cs
    simp only [List.length_append, List.length_cons] at hlen
    obtain ⟨left, id₁, k, hrun, hleft, hk⟩ := ihl hf h hne (op :: vs ++ rest) (by omega)
      (Stops.operator ho) id cs
    obtain ⟨right, id₂, hrun', hright⟩ := h _ _ rest hr (by omega) hstop id₁ cs
    obtain ⟨k, rfl⟩ : ∃ k', k = k' + 1 := ⟨k - 1, by omega⟩
    refine ⟨level.node left op right, id₂, k, ?_, ?_, ?_⟩
    · rw [List.append_assoc, hrun]
      have hop := (hf.operators op).2 ho
      simp only [chain, Bind.bind, EStateM.bind, Reader.accept?, List.cons_append, hop, if_true,
        hrun']
    · rw [hf.unnumbered, hleft, hright]
    · simp only [List.length_append, List.length_cons]
      omega
  | _ => exact absurd rfl hne

theorem chain_stops {side : Reader Expr} {left : Expr} {rest : List Token}
    (h : ∀ t ∈ rest.head?, level.holds t = false) :
    ∀ k id cs, chain level side k left ⟨rest, id, cs⟩ = .ok left ⟨rest, id, cs⟩
  | 0, _, _ => rfl
  | k + 1, id, cs => by
    rcases rest with _ | ⟨t, rest⟩
    · rfl
    · simp only [chain, Bind.bind, EStateM.bind, Reader.accept?, h t rfl]
      rfl

variable (rank) in
theorem level_complete (hf : level.Fits rank) (hne : rank.operators ≠ [])
    (ho : rank.operators ⊆ rank.continuing)
    (h : Complete n rank.tighter (binary n operand tighter)) :
    Complete n rank (binary n operand (level :: tighter)) := by
  intro ts e rest he hlen hstop id cs
  obtain ⟨left, id', k, hrun, hleft, -⟩ := level_leads hf h he hne rest hlen hstop.tighter id cs
  exact ⟨left, id', hrun.trans (chain_stops (hf.holds_eq_false hstop ho) k id' cs), hleft⟩

theorem binary_complete (h : Complete n .unary operand) :
    Complete n .or (binary n operand levels) := by
  have hfactor : Complete n .factor (binary n operand [.symbols [.slash, .star]]) :=
    level_complete .factor (fits_symbols _ rfl rfl) (by decide) (by decide) h
  have hterm := level_complete .term (fits_symbols [.minus, .plus] rfl rfl) (by decide)
    (by decide) hfactor
  have hcomparison := level_complete .comparison
    (fits_symbols [.greater, .greaterEqual, .less, .lessEqual] rfl rfl) (by decide)
    (by decide) hterm
  have hequality := level_complete .equality (fits_symbols [.bangEqual, .equalEqual] rfl rfl)
    (by decide) (by decide) hcomparison
  have hand := level_complete .and (fits_keyword .andKw rfl rfl) (by decide) (by decide) hequality
  exact level_complete .or (fits_keyword _ rfl rfl) (by decide) (by decide) hand

end Binary

theorem not_operator_of_first {rank : Rank} {ts : List Token} {e : Expr}
    (h : Expression rank ts e) (hr : rank = .call ∨ rank = .primary) :
    ∃ t us, ts = t :: us ∧ (t.isSymbol .bang || t.isSymbol .minus) = false := by
  have of_kind : ∀ {t : Token}, t.kind ≠ .symbol .bang → t.kind ≠ .symbol .minus →
      (t.isSymbol .bang || t.isSymbol .minus) = false := by
    intro t hb hm
    simp [Token.isSymbol, hb, hm]
  induction h with
  | operand hne _ ih =>
    rcases hr with rfl | rfl
    · exact ih (.inr rfl)
    · exact absurd rfl hne
  | operator op ho =>
    rcases hr with rfl | rfl <;> cases ho
  | call arguments opening closing _ _ _ _ _ _ ih =>
    obtain ⟨t, us, rfl, ht⟩ := ih (.inl rfl)
    exact ⟨t, _, rfl, ht⟩
  | literal t h =>
    refine ⟨t, [], rfl, of_kind ?_ ?_⟩
    all_goals
      intro hk
      rw [hk] at h
      cases h
  | name t h => exact ⟨t, [], rfl, of_kind (by simp [h]) (by simp [h])⟩
  | grouping opening closing ho => exact ⟨_, _, rfl, of_kind (by simp [ho]) (by simp [ho])⟩
  | _ => simp at hr

theorem unary_complete {n : Nat} {call : Reader Expr} (h : Complete n .call call) :
    ∀ k ≤ n, Complete k .unary (unary call k)
  | 0, _ => by
    intro ts e rest he hlen
    obtain ⟨t, us, rfl, -⟩ := he.first
    simp at hlen
  | k + 1, hk => by
    intro ts e rest he hlen hstop
    unfold unary
    cases he with
    | operand _ he =>
      obtain ⟨t, us, rfl, ht⟩ := not_operator_of_first he (.inl rfl)
      refine .leave (by rintro t ⟨⟩; exact ht) ?_
      exact h _ _ rest he (by omega) hstop
    | operator op ho => cases ho
    | unary op ho he =>
      refine .take (by simpa [Token.isSymbol] using ho) ?_
      refine .bind_last (unary_complete h k (by omega) _ _ rest he ?_ hstop) fun e he => .pure ?_
      · simp only [List.length_cons] at hlen
        omega
      · rw [← he]
        rfl

section List

variable {α β : Type} {item : Reader α} {g : α → β} {rest : List Token} {closing : Token}

theorem commaList_accepts (excess : SyntaxFault) (hc : closing.kind = .symbol .rightParen) :
    ∀ n count (parts : List (List Token × β)) ts, Separated (parts.map (·.1)) ts → parts ≠ [] →
      parts.length ≤ n + 1 → count + parts.length ≤ maxArity →
      (∀ p ∈ parts, ∀ t rest, t.kind = .symbol .comma ∨ t.kind = .symbol .rightParen →
        Accepts item p.1 (t :: rest) (g · = p.2)) →
      Accepts (commaList excess item n count) ts (closing :: rest) (·.map g = parts.map (·.2))
  | n, count, [], _, _, hne, _, _, _ => absurd rfl hne
  | n, count, [p], ts, hs, _, hlen, hmax, hitem => by
    obtain rfl : p.1 = ts := by
      cases hs
      rfl
    have hlimit : ¬ maxArity ≤ count := by
      simp only [List.length_singleton] at hmax
      omega
    have hfirst := hitem p (by simp) closing rest (.inr hc)
    cases n with
    | zero =>
      exact .complainIf hlimit (hfirst.bind_last fun a ha => .pure (by simpa using ha))
    | succ n =>
      refine .complainIf hlimit (hfirst.bind_last fun a ha => .leave ?_ (.pure (by simpa using ha)))
      rintro t ⟨⟩
      simp [Token.isSymbol, hc]
  | 0, count, p :: q :: parts, _, _, _, hlen, _, _ => by simp at hlen
  | n + 1, count, p :: q :: parts, ts, hs, _, hlen, hmax, hitem => by
    obtain ⟨comma, us, rfl, hcomma, hs⟩ : ∃ comma us, ts = p.1 ++ comma :: us ∧
        comma.kind = .symbol .comma ∧ Separated ((q :: parts).map (·.1)) us := by
      cases hs with
      | more ts comma hcomma hs => exact ⟨comma, _, rfl, hcomma, hs⟩
    simp only [List.length_cons] at hlen hmax
    refine .complainIf (by omega) (.bind (hitem p (by simp) comma (us ++ closing :: rest)
      (.inl hcomma)) fun a ha => .take (by simpa [Token.isSymbol] using hcomma) ?_)
    refine .bind_last (commaList_accepts excess hc n (count + 1) (q :: parts) us hs (by simp)
      (by simp only [List.length_cons]; omega) (by simp only [List.length_cons]; omega)
      fun p hp => hitem p (by simp [hp])) fun others h => .pure ?_
    rw [List.map_cons, h, ha]
    rfl

theorem listToParen_accepts {n : Nat} (excess : SyntaxFault)
    (hc : closing.kind = .symbol .rightParen) {parts : List (List Token × β)} {ts : List Token}
    (hs : Separated (parts.map (·.1)) ts) (hlen : parts.length ≤ n + 1) (hmax : parts.length ≤ 255)
    (hfirst : ∀ p ∈ parts, ∃ t us, p.1 = t :: us ∧ t.kind ≠ .symbol .rightParen)
    (hitem : ∀ p ∈ parts, ∀ t rest, t.kind = .symbol .comma ∨ t.kind = .symbol .rightParen →
      Accepts item p.1 (t :: rest) (g · = p.2)) :
    Accepts (listToParen n excess item) ts (closing :: rest) (·.map g = parts.map (·.2)) := by
  rcases parts with _ | ⟨p, parts⟩
  · obtain rfl : ts = [] := by
      cases hs
      rfl
    exact .test (b := true) (fun _ => rfl) (fun id cs => by simp [Token.isSymbol, hc]) (.pure rfl)
  · obtain ⟨t, us, rfl, ht⟩ : ∃ t us, ts = t :: us ∧ t.kind ≠ .symbol .rightParen := by
      obtain ⟨t, us, hp, ht⟩ := hfirst p (by simp)
      obtain ⟨vs, rfl⟩ := hs.first
      exact ⟨t, us ++ vs, by simp [hp], ht⟩
    exact .test (b := false) (fun _ => rfl) (fun id cs => by simp [Token.isSymbol, ht])
      (commaList_accepts excess hc n 0 (p :: parts) _ hs (by simp) hlen
        (by simpa [maxArity] using hmax) hitem)

end List

theorem literal?_of_denotes {t : Token} {value : Literal} (h : Denotes t.kind value) :
    literal? t = some value := by
  generalize hk : t.kind = kind at h
  cases h <;> simp only [literal?, hk]

section Call

variable {n : Nat} {expression : Reader Expr} (h : Complete n .assignment expression)

include h

theorem primary_complete {ts : List Token} {e : Expr} (he : Expression .primary ts e)
    (hlen : ts.length ≤ n + 1) (rest : List Token) :
    Accepts (primary expression) ts rest (·.unnumbered = e) := by
  cases he with
  | operand hne => exact absurd rfl hne
  | operator op ho => cases ho
  | literal t ht =>
    refine .peek ?_
    simp only [literal?_of_denotes ht]
    exact .skip (.pure rfl)
  | name t ht =>
    have hlit : literal? t = none := by simp [literal?, ht]
    have hname : t.isIdentifier = true := by simp [Token.isIdentifier, ht]
    refine .peek ?_
    simp only [hlit, hname, if_true]
    exact .skip (.freshId fun id => .pure rfl)
  | grouping opening closing ho he hc =>
    have hlit : literal? opening = none := by simp [literal?, ho]
    have hname : opening.isIdentifier = false := by simp [Token.isIdentifier, ho]
    have hopen : opening.isSymbol .leftParen = true := by simp [Token.isSymbol, ho]
    simp only [List.cons_append, List.length_cons, List.length_append, List.length_nil] at hlen
    refine .peek ?_
    simp only [hlit, hname, hopen, if_true, Bool.false_eq_true, if_false]
    refine .skip (.bind (h _ _ _ he (by omega) (.closing (by simp [hc]))) fun inner hinner =>
      .symbol hc (.pure ?_))
    rw [← hinner]
    rfl

/-- On a sentence of calls, the argument lists are read up to the end of the sentence, with bound
enough to go on. -/
theorem calls_lead {ts : List Token} {e : Expr} (he : Expression .call ts e) :
    ∀ rest, ts.length ≤ n + 1 → ∀ id cs, ∃ callee id' k,
      call (n + 1) expression ⟨ts ++ rest, id, cs⟩ =
        calls (n + 1) expression k callee ⟨rest, id', cs⟩ ∧
      callee.unnumbered = e ∧ n + 1 < k + ts.length := by
  generalize hrank : Rank.call = rank at he
  induction he with
  | operand _ he =>
    subst hrank
    intro rest hlen id cs
    obtain ⟨callee, id', hrun, hcallee⟩ := primary_complete h he hlen rest id cs
    obtain ⟨t, us, rfl, -⟩ := he.first
    refine ⟨callee, id', n + 1, ?_, hcallee, by simp⟩
    simp only [call, Bind.bind, EStateM.bind, hrun]
  | operator op ho => subst hrank; cases ho
  | @call ts inner f arguments opening closing hf ho ha hs hmax hc ih =>
    intro rest hlen id cs
    simp only [List.length_append, List.length_cons, List.length_nil] at hlen
    obtain ⟨callee, id₁, k, hrun, hcallee, hk⟩ :=
      ih rfl (opening :: inner ++ closing :: rest) (by omega) id cs
    have hcard := hs.card_le
    rw [List.length_map] at hcard
    have hargs : Accepts (listToParen (n + 1) .tooManyArguments expression) inner
        (closing :: rest) (·.map (·.unnumbered) = arguments.map (·.2)) := by
      refine listToParen_accepts .tooManyArguments hc hs (by omega) hmax (fun a ha' => ?_)
        fun a ha' t rest ht => ?_
      · obtain ⟨t, us, hus, ht⟩ := (ha a ha').first
        exact ⟨t, us, hus, ht.ne_closing.1⟩
      · have := hs.length_le a.1 (List.mem_map_of_mem ha')
        exact h _ _ _ (ha a ha') (by omega) (.closing (by rcases ht with ht | ht <;> simp [ht]))
    obtain ⟨items, id₂, hrun', hitems⟩ := hargs id₁ cs
    obtain ⟨k, rfl⟩ : ∃ k', k = k' + 1 := ⟨k - 1, by omega⟩
    refine ⟨.call callee closing items, id₂, k, ?_, ?_, ?_⟩
    · have hopen : opening.isSymbol .leftParen = true := by simp [Token.isSymbol, ho]
      have hclose : closing.isSymbol .rightParen = true := by simp [Token.isSymbol, hc]
      simp only [List.append_assoc, List.cons_append, List.nil_append] at hrun ⊢
      rw [hrun]
      simp only [calls, Bind.bind, EStateM.bind, Reader.accept?, hopen, if_true, hrun',
        Reader.symbol, Reader.expect, hclose]
    · rw [Expr.unnumbered, Expr.unnumberedAll_eq_map, hcallee, hitems]
    · simp only [List.length_append, List.length_cons, List.length_nil]
      omega
  | _ => cases hrank

theorem call_complete : Complete (n + 1) .call (call (n + 1) expression) := by
  intro ts e rest he hlen hstop id cs
  obtain ⟨callee, id', k, hrun, hcallee, -⟩ := calls_lead h he rest hlen id cs
  refine ⟨callee, id', ?_, hcallee⟩
  rw [hrun]
  rcases k with _ | k
  · rfl
  rcases rest with _ | ⟨t, rest⟩
  · rfl
  have ht : t.isSymbol .leftParen = false := by
    simpa [Token.isSymbol, Rank.continuing] using hstop t rfl
  simp only [calls, Bind.bind, EStateM.bind, Reader.accept?, ht]
  rfl

theorem assignment_complete : Complete (n + 1) .assignment (assignment (n + 1) expression) := by
  have hbinary := binary_complete (unary_complete (call_complete h) (n + 1) (Nat.le_refl _))
  intro ts e rest he hlen hstop
  unfold assignment
  cases he with
  | operand _ he =>
    refine .bind_last (hbinary _ _ rest he hlen hstop.tighter) fun target ht => .leave ?_ (.pure ht)
    intro t ht
    have := hstop t ht
    simp only [Rank.continuing, List.mem_cons, not_or] at this
    simpa [Token.isSymbol] using this.1
  | operator op ho => cases ho
  | @assign value e name equals hn heq hv =>
    have htarget : Expression .or [name] (.read 0 name) :=
      .of_primary (.name name hn)
    have hne : Stops .or (equals :: value ++ rest) := by
      rintro t ⟨⟩
      rw [heq]
      decide
    simp only [List.length_cons] at hlen
    refine .bind_token (hbinary _ _ _ htarget (by simp) hne) fun target ht =>
      .take (by simp [Token.isSymbol, heq]) (.bind_last (h _ _ rest hv (by omega) hstop)
        fun e he => ?_)
    obtain ⟨id, rfl⟩ : ∃ id, target = .read id name := by
      cases target <;> simp only [Expr.unnumbered, reduceCtorEq, Expr.read.injEq] at ht
      exact ⟨_, by rw [ht.2]⟩
    refine .freshId fun id => .pure ?_
    rw [← he]
    rfl

end Call

/-- A sentence is read as an expression, whatever stands after it that does not continue it. -/
theorem expression_complete : ∀ n, Complete n .assignment (expression n)
  | 0 => by
    intro ts e rest he hlen
    obtain ⟨t, us, rfl, -⟩ := he.first
    simp at hlen
  | n + 1 => assignment_complete (expression_complete n)

end Lox.Grammar
