import Lox.Proofs.Grammar.Program
import Lox.Proofs.Tree.Within

/-!
# The tokens of a sentence

The tree of a sentence keeps tokens of the sentence and no others, so the tokens of a program are
tokens of its text (`parseProgram_tokens`).
-/

namespace Lox

mutual

theorem Expr.tokens_unnumbered : ∀ e : Expr, e.unnumbered.tokens = e.tokens
  | .literal _ | .read _ _ => rfl
  | .grouping e => Expr.tokens_unnumbered e
  | .unary _ e | .assign _ _ e => by
    simp only [Expr.unnumbered, Expr.tokens, Expr.tokens_unnumbered e]
  | .binary left _ right | .logical left _ right => by
    simp only [Expr.unnumbered, Expr.tokens, Expr.tokens_unnumbered left,
      Expr.tokens_unnumbered right]
  | .call callee _ arguments => by
    simp only [Expr.unnumbered, Expr.tokens, Expr.tokens_unnumbered callee,
      Expr.tokensOfAll_unnumbered arguments]

theorem Expr.tokensOfAll_unnumbered : ∀ es : List Expr,
    Expr.tokensOfAll (Expr.unnumberedAll es) = Expr.tokensOfAll es
  | [] => rfl
  | e :: es => by
    simp only [Expr.unnumberedAll, Expr.tokensOfAll, Expr.tokens_unnumbered e,
      Expr.tokensOfAll_unnumbered es]

end

theorem Expr.tokensOfOption_unnumbered (e? : Option Expr) :
    Expr.tokensOfOption (e?.map (·.unnumbered)) = Expr.tokensOfOption e? := by
  cases e? with
  | none => rfl
  | some e => exact e.tokens_unnumbered

mutual

theorem Stmt.tokens_unnumbered : ∀ s : Stmt, s.unnumbered.tokens = s.tokens
  | .expression value | .print value => value.tokens_unnumbered
  | .var _ initial | .exit _ initial =>
    congrArg (List.cons _) (Expr.tokensOfOption_unnumbered initial)
  | .block body => Stmt.tokensOfAll_unnumbered body
  | .branch condition onTrue none | .loop condition onTrue => by
    simp only [Stmt.unnumbered, Stmt.tokens, condition.tokens_unnumbered,
      Stmt.tokens_unnumbered onTrue]
  | .branch condition onTrue (some onFalse) => by
    simp only [Stmt.unnumbered, Stmt.tokens, condition.tokens_unnumbered,
      Stmt.tokens_unnumbered onTrue, Stmt.tokens_unnumbered onFalse]
  | .function _ _ body => by
    simp only [Stmt.unnumbered, Stmt.tokens, Stmt.tokensOfAll_unnumbered body]

theorem Stmt.tokensOfAll_unnumbered : ∀ ss : List Stmt,
    Stmt.tokensOfAll (Stmt.unnumberedAll ss) = Stmt.tokensOfAll ss
  | [] => rfl
  | s :: ss => by
    simp only [Stmt.unnumberedAll, Stmt.tokensOfAll, Stmt.tokens_unnumbered s,
      Stmt.tokensOfAll_unnumbered ss]

end

theorem Expr.tokensOfAll_eq_flatMap (es : List Expr) :
    Expr.tokensOfAll es = es.flatMap (·.tokens) := by
  induction es with
  | nil => rfl
  | cons e es ih => rw [Expr.tokensOfAll, ih, List.flatMap_cons]

theorem Stmt.tokensOfAll_eq_flatMap (ss : List Stmt) :
    Stmt.tokensOfAll ss = ss.flatMap (·.tokens) := by
  induction ss with
  | nil => rfl
  | cons s ss ih => rw [Stmt.tokensOfAll, ih, List.flatMap_cons]

namespace Sentence

theorem Separated.subset {phrases : List (List Token)} {ts : List Token}
    (h : Separated phrases ts) : ∀ us ∈ phrases, us ⊆ ts := by
  induction h with
  | none => exact List.forall_mem_nil _
  | one ts => simp
  | more ts comma hc hr ih =>
    refine List.forall_mem_cons.2 ⟨by simp, fun us hus t ht => ?_⟩
    exact List.mem_append_right _ (List.mem_cons_of_mem _ (ih us hus ht))

/-- Trees that keep tokens of their phrases keep tokens of all the phrases. -/
theorem flatMap_subset {α : Type} {tokens : α → List Token} {parts : List (List Token × α)}
    {ts : List Token} (h : ∀ p ∈ parts, tokens p.2 ⊆ p.1) (hts : ∀ p ∈ parts, p.1 ⊆ ts) :
    (parts.map (·.2)).flatMap tokens ⊆ ts := by
  intro t ht
  obtain ⟨a, ha, ht⟩ := List.mem_flatMap.1 ht
  obtain ⟨p, hp, rfl⟩ := List.mem_map.1 ha
  exact hts p hp (h p hp ht)

theorem Expression.tokens_subset {rank : Rank} {ts : List Token} {e : Expr}
    (h : Expression rank ts e) : e.tokens ⊆ ts := by
  induction h with
  | assign name equals _ _ _ ih => grind [Expr.tokens]
  | operand _ _ ih => exact ih
  | @operator rank left right a b op _ _ _ ihl ihr =>
    have htokens : (rank.node a op b).tokens = a.tokens ++ op :: b.tokens := by
      cases rank <;> rfl
    grind
  | unary op _ _ ih => exact List.cons_subset_cons _ ih
  | call arguments opening closing _ _ _ hs _ _ ihf iha =>
    have hall := flatMap_subset iha fun p hp => hs.subset p.1 (List.mem_map_of_mem hp)
    rw [← Expr.tokensOfAll_eq_flatMap] at hall
    grind [Expr.tokens]
  | literal t _ => exact List.nil_subset _
  | name t _ => exact List.Subset.refl _
  | grouping opening closing _ _ _ ih => grind [Expr.tokens]

theorem Optional.tokens_subset {ts : List Token} {e? : Option Expr} (h : Optional ts e?) :
    Expr.tokensOfOption e? ⊆ ts := by
  cases h with
  | none => exact List.nil_subset _
  | some h => exact h.tokens_subset

theorem VarDecl.tokens_subset {ts : List Token} {s : Stmt} (h : VarDecl ts s) :
    s.tokens ⊆ ts := by
  cases h with
  | plain var name semicolon => simp [Stmt.tokens, Expr.tokensOfOption]
  | initialized var name equals semicolon _ _ _ h =>
    have hvalue := h.tokens_subset
    grind [Stmt.tokens, Expr.tokensOfOption]

theorem ExprStmt.tokens_subset {ts : List Token} {s : Stmt} (h : ExprStmt ts s) :
    s.tokens ⊆ ts := by
  cases h with
  | mk semicolon h => exact List.Subset.trans h.tokens_subset (List.subset_append_left _ _)

theorem ForInitial.tokens_subset {ts : List Token} {initial : Option Stmt}
    (h : ForInitial ts initial) : ∀ s ∈ initial, s.tokens ⊆ ts := by
  cases h with
  | none => nofun
  | var h => rintro _ ⟨⟩; exact h.tokens_subset
  | expression h => rintro _ ⟨⟩; exact h.tokens_subset

theorem tokens_loopOf (initial : Option Stmt) (condition increment : Option Expr) (body : Stmt) :
    ∀ t ∈ (loopOf initial condition increment body).tokens,
      (∃ s ∈ initial, t ∈ s.tokens) ∨ t ∈ Expr.tokensOfOption condition ∨
        t ∈ Expr.tokensOfOption increment ∨ t ∈ body.tokens := by
  intro t
  cases initial <;> cases condition <;> cases increment <;>
    simp [loopOf, Stmt.tokens, Stmt.tokensOfAll, Expr.tokens, Expr.tokensOfOption] <;> grind

theorem tokensOfAll_subset {parts : List (List Token × Stmt)}
    (h : ∀ d ∈ parts, d.2.tokens ⊆ d.1) :
    Stmt.tokensOfAll (parts.map (·.2)) ⊆ parts.flatMap (·.1) := by
  rw [Stmt.tokensOfAll_eq_flatMap]
  exact flatMap_subset h fun d hd t ht => List.mem_flatMap.2 ⟨d, hd, ht⟩

theorem Statement.tokens_subset {phrase : Phrase} {ts : List Token} {s : Stmt}
    (h : Statement phrase ts s) : s.tokens ⊆ ts := by
  induction h with
  | function params body fn name opening closing left right _ _ _ _ hs _ _ _ _ _ ih =>
    have hbody := tokensOfAll_subset ih
    have hparams : params ⊆ _ := fun t ht =>
      hs.subset [t] (List.mem_map_of_mem ht) (List.mem_singleton_self t)
    grind [Stmt.tokens]
  | var h => exact h.tokens_subset
  | statement _ ih => exact ih
  | expression h => exact h.tokens_subset
  | print keyword semicolon _ h =>
    have hvalue := h.tokens_subset
    grind [Stmt.tokens]
  | block body left right _ _ _ ih =>
    have hbody := tokensOfAll_subset ih
    grind [Stmt.tokens]
  | exit keyword semicolon _ h =>
    have hvalue := h.tokens_subset
    grind [Stmt.tokens]
  | loop keyword opening closing _ _ h _ _ ih =>
    have hcondition := h.tokens_subset
    grind [Stmt.tokens]
  | counted keyword opening semicolon closing _ _ hi hc _ hn _ _ ih =>
    have hinitial := hi.tokens_subset
    have hcondition := hc.tokens_subset
    have hincrement := hn.tokens_subset
    intro t ht
    rcases tokens_loopOf _ _ _ _ t ht with ⟨s, hs, ht⟩ | ht | ht | ht <;> grind
  | ifThen keyword opening closing _ _ h _ _ ih =>
    have hcondition := h.tokens_subset
    grind [Stmt.tokens]
  | ifElse keyword opening closing otherwise _ _ h _ _ _ _ iht ihf =>
    have hcondition := h.tokens_subset
    grind [Stmt.tokens]

theorem Program.tokens_subset {ts : List Token} {program : List Stmt} (h : Program ts program) :
    Stmt.tokensOfAll program ⊆ ts := by
  obtain ⟨parts, hparts, rfl, rfl⟩ := h
  exact tokensOfAll_subset fun d hd => (hparts d hd).tokens_subset

end Sentence

/-- The tree of a program keeps tokens of its text only. -/
theorem Grammar.parseProgram_tokens {firstId : NodeId} {ts : List Token} {program : List Stmt}
    (h : (parseProgram firstId ts).result = .ok program) : Stmt.tokensOfAll program ⊆ ts := by
  have hsubset := (parseProgram_sound h).1.tokens_subset
  rw [Stmt.tokensOfAll_unnumbered] at hsubset
  exact List.Subset.trans hsubset (List.takeWhile_sublist _).subset

end Lox
