import Lox.Proofs.Grammar.Tokens
import Lox.Proofs.Token.Longest

/-!
# Operators and names of a program

In the tree of a program an operator stands only where it has a meaning, and what is read or
written has the name of a variable (`Stmt.Meaningful`). The grammar sees to the operators; that a
name is one is a matter of the token, which the scanner made of a lexeme
(`Grammar.parseProgram_meaningful`).
-/

namespace Lox

/-- A word that is no reserved one, as the lexemes of the language have it. -/
def IsName (x : String) : Prop :=
  Lexeme x.toList (.token .identifier)

/-- The operators between two values. -/
def binaryOperators : List Symbol :=
  [.bangEqual, .equalEqual, .greater, .greaterEqual, .less, .lessEqual, .minus, .plus, .slash,
    .star]

mutual

/-- Operators have a meaning where they stand, and references are to names. -/
def Expr.Meaningful : Expr → Prop
  | .literal _ => True
  | .grouping inner => inner.Meaningful
  | .unary operator operand =>
    (operator.kind = .symbol .bang ∨ operator.kind = .symbol .minus) ∧ operand.Meaningful
  | .binary left operator right =>
    left.Meaningful ∧ (∃ s ∈ binaryOperators, operator.kind = .symbol s) ∧ right.Meaningful
  | .logical left _ right => left.Meaningful ∧ right.Meaningful
  | .read _ name => IsName name.lexeme
  | .assign _ name value => IsName name.lexeme ∧ value.Meaningful
  | .call callee _ arguments => callee.Meaningful ∧ MeaningfulAll arguments

def Expr.MeaningfulAll : List Expr → Prop
  | [] => True
  | e :: es => e.Meaningful ∧ MeaningfulAll es

end

def Expr.MeaningfulOption : Option Expr → Prop
  | none => True
  | some e => e.Meaningful

mutual

/-- The same of a statement and of all functions in it. -/
def Stmt.Meaningful : Stmt → Prop
  | .expression value => value.Meaningful
  | .print value => value.Meaningful
  | .var _ initial => Expr.MeaningfulOption initial
  | .block body => MeaningfulAll body
  | .branch condition onTrue none => condition.Meaningful ∧ onTrue.Meaningful
  | .branch condition onTrue (some onFalse) =>
    condition.Meaningful ∧ onTrue.Meaningful ∧ onFalse.Meaningful
  | .loop condition body => condition.Meaningful ∧ body.Meaningful
  | .function _ _ body => MeaningfulAll body
  | .exit _ value => Expr.MeaningfulOption value

def Stmt.MeaningfulAll : List Stmt → Prop
  | [] => True
  | s :: ss => s.Meaningful ∧ MeaningfulAll ss

end

theorem Expr.meaningfulAll_iff (es : List Expr) :
    Expr.MeaningfulAll es ↔ ∀ e ∈ es, e.Meaningful := by
  induction es with
  | nil => simp [Expr.MeaningfulAll]
  | cons e es ih => simp [Expr.MeaningfulAll, ih]

theorem Stmt.meaningfulAll_iff (ss : List Stmt) :
    Stmt.MeaningfulAll ss ↔ ∀ s ∈ ss, s.Meaningful := by
  induction ss with
  | nil => simp [Stmt.MeaningfulAll]
  | cons s ss ih => simp [Stmt.MeaningfulAll, ih]

mutual

theorem Expr.meaningful_unnumbered : ∀ e : Expr, e.unnumbered.Meaningful ↔ e.Meaningful
  | .literal _ | .read _ _ => Iff.rfl
  | .grouping inner => Expr.meaningful_unnumbered inner
  | .unary _ operand | .assign _ _ operand =>
    and_congr_right fun _ => Expr.meaningful_unnumbered operand
  | .binary left _ right =>
    and_congr (Expr.meaningful_unnumbered left)
      (and_congr_right fun _ => Expr.meaningful_unnumbered right)
  | .logical left _ right =>
    and_congr (Expr.meaningful_unnumbered left) (Expr.meaningful_unnumbered right)
  | .call callee _ arguments =>
    and_congr (Expr.meaningful_unnumbered callee) (Expr.meaningfulAll_unnumbered arguments)

theorem Expr.meaningfulAll_unnumbered : ∀ es : List Expr,
    Expr.MeaningfulAll (Expr.unnumberedAll es) ↔ Expr.MeaningfulAll es
  | [] => Iff.rfl
  | e :: es => and_congr (Expr.meaningful_unnumbered e) (Expr.meaningfulAll_unnumbered es)

end

theorem Expr.meaningfulOption_unnumbered : ∀ e? : Option Expr,
    Expr.MeaningfulOption (e?.map (·.unnumbered)) ↔ Expr.MeaningfulOption e?
  | none => Iff.rfl
  | some e => e.meaningful_unnumbered

mutual

theorem Stmt.meaningful_unnumbered : ∀ s : Stmt, s.unnumbered.Meaningful ↔ s.Meaningful
  | .expression value | .print value => value.meaningful_unnumbered
  | .var _ initial | .exit _ initial => Expr.meaningfulOption_unnumbered initial
  | .block body | .function _ _ body => Stmt.meaningfulAll_unnumbered body
  | .branch condition onTrue none | .loop condition onTrue =>
    and_congr condition.meaningful_unnumbered (Stmt.meaningful_unnumbered onTrue)
  | .branch condition onTrue (some onFalse) =>
    and_congr condition.meaningful_unnumbered
      (and_congr (Stmt.meaningful_unnumbered onTrue) (Stmt.meaningful_unnumbered onFalse))

theorem Stmt.meaningfulAll_unnumbered : ∀ ss : List Stmt,
    Stmt.MeaningfulAll (Stmt.unnumberedAll ss) ↔ Stmt.MeaningfulAll ss
  | [] => Iff.rfl
  | s :: ss => and_congr (Stmt.meaningful_unnumbered s) (Stmt.meaningfulAll_unnumbered ss)

end

/-- Every name among some tokens is one by its lexeme. -/
def WellNamed (ts : List Token) : Prop :=
  ∀ t ∈ ts, t.kind = .identifier → IsName t.lexeme

theorem WellNamed.subset {ts us : List Token} (h : WellNamed ts) (hs : us ⊆ ts) : WellNamed us :=
  fun t ht => h t (hs ht)

@[grind =] theorem wellNamed_cons {t : Token} {ts : List Token} :
    WellNamed (t :: ts) ↔ (t.kind = .identifier → IsName t.lexeme) ∧ WellNamed ts :=
  List.forall_mem_cons

@[grind =] theorem wellNamed_append {ts us : List Token} :
    WellNamed (ts ++ us) ↔ WellNamed ts ∧ WellNamed us :=
  List.forall_mem_append

namespace Sentence

variable {ts : List Token}

theorem node_meaningful {rank : Rank} {a b : Expr} {op : Token} (ho : op.kind ∈ rank.operators)
    (ha : a.Meaningful) (hb : b.Meaningful) : (rank.node a op b).Meaningful := by
  cases rank with
  | or | and => exact ⟨ha, hb⟩
  | equality | comparison | term | factor =>
    refine ⟨ha, ?_, hb⟩
    simp only [Rank.operators, List.mem_cons, List.not_mem_nil, or_false] at ho
    simp only [binaryOperators, List.mem_cons, List.not_mem_nil]
    grind
  | _ => cases ho

theorem Expression.meaningful {rank : Rank} {e : Expr} (h : Expression rank ts e)
    (hts : WellNamed ts) : e.Meaningful := by
  induction h with
  | assign name equals hn _ _ ih =>
    exact ⟨hts name (by simp) hn, ih (by grind)⟩
  | operand _ _ ih => exact ih hts
  | operator op ho _ _ ihl ihr =>
    exact node_meaningful ho (ihl (by grind)) (ihr (by grind))
  | unary op ho _ ih => exact ⟨ho, ih (by grind)⟩
  | call arguments opening closing _ _ _ hs _ _ ihf iha =>
    refine ⟨ihf (by grind), (Expr.meaningfulAll_iff _).2 fun e he => ?_⟩
    obtain ⟨a, ha, rfl⟩ := List.mem_map.1 he
    refine iha a ha (hts.subset fun t ht => ?_)
    have := hs.subset a.1 (List.mem_map_of_mem ha) ht
    simp [this]
  | literal t _ => trivial
  | name t ht => exact hts t (by simp) ht
  | grouping opening closing _ _ _ ih => exact ih (by grind)

theorem Optional.meaningful {e? : Option Expr} (h : Optional ts e?) (hts : WellNamed ts) :
    Expr.MeaningfulOption e? := by
  cases h with
  | none => trivial
  | some h => exact h.meaningful hts

theorem VarDecl.meaningful {s : Stmt} (h : VarDecl ts s) (hts : WellNamed ts) : s.Meaningful := by
  cases h with
  | plain => trivial
  | initialized var name equals semicolon _ _ _ h _ =>
    exact h.meaningful (by grind)

theorem ExprStmt.meaningful {s : Stmt} (h : ExprStmt ts s) (hts : WellNamed ts) : s.Meaningful := by
  cases h with
  | mk semicolon h => exact h.meaningful (by grind)

theorem ForInitial.meaningful {initial : Option Stmt} (h : ForInitial ts initial)
    (hts : WellNamed ts) : ∀ s ∈ initial, s.Meaningful := by
  cases h with
  | none => nofun
  | var h => rintro _ ⟨⟩; exact h.meaningful hts
  | expression h => rintro _ ⟨⟩; exact h.meaningful hts

theorem loopOf_meaningful {initial : Option Stmt} {condition increment : Option Expr}
    {body : Stmt} (hi : ∀ s ∈ initial, s.Meaningful) (hc : Expr.MeaningfulOption condition)
    (hn : Expr.MeaningfulOption increment) (hb : body.Meaningful) :
    (loopOf initial condition increment body).Meaningful := by
  have hcondition : (condition.getD (.literal (.bool true))).Meaningful := by
    cases condition with
    | none => trivial
    | some c => exact hc
  have hround : (increment.elim body fun i => .block [body, .expression i]).Meaningful := by
    cases increment with
    | none => exact hb
    | some i => exact ⟨hb, hn, trivial⟩
  cases initial with
  | none => exact ⟨hcondition, hround⟩
  | some s => exact ⟨hi s rfl, ⟨hcondition, hround⟩, trivial⟩

theorem meaningfulAll {parts : List (List Token × Stmt)}
    (h : ∀ d ∈ parts, WellNamed d.1 → d.2.Meaningful) (hts : WellNamed (parts.flatMap (·.1))) :
    Stmt.MeaningfulAll (parts.map (·.2)) := by
  refine (Stmt.meaningfulAll_iff _).2 fun s hs => ?_
  obtain ⟨d, hd, rfl⟩ := List.mem_map.1 hs
  exact h d hd (hts.subset fun t ht => List.mem_flatMap.2 ⟨d, hd, ht⟩)

theorem Statement.meaningful {phrase : Phrase} {s : Stmt} (h : Statement phrase ts s)
    (hts : WellNamed ts) : s.Meaningful := by
  induction h with
  | function params body fn name opening closing left right _ _ _ _ _ _ _ _ _ _ ih =>
    exact meaningfulAll ih (by grind)
  | var h => exact h.meaningful hts
  | statement _ ih => exact ih hts
  | expression h => exact h.meaningful hts
  | print keyword semicolon _ h => exact h.meaningful (by grind)
  | block body left right _ _ _ ih => exact meaningfulAll ih (by grind)
  | exit keyword semicolon _ h => exact h.meaningful (by grind)
  | loop keyword opening closing _ _ h _ _ ih =>
    exact ⟨h.meaningful (by grind), ih (by grind)⟩
  | counted keyword opening semicolon closing _ _ hi hc _ hn _ _ ih =>
    exact loopOf_meaningful (hi.meaningful (by grind))
      (hc.meaningful (by grind)) (hn.meaningful (by grind))
      (ih (by grind))
  | ifThen keyword opening closing _ _ h _ _ ih =>
    exact ⟨h.meaningful (by grind), ih (by grind)⟩
  | ifElse keyword opening closing otherwise _ _ h _ _ _ _ iht ihf =>
    exact ⟨h.meaningful (by grind), iht (by grind),
      ihf (by grind)⟩

end Sentence

/-! ## Programs from a source text -/

/-- The tokens of a text that starts on any line have lexemes of their kinds. -/
theorem Lexes.lexeme {line : Nat} {text : List Char} {items : List Scanned}
    (h : Lexes line text items) : ∀ t, Scanned.token t ∈ items → t.kind ≠ .eof →
      Lexeme t.lexeme.toList (.token t.kind) := by
  induction h with
  | finish =>
    intro t ht hne
    obtain rfl : t = ⟨.eof, "", _⟩ := by simpa using ht
    exact absurd rfl hne
  | skip _ _ ih => exact ih
  | @token line text w kind items hw _ ih =>
    intro t ht hne
    rcases List.mem_cons.1 ht with ht | ht
    · cases ht
      simpa using hw.lexeme
    · exact ih t ht hne
  | unterminated _ _ _ ih =>
    intro t ht
    exact ih t (by simpa using ht)
  | unexpected _ _ _ _ ih =>
    intro t ht
    exact ih t (by simpa using ht)

/-- A name that the scanner gives is one by its lexeme. -/
theorem wellNamed_tokens (source : String) : WellNamed (tokens source) := by
  intro t ht hkind
  obtain ⟨item, hitem, ht⟩ := List.mem_filterMap.1 ht
  cases item with
  | error e => cases ht
  | token u =>
    cases ht
    have h := (lexes_ofPieces 1 source.toList).lexeme t hitem (by simp [hkind])
    rwa [hkind] at h

/-- The program that a source text spells is meaningful. -/
theorem Grammar.parseProgram_meaningful {firstId : NodeId} {source : String}
    {program : List Stmt} (h : (parseProgram firstId (tokens source)).result = .ok program) :
    Stmt.MeaningfulAll program := by
  obtain ⟨parts, hparts, htokens, htree⟩ := (parseProgram_sound h).1
  have hnamed : WellNamed (parts.flatMap (·.1)) := by
    rw [← htokens]
    exact (wellNamed_tokens source).subset (List.takeWhile_sublist _).subset
  rw [← Stmt.meaningfulAll_unnumbered, htree]
  exact Sentence.meaningfulAll (fun d hd => (hparts d hd).meaningful) hnamed

end Lox
