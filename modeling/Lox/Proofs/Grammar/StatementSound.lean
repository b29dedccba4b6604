import Lox.Proofs.Grammar.ExpressionSound
import Lox.Proofs.Grammar.First

/-!
# Statements that are read are sentences

A statement that is read without a complaint took a sentence, built its tree and numbered the
tree's references with numbers of its own (`statement_declaration_reads`). An open statement is
left only in front of a token that is no `else`, since the `if` it ends in would have taken it.
-/

namespace Lox.Grammar

open Sentence

/-- A statement or declaration stands between two rows, its references numbered between them. -/
def SpellsStmt (S : List Token → Stmt → Prop) (row : Row) (s : Stmt) (row' : Row) : Prop :=
  ∃ ts, row.tokens = ts ++ row'.tokens ∧ S ts s.unnumbered ∧ Numbers row.nextId row'.nextId s.ids

/-- A statement stands between two rows, and no `else` follows it if it is open. -/
def SpellsStatement (row : Row) (s : Stmt) (row' : Row) : Prop :=
  ∃ isOpen, SpellsStmt (Sentence.Statement (.statement isOpen)) row s row' ∧
    (isOpen = true → ∀ t ∈ row'.tokens.head?, t.kind ≠ .keyword .elseKw)

def SpellsBody (row : Row) (body : List Stmt) (row' : Row) : Prop :=
  ∃ parts : List (List Token × Stmt), (∀ d ∈ parts, Sentence.Statement .declaration d.1 d.2) ∧
    row.tokens = parts.flatMap (·.1) ++ row'.tokens ∧
    Stmt.unnumberedAll body = parts.map (·.2) ∧
    Numbers row.nextId row'.nextId (Stmt.idsOfAll body)

theorem SpellsBody.cons {row mid row' : Row} {s : Stmt} {body : List Stmt}
    (hs : SpellsStmt (Sentence.Statement .declaration) row s mid) (hb : SpellsBody mid body row') :
    SpellsBody row (s :: body) row' := by
  obtain ⟨ts, hts, hS, hids⟩ := hs
  obtain ⟨parts, hparts, htok, htree, hids'⟩ := hb
  refine ⟨(ts, s.unnumbered) :: parts, ?_, by simp [hts, htok], ?_, hids.append hids'⟩
  · simpa using ⟨hS, by simpa using hparts⟩
  · simp [Stmt.unnumberedAll, htree]

section Declarations

variable {declaration : Reader (Option Stmt)} {stop : Reader Bool} {ended : Row → Bool}
  (hd : Reads declaration fun row s? row' =>
    ∃ s, s? = some s ∧ SpellsStmt (Sentence.Statement .declaration) row s row')
  (hstop : ∀ row, stop row = .ok (ended row) row)

include hd hstop

/-- Declarations go on until `stop` holds, or as many as allowed were read. -/
theorem declarations_reads : ∀ n, Reads (declarations declaration stop n) fun row body row' =>
    SpellsBody row body row' ∧ (ended row' = true ∨ body.length = n)
  | 0 => (Reads.pure []).mono (by
    rintro row body row' ⟨rfl, rfl⟩
    exact ⟨⟨[], by simp, rfl, rfl, .nil (Nat.le_refl _)⟩, .inr rfl⟩)
  | n + 1 => by
    unfold declarations
    refine (Reads.ifTest hstop (Reads.pure []) (hd.bind fun first? =>
      (declarations_reads n).bind fun others => Reads.pure _)).mono ?_
    intro row body row' h
    split at h
    · obtain ⟨rfl, rfl⟩ := h
      exact ⟨⟨[], by simp, rfl, rfl, .nil (Nat.le_refl _)⟩, .inl (by assumption)⟩
    · obtain ⟨_, mid, ⟨s, rfl, hs⟩, others, mid', ⟨hall, hover⟩, rfl, rfl⟩ := h
      exact ⟨SpellsBody.cons hs hall, hover.imp_right fun h => by simp [h]⟩

end Declarations

section Block

variable {n : Nat} {declaration : Reader (Option Stmt)}
  (hd : Reads declaration fun row s? row' =>
    ∃ s, s? = some s ∧ SpellsStmt (Sentence.Statement .declaration) row s row')

include hd

theorem block_reads : Reads (block n declaration) fun row body row' =>
    ∃ mid right, SpellsBody row body mid ∧ right.kind = .symbol .rightBrace ∧
      mid.tokens = right :: row'.tokens ∧ row'.nextId = mid.nextId := by
  refine ((declarations_reads hd (fun _ => rfl) n).bind fun body =>
    (Reads.symbol .rightBrace .block).bind fun _ => Reads.pure body).mono ?_
  rintro row body row' ⟨_, mid, ⟨hbody, -⟩, right, _, ⟨hk, htok, hid⟩, rfl, rfl⟩
  exact ⟨mid, right, hbody, hk, htok, hid⟩

theorem function_reads {fn : Token} (hk : fn.kind = .keyword .funKw) :
    Reads (function n declaration) fun row s row' => ∃ ts, row.tokens = ts ++ row'.tokens ∧
      Sentence.Statement .declaration (fn :: ts) s.unnumbered ∧
      Numbers row.nextId row'.nextId s.ids := by
  unfold function
  have hparam : Reads (Reader.name .parameter) fun row t row' => ∃ ts,
      row.tokens = ts ++ row'.tokens ∧ (ts = [t] ∧ t.kind = .identifier) ∧
      Numbers row.nextId row'.nextId ((fun _ => []) t) := by
    refine (Reads.name .parameter).mono ?_
    rintro row t row' ⟨ht, htok, hid⟩
    exact ⟨[t], by simpa using htok, ⟨rfl, ht⟩, .nil (Nat.le_of_eq hid.symm)⟩
  refine ((Reads.name .function).bind fun name => (Reads.symbol .leftParen _).bind fun opening =>
    (listToParen_reads hparam n _).bind fun params =>
    (Reads.symbol .rightParen _).bind fun closing => (Reads.symbol .leftBrace _).bind fun left =>
    (block_reads hd).bind fun body => Reads.pure _).mono ?_
  · rintro row s row' ⟨name, r1, ⟨hn, ht1, hi1⟩, opening, r2, ⟨ho, ht2, hi2⟩, params, r3,
      ⟨⟨parts, us, hus, hparts, hsep, rfl, hids⟩, hlen⟩, closing, r4, ⟨hc, ht4, hi4⟩, left, r5,
      ⟨hl, ht5, hi5⟩, body, r6, ⟨mid, right, hbody, hr, ht6, hi6⟩, rfl, rfl⟩
    obtain ⟨decls, hdecls, htok, htree, hids'⟩ := hbody
    refine ⟨name :: opening :: us ++ closing :: left :: decls.flatMap (·.1) ++ [right],
      by simp [ht1, ht2, hus, ht4, ht5, htok, ht6], ?_, ?_⟩
    · have hnames : (parts.map (·.2)).map ([·]) = parts.map (·.1) := by
        rw [List.map_map]
        exact List.map_congr_left fun p hp => (hparts p hp).1.symm
      have hall : ∀ p ∈ parts.map (·.2), p.kind = .identifier := by
        intro p hp
        obtain ⟨q, hq, rfl⟩ := List.mem_map.1 hp
        exact (hparts q hq).2
      rw [Stmt.unnumbered, htree]
      exact .function _ decls fn name opening closing left right hk hn ho hall (hnames ▸ hsep)
        (by simpa using hlen) hc hl hdecls hr
    · rw [Stmt.ids, hi6]
      rw [hi5, hi4] at hids'
      rw [hi2, hi1] at hids
      exact hids'.of_le hids.le

end Block

theorem variableDeclaration_reads {n : Nat} {var : Token} (hv : var.kind = .keyword .varKw) :
    Reads (variableDeclaration n) fun row s row' => ∃ ts, row.tokens = ts ++ row'.tokens ∧
      VarDecl (var :: ts) s.unnumbered ∧ Numbers row.nextId row'.nextId s.ids := by
  unfold variableDeclaration
  dsimp only
  refine .mono (.bind (.name .var) fun name => .ifAccept
    (.bind (.pure none) fun _ => .bind (.symbol .semicolon _) fun _ => .pure _) fun equals _ =>
    .bind (.map some (expression_reads n)) fun _ =>
      .bind (.symbol .semicolon _) fun _ => .pure _) ?_
  rintro row s row' ⟨name, r1, ⟨hn, ht1, hi1⟩, ⟨-, _, _, ⟨rfl, rfl⟩, semicolon, r2, ⟨hs, ht2, hi2⟩,
    rfl, rfl⟩ | ⟨equals, r2, he, ht2, hi2, _, r3, ⟨e, rfl, us, hus, hexp, hids⟩, semicolon, r4,
    ⟨hs, ht4, hi4⟩, rfl, rfl⟩⟩
  · exact ⟨[name, semicolon], by simp [ht1, ht2], .plain var name semicolon hv hn hs,
      .nil (Nat.le_of_eq (hi2.trans hi1).symm)⟩
  · refine ⟨name :: equals :: us ++ [semicolon], by simp [ht1, ht2, hus, ht4],
      .initialized var name equals semicolon hv hn (by simpa [Token.isSymbol] using he) hexp hs, ?_⟩
    rw [hi4, ← hi1, ← hi2]
    exact hids

theorem expressionStatement_reads (n : Nat) :
    Reads (expressionStatement n) (SpellsStmt ExprStmt) := by
  refine ((expression_reads n).bind fun value =>
    (Reads.symbol .semicolon .expression).bind fun _ => Reads.pure _).mono ?_
  rintro row s row' ⟨e, r1, ⟨us, hus, hexp, hids⟩, semicolon, r2, ⟨hs, ht, hi⟩, rfl, rfl⟩
  exact ⟨us ++ [semicolon], by simp [hus, ht], .mk semicolon hexp hs, hi ▸ hids⟩

theorem optional_reads (n : Nat) (stop : Symbol) :
    Reads (optional n stop) fun row e? row' => ∃ ts, row.tokens = ts ++ row'.tokens ∧
      Optional ts (e?.map (·.unnumbered)) ∧
      Numbers row.nextId row'.nextId (Expr.idsOfOption e?) := by
  refine (Reads.ifTest (fun _ => rfl) (Reads.pure none) ((expression_reads n).bind fun e =>
    Reads.pure (some e))).mono ?_
  intro row e? row' h
  split at h
  · obtain ⟨rfl, rfl⟩ := h
    exact ⟨[], rfl, .none, .nil (Nat.le_refl _)⟩
  · obtain ⟨e, mid, ⟨ts, hts, hexp, hids⟩, rfl, rfl⟩ := h
    exact ⟨ts, hts, .some hexp, hids⟩

def idsOfInitial (initial : Option Stmt) : List NodeId :=
  initial.elim [] (·.ids)

theorem forInitial_reads (n : Nat) :
    Reads (forInitial n) fun row s? row' => ∃ ts, row.tokens = ts ++ row'.tokens ∧
      ForInitial ts (s?.map (·.unnumbered)) ∧
      Numbers row.nextId row'.nextId (idsOfInitial s?) := by
  unfold forInitial
  refine .mono (.ifAccept (.ifAccept (.map some (expressionStatement_reads n)) fun var hv =>
    .map some (variableDeclaration_reads (by simpa [Token.isKeyword] using hv)))
    fun semicolon _ => .pure none) ?_
  rintro row s? row' (⟨-, ⟨-, s, rfl, ts, hts, hS, hids⟩ | ⟨var, r1, -, ht1, hi1, s, rfl, ts, hts,
    hS, hids⟩⟩ | ⟨semicolon, r1, hs, ht1, hi1, rfl, rfl⟩)
  · exact ⟨ts, hts, .expression hS, hids⟩
  · exact ⟨var :: ts, by simp [ht1, hts], .var hS, hi1 ▸ hids⟩
  · exact ⟨[semicolon], ht1, .none semicolon (by simpa [Token.isSymbol] using hs),
      .nil (Nat.le_of_eq hi1.symm)⟩

theorem printStatement_reads {n : Nat} {keyword : Token}
    (hk : keyword.kind = .keyword .printKw) :
    Reads (printStatement n) fun row s row' => ∃ ts, row.tokens = ts ++ row'.tokens ∧
      Sentence.Statement (.statement false) (keyword :: ts) s.unnumbered ∧
      Numbers row.nextId row'.nextId s.ids := by
  refine .mono (.bind (expression_reads n) fun _ => .bind (.symbol .semicolon .value) fun _ =>
    .pure _) ?_
  rintro row s row' ⟨e, r1, ⟨us, hus, hexp, hids⟩, semicolon, r2, ⟨hs, ht, hi⟩, rfl, rfl⟩
  exact ⟨us ++ [semicolon], by simp [hus, ht], .print keyword semicolon hk hexp hs, hi ▸ hids⟩

theorem returnStatement_reads {n : Nat} {keyword : Token}
    (hk : keyword.kind = .keyword .returnKw) :
    Reads (returnStatement n keyword) fun row s row' => ∃ ts, row.tokens = ts ++ row'.tokens ∧
      Sentence.Statement (.statement false) (keyword :: ts) s.unnumbered ∧
      Numbers row.nextId row'.nextId s.ids := by
  refine .mono (.bind (optional_reads n .semicolon) fun _ =>
    .bind (.symbol .semicolon .returnValue) fun _ => .pure _) ?_
  rintro row s row' ⟨e?, r1, ⟨us, hus, hexp, hids⟩, semicolon, r2, ⟨hs, ht, hi⟩, rfl, rfl⟩
  exact ⟨us ++ [semicolon], by simp [hus, ht], .exit keyword semicolon hk hexp hs, hi ▸ hids⟩

/-- What a rule reads after a keyword that was taken. -/
def SpellsAfter (keyword : Token) (row : Row) (s : Stmt) (row' : Row) : Prop :=
  ∃ isOpen ts, row.tokens = ts ++ row'.tokens ∧
    Sentence.Statement (.statement isOpen) (keyword :: ts) s.unnumbered ∧
    Numbers row.nextId row'.nextId s.ids ∧
    (isOpen = true → ∀ t ∈ row'.tokens.head?, t.kind ≠ .keyword .elseKw)

section Nested

variable {n : Nat} {statement : Reader Stmt} {keyword : Token}
  (h : Reads statement SpellsStatement)

include h

theorem whileStatement_reads (hk : keyword.kind = .keyword .whileKw) :
    Reads (whileStatement n statement) (SpellsAfter keyword) := by
  refine .mono (.bind (.symbol .leftParen _) fun _ => .bind (expression_reads n) fun _ =>
    .bind (.symbol .rightParen _) fun _ => .bind h fun _ => .pure _) ?_
  rintro row s row' ⟨opening, r1, ⟨ho, ht1, hi1⟩, c, r2, ⟨cs, hcs, hexp, hids⟩, closing, r3,
    ⟨hc, ht3, hi3⟩, body, r4, ⟨isOpen, ⟨ts, hts, hS, hids'⟩, helse⟩, rfl, rfl⟩
  refine ⟨isOpen, opening :: cs ++ closing :: ts, by simp [ht1, hcs, ht3, hts],
    .loop keyword opening closing hk ho hexp hc hS, ?_, helse⟩
  rw [Stmt.ids]
  exact (hi1 ▸ hids).append (hi3 ▸ hids')

theorem ifStatement_reads (hk : keyword.kind = .keyword .ifKw) :
    Reads (ifStatement n statement) (SpellsAfter keyword) := by
  unfold ifStatement
  dsimp only
  refine .mono (.bind (.symbol .leftParen _) fun _ => .bind (expression_reads n) fun _ =>
    .bind (.symbol .rightParen _) fun _ => .bind h fun _ => .ifAccept
      (.bind (.pure none) fun _ => .pure _) fun _ _ => .bind (.map some h) fun _ => .pure _) ?_
  rintro row s row' ⟨opening, r1, ⟨ho, ht1, hi1⟩, c, r2, ⟨cs, hcs, hexp, hids⟩, closing, r3,
    ⟨hc, ht3, hi3⟩, onTrue, r4, ⟨isOpen, ⟨ts, hts, hS, hids'⟩, helse⟩, hrest⟩
  have hids₂ := (hi1 ▸ hids).append (hi3 ▸ hids')
  rcases hrest with ⟨hno, _, _, ⟨rfl, rfl⟩, rfl, rfl⟩ | ⟨otherwise, r5, he, ht5, hi5, _, r6,
    ⟨onFalse, rfl, isOpen', ⟨es, hes, hS', hids''⟩, helse'⟩, rfl, rfl⟩
  · refine ⟨true, opening :: cs ++ closing :: ts, by simp [ht1, hcs, ht3, hts],
      .ifThen keyword opening closing hk ho hexp hc hS, hids₂, fun _ t ht => ?_⟩
    simpa [Token.isKeyword] using hno t ht
  · have hkind : otherwise.kind = .keyword .elseKw := by simpa [Token.isKeyword] using he
    -- An open statement is not followed by the `else` that was taken.
    obtain rfl : isOpen = false := by
      cases isOpen with
      | true => exact absurd hkind (helse rfl otherwise (by simp [ht5]))
      | false => rfl
    exact ⟨isOpen', opening :: cs ++ closing :: ts ++ otherwise :: es,
      by simp [ht1, hcs, ht3, hts, ht5, hes],
      .ifElse keyword opening closing otherwise hk ho hexp hc hS hkind hS',
      hids₂.append (hi5 ▸ hids''), helse'⟩

omit h in
theorem loopOf_eq_counted (initial : Option Stmt) (condition increment : Option Expr)
    (body : Stmt) :
    loopOf initial condition increment body = .counted initial condition increment body := by
  cases initial <;> cases increment <;> rfl

omit h in
/-- The increment is numbered before the body and stands after it. -/
theorem numbers_counted {a b c d e : NodeId} {initial : Option Stmt}
    {condition increment : Option Expr} {body : Stmt} (hi : Numbers a b (idsOfInitial initial))
    (hc : Numbers b c (Expr.idsOfOption condition))
    (hn : Numbers c d (Expr.idsOfOption increment)) (hb : Numbers d e body.ids) :
    Numbers a e (Stmt.counted initial condition increment body).ids := by
  have hround : Numbers c e (body.withIncrement increment).ids := by
    refine (hn.append hb).perm ?_
    cases increment with
    | none => exact .refl _
    | some i =>
      simpa [Stmt.withIncrement, Stmt.ids, Stmt.idsOfAll, Expr.idsOfOption]
        using List.perm_append_comm
  have hloop : Numbers b e
      (Stmt.loop (condition.getD (.literal (.bool true))) (body.withIncrement increment)).ids := by
    cases condition with
    | none => exact hc.append hround
    | some c => exact hc.append hround
  cases initial with
  | none => exact hi.append hloop
  | some s => simpa [Stmt.counted, Stmt.ids, Stmt.idsOfAll, idsOfInitial] using hi.append hloop

theorem forStatement_reads (hk : keyword.kind = .keyword .forKw) :
    Reads (forStatement n statement) (SpellsAfter keyword) := by
  refine .mono (.bind (.symbol .leftParen _) fun _ => .bind (forInitial_reads n) fun _ =>
    .bind (optional_reads n _) fun _ => .bind (.symbol .semicolon _) fun _ =>
    .bind (optional_reads n _) fun _ => .bind (.symbol .rightParen _) fun _ =>
    .bind h fun _ => .pure _) ?_
  rintro row s row' ⟨opening, r1, ⟨ho, ht1, hi1⟩, initial, r2, ⟨is, his, hinit, hids⟩, condition,
    r3, ⟨cs, hcs, hcond, hids₁⟩, semicolon, r4, ⟨hs, ht4, hi4⟩, increment, r5, ⟨ns, hns, hincr,
    hids₂⟩, closing, r6, ⟨hc, ht6, hi6⟩, body, r7, ⟨isOpen, ⟨ts, hts, hS, hids₃⟩, helse⟩, rfl, rfl⟩
  refine ⟨isOpen, opening :: is ++ cs ++ semicolon :: ns ++ closing :: ts,
    by simp [ht1, his, hcs, ht4, hns, ht6, hts], ?_, ?_, helse⟩
  · rw [Stmt.unnumbered_counted, ← loopOf_eq_counted]
    exact .counted keyword opening semicolon closing hk ho hinit hcond hs hincr hc hS
  · exact numbers_counted (hi1 ▸ hids) hids₁ (hi4 ▸ hids₂) (hi6 ▸ hids₃)

end Nested

/-- A statement after its keyword, with the keyword. -/
theorem SpellsAfter.statement {keyword : Token} {row mid row' : Row} {s : Stmt}
    (h : SpellsAfter keyword mid s row') (ht : row.tokens = keyword :: mid.tokens)
    (hi : mid.nextId = row.nextId) : SpellsStatement row s row' := by
  obtain ⟨isOpen, ts, hts, hS, hids, helse⟩ := h
  exact ⟨isOpen, ⟨keyword :: ts, by simp [ht, hts], hS, hi ▸ hids⟩, helse⟩

theorem spellsAfter_of_closed {keyword : Token} {r : Reader Stmt}
    (h : Reads r fun row s row' => ∃ ts, row.tokens = ts ++ row'.tokens ∧
      Sentence.Statement (.statement false) (keyword :: ts) s.unnumbered ∧
      Numbers row.nextId row'.nextId s.ids) : Reads r (SpellsAfter keyword) :=
  h.mono fun _ _ _ ⟨ts, hts, hS, hids⟩ => ⟨false, ts, hts, hS, hids, by simp⟩

theorem expressionStatement_closed (n : Nat) :
    Reads (expressionStatement n) SpellsStatement :=
  (expressionStatement_reads n).mono fun _ _ _ ⟨ts, hts, hS, hids⟩ =>
    ⟨false, ⟨ts, hts, .expression hS, hids⟩, by simp⟩

section Rules

variable {n : Nat} {statement : Reader Stmt} {declaration : Reader (Option Stmt)}
  (hs : Reads statement SpellsStatement)
  (hd : Reads declaration fun row s? row' =>
    ∃ s, s? = some s ∧ SpellsStmt (Sentence.Statement .declaration) row s row')

include hs hd

theorem statementRule_reads : Reads (statementRule n statement declaration) SpellsStatement := by
  have hskip : ∀ {keyword : Token} {r : Reader Stmt}, Reads r (SpellsAfter keyword) →
      Reads (do Reader.skip; r) fun row s row' =>
        row.tokens = keyword :: row.tokens.tail → SpellsStatement row s row' := by
    intro keyword r h
    refine .mono (.bind .skip fun _ => h) ?_
    rintro row s row' ⟨_, mid, ⟨htok, hid⟩, h⟩ ht
    exact h.statement (htok ▸ ht) hid
  unfold statementRule
  refine .mono (.ifPeek (R := fun t row s row' => row.tokens = t :: row.tokens.tail →
    SpellsStatement row s row') (expressionStatement_closed n) fun t => ?_) ?_
  · dsimp only
    split
    · exact hskip (forStatement_reads hs (by assumption))
    · exact hskip (spellsAfter_of_closed (printStatement_reads (by assumption)))
    · rename_i hk
      refine .mono (.bind .skip fun _ => .map _ (block_reads hd)) ?_
      rintro row s row' ⟨_, mid, ⟨htok, hid⟩, body, rfl, r1, right, hbody, hr, ht1, hi1⟩ ht
      obtain ⟨parts, hparts, htoks, htree, hids⟩ := hbody
      refine ⟨false, ⟨t :: parts.flatMap (·.1) ++ [right], ?_, ?_, ?_⟩, by simp⟩
      · rw [ht, ← htok, htoks, ht1]
        simp
      · rw [Stmt.unnumbered, htree]
        exact .block parts t right hk hparts hr
      · rw [Stmt.ids, hi1, ← hid]
        exact hids
    · exact hskip (ifStatement_reads hs (by assumption))
    · exact hskip (whileStatement_reads hs (by assumption))
    · exact hskip (spellsAfter_of_closed (returnStatement_reads (by assumption)))
    · exact (expressionStatement_closed n).mono fun _ _ _ h _ => h
  · rintro row s row' (⟨-, h⟩ | ⟨t, ht, h⟩)
    · exact h
    · exact h ht

theorem declarationRule_reads :
    Reads (declarationRule n statement declaration)
      (SpellsStmt (Sentence.Statement .declaration)) := by
  refine .mono (.ifAccept (.ifAccept (statementRule_reads hs hd) fun var hv =>
    variableDeclaration_reads (by simpa [Token.isKeyword] using hv)) fun fn hf =>
    function_reads hd (by simpa [Token.isKeyword] using hf)) ?_
  rintro row s row' (⟨-, ⟨-, isOpen, ⟨ts, hts, hS, hids⟩, -⟩ | ⟨var, r1, -, ht1, hi1, ts, hts, hS,
    hids⟩⟩ | ⟨fn, r1, -, ht1, hi1, ts, hts, hS, hids⟩)
  · exact ⟨ts, hts, .statement hS, hids⟩
  · exact ⟨var :: ts, by simp [ht1, hts], .var hS, hi1 ▸ hids⟩
  · exact ⟨fn :: ts, by simp [ht1, hts], hS, hi1 ▸ hids⟩

end Rules

/-- A statement and a declaration that are read without a complaint are sentences. -/
theorem statement_declaration_reads : ∀ n, Reads (statement n) SpellsStatement ∧
    Reads (declaration n) fun row s? row' =>
      ∃ s, s? = some s ∧ SpellsStmt (Sentence.Statement .declaration) row s row'
  | 0 => ⟨.fail _, .recovering (.fail _)⟩
  | n + 1 => by
    obtain ⟨hs, hd⟩ := statement_declaration_reads n
    exact ⟨statementRule_reads hs hd, .recovering (declarationRule_reads hs hd)⟩

end Lox.Grammar
