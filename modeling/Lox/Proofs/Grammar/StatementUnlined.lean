import Lox.Proofs.Grammar.Errors
import Lox.Proofs.Grammar.Unlined

/-!
# Programs on other lines

The rules of statements do without lines as those of expressions do, also when they recover, so a
row of tokens is read as the same tree on any lines, or has the same errors (`run_unlined`). Nor
does it matter from where on references are numbered (`run_firstId`).
-/

namespace Lox

/-- The error that a complaint becomes, where `last` is the end token. -/
def Complaint.locatedAt (last : Token) (c : Complaint) : SyntaxError :=
  ⟨c.cause, c.token?.getD last⟩

/-- The same error on no line. -/
def SyntaxError.unlined (e : SyntaxError) : SyntaxError :=
  { e with token := e.token.unlined }

namespace Grammar

variable {α β : Type} {n : Nat}

section Simple

theorem variableDeclaration_unlines (n : Nat) :
    Unlines (variableDeclaration n) (variableDeclaration n) (·.unlined) := by
  unfold variableDeclaration
  dsimp only
  refine (Unlines.name .var).bind fun name => .ifAccept (fun _ => rfl) (fun equals => ?_) ?_
  · refine (expression_unlines n).map_some.bind fun initial => ?_
    exact (Unlines.symbol .semicolon .declaration).bind fun _ => .pure rfl
  · simp only [pure_bind]
    exact (Unlines.symbol .semicolon .declaration).bind fun _ => .pure rfl

/-- An expression before a semicolon that ends a statement. -/
theorem terminated_unlines (place : Place) (node : Expr → Stmt)
    (hnode : ∀ e, (node e).unlined = node e.unlined) (n : Nat) :
    Unlines
      (do
        let value ← expression n
        let _ ← Reader.symbol .semicolon place
        return node value)
      (do
        let value ← expression n
        let _ ← Reader.symbol .semicolon place
        return node value) (·.unlined) :=
  (expression_unlines n).bind fun value =>
    (Unlines.symbol .semicolon place).bind fun _ => .pure (hnode value)

theorem optional_unlines (stop : Symbol) (n : Nat) :
    Unlines (Grammar.optional n stop) (Grammar.optional n stop) (Option.map (·.unlined)) :=
  .ifTest (fun _ => rfl) (any_head?_unlined fun _ => rfl) (.pure rfl)
    ((expression_unlines n).bind fun _ => .pure rfl)

theorem returnStatement_unlines (keyword : Token) (n : Nat) :
    Unlines (returnStatement n keyword) (returnStatement n keyword.unlined) (·.unlined) :=
  (optional_unlines .semicolon n).bind fun _ =>
    (Unlines.symbol .semicolon .returnValue).bind fun _ => .pure rfl

theorem expressionStatement_unlines (n : Nat) :
    Unlines (expressionStatement n) (expressionStatement n) (·.unlined) :=
  terminated_unlines .expression .expression (fun _ => rfl) n

theorem printStatement_unlines (n : Nat) :
    Unlines (printStatement n) (printStatement n) (·.unlined) :=
  terminated_unlines .value .print (fun _ => rfl) n

theorem forInitial_unlines (n : Nat) :
    Unlines (forInitial n) (forInitial n) (Option.map (·.unlined)) := by
  refine .ifAccept (fun _ => rfl) (fun _ => .pure rfl) (.ifAccept (fun _ => rfl) (fun _ => ?_) ?_)
  · exact (variableDeclaration_unlines n).map_some
  · exact (expressionStatement_unlines n).map_some

end Simple

section Declarations

variable {declaration : Reader (Option Stmt)}
  (h : Unlines declaration declaration (Option.map (·.unlined)))

include h

theorem declarations_unlines {stop : Reader Bool} {b : Row → Bool}
    (hstop : ∀ row, stop row = .ok (b row) row) (hb : ∀ row : Row, b row.unlined = b row) :
    ∀ n : Nat, Unlines (declarations declaration stop n) (declarations declaration stop n)
      Stmt.unlinedAll
  | 0 => .pure rfl
  | n + 1 => by
    refine .ifTest hstop hb (.pure rfl) (h.bind fun first? => ?_)
    refine (declarations_unlines hstop hb n).bind fun others => .pure ?_
    cases first? <;> rfl

theorem block_unlines (n : Nat) :
    Unlines (block n declaration) (block n declaration) Stmt.unlinedAll := by
  refine (declarations_unlines h (fun _ => rfl) (fun row => ?_) n).bind fun body => ?_
  · simp only [Row.unlined, List.head?_map]
    cases row.tokens.head? <;> rfl
  · exact (Unlines.symbol .rightBrace .block).bind fun _ => .pure rfl

theorem function_unlines (n : Nat) :
    Unlines (function n declaration) (function n declaration) (·.unlined) := by
  refine (Unlines.name .function).bind fun name => ?_
  refine (Unlines.symbol .leftParen .functionName).bind fun _ => ?_
  refine (listToParen_unlines (Unlines.name .parameter) .tooManyParameters n).bind fun params => ?_
  refine (Unlines.symbol .rightParen .parameters).bind fun _ => ?_
  refine (Unlines.symbol .leftBrace .functionBody).bind fun _ => ?_
  exact (block_unlines h n).bind fun body => .pure rfl

end Declarations

section Nested

variable {statement : Reader Stmt} (h : Unlines statement statement (·.unlined))

include h

theorem forStatement_unlines (n : Nat) :
    Unlines (forStatement n statement) (forStatement n statement) (·.unlined) := by
  refine (Unlines.symbol .leftParen .forKeyword).bind fun _ => ?_
  refine (forInitial_unlines n).bind fun initial => ?_
  refine (optional_unlines .semicolon n).bind fun condition => ?_
  refine (Unlines.symbol .semicolon .loopCondition).bind fun _ => ?_
  refine (optional_unlines .rightParen n).bind fun increment => ?_
  refine (Unlines.symbol .rightParen .forClauses).bind fun _ => ?_
  exact h.bind fun body => .pure (Stmt.unlined_counted ..)

theorem whileStatement_unlines (n : Nat) :
    Unlines (whileStatement n statement) (whileStatement n statement) (·.unlined) := by
  refine (Unlines.symbol .leftParen .whileKeyword).bind fun _ => ?_
  refine (expression_unlines n).bind fun condition => ?_
  exact (Unlines.symbol .rightParen .condition).bind fun _ => h.bind fun body => .pure rfl

theorem ifStatement_unlines (n : Nat) :
    Unlines (ifStatement n statement) (ifStatement n statement) (·.unlined) := by
  unfold ifStatement
  dsimp only
  refine (Unlines.symbol .leftParen .ifKeyword).bind fun _ => ?_
  refine (expression_unlines n).bind fun condition => ?_
  refine (Unlines.symbol .rightParen .ifCondition).bind fun _ => h.bind fun onTrue => ?_
  refine .ifAccept (fun _ => rfl) (fun _ => ?_) ?_
  · exact h.map_some.bind fun onFalse => .pure (Stmt.unlined_branch condition onTrue onFalse)
  · simp only [pure_bind]
    exact .pure (Stmt.unlined_branch condition onTrue none)

end Nested

section Rules

variable {statement : Reader Stmt} {declaration : Reader (Option Stmt)}
  (hs : Unlines statement statement (·.unlined))
  (hd : Unlines declaration declaration (Option.map (·.unlined)))

include hs hd

theorem statementRule_unlines (n : Nat) :
    Unlines (statementRule n statement declaration) (statementRule n statement declaration)
      (·.unlined) := by
  rw [statementRule_eq]
  refine .ifAccept (fun _ => rfl) (fun _ => forStatement_unlines hs n)
    (.ifAccept (fun _ => rfl) (fun _ => printStatement_unlines n)
      (.ifAccept (fun _ => rfl) (fun _ => ?_)
        (.ifAccept (fun _ => rfl) (fun _ => ifStatement_unlines hs n)
          (.ifAccept (fun _ => rfl) (fun _ => whileStatement_unlines hs n)
            (.ifAccept (fun _ => rfl) (fun keyword => returnStatement_unlines keyword n)
              (expressionStatement_unlines n))))))
  exact (block_unlines hd n).map fun _ => rfl

theorem declarationRule_unlines (n : Nat) :
    Unlines (declarationRule n statement declaration) (declarationRule n statement declaration)
      (·.unlined) :=
  .ifAccept (fun _ => rfl) (fun _ => function_unlines hd n)
    (.ifAccept (fun _ => rfl) (fun _ => variableDeclaration_unlines n)
      (statementRule_unlines hs hd n))

end Rules

theorem statement_declaration_unlines : ∀ n : Nat,
    Unlines (statement n) (statement n) (·.unlined) ∧
      Unlines (declaration n) (declaration n) (Option.map (·.unlined))
  | 0 => ⟨.fail .expressionMissing, .recovering (.fail .expressionMissing)⟩
  | n + 1 => by
    obtain ⟨hs, hd⟩ := statement_declaration_unlines n
    exact ⟨statementRule_unlines hs hd (n + 1), (declarationRule_unlines hs hd (n + 1)).recovering⟩

theorem program_unlines (n : Nat) : Unlines (program n) (program n) Stmt.unlinedAll :=
  declarations_unlines (statement_declaration_unlines n).2 (fun _ => rfl)
    (fun _ => List.isEmpty_map) n

/-! ## Whole rows -/

section Run

variable {g : α → β} {ts us : List Token} {firstId : NodeId}

/-- What came of reading some tokens, with its errors on no line. -/
def Parse.outcome (g : α → β) (p : Parse α) : Except (List SyntaxError) β :=
  match p.result with
  | .ok a => .ok (g a)
  | .error es => .error (es.map (·.unlined))

/-- The answer to what came of a reader. -/
def conclude (locate : Complaint → SyntaxError) :
    EStateM.Result Complaint Row α → Except (List SyntaxError) α
  | .ok a ⟨_, _, []⟩ => .ok a
  | .ok _ ⟨_, _, c :: cs⟩ => .error ((c :: cs).reverse.map locate)
  | .error c row => .error ((c :: row.complaints).reverse.map locate)

theorem run_result (rule : Nat → Reader α) (firstId : NodeId) (ts : List Token) :
    (run rule firstId ts).result =
      conclude (·.located ts) (rule (beforeEnd ts).length ⟨beforeEnd ts, firstId, []⟩) := by
  simp only [run]
  rcases rule (beforeEnd ts).length ⟨beforeEnd ts, firstId, []⟩ with ⟨a, _, _, _ | ⟨c, cs⟩⟩ | _ <;>
    rfl

/-- A tree does not depend on where errors would be. -/
theorem conclude_ok {locate : Complaint → SyntaxError} {x : EStateM.Result Complaint Row α} {a : α}
    (h : conclude locate x = .ok a) (locate' : Complaint → SyntaxError) :
    conclude locate' x = .ok a := by
  rcases x with ⟨a, _, _, _ | ⟨c, cs⟩⟩ | _
  · exact h
  · cases h
  · cases h

theorem beforeEnd_map_unlined (ts : List Token) :
    beforeEnd (ts.map (·.unlined)) = (beforeEnd ts).map (·.unlined) := by
  simp only [beforeEnd, List.takeWhile_map]
  rfl

theorem endToken_unlined (h : us.map (·.unlined) = ts.map (·.unlined)) :
    (endToken us).unlined = (endToken ts).unlined := by
  have hfind (ts : List Token) : (ts.map (·.unlined)).find? (·.isEof) =
      (ts.find? (·.isEof)).map (·.unlined) := List.find?_map
  have hsame : (us.find? (·.isEof)).map (·.unlined) = (ts.find? (·.isEof)).map (·.unlined) := by
    rw [← hfind, h, hfind]
  unfold endToken
  cases hu : us.find? (·.isEof) <;> cases ht : ts.find? (·.isEof) <;> rw [hu, ht] at hsame
  · rfl
  · cases hsame
  · cases hsame
  · exact Option.some.inj hsame

theorem located_unlined (c : Complaint) (ts : List Token) :
    c.unlined.locatedAt (endToken ts).unlined = (c.located ts).unlined := by
  rcases c with ⟨cause, _ | t⟩ <;> rfl

theorem outcome_run (g : α → β) (rule : Nat → Reader α) (firstId : NodeId) (ts : List Token) :
    (run rule firstId ts).outcome g = conclude (·.locatedAt (endToken ts).unlined)
      (unlinedResult g (rule (beforeEnd ts).length ⟨beforeEnd ts, firstId, []⟩)) := by
  have hall (cs : List Complaint) : (cs.reverse.map (·.located ts)).map (·.unlined) =
      (cs.map (·.unlined)).reverse.map (·.locatedAt (endToken ts).unlined) := by
    rw [← List.map_reverse, List.map_map, List.map_map]
    exact List.map_congr_left fun c _ => (located_unlined c ts).symm
  rw [Parse.outcome, run_result]
  rcases rule (beforeEnd ts).length ⟨beforeEnd ts, firstId, []⟩ with
    ⟨a, _, _, _ | ⟨c, cs⟩⟩ | ⟨c, _, _, cs⟩
  · rfl
  · exact congrArg Except.error (hall (c :: cs))
  · exact congrArg Except.error (hall (c :: cs))

variable {rule : Nat → Reader α}

section Lines

variable {g : α → α} (h : ∀ n, Unlines (rule n) (rule n) g)

include h

/-- What comes of two rows that are the same without lines. -/
theorem rule_unlined (hts : us.map (·.unlined) = ts.map (·.unlined)) (firstId : NodeId) :
    unlinedResult g (rule us.length ⟨us, firstId, []⟩) =
      unlinedResult g (rule ts.length ⟨ts, firstId, []⟩) := by
  have hrow : (Row.mk us firstId []).unlined = (Row.mk ts firstId []).unlined :=
    congrArg (Row.mk · firstId []) hts
  have hlen : us.length = ts.length := by simpa using congrArg List.length hts
  rw [← h, ← h, hrow, hlen]

/-- What comes of tokens does not depend on their lines. -/
theorem run_unlined (hts : us.map (·.unlined) = ts.map (·.unlined)) (firstId : NodeId) :
    (run rule firstId us).outcome g = (run rule firstId ts).outcome g := by
  have hbefore : (beforeEnd us).map (·.unlined) = (beforeEnd ts).map (·.unlined) := by
    rw [← beforeEnd_map_unlined, hts, beforeEnd_map_unlined]
  rw [outcome_run, outcome_run, endToken_unlined hts, rule_unlined h hbefore]

/-- Tokens that are read are read on any lines, whatever follows the first end token. -/
theorem run_ok_unlined (hts : (beforeEnd us).map (·.unlined) = (beforeEnd ts).map (·.unlined))
    {a : α} (ha : (run rule firstId ts).result = .ok a) :
    ∃ b, (run rule firstId us).result = .ok b ∧ g b = g a := by
  have hfirst : (run rule firstId ts).outcome g = .ok (g a) := by rw [Parse.outcome, ha]
  have hlast : (run rule firstId us).outcome g = .ok (g a) := by
    rw [outcome_run, rule_unlined h hts]
    exact conclude_ok (outcome_run g rule firstId ts ▸ hfirst) _
  unfold Parse.outcome at hlast
  cases hu : (run rule firstId us).result with
  | ok b => exact ⟨b, rfl, by simpa [hu] using hlast⟩
  | error es => simp [hu] at hlast

end Lines

/-- What comes of tokens does not depend on the first number. -/
theorem run_firstId {move : Shift → α → α}
    (h : ∀ (σ : Later) (n : Nat), Repeats σ n 0 (rule n) (rule n) (move σ.shift))
    (hg : ∀ σ a, g (move σ a) = g a) (firstId : NodeId) (ts : List Token) :
    (run rule firstId ts).outcome g = (run rule 0 ts).outcome g := by
  have hagain : rule (beforeEnd ts).length ⟨beforeEnd ts, 0 + firstId, []⟩ = _ :=
    (h ⟨firstId, []⟩ _).run ⟨beforeEnd ts, 0, []⟩ (Nat.le_refl _)
  rw [Nat.zero_add] at hagain
  rw [Parse.outcome, Parse.outcome, run_result, run_result, hagain]
  rcases rule (beforeEnd ts).length ⟨beforeEnd ts, 0, []⟩ with
    ⟨a, _, _, _ | ⟨c, cs⟩⟩ | ⟨c, _, _, cs⟩
  · exact congrArg Except.ok (hg _ a)
  · simp only [Later.result, Row.later, List.append_nil, conclude]
  · simp only [Later.result, Row.later, List.append_nil, conclude]

end Run

end Grammar

end Lox
