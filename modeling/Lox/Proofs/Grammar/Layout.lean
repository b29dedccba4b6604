import Lox.Proofs.Grammar.StatementUnlined
import Lox.Proofs.Grammar.WholeExpression
import Lox.Proofs.Token.Layout

/-!
# Texts laid out anew

A text without a lexical error whose lexemes are laid out anew, with blanks and comments between
them, has the same tokens on other lines, and is read as it was: as a program, and as an expression,
up to the lines of the tokens and the numbers of the references (`tokens_relaid`).
-/

namespace Lox.Grammar

variable {α β γ : Type} {ts us : List Token}

theorem outcome_comp (k : β → γ) (g : α → β) (p : Parse α) :
    p.outcome (fun a => k (g a)) = (p.outcome g).map k := by
  unfold Parse.outcome
  cases p.result <;> rfl

/-- What comes of tokens depends neither on their lines nor on the first number. -/
theorem run_anew {rule : Nat → Reader α} {unline bare : α → α} {move : Shift → α → α}
    (hlines : ∀ n, Unlines (rule n) (rule n) unline)
    (hagain : ∀ (σ : Later) (n : Nat), Repeats σ n 0 (rule n) (rule n) (move σ.shift))
    (hbare : ∀ σ a, bare (unline (move σ a)) = bare (unline a))
    (hts : us.map (·.unlined) = ts.map (·.unlined)) (firstId otherId : NodeId) :
    (run rule firstId us).outcome (fun a => bare (unline a)) =
      (run rule otherId ts).outcome (fun a => bare (unline a)) := by
  rw [run_firstId hagain hbare firstId, run_firstId hagain hbare otherId, outcome_comp bare,
    outcome_comp bare, run_unlined hlines hts]

/-- A text without an error whose lexemes are laid out anew has no error and the same tokens on
other lines, and is read as it was up to lines and numbers. -/
theorem tokens_relaid {source text : String} (hsource : lexicalErrors source = [])
    (h : Relaid ((beforeEnd (tokens source)).map (·.lexeme.toList)) text.toList) :
    lexicalErrors text = [] ∧
      (tokens text).map (·.unlined) = (tokens source).map (·.unlined) ∧
      ∀ firstId otherId,
        (parseProgram firstId (tokens text)).outcome
            (fun p => Stmt.unnumberedAll (Stmt.unlinedAll p)) =
          (parseProgram otherId (tokens source)).outcome
            (fun p => Stmt.unnumberedAll (Stmt.unlinedAll p)) ∧
        (parseExpression firstId (tokens text)).outcome (·.unlined.unnumbered) =
          (parseExpression otherId (tokens source)).outcome (·.unlined.unnumbered) := by
  have hscan := h.scan hsource
  have htokens := tokens_unlined hscan
  refine ⟨lexicalErrors_unlined hscan hsource, htokens, fun firstId otherId => ⟨?_, ?_⟩⟩
  · exact run_anew (fun n => program_unlines n)
      (fun _ n => program_repeats (Nat.le_refl n) (Nat.le_refl n)) Stmt.bareAll_shift htokens _ _
  · exact run_anew (fun n => wholeExpression_unlines n)
      (fun _ n => wholeExpression_repeats (Nat.le_refl n)) Expr.bare_shift htokens _ _

/-- A division, before a comment and on three lines. -/
theorem tokens_relaid_division :
    let source := "print 1/x;"
    let text := "print\t1 /\n// half\n x ;\n"
    lexicalErrors source = [] ∧
      Relaid ((beforeEnd (tokens source)).map (·.lexeme.toList)) text.toList ∧
      lexicalErrors text = [] ∧
      (tokens text).map (·.unlined) = (tokens source).map (·.unlined) ∧
      ∀ firstId otherId,
        (parseProgram firstId (tokens text)).outcome
            (fun p => Stmt.unnumberedAll (Stmt.unlinedAll p)) =
          (parseProgram otherId (tokens source)).outcome
            (fun p => Stmt.unnumberedAll (Stmt.unlinedAll p)) ∧
        (parseExpression firstId (tokens text)).outcome (·.unlined.unnumbered) =
          (parseExpression otherId (tokens source)).outcome (·.unlined.unnumbered) := by
  intro source text
  have hsource : lexicalErrors source = [] := by decide +kernel
  have hwords : (beforeEnd (tokens source)).map (·.lexeme.toList) =
      ["print".toList, ['1'], ['/'], ['x'], [';']] := by decide +kernel
  have htext : text.toList = "print".toList ++ ['\t'] ++ (['1'] ++ [' '] ++ (['/'] ++
      ('\n' :: ('/' :: '/' :: " half".toList ++ '\n' :: [' '])) ++ (['x'] ++ [' '] ++
        ([';'] ++ ['\n'] ++ [])))) := by decide +kernel
  have hrelaid : Relaid ((beforeEnd (tokens source)).map (·.lexeme.toList)) text.toList := by
    rw [hwords, htext]
    refine .more _ (.mk (by decide) .nil) (.more _ (.mk (by decide) .nil) (.more _ ?_
      (.more _ (.mk (by decide) .nil) (.more _ (.mk (by decide) .nil) .nil))))
    exact .mk (by decide) (.comment (by decide) (.blank (by decide) .nil))
  exact ⟨hsource, hrelaid, tokens_relaid hsource hrelaid⟩

end Lox.Grammar
