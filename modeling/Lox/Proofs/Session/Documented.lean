import Lox.Proofs.Eval.Documented
import Lox.Proofs.Session.Reached

/-!
# Documented errors

A session keeps only functions whose code was read from a source without a fault, so their code is
meaningful (`Session.Reached.meaningful`), and no run can come to an operator that its values do
not have.
-/

namespace Lox

/-- The first letter of a text that goes on. -/
theorem head?_append_of_eq {a b : String} {c : Char} (h : a.toList.head? = some c) :
    (a ++ b).toList.head? = some c := by
  rw [String.toList_append, List.head?_append, h, Option.some_or]

/-- The message of an operator that does not exist is none of the documented ones. -/
theorem RuntimeFault.Documented.message_ne {cause : RuntimeFault} (h : cause.Documented) :
    cause.message ≠ invalidUnary.message ∧ cause.message ≠ invalidBinary.message := by
  have hfirst : cause.message.toList.head? ≠ some 'I' := by
    cases cause with
    | operandNotNumber | operandsNotNumbers | operandsNotAddable | notCallable => decide
    | undefinedVariable x =>
      have hu : (undefinedVariable x).message.toList.head? = some 'U' :=
        head?_append_of_eq (head?_append_of_eq (by decide))
      simp [hu]
    | wrongArity expected given =>
      have he : (wrongArity expected given).message.toList.head? = some 'E' :=
        head?_append_of_eq <| head?_append_of_eq <| head?_append_of_eq <|
          head?_append_of_eq (by decide)
      simp [he]
    | invalidUnary | invalidBinary => cases h
  exact ⟨fun h => hfirst (h ▸ by decide), fun h => hfirst (h ▸ by decide)⟩

namespace Session

variable {S : Session}

theorem Reached.meaningful (h : S.Reached) : S.state.scopes.Meaningful := by
  induction h with
  | initial clock sink => exact State.holds_initial trivial clock sink
  | @run S n source report h _ hS =>
    rcases run_cases h.sound.distances n source with ⟨program, hp, hrun⟩ | ⟨-, _, -, -, hrun⟩
    · rw [hrun, runProgram_session]
      have hyields := interpret_yields n (Grammar.parseProgram_meaningful hp.grammar)
        (S.ready program) hS
      generalize interpret n program (S.ready program) = xs at hyields ⊢
      cases xs <;> exact hyields.2
    · rw [hrun]
      exact hS
  | takeOutput _ hS => exact hS

variable {n : Nat} {source : String} {report : Report} {d : Diagnostic}

/-- The error of a run is one of the sink or a documented fault. -/
theorem Reached.fault (h : S.Reached) (hreport : (S.run n source).report? = some report)
    (hd : report.runtime = some d) :
    ∃ e : RuntimeError, d = e.diagnostic ∧ (Stop.error e).Documented := by
  rcases run_cases h.sound.distances n source with ⟨program, hp, hrun⟩ | ⟨-, _, -, hnone, hrun⟩
  · have hyields := interpret_yields n (Grammar.parseProgram_meaningful hp.grammar)
      (S.ready program) h.meaningful
    rw [hrun] at hreport
    unfold runProgram at hreport
    generalize interpret n program (S.ready program) = xs at hyields hreport
    rcases xs with _ | ⟨_ | _, _⟩ <;> cases hreport <;> cases hd
    exact ⟨_, rfl, hyields.1⟩
  · rw [hrun] at hreport
    cases hreport
    cases hnone.symm.trans hd

/-- A run of any source in any session stops only at an error of the sink or with one of the
documented messages, never at an operator. -/
theorem runtime_documented (hS : S.Reached) (hreport : (S.run n source).report? = some report)
    (hd : report.runtime = some d) :
    ((∃ message, d = .sink message) ∨ ∃ message token, d = .runtime message token ∧
      (message = "Operand must be a number." ∨
        message = "Operands must be numbers." ∨
        message = "Operands must be two numbers or two strings." ∨
        (∃ x : String, Lexeme x.toList (.token .identifier) ∧
          message = "Undefined variable '" ++ x ++ "'.") ∨
        message = "Can only call functions and classes." ∨
        ∃ expected given : Nat, expected ≠ given ∧ message =
          "Expected " ++ toString expected ++ " arguments but got " ++ toString given ++ ".")) ∧
    ∀ token, d ≠ .runtime "Invalid unary operator." token ∧
      d ≠ .runtime "Invalid binary operator." token := by
  obtain ⟨e, rfl, he⟩ := hS.fault hreport hd
  cases e with
  | sink cause => exact ⟨.inl ⟨_, rfl⟩, fun token => ⟨nofun, nofun⟩⟩
  | fault cause token =>
    have he : cause.Documented := he
    refine ⟨.inr ⟨_, _, rfl, ?_⟩, fun other => ⟨fun h => ?_, fun h => ?_⟩⟩
    · cases cause with
      | operandNotNumber => exact .inl rfl
      | operandsNotNumbers => exact .inr <| .inl rfl
      | operandsNotAddable => exact .inr <| .inr <| .inl rfl
      | undefinedVariable x => exact .inr <| .inr <| .inr <| .inl ⟨x, he, rfl⟩
      | notCallable => exact .inr <| .inr <| .inr <| .inr <| .inl rfl
      | wrongArity expected given =>
        exact .inr <| .inr <| .inr <| .inr <| .inr ⟨expected, given, he, rfl⟩
      | invalidUnary | invalidBinary => cases he
    · exact he.message_ne.1 (Diagnostic.runtime.inj h).1
    · exact he.message_ne.2 (Diagnostic.runtime.inj h).1

/-- A function of an earlier source that is called with the wrong type of value. -/
theorem runtime_documented_kept :
    let S :=
      ((Session.initial Float.ofNat .unbounded).run 9 "fun f(x) \x7b return -x; \x7d").session
    ∃ report d, S.Reached ∧ (S.run 9 "f(nil);").report? = some report ∧
      report.runtime = some d ∧ d.message = "Operand must be a number." ∧
      ∀ token, d ≠ .runtime "Invalid unary operator." token ∧
        d ≠ .runtime "Invalid binary operator." token := by
  intro S
  have hfirst : ((Session.initial Float.ofNat .unbounded).run 9
      "fun f(x) \x7b return -x; \x7d").report?.isSome = true := by decide +kernel
  have hsecond : ((S.run 9 "f(nil);").report?.bind (·.runtime)).any
      (·.message = "Operand must be a number.") = true := by decide +kernel
  obtain ⟨first, hfirst⟩ := Option.isSome_iff_exists.1 hfirst
  obtain ⟨d, hd, hmessage⟩ := (Option.any_eq_true _ _).1 hsecond
  obtain ⟨report, hreport, hd⟩ := Option.bind_eq_some_iff.1 hd
  have hS : S.Reached := .run (.initial Float.ofNat .unbounded) hfirst
  exact ⟨report, d, hS, hreport, hd, of_decide_eq_true hmessage,
    (runtime_documented hS hreport hd).2⟩

end Session

end Lox
