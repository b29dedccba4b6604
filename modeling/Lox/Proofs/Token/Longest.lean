import Lox.Diagnostic
import Lox.Proofs.Token.Lexeme

/-!
# Scanning takes the longest lexeme

`Lexes` is the lexer of the language by rules: it takes the longest lexeme at the front of the text,
passes over blanks and comments, and complains where there is no lexeme. A source text has just one
list of items by these rules, the one that `scan` gives (`lexes_iff_scan`).
-/

namespace Lox

open Reading

/-- The items of a text that starts on the given line. -/
inductive Lexes : Nat → List Char → List Scanned → Prop where
  | finish {line : Nat} : Lexes line [] [.token ⟨.eof, "", line⟩]
  | skip {line : Nat} {text w : List Char} {items : List Scanned} (hw : Longest text w .blank)
      (rest : Lexes (line + w.count '\n') (text.drop w.length) items) : Lexes line text items
  | token {line : Nat} {text w : List Char} {kind : Token.Kind} {items : List Scanned}
      (hw : Longest text w (.token kind))
      (rest : Lexes (line + w.count '\n') (text.drop w.length) items) :
      Lexes line text (.token ⟨kind, String.ofList w, line + w.count '\n'⟩ :: items)
  /-- A quote that is not closed takes all that is left. -/
  | unterminated {line : Nat} {text : List Char} {e : LexicalError} {items : List Scanned}
      (hnone : ∀ w r, Lexeme w r → ¬ w <+: '"' :: text)
      (he : e.diagnostic = .lexical "Unterminated string." (line + text.count '\n'))
      (rest : Lexes (line + text.count '\n') [] items) :
      Lexes line ('"' :: text) (.error e :: items)
  /-- Any other character that starts no lexeme is complained of alone. -/
  | unexpected {line : Nat} {c : Char} {text : List Char} {e : LexicalError} {items : List Scanned}
      (hnone : ∀ w r, Lexeme w r → ¬ w <+: c :: text) (hc : c ≠ '"')
      (he : e.diagnostic = .lexical ("Unexpected character: " ++ c.toString) line)
      (rest : Lexes line text items) : Lexes line (c :: text) (.error e :: items)

/-! ## The pieces of a text -/

section Pieces

variable {c : Char} {cs text w : List Char} {r : Reading}

theorem pieces_cons (c : Char) (cs : List Char) : pieces (c :: cs) =
    ⟨c :: cs.take (ahead c cs).2, (ahead c cs).1⟩ :: pieces (cs.drop (ahead c cs).2) := by
  rw [pieces]

theorem Longest.not_fault (h : Longest (c :: cs) w r) (cause : LexicalFault) :
    (ahead c cs).1 ≠ .fault cause :=
  (h.lexeme.le_ahead h.front).1 cause

/-- The first piece of a text is the longest lexeme at its front. -/
theorem pieces_of_longest (h : Longest text w r) :
    pieces text = ⟨w, r⟩ :: pieces (text.drop w.length) := by
  obtain ⟨c, v, rfl⟩ := List.exists_cons_of_ne_nil h.lexeme.ne_nil
  obtain ⟨rest, rfl⟩ := h.front
  rw [List.cons_append] at h ⊢
  obtain ⟨hw, hr⟩ := h.unique (longest_of_ahead h.not_fault)
  have hlength := congrArg List.length hw
  rw [List.length_cons, List.length_cons, List.length_take_of_le ahead_le] at hlength
  rw [pieces_cons, ← hw, ← hr, List.length_cons, List.drop_succ_cons, Nat.succ.inj hlength]

variable (hnone : ∀ w r, Lexeme w r → ¬ w <+: c :: cs)

include hnone

theorem ahead_of_not_lexeme : ∃ cause, (ahead c cs).1 = .fault cause := by
  by_contra h
  push Not at h
  exact hnone _ _ (longest_of_ahead h).lexeme (longest_of_ahead h).front

/-- Without a lexeme at its front, an open quote is one piece with all that follows. -/
theorem pieces_of_quote (hc : c = '"') :
    pieces (c :: cs) = [⟨c :: cs, .fault .unterminatedString⟩] := by
  obtain ⟨cause, h⟩ := ahead_of_not_lexeme hnone
  rcases fault_of_ahead h with ⟨rfl, -, hn⟩ | ⟨-, hne, -⟩
  · rw [pieces_cons, h, hn, List.take_length, List.drop_length, pieces]
  · exact absurd hc hne

/-- Without a lexeme at its front, any other character is a piece of its own. -/
theorem pieces_of_unexpected (hc : c ≠ '"') :
    pieces (c :: cs) = ⟨[c], .fault (.unexpectedCharacter c)⟩ :: pieces cs := by
  obtain ⟨cause, h⟩ := ahead_of_not_lexeme hnone
  rcases fault_of_ahead h with ⟨-, hquote, -⟩ | ⟨rfl, -, hn⟩
  · exact absurd hquote hc
  · rw [pieces_cons, h, hn, List.take_zero, List.drop_zero]

theorem ne_newline : c ≠ '\n' := by
  rintro rfl
  exact hnone _ _ (.blank (by simp)) ⟨cs, rfl⟩

end Pieces

/-! ## The items of a text -/

namespace LexicalFault

theorem toList_unexpected (c : Char) : (unexpectedCharacter c).message.toList =
    "Unexpected character: ".toList ++ [c] := by
  unfold message
  rw [String.toList_append, Char.toString, String.toList_singleton]

theorem message_injective {cause cause' : LexicalFault} (h : cause.message = cause'.message) :
    cause = cause' := by
  have hne (c : Char) : "Unterminated string.".toList ≠ (unexpectedCharacter c).message.toList := by
    rw [toList_unexpected]
    simp
  have htext := congrArg String.toList h
  rcases cause with _ | c <;> rcases cause' with _ | c'
  · rfl
  · exact absurd htext (hne c')
  · exact absurd htext.symm (hne c)
  · rw [toList_unexpected, toList_unexpected] at htext
    rw [List.singleton_inj.1 (List.append_cancel_left htext)]

end LexicalFault

/-- A diagnostic tells which fault it is about. -/
theorem LexicalError.eq_of_diagnostic {e : LexicalError} {cause : LexicalFault} {line : Nat}
    (h : e.diagnostic = .lexical cause.message line) : e = ⟨cause, line⟩ := by
  obtain ⟨cause', line'⟩ := e
  obtain ⟨hmessage, hline⟩ := Diagnostic.lexical.inj h
  exact congrArg₂ mk (LexicalFault.message_injective hmessage) hline

section Items

variable {line : Nat} {text : List Char} {items : List Scanned}

/-- The rules give no other items than the pieces do. -/
theorem Lexes.eq_ofPieces (h : Lexes line text items) :
    items = Scanned.ofPieces line (pieces text) := by
  induction h with
  | finish => rw [pieces, Scanned.ofPieces]
  | skip hw _ ih =>
    rw [pieces_of_longest hw]
    exact ih
  | token hw _ ih =>
    rw [pieces_of_longest hw, ih]
    rfl
  | @unterminated line text e items hnone he rest ih =>
    have hcount : ('"' :: text).count '\n' = text.count '\n' :=
      List.count_cons_of_ne (by decide)
    have he : e = ⟨.unterminatedString, line + text.count '\n'⟩ :=
      LexicalError.eq_of_diagnostic he
    rw [pieces_of_quote hnone rfl, ih, he]
    simp only [pieces, Scanned.ofPieces, hcount]
  | @unexpected line c text e items hnone hc he _ ih =>
    have hcount : [c].count '\n' = 0 :=
      List.count_eq_zero.2 (by simpa using (ne_newline hnone).symm)
    have he : e = ⟨.unexpectedCharacter c, line⟩ := LexicalError.eq_of_diagnostic he
    rw [pieces_of_unexpected hnone hc, ih, he]
    simp only [Scanned.ofPieces, hcount, Nat.add_zero]

/-- The items of the pieces follow the rules. -/
theorem lexes_ofPieces (line : Nat) : ∀ text : List Char,
    Lexes line text (Scanned.ofPieces line (pieces text))
  | [] => by
    rw [pieces, Scanned.ofPieces]
    exact .finish
  | c :: cs => by
    by_cases hfault : ∃ cause, (ahead c cs).1 = .fault cause
    · obtain ⟨cause, hcause⟩ := hfault
      have hnone : ∀ w r, Lexeme w r → ¬ w <+: c :: cs := fun _ _ => not_lexeme_of_ahead hcause
      by_cases hc : c = '"'
      · subst hc
        have hcount : ('"' :: cs).count '\n' = cs.count '\n' := List.count_cons_of_ne (by decide)
        rw [pieces_of_quote hnone rfl]
        simp only [Scanned.ofPieces, hcount]
        exact .unterminated hnone rfl .finish
      · have hcount : [c].count '\n' = 0 :=
          List.count_eq_zero.2 (by simpa using (ne_newline hnone).symm)
        rw [pieces_of_unexpected hnone hc]
        simp only [Scanned.ofPieces, hcount, Nat.add_zero]
        exact .unexpected hnone hc rfl (lexes_ofPieces line cs)
    · have hlongest : Longest (c :: cs) (c :: cs.take (ahead c cs).2) (ahead c cs).1 :=
        longest_of_ahead fun cause h => hfault ⟨cause, h⟩
      generalize c :: cs.take (ahead c cs).2 = w at hlongest
      generalize (ahead c cs).1 = r at hlongest hfault
      have hrest := lexes_ofPieces (line + w.count '\n') ((c :: cs).drop w.length)
      rw [pieces_of_longest hlongest]
      cases r with
      | blank => exact .skip hlongest hrest
      | token kind => exact .token hlongest hrest
      | fault cause => exact absurd ⟨cause, rfl⟩ hfault
termination_by text => text.length
decreasing_by
  · simp
  · have := List.length_pos_iff.2 hlongest.lexeme.ne_nil
    simp only [List.length_drop, List.length_cons]
    omega

end Items

/-- A source text has the items that the rules give it, and these only. That they take numerals at
the value of `float?` costs nothing, since it reads them all. -/
theorem lexes_iff_scan (source : String) :
    (∀ items, Lexes 1 source.toList items ↔ items = scan source) ∧
      ∀ text, Numeral text → (Decimal.float? (String.ofList text)).isSome = true :=
  ⟨fun _ => ⟨Lexes.eq_ofPieces, fun h => h ▸ lexes_ofPieces 1 source.toList⟩,
    fun _ h => h.isSome_float?⟩

end Lox
