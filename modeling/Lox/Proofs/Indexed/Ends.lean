import Lox.Proofs.Grammar.Apart
import Lox.Proofs.Indexed.Rules

/-!
# Parsing ends and stays inside the vector

Whatever the tokens are, a parser by position with more fuel than there are tokens before the first
end token comes to the answer of `Lox.Grammar`. Its position never goes back and never passes the
first end token, so every look is inside the vector and what follows that token has no influence; a
declaration that starts before it takes a token at least (`parsing_ends`).
-/

namespace Lox

/-- A reader that does the same in the same place with another bound is the same reader. -/
theorem Repeats.eq {α : Type} {most taken : Nat} {r r' : Reader α} {g : α → α}
    (h : Repeats ⟨0, []⟩ most taken r r' g) (hg : ∀ a, g a = a) {row : Row}
    (hrow : row.tokens.length ≤ most) : r' row = r row := by
  have hagain (row : Row) : row.later ⟨0, []⟩ = row := by
    simp only [Row.later, Nat.add_zero, List.append_nil]
  have hrun := h.run row hrow
  rw [hagain] at hrun
  rw [hrun]
  cases r row with
  | ok a mid => simp only [Later.result, hg, hagain]
  | error c mid => simp only [Later.result, hagain]

namespace Indexed

variable {α : Type} {ts : List Token} {firstId : NodeId} {n : Nat}

/-- The first end token comes after the tokens that count, and it is where errors at the end are. -/
theorem exists_closed (ts : List Token) : ∃ v : Closed, v.tokens = closed ts ∧
    v.front = Grammar.beforeEnd ts ∧ v.last = Grammar.endToken ts := by
  cases hfind : ts.find? (·.isEof) with
  | none =>
    have hopen : ∀ t ∈ ts, t.isEof = false := by simpa using hfind
    have hlast : ts.getLast?.any (·.isEof) = false := by
      cases h : ts.getLast? with
      | none => rfl
      | some t => exact hopen t (List.mem_of_getLast? h)
    refine ⟨⟨ts, Grammar.endToken ts, [], hopen, Grammar.endToken_isEof ts⟩, ?_,
      (Grammar.beforeEnd_eq_self hopen).symm, rfl⟩
    simp [closed, hlast, Closed.tokens, Grammar.endToken, hfind]
  | some last =>
    obtain ⟨hlast, front, behind, rfl, hfront⟩ := List.find?_eq_some_iff_append.1 hfind
    have hopen : ∀ t ∈ front, t.isEof = false := by simpa using hfront
    obtain ⟨more, hmore⟩ : ∃ more, closed (front ++ last :: behind) =
        front ++ last :: behind ++ more := by
      unfold closed
      split
      · exact ⟨[], (List.append_nil _).symm⟩
      · exact ⟨_, rfl⟩
    refine ⟨⟨front, last, behind ++ more, hopen, hlast⟩, ?_, ?_, ?_⟩
    · simp [hmore, Closed.tokens]
    · rw [Grammar.beforeEnd_append hopen, Grammar.beforeEnd, List.takeWhile_cons, hlast]
      exact (List.append_nil front).symm
    · simp [Grammar.endToken, hfind]

theorem endPosition_eq (ts : List Token) : endPosition ts = (Grammar.beforeEnd ts).length := by
  obtain ⟨v, hv, hfront, -⟩ := exists_closed ts
  have hnone : v.front.findIdx (·.isEof) = v.front.length :=
    List.findIdx_eq_length_of_false v.front_open
  rw [endPosition, ← hv, Closed.tokens, List.findIdx_append, hnone, if_neg (Nat.lt_irrefl _),
    List.findIdx_cons, v.last_end, ← hfront]
  exact Nat.zero_add _

/-- The positions at which a parser looked and the one where it stands are in order, and none is
past `last`. -/
structure State.InOrder (last : Nat) (s : State) : Prop where
  ascending : (s.current :: s.positions).Pairwise (· ≥ ·)
  within : ∀ i ∈ s.current :: s.positions, i ≤ last

/-- A rule comes to an answer, in order and inside the vector. -/
def Answers (rule : Parser α) (firstId : NodeId) (ts : List Token) (p : Grammar.Parse α) : Prop :=
  ∃ s, answer rule (.new firstId ts) = .ok p.result s ∧ s.nextId = p.nextId ∧
    s.InOrder (endPosition ts)

theorem At.inOrder {v : Closed} {s : State} {row : Row} (h : At v [] s row) :
    s.InOrder v.front.length := by
  obtain ⟨positions, hpositions, hsorted⟩ := h.ordered
  rw [List.append_nil] at hpositions
  subst hpositions
  refine ⟨hsorted, List.forall_mem_cons.2 ⟨h.within, fun i hi => ?_⟩⟩
  exact (List.rel_of_pairwise_cons hsorted hi).trans h.within

/-- The first number that a run leaves unused is that of the row it leaves. -/
theorem run_nextId (rule : Nat → Reader α) (firstId : NodeId) (ts : List Token) :
    (Grammar.run rule firstId ts).nextId = (rowOf (rule (Grammar.beforeEnd ts).length
      ⟨Grammar.beforeEnd ts, firstId, []⟩)).nextId := by
  simp only [Grammar.run]
  rcases rule (Grammar.beforeEnd ts).length ⟨Grammar.beforeEnd ts, firstId, []⟩ with
    ⟨a, _, _, _ | ⟨c, cs⟩⟩ | _ <;> rfl

/-- What a parser by position answers where it does what a reader does. -/
theorem answers {rule : Nat → Parser α} {rule' : Nat → Reader α}
    (htracks : ∀ {v : Closed} {most n : Nat}, most < n → Tracks v most 0 (rule n) (rule' n))
    (hsame : ∀ {row : Row} {n : Nat}, row.tokens.length ≤ n →
      rule' n row = rule' row.tokens.length row)
    (firstId : NodeId) (hn : endPosition ts < n) :
    Answers (rule n) firstId ts (Grammar.run rule' firstId ts) := by
  obtain ⟨v, hv, hfront, hlast⟩ := exists_closed ts
  have hat : At v [] (.new firstId ts) ⟨Grammar.beforeEnd ts, firstId, []⟩ :=
    ⟨hv.symm, Nat.zero_le _, hfront, rfl, rfl, [], rfl, List.pairwise_singleton _ _⟩
  rw [endPosition_eq] at hn
  have hrun := htracks hn [] _ _ hat (Nat.le_refl _)
  rw [hsame (Nat.le_of_lt hn)] at hrun
  have hlocate : (fun c : Complaint => c.located ts) = (·.locatedAt v.last) := by
    rw [hlast]
    rfl
  unfold Answers answer
  rw [endPosition_eq, Grammar.run_result, run_nextId, hlocate, ← hfront]
  rw [← hfront] at hrun
  dsimp only at hrun
  generalize rule n (.new firstId ts) = result,
    rule' v.front.length ⟨v.front, firstId, []⟩ = result' at hrun ⊢
  cases hrun with
  | @ok a s mid h hmid =>
    refine ⟨s, ?_, h.nextId, h.inOrder⟩
    rcases mid with ⟨rest, id, _ | ⟨c, cs⟩⟩ <;> simp [h.errors, Grammar.conclude]
  | @error c s mid h hmid =>
    refine ⟨s, ?_, h.nextId, h.inOrder⟩
    simp [h.errors, Grammar.conclude]

theorem program_answers (firstId : NodeId) (hn : endPosition ts < n) :
    Answers (program n) firstId ts (Grammar.parseProgram firstId ts) := by
  refine answers program_tracks (fun {row n} hrow => ?_) firstId hn
  exact (Grammar.program_repeats hrow hrow).eq Stmt.shiftAll_none (Nat.le_refl _)

theorem wholeExpression_answers (firstId : NodeId) (hn : endPosition ts < n) :
    Answers (wholeExpression n) firstId ts (Grammar.parseExpression firstId ts) := by
  refine answers wholeExpression_tracks (fun {row n} hrow => ?_) firstId hn
  exact (Grammar.wholeExpression_repeats hrow).eq Expr.shift_none (Nat.le_refl _)

/-- Before the first end token a declaration takes a token at least, also where it fails. -/
theorem declaration_progress {s : State} (hs : s.tokens = closed ts)
    (hbefore : s.current < endPosition ts) (hn : endPosition ts < s.current + n) :
    ∃ d? s', declaration n s = .ok d? s' ∧ s.current < s'.current ∧
      s'.current ≤ endPosition ts := by
  obtain ⟨v, hv, hfront, -⟩ := exists_closed ts
  rw [endPosition_eq, ← hfront] at hbefore hn ⊢
  have hlen : (v.front.drop s.current).length < n := by
    rw [List.length_drop]
    omega
  -- Any errors will do: an error is a complaint about its own token.
  have hat : At v s.positions s
      ⟨v.front.drop s.current, s.nextId, s.errors.map fun e => ⟨e.cause, some e.token⟩⟩ := by
    refine ⟨hs.trans hv.symm, Nat.le_of_lt hbefore, rfl, rfl, ?_, [], rfl,
      List.pairwise_singleton _ _⟩
    simp [Complaint.locatedAt, Function.comp_def]
  have hrun := (statement_declaration_tracks hlen).2 _ _ _ hat (Nat.le_refl _)
  obtain ⟨d?, mid, hok⟩ := Grammar.declaration_ok n
    ⟨v.front.drop s.current, s.nextId, s.errors.map fun e => ⟨e.cause, some e.token⟩⟩
  rw [hok] at hrun
  generalize hresult : declaration n s = result at hrun
  cases hrun with
  | @ok d? s' mid h hmid =>
    have hstart := hat.current_add
    have hend := h.current_add
    dsimp only at hmid hstart
    exact ⟨d?, s', rfl, by omega, h.within⟩

/-- What follows an end token has no influence. -/
theorem run_behind (rule : Nat → Reader α) (firstId : NodeId) {front behind others : List Token}
    {last : Token} (hlast : last.isEof = true) :
    Grammar.run rule firstId (front ++ last :: others) =
      Grammar.run rule firstId (front ++ last :: behind) := by
  have hbefore (behind : List Token) :
      Grammar.beforeEnd (front ++ last :: behind) = Grammar.beforeEnd front := by
    have hnone : (last :: behind).takeWhile (! ·.isEof) = [] := by
      rw [List.takeWhile_cons, hlast]
      rfl
    rw [Grammar.beforeEnd, List.takeWhile_append, hnone, List.append_nil]
    split
    · exact ((List.takeWhile_prefix _).eq_of_length ‹_›).symm
    · rfl
  have hend (behind : List Token) : Grammar.endToken (front ++ last :: behind) =
      (front.find? (·.isEof)).getD last := by
    unfold Grammar.endToken
    rw [List.find?_append, List.find?_cons_of_pos hlast]
    cases front.find? (·.isEof) <;> rfl
  simp only [Grammar.run, hbefore, hend]

/-- Parsing comes to its answer inside the vector, each declaration before the first end token takes
a token, and what follows that token has no influence. -/
theorem parsing_ends (firstId : NodeId) (ts : List Token) {n : Nat} (hn : endPosition ts < n) :
    Answers (program n) firstId ts (Grammar.parseProgram firstId ts) ∧
    Answers (wholeExpression n) firstId ts (Grammar.parseExpression firstId ts) ∧
    (∀ (s : State) (m : Nat), s.tokens = closed ts → s.current < endPosition ts →
      endPosition ts < s.current + m →
      ∃ d? s', declaration m s = .ok d? s' ∧ s.current < s'.current ∧
        s'.current ≤ endPosition ts) ∧
    ∀ front last behind others, ts = front ++ last :: behind → last.isEof = true →
      Grammar.parseProgram firstId (front ++ last :: others) = Grammar.parseProgram firstId ts ∧
      Grammar.parseExpression firstId (front ++ last :: others) =
        Grammar.parseExpression firstId ts := by
  refine ⟨program_answers firstId hn, wholeExpression_answers firstId hn,
    fun s m => declaration_progress, ?_⟩
  rintro front last behind others rfl hlast
  exact ⟨run_behind _ firstId hlast, run_behind _ firstId hlast⟩

/-- A fault before the first of three end tokens, one of them added. -/
theorem parsing_ends_early :
    let closing : Token := ⟨.symbol .rightParen, ")", 1⟩
    let word : Token := ⟨.keyword .printKw, "print", 2⟩
    let last : Token := ⟨.eof, "", 1⟩
    let ts := [closing, last, word, last, word]
    endPosition ts = 1 ∧
    Answers (program 2) 0 ts (Grammar.parseProgram 0 ts) ∧
    Answers (wholeExpression 2) 0 ts (Grammar.parseExpression 0 ts) ∧
    (∀ (s : State) (m : Nat), s.tokens = closed ts → s.current < endPosition ts →
      endPosition ts < s.current + m →
      ∃ d? s', declaration m s = .ok d? s' ∧ s.current < s'.current ∧
        s'.current ≤ endPosition ts) ∧
    ∀ front last behind others, ts = front ++ last :: behind → last.isEof = true →
      Grammar.parseProgram 0 (front ++ last :: others) = Grammar.parseProgram 0 ts ∧
      Grammar.parseExpression 0 (front ++ last :: others) = Grammar.parseExpression 0 ts := by
  intro closing word last ts
  have hend : endPosition ts = 1 := by decide
  exact ⟨hend, parsing_ends 0 ts (by omega)⟩

end Indexed

end Lox
