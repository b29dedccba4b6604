import Lox.Proofs.Grammar.Errors

/-!
# Faults stay apart

The tokens of a program behind others have the errors that they have by themselves, and so have the
others, provided that these are read or end with a semicolon and have no error at their end
(`syntaxErrors_append`).
-/

namespace Lox

theorem Token.map_down_zero (ts : List Token) : ts.map (·.down 0) = ts :=
  List.map_id ts

theorem Complaint.map_down_zero (cs : List Complaint) : cs.map (·.down 0) = cs := by
  have hid (c : Complaint) : c.down 0 = c := by
    obtain ⟨cause, _ | t⟩ := c <;> rfl
  simp only [hid, List.map_id']

namespace Grammar

variable {as bs ts : List Token} {c : Complaint}

theorem endToken_isEof (ts : List Token) : (endToken ts).isEof = true := by
  unfold endToken
  cases h : ts.find? (·.isEof) with
  | none => rfl
  | some t => exact List.find?_some h

theorem beforeEnd_append (has : ∀ t ∈ as, t.isEof = false) (bs : List Token) :
    beforeEnd (as ++ bs) = as ++ beforeEnd bs :=
  List.takeWhile_append_of_pos fun t ht => by simp [has t ht]

theorem beforeEnd_eq_self (has : ∀ t ∈ as, t.isEof = false) : beforeEnd as = as := by
  simpa [beforeEnd] using beforeEnd_append has []

theorem head?_beforeEnd {t : Token} (h : t ∈ (beforeEnd ts).head?) : t ∈ ts.head? := by
  cases ts with
  | nil => cases h
  | cons u us =>
    unfold beforeEnd at h
    rw [List.takeWhile_cons] at h
    split at h
    · exact h
    · cases h

/-- The end is where the tokens behind have it. -/
theorem endToken_append (has : ∀ t ∈ as, t.isEof = false) (hbs : bs ≠ []) :
    endToken (as ++ bs) = endToken bs := by
  have hnone : as.find? (·.isEof) = none := List.find?_eq_none.2 fun t ht => by simp [has t ht]
  unfold endToken
  rw [List.find?_append, hnone, Option.none_or, List.getLast?_append_of_ne_nil _ hbs]

/-- What is complained of inside a row is located the same in any other. -/
theorem located_of_inside (h : c.token? ≠ none) (ts us : List Token) :
    c.located ts = c.located us := by
  obtain ⟨t, ht⟩ := Option.ne_none_iff_exists'.1 h
  simp only [Complaint.located, ht, Option.getD_some]

theorem inside_of_located (h : (c.located ts).token.isEof = false) : c.token? ≠ none := by
  intro hnone
  simp only [Complaint.located, hnone, Option.getD_none, endToken_isEof, reduceCtorEq] at h

/-- The declarations of a row are read in front of others, and these behind their complaints. -/
theorem program_append {ss us : List Stmt} {id id' : NodeId} {cs cs' : List Complaint}
    (hrun : program as.length ⟨as, 0, []⟩ = .ok ss ⟨[], id, cs⟩)
    (hrun' : program bs.length ⟨bs, 0, []⟩ = .ok us ⟨[], id', cs'⟩)
    (helse : ∀ t ∈ bs.head?, t.isKeyword .elseKw = false) (hin : ∀ c ∈ cs, c.token? ≠ none)
    (hends : cs = [] ∨ Terminated as) :
    program (as ++ bs).length ⟨as ++ bs, 0, []⟩ =
      .ok (ss ++ Stmt.shiftAll ⟨0, id⟩ us) ⟨[], id' + id, cs' ++ cs⟩ := by
  have hlen : (as ++ bs).length = as.length + bs.length := List.length_append
  obtain ⟨left, hleft, hfront⟩ := declarations_append ⟨.none, bs, []⟩ helse
    (Nat.le.intro hlen.symm) hrun (Nat.le_refl _) rfl hin hends (Nat.le_of_eq hlen.symm)
  have hle : bs.length ≤ (as ++ bs).length := by omega
  have hbehind := (program_repeats (σ := ⟨id, cs⟩) hle hleft).run ⟨bs, 0, []⟩ (Nat.le_refl _)
  have hrow : Row.into ⟨as, 0, []⟩ ⟨.none, bs, []⟩ = ⟨as ++ bs, 0, []⟩ := by
    simp only [Row.into, Shift.none, Token.map_down_zero]
    rfl
  have hmid : Row.into ⟨[], id, cs⟩ ⟨.none, bs, []⟩ = Row.later ⟨bs, 0, []⟩ ⟨id, cs⟩ := by
    simp [Row.into, Row.later, Shift.none, Complaint.map_down_zero]
  rw [hrun', ← hmid] at hbehind
  rw [hrow, afterwards, Reader.bind_of_ok hbehind, Stmt.shiftAll_none] at hfront
  exact hfront

/-- Tokens that are read, or that end with a semicolon and have no fault at their end, leave the
tokens behind them their faults. -/
theorem syntaxErrors_join (has : ∀ t ∈ as, t.isEof = false)
    (helse : ∀ t ∈ (beforeEnd bs).head?, t.isKeyword .elseKw = false)
    (hin : ∀ e ∈ syntaxErrors 0 as, e.token.isEof = false)
    (hends : syntaxErrors 0 as = [] ∨ Terminated as) :
    syntaxErrors 0 (as ++ bs) = syntaxErrors 0 as ++ syntaxErrors 0 bs := by
  by_cases hbs : bs = []
  · subst hbs
    rw [List.append_nil, show syntaxErrors 0 [] = [] from rfl, List.append_nil]
  obtain ⟨ss, id, cs, hrun, herrors⟩ := exists_run 0 as
  obtain ⟨us, id', cs', hrun', herrors'⟩ := exists_run 0 bs
  have hin' : ∀ c ∈ cs, c.token? ≠ none := fun c hc =>
    inside_of_located (hin _ (by simpa [herrors] using ⟨c, hc, rfl⟩))
  have hends' : cs = [] ∨ Terminated as := hends.imp_left fun h => by simpa [herrors] using h
  rw [beforeEnd_eq_self has] at hrun
  have hboth := program_append hrun hrun' helse hin' hends'
  rw [← beforeEnd_append has] at hboth
  have hfront : cs.reverse.map (·.located (as ++ bs)) = cs.reverse.map (·.located as) :=
    List.map_congr_left fun c hc => located_of_inside (hin' c (List.mem_reverse.1 hc)) _ _
  have hbehind : cs'.reverse.map (·.located (as ++ bs)) = cs'.reverse.map (·.located bs) := by
    simp only [Complaint.located, endToken_append has hbs]
  rw [syntaxErrors_of_run hboth, List.reverse_append, List.map_append, hfront, hbehind, ← herrors,
    ← herrors']

/-- A program and another behind it are read as the declarations of both. -/
theorem parseProgram_join {p q : List Stmt} (has : ∀ t ∈ as, t.isEof = false) {i j k : NodeId}
    (hp : (parseProgram j as).result = .ok p) (hq : (parseProgram k bs).result = .ok q) :
    ∃ r, (parseProgram i (as ++ bs)).result = .ok r ∧
      Stmt.unnumberedAll r = Stmt.unnumberedAll p ++ Stmt.unnumberedAll q := by
  obtain ⟨parts, hparts, htok, htree⟩ := (parseProgram_sound hp).1
  obtain ⟨parts', hparts', htok', htree'⟩ := (parseProgram_sound hq).1
  refine parseProgram_complete
    ⟨parts ++ parts', List.forall_mem_append.2 ⟨hparts, hparts'⟩, ?_, ?_⟩
  · rw [beforeEnd_append has, List.flatMap_append, ← htok, ← htok', beforeEnd_eq_self has]
  · rw [htree, htree', List.map_append]

/-- Behind tokens that are read, or that end with a semicolon and have no error at their end, a
program has the errors it has by itself, and the tokens before it have theirs. If there are none,
the declarations are those of both. -/
theorem syntaxErrors_append (i j k : NodeId) (as bs : List Token)
    (has : ∀ t ∈ as, t.isEof = false) (helse : ∀ t ∈ bs.head?, t.isKeyword .elseKw = false)
    (h : (∃ p, (parseProgram j as).result = .ok p) ∨
      (∃ t, as.getLast? = some t ∧ t.isSymbol .semicolon = true) ∧
        ∀ e ∈ syntaxErrors j as, e.token.isEof = false) :
    syntaxErrors i (as ++ bs) = syntaxErrors j as ++ syntaxErrors k bs ∧
      (syntaxErrors i (as ++ bs) = [] → ∃ p q r, (parseProgram j as).result = .ok p ∧
        (parseProgram k bs).result = .ok q ∧ (parseProgram i (as ++ bs)).result = .ok r ∧
          Stmt.unnumberedAll r = Stmt.unnumberedAll p ++ Stmt.unnumberedAll q) := by
  have herrors : syntaxErrors i (as ++ bs) = syntaxErrors j as ++ syntaxErrors k bs := by
    have helse' : ∀ t ∈ (beforeEnd bs).head?, t.isKeyword .elseKw = false :=
      fun t ht => helse t (head?_beforeEnd ht)
    rw [syntaxErrors_firstId j 0] at h
    rw [syntaxErrors_firstId i 0, syntaxErrors_firstId j 0, syntaxErrors_firstId k 0]
    rcases h with hread | ⟨⟨t, ht, hsemicolon⟩, hin⟩
    · have hnil : syntaxErrors 0 as = [] := by
        rw [syntaxErrors_firstId 0 j, syntaxErrors_eq_nil.2 hread]
      exact syntaxErrors_join has helse' (hnil ▸ List.forall_mem_nil _) (.inl hnil)
    · refine syntaxErrors_join has helse' hin (.inr fun u hu => ?_)
      cases ht.symm.trans hu
      exact hsemicolon
  refine ⟨herrors, fun hnil => ?_⟩
  obtain ⟨hp, hq⟩ := List.append_eq_nil_iff.1 (herrors ▸ hnil)
  obtain ⟨p, hp⟩ := syntaxErrors_eq_nil.1 hp
  obtain ⟨q, hq⟩ := syntaxErrors_eq_nil.1 hq
  obtain ⟨r, hr, htree⟩ := parseProgram_join (i := i) has hp hq
  exact ⟨p, q, r, hp, hq, hr, htree⟩

/-- A `;` by itself, which lacks an expression, before `nil nil;`, which lacks a semicolon. -/
theorem syntaxErrors_append_semicolon :
    syntaxErrors 0 ([⟨.symbol .semicolon, ";", 1⟩] ++ [⟨.keyword .nilKw, "nil", 1⟩,
      ⟨.keyword .nilKw, "nil", 1⟩, ⟨.symbol .semicolon, ";", 1⟩]) =
    [⟨.expressionMissing, ⟨.symbol .semicolon, ";", 1⟩⟩,
      ⟨.symbolMissing .semicolon .expression, ⟨.keyword .nilKw, "nil", 1⟩⟩] :=
  (syntaxErrors_append 0 0 0 _ _ (by decide) (by decide)
    (.inr ⟨⟨_, rfl, rfl⟩, by decide +kernel⟩)).1

end Grammar

end Lox
