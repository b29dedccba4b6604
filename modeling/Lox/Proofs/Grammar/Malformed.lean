import Lox.Proofs.Grammar.Apart
import Lox.Proofs.Grammar.Earliest

/-!
# Malformed statements

A malformed statement between programs has the errors it has by itself, unless one of them is at
its end, and only one of them stops the reading (`malformed_reported`). So it is reported once if it
has no fault of which a reader complains without stopping. With such faults it may be reported more
than once (`malformed_reported_twice`).
-/

namespace Lox

open Computability

namespace Relaxed

/-- A token behind which a statement may be over. -/
def Closes (t : Token) : Prop :=
  t.kind = .symbol .semicolon ∨ t.kind = .symbol .rightBrace

theorem ExprStmt.last {ts : List Token} (h : ExprStmt ts) :
    ∃ us t, ts = us ++ [t] ∧ Closes t := by
  obtain ⟨semicolon, -, hs⟩ := h
  exact ⟨_, semicolon, rfl, .inl hs⟩

theorem VarDecl.last {ts : List Token} (h : VarDecl ts) :
    ∃ us t, ts = us ++ [t] ∧ Closes t := by
  cases h with
  | plain var name semicolon _ _ hs => exact ⟨[var, name], semicolon, rfl, .inl hs⟩
  | initialized var name equals semicolon _ _ _ _ hs => exact ⟨_, semicolon, rfl, .inl hs⟩

theorem last_append {us ts : List Token} (h : ∃ vs t, ts = vs ++ [t] ∧ Closes t) :
    ∃ vs t, us ++ ts = vs ++ [t] ∧ Closes t := by
  obtain ⟨vs, t, rfl, ht⟩ := h
  exact ⟨us ++ vs, t, (List.append_assoc ..).symm, ht⟩

theorem last_cons {u : Token} {ts : List Token} (h : ∃ vs t, ts = vs ++ [t] ∧ Closes t) :
    ∃ vs t, u :: ts = vs ++ [t] ∧ Closes t := by
  obtain ⟨vs, t, rfl, ht⟩ := h
  exact ⟨u :: vs, t, rfl, ht⟩

/-- A statement ends with a semicolon or a brace. -/
theorem Statement.last {phrase : Phrase} {ts : List Token} (h : Statement phrase ts) :
    ∃ us t, ts = us ++ [t] ∧ Closes t := by
  induction h with
  | function _ _ _ _ _ _ _ right _ _ _ _ _ _ _ _ hr => exact ⟨_, right, rfl, .inr hr⟩
  | var h => exact h.last
  | statement _ ih => exact ih
  | expression h => exact h.last
  | print _ semicolon _ _ hs => exact ⟨_, semicolon, rfl, .inl hs⟩
  | block _ _ right _ _ hr => exact ⟨_, right, rfl, .inr hr⟩
  | exit _ semicolon _ _ hs => exact ⟨_, semicolon, rfl, .inl hs⟩
  | loop _ _ _ _ _ _ _ _ ih => exact last_append (last_cons ih)
  | counted _ _ _ _ _ _ _ _ _ _ _ _ ih => exact last_append (last_cons ih)
  | ifThen _ _ _ _ _ _ _ _ ih => exact last_append (last_cons ih)
  | ifElse _ _ _ _ _ _ _ _ _ _ _ _ ih => exact last_append (last_cons ih)

end Relaxed

/-- Where no statement starts and no semicolon is before the last token, nothing is gone on with. -/
theorem resumeAfter_eq_nil : ∀ {last : Token} {ts : List Token},
    (∀ t ∈ ts, t.startsStatement = false) →
    (∀ t ∈ (last :: ts).dropLast, t.isSymbol .semicolon = false) → resumeAfter last ts = []
  | _, [], _, _ => rfl
  | last, t :: ts, hstarts, honce => by
    obtain ⟨ht, hts⟩ := List.forall_mem_cons.1 hstarts
    obtain ⟨hlast, honce⟩ := List.forall_mem_cons.1 honce
    rw [resumeAfter, ht, hlast, Bool.or_false, if_neg Bool.false_ne_true]
    exact resumeAfter_eq_nil hts honce

namespace Grammar

variable {as ms bs : List Token} {row mid : Row}

/-- Tokens in the shape of one statement: a semicolon at their end and nowhere else, no brace, and
behind the first token no keyword that starts a statement. -/
structure Single (ms : List Token) : Prop where
  noEof : ∀ t ∈ ms, t.isEof = false
  noBrace : ∀ t ∈ ms, t.isSymbol .leftBrace = false ∧ t.isSymbol .rightBrace = false
  ended : ∃ t, ms.getLast? = some t ∧ t.isSymbol .semicolon = true
  once : ∀ t ∈ ms.dropLast, t.isSymbol .semicolon = false
  noStart : ∀ t ∈ ms.tail, t.startsStatement = false
  noElse : ∀ t ∈ ms.head?, t.isKeyword .elseKw = false

namespace Single

theorem length_pos (h : Single ms) : 0 < ms.length := by
  obtain ⟨t, ht, -⟩ := h.ended
  exact List.length_pos_of_mem (List.mem_of_getLast? ht)

/-- Behind any statement at their front there is no token. -/
theorem behind_eq_nil (h : Single ms) {w us : List Token} (hw : w ∈ Relaxed.statements .declaration)
    (hms : ms = w ++ us) : us = [] := by
  obtain ⟨vs, t, rfl, hsemicolon | hbrace⟩ := Relaxed.Statement.last hw
  · by_contra hus
    have ht : t ∈ ms.dropLast := by
      rw [hms, List.dropLast_append_of_ne_nil hus]
      simp
    simpa [Token.isSymbol, hsemicolon] using h.once t ht
  · have ht : t ∈ ms := by simp [hms]
    simpa [Token.isSymbol, hbrace] using (h.noBrace t ht).2

/-- Behind a fault nothing is gone on with. -/
theorem synchronize_eq_nil (h : Single ms) {us vs : List Token} (hms : ms = us ++ vs) :
    synchronize vs = [] := by
  cases vs with
  | nil => rfl
  | cons t vs =>
    refine resumeAfter_eq_nil (fun u hu => h.noStart u ?_) fun u hu => h.once u ?_
    · rw [hms]
      cases us <;> simp [hu]
    · rw [hms, List.dropLast_append_of_ne_nil (List.cons_ne_nil _ _)]
      exact List.mem_append_right _ hu

end Single

/-- The complaints of faults that stop the reading. -/
def hard (cs : List Complaint) : List Complaint :=
  cs.filter (! ·.cause.isSoft)

theorem hard_of_softly (h : row.Softly mid) : hard mid.complaints = hard row.complaints := by
  obtain ⟨noted, hcs, hsoft⟩ := h
  have hnoted : hard noted = [] := by simpa [hard] using hsoft
  rw [hcs, hard, List.filter_append]
  exact congrArg (· ++ _) hnoted

/-- One declaration is read, or it is left out with one such complaint, and nothing is behind it. -/
theorem Single.declaration_over (h : Single ms) {n : Nat} {s? : Option Stmt} (hn : ms.length ≤ n)
    {id : NodeId} (hrun : declaration n ⟨ms, id, []⟩ = .ok s? mid) :
    mid.tokens = [] ∧ (hard mid.complaints).length ≤ 1 := by
  -- Inside a declaration faults are recovered from only between braces, and there are none.
  have hbrace : ¬ Recovery.inBraces.Allows ms := by
    rintro ⟨t, ht, hbrace⟩
    exact Bool.false_ne_true ((h.noBrace t ht).1.symm.trans hbrace)
  have hpos := h.length_pos
  obtain ⟨n, rfl⟩ : ∃ k, n = k + 1 := ⟨n - 1, by omega⟩
  obtain ⟨hs, hd⟩ := statement_declaration_predicts (Nat.le_refl n)
  have hrule := (declarationRule_predicts hs hd (Nat.le_refl _) (Nat.le_refl _)).outcome
    ⟨ms, id, []⟩ hn
  unfold Grammar.declaration recovering at hrun
  split at hrun <;> rename_i hres <;> rw [hres] at hrule <;> cases hrun
  · cases hrule with
    | read w hw htokens hsoft _ =>
      refine ⟨h.behind_eq_nil hw htokens, ?_⟩
      rw [hard_of_softly hsoft]
      exact Nat.zero_le _
    | recovered _ hρ => exact absurd hρ hbrace
  · cases hrule with
    | failed us _ _ htokens hsoft _ =>
      refine ⟨h.synchronize_eq_nil htokens, ?_⟩
      have hfront : (hard _).length = 0 := congrArg List.length (hard_of_softly hsoft)
      rw [hard, List.filter_cons]
      split
      · exact Nat.le_of_eq (congrArg (· + 1) hfront)
      · exact Nat.le_trans (Nat.le_of_eq hfront) (Nat.zero_le _)
    | recovered _ hρ => exact absurd hρ hbrace

/-- One statement has one error at most that stops the reading. -/
theorem Single.hardErrors_le (h : Single ms) (firstId : NodeId) :
    (hardErrors firstId ms).length ≤ 1 := by
  obtain ⟨ss, id, cs, hrun, herrors⟩ := exists_run firstId ms
  have hcs : (hard cs).length ≤ 1 := by
    obtain ⟨count, hcount⟩ : ∃ k, ms.length = k + 1 :=
      ⟨ms.length - 1, (Nat.sub_add_cancel h.length_pos).symm⟩
    rw [beforeEnd_eq_self h.noEof, program, hcount,
      declarations_next (List.ne_nil_of_length_eq_add_one hcount)] at hrun
    obtain ⟨s?, mid, hfirst, hrest⟩ := Reader.bind_eq_ok hrun
    obtain ⟨hover, hle⟩ := h.declaration_over (Nat.le_of_eq hcount) hfirst
    rw [afterwards, Reader.bind_of_ok (declarations_over hover)] at hrest
    cases hrest
    exact hle
  have hlen : hardErrors firstId ms = (hard cs).reverse.map (·.located ms) := by
    rw [hardErrors, herrors, List.filter_map, List.filter_reverse]
    rfl
  rw [hlen, List.length_map, List.length_reverse]
  exact hcs

/-- A statement between two programs has the errors that it has by itself, unless one of them is at
its end. -/
theorem Single.between (h : Single ms) (has : ∀ t ∈ as, t.isEof = false)
    (hp : syntaxErrors 0 as = []) (hq : ∃ q, (parseProgram 0 bs).result = .ok q)
    (hend : ∀ e ∈ syntaxErrors 0 ms, e.token.isEof = false) :
    syntaxErrors 0 (as ++ ms ++ bs) = syntaxErrors 0 ms := by
  have hended : Terminated ms := by
    obtain ⟨t, ht, hsemicolon⟩ := h.ended
    intro u hu
    cases ht.symm.trans hu
    exact hsemicolon
  have helse : ∀ t ∈ (beforeEnd (ms ++ bs)).head?, t.isKeyword .elseKw = false := by
    obtain ⟨u, us, rfl⟩ := List.exists_cons_of_length_pos h.length_pos
    rw [beforeEnd_append h.noEof]
    exact h.noElse
  obtain ⟨q, hq⟩ := hq
  rw [List.append_assoc, syntaxErrors_join has helse (hp ▸ List.forall_mem_nil _) (.inl hp), hp,
    List.nil_append, syntaxErrors_join h.noEof (head_ne_else hq) hend (.inr hended),
    syntaxErrors_eq_nil.2 ⟨q, hq⟩, List.append_nil]

/-- A malformed statement between two programs, with no error at its end, has the errors that it has
by itself, and one of them at most stops the reading. So where all of them do, there is one. -/
theorem malformed_reported (i j : NodeId) (as ms bs : List Token)
    (has : ∀ t ∈ as, t.isEof = false) (hp : ∃ p, (parseProgram j as).result = .ok p)
    (hq : ∃ q, (parseProgram j bs).result = .ok q)
    (hm : ¬ ∃ p, (parseProgram j ms).result = .ok p) (h : Single ms)
    (hend : ∀ e ∈ syntaxErrors j ms, e.token.isEof = false) :
    syntaxErrors i (as ++ ms ++ bs) = syntaxErrors j ms ∧
      (hardErrors i (as ++ ms ++ bs)).length ≤ 1 ∧
      ((∀ e ∈ syntaxErrors j ms, e.cause.isSoft = false) →
        ∃ e, syntaxErrors i (as ++ ms ++ bs) = [e]) := by
  have herrors : syntaxErrors i (as ++ ms ++ bs) = syntaxErrors j ms := by
    rw [← syntaxErrors_eq_nil, syntaxErrors_firstId j 0] at hp hq
    rw [syntaxErrors_firstId j 0] at hend
    rw [syntaxErrors_firstId i 0, syntaxErrors_firstId j 0,
      h.between has hp (syntaxErrors_eq_nil.1 hq) hend]
  have hle := h.hardErrors_le j
  refine ⟨herrors, ?_, fun hhard => ?_⟩
  · rw [hardErrors, herrors]
    exact hle
  · have hall : hardErrors j ms = syntaxErrors j ms :=
      List.filter_eq_self.2 fun e he => by rw [hhard e he, Bool.not_false]
    rw [hall] at hle
    rw [herrors]
    have hpos := List.length_pos_iff.2 (mt syntaxErrors_eq_nil.1 hm)
    exact List.length_eq_one_iff.1 (Nat.le_antisymm hle hpos)

/-- A `;` by itself, which lacks an expression, between two programs. -/
theorem malformed_reported_semicolon : ∃ e, syntaxErrors 0
    ([⟨.keyword .nilKw, "nil", 1⟩, ⟨.symbol .semicolon, ";", 1⟩] ++
      [⟨.symbol .semicolon, ";", 2⟩] ++
      [⟨.keyword .nilKw, "nil", 3⟩, ⟨.symbol .semicolon, ";", 3⟩]) = [e] := by
  have hsingle : Single [⟨.symbol .semicolon, ";", 2⟩] :=
    ⟨by decide, by decide, ⟨_, rfl, rfl⟩, by decide, by decide, by decide⟩
  have hfault : ¬ ∃ p, (parseProgram 0 [⟨.symbol .semicolon, ";", 2⟩]).result = .ok p :=
    mt syntaxErrors_eq_nil.2 (List.cons_ne_nil _ _)
  exact (malformed_reported 0 0 _ _ _ (by decide) ⟨_, rfl⟩ ⟨_, rfl⟩ hfault hsingle
    (by decide +kernel)).2.2 (by decide +kernel)

/-- Two targets that are none are two errors of one statement, `nil = nil = nil;`. The tokens of
`for (;` have an error at their end, and before a block there are two, one of them in the block. -/
theorem malformed_reported_twice :
    (Single [⟨.keyword .nilKw, "nil", 1⟩, ⟨.symbol .equal, "=", 1⟩, ⟨.keyword .nilKw, "nil", 1⟩,
        ⟨.symbol .equal, "=", 1⟩, ⟨.keyword .nilKw, "nil", 1⟩, ⟨.symbol .semicolon, ";", 1⟩] ∧
      (syntaxErrors 0 ([] ++ [⟨.keyword .nilKw, "nil", 1⟩, ⟨.symbol .equal, "=", 1⟩,
        ⟨.keyword .nilKw, "nil", 1⟩, ⟨.symbol .equal, "=", 1⟩, ⟨.keyword .nilKw, "nil", 1⟩,
        ⟨.symbol .semicolon, ";", 1⟩] ++ [])).length = 2) ∧
    Single [⟨.keyword .forKw, "for", 1⟩, ⟨.symbol .leftParen, "(", 1⟩,
        ⟨.symbol .semicolon, ";", 1⟩] ∧
      (∃ q, (parseProgram 0 [⟨.symbol .leftBrace, "\x7b", 2⟩, ⟨.keyword .nilKw, "nil", 2⟩,
        ⟨.symbol .semicolon, ";", 2⟩, ⟨.symbol .rightBrace, "\x7d", 2⟩]).result = .ok q) ∧
      (syntaxErrors 0 ([] ++ [⟨.keyword .forKw, "for", 1⟩, ⟨.symbol .leftParen, "(", 1⟩,
        ⟨.symbol .semicolon, ";", 1⟩] ++ [⟨.symbol .leftBrace, "\x7b", 2⟩,
        ⟨.keyword .nilKw, "nil", 2⟩, ⟨.symbol .semicolon, ";", 2⟩,
        ⟨.symbol .rightBrace, "\x7d", 2⟩])).length = 2 :=
  ⟨⟨⟨by decide, by decide, ⟨_, rfl, rfl⟩, by decide, by decide, by decide⟩, by decide +kernel⟩,
    ⟨by decide, by decide, ⟨_, rfl, rfl⟩, by decide, by decide, by decide⟩, ⟨_, rfl⟩,
    by decide +kernel⟩

end Grammar

end Lox
