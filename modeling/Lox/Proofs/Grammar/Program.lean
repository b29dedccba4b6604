import Lox.Proofs.Grammar.StatementComplete

/-!
# Programs that are read are the sentences of the grammar

`parseProgram` answers a row of tokens with a tree exactly when the tokens before the first end
token are a sentence of `program`, and then the tree is the sentence's
(`parseProgram_iff_sentence`). The references of the tree are numbered from the given number on,
each with a number of its own (`parseProgram_sound`), and which tree is read does not depend on
that number (`parseProgram_unnumbered`).
-/

namespace Lox.Grammar

open Sentence

variable {firstId : NodeId} {ts : List Token} {p : List Stmt}

/-- What reading without a complaint says about a rule that is run on a whole row. -/
theorem run_reads {α : Type} {rule : Nat → Reader α} {P : Row → α → Row → Prop}
    (h : Reads (rule (beforeEnd ts).length) P) (firstId : NodeId) :
    firstId ≤ (run rule firstId ts).nextId ∧ ∀ a, (run rule firstId ts).result = .ok a →
      ∃ row', P ⟨beforeEnd ts, firstId, []⟩ a row' ∧
        row'.nextId = (run rule firstId ts).nextId := by
  have hr := h ⟨beforeEnd ts, firstId, []⟩
  simp only [run]
  split <;> rename_i hrow <;> rw [hrow] at hr
  · rename_i a row'
    split <;> rename_i hc
    · refine ⟨hr.1.nextId, ?_⟩
      rintro _ ⟨⟩
      exact ⟨row', hr.2 (by simp [hc]), rfl⟩
    · exact ⟨hr.1.nextId, nofun⟩
  · exact ⟨hr.nextId, nofun⟩

theorem run_ne_error_nil {α : Type} (rule : Nat → Reader α) (firstId : NodeId)
    (ts : List Token) : (run rule firstId ts).result ≠ .error [] := by
  simp only [run]
  split
  · split
    · nofun
    · rename_i h
      simpa using h
  · simp

/-- Declarations that are read up to the bound leave nothing. -/
theorem program_reads (n : Nat) : Reads (program n) fun row body row' =>
    row.tokens.length ≤ n → SpellsBody row body row' ∧ row'.tokens = [] := by
  refine (declarations_reads (statement_declaration_reads n).2 (fun _ => rfl) n).mono ?_
  rintro row body row' ⟨hbody, hover⟩ hlen
  refine ⟨hbody, ?_⟩
  rcases hover with hover | hcount
  · simpa using hover
  · obtain ⟨parts, hparts, htok, htree, -⟩ := hbody
    have hle := length_le_flatMap hparts
    have hbody : body.length = parts.length := by
      simpa [Stmt.unnumberedAll_eq_map] using congrArg List.length htree
    rw [htok, List.length_append] at hlen
    exact List.length_eq_zero_iff.1 (by omega)

theorem firstId_le_nextId (firstId : NodeId) (ts : List Token) :
    firstId ≤ (parseProgram firstId ts).nextId :=
  (run_reads (program_reads _) firstId).1

theorem parseProgram_sound (h : (parseProgram firstId ts).result = .ok p) :
    Program (beforeEnd ts) (Stmt.unnumberedAll p) ∧
      Numbers firstId (parseProgram firstId ts).nextId (Stmt.idsOfAll p) := by
  obtain ⟨row', hbody, hid⟩ := (run_reads (program_reads _) firstId).2 p h
  obtain ⟨⟨parts, hparts, htok, htree, hids⟩, hover⟩ := hbody (Nat.le_refl _)
  exact ⟨⟨parts, hparts, by simpa [hover] using htok, htree⟩, hid ▸ hids⟩

theorem parseProgram_complete {tree : List Stmt} (h : Program (beforeEnd ts) tree) :
    ∃ p, (parseProgram firstId ts).result = .ok p ∧ Stmt.unnumberedAll p = tree := by
  obtain ⟨parts, hparts, htok, rfl⟩ := h
  have hcount := length_le_flatMap hparts
  have hdeclarations : Accepts (program (beforeEnd ts).length) (parts.flatMap (·.1)) []
      (Stmt.unnumberedAll · = parts.map (·.2)) :=
    declarations_accepts (statement_declaration_complete (beforeEnd ts).length).2 (fun _ => rfl)
      (fun _ _ _ _ _ => rfl) (fun _ _ => rfl) (by rintro _ ⟨⟩) (beforeEnd ts).length parts
      (htok ▸ hcount) hparts (htok ▸ Nat.le_refl _)
  obtain ⟨p, id', hrun, hp⟩ := hdeclarations firstId []
  refine ⟨p, ?_, hp⟩
  rw [List.append_nil, ← htok] at hrun
  simp only [parseProgram, run, hrun]

/-- Tokens are read as a program if and only if those before the first end token are a sentence,
and then the program is the tree of the sentence. Otherwise there are errors. -/
theorem parseProgram_iff_sentence (firstId : NodeId) (ts : List Token) :
    (∀ tree, (∃ p, (parseProgram firstId ts).result = .ok p ∧ Stmt.unnumberedAll p = tree) ↔
      Program (beforeEnd ts) tree) ∧ (parseProgram firstId ts).result ≠ .error [] := by
  refine ⟨fun tree => ⟨?_, parseProgram_complete⟩, run_ne_error_nil _ _ _⟩
  rintro ⟨p, hp, rfl⟩
  exact (parseProgram_sound hp).1

/-- The tree that is read does not depend on the first number. -/
theorem parseProgram_unnumbered (h : (parseProgram firstId ts).result = .ok p)
    (otherId : NodeId) : ∃ q, (parseProgram otherId ts).result = .ok q ∧
      Stmt.unnumberedAll q = Stmt.unnumberedAll p :=
  parseProgram_complete (parseProgram_sound h).1

end Lox.Grammar
