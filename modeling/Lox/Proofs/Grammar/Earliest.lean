import Lox.Proofs.Grammar.Errors
import Mathlib.Data.List.TakeWhile

/-!
# The earliest fault

The relaxed grammar (`Relaxed.program`) has assignments to any expression and lists of any length,
so the faults of which a reader complains without stopping are none of its faults. The first of the
other faults is found at the first token that no program of that grammar has behind the tokens
before it, and there is none where all the tokens are such a program (`hardErrors_earliest`).
-/

namespace Lox.Grammar

open Computability

variable {ts us vs : List Token} {firstId : NodeId} {i : Nat}

/-- The errors that stop the reading of a statement. -/
def hardErrors (firstId : NodeId) (ts : List Token) : List SyntaxError :=
  (syntaxErrors firstId ts).filter (! ·.cause.isSoft)

/-- Some program of the relaxed grammar begins with these tokens. -/
def Viable (us : List Token) : Prop :=
  ∃ v, us ++ v ∈ Relaxed.program

theorem Viable.of_append (h : Viable (us ++ vs)) : Viable us := by
  obtain ⟨v, hv⟩ := h
  exact ⟨vs ++ v, by rwa [← List.append_assoc]⟩

/-- The tokens before the `i`-th begin a program of the relaxed grammar. With that token they do
not, or there is no such token and they are not a whole program. -/
structure LeavesAt (ts : List Token) (i : Nat) : Prop where
  within : i ≤ (beforeEnd ts).length
  viable : Viable ((beforeEnd ts).take i)
  token : i < (beforeEnd ts).length → ¬ Viable ((beforeEnd ts).take (i + 1))
  ended : i = (beforeEnd ts).length → beforeEnd ts ∉ Relaxed.program

/-- What stands at the `i`-th place, where it is not behind the end. -/
theorem getElem?_beforeEnd (h : i ≤ (beforeEnd ts).length) :
    (beforeEnd ts)[i]?.getD (endToken ts) = ts[i]?.getD (endToken ts) := by
  obtain ⟨rest, hts, hrest⟩ :
      ∃ rest, ts = beforeEnd ts ++ rest ∧ ts.find? (·.isEof) = rest.head? :=
    ⟨_, List.takeWhile_append_dropWhile.symm, List.find?_eq_head?_dropWhile_not ..⟩
  have hend : rest.head?.getD (endToken ts) = endToken ts := by
    rw [endToken, hrest]
    cases rest.head? <;> rfl
  have hsame : ts[i]? = (beforeEnd ts ++ rest)[i]? := by rw [← hts]
  rw [hsame]
  obtain hlt | rfl := Nat.lt_or_eq_of_le h
  · rw [List.getElem?_append_left hlt]
  · rw [List.getElem?_append_right (Nat.le_refl _), Nat.sub_self, ← List.head?_eq_getElem?, hend,
      List.getElem?_eq_none (Nat.le_refl _)]
    rfl

/-- Tokens of the relaxed grammar leave it nowhere. -/
theorem not_leavesAt (h : beforeEnd ts ∈ Relaxed.program) : ¬ LeavesAt ts i := by
  intro hi
  obtain hlt | heq := Nat.lt_or_eq_of_le hi.within
  · refine hi.token hlt ⟨(beforeEnd ts).drop (i + 1), ?_⟩
    rwa [List.take_append_drop]
  · exact hi.ended heq h

/-- Where a reader of the grammar is stuck, the tokens leave it for the first time. -/
theorem isLeast_leavesAt {follow : Language Token → Prop} (hfollow : follow 1)
    (hts : beforeEnd ts = us ++ vs) (h : Stuck follow Relaxed.program us vs) :
    IsLeast {i | LeavesAt ts i} us.length := by
  have hnot {v : List Token} (hv : v.head? = vs.head?) : us ++ v ∉ Relaxed.program := by
    simpa using h.stuck 1 hfollow v hv
  constructor
  · refine ⟨by simp [hts], ?_, fun hlt => ?_, fun heq => ?_⟩
    · rw [hts, List.take_left]
      exact h.viable
    · obtain ⟨t, ts', rfl⟩ : ∃ t ts', vs = t :: ts' :=
        List.exists_cons_of_ne_nil (by rintro rfl; simp [hts] at hlt)
      rw [hts, List.take_length_add_append]
      rintro ⟨v, hv⟩
      exact hnot (v := t :: v) rfl (by simpa using hv)
    · rw [hts]
      exact hnot rfl
  · intro i hi
    refine Nat.le_of_not_lt fun hlt => hi.token (by simp [hts]; omega) ?_
    rw [hts, List.take_append_of_le_length hlt]
    have hall : Viable (us.take (i + 1) ++ us.drop (i + 1)) := by
      rw [List.take_append_drop]
      exact h.viable
    exact hall.of_append

theorem nil_of_mem_one : ∀ y ∈ (1 : Language Token), y.head?.isNone = true := by
  rintro _ rfl
  rfl

/-- Reading a program goes by the relaxed grammar. -/
theorem program_predicts (n : Nat) : Predicts .anywhere (fun K => ∀ y ∈ K, y.head?.isNone = true) n
    (program n) Relaxed.program :=
  declarations_predicts (statement_declaration_predicts (Nat.le_refl n)).2 atEnd_eq nofun
    (Nat.le_refl n) (Nat.le_refl n)

/-- Either no error stops the reading of a statement, or the first one that does is where a reader
of the grammar is stuck. -/
theorem read_or_stuck (firstId : NodeId) (ts : List Token) :
    (beforeEnd ts ∈ Relaxed.program ∧ hardErrors firstId ts = []) ∨
      ∃ us vs e, beforeEnd ts = us ++ vs ∧
        Stuck (fun K => ∀ y ∈ K, y.head?.isNone = true) Relaxed.program us vs ∧
        (hardErrors firstId ts).head? = some e ∧ e.token = vs.head?.getD (endToken ts) := by
  obtain ⟨ss, id, cs, hrun, herrors⟩ := exists_run firstId ts
  have hsoftly {noted : List Complaint} (h : ∀ c ∈ noted, c.cause.isSoft = true) :
      (noted.reverse.map (·.located ts)).filter (! ·.cause.isSoft) = [] := by
    simpa [Complaint.located] using h
  have hrow := (program_predicts (beforeEnd ts).length).outcome ⟨beforeEnd ts, firstId, []⟩
    (Nat.le_refl _)
  rw [hrun] at hrow
  cases hrow with
  | read w hw htokens hsoft hnext =>
    obtain ⟨noted, rfl, hsoft⟩ := hsoft
    refine .inl ⟨?_, ?_⟩
    · rw [show beforeEnd ts = w ++ [] from htokens, List.append_nil]
      exact hw
    · rw [hardErrors, herrors, List.append_nil]
      exact hsoftly hsoft
  | @recovered _ c mid us _ hc htoken htokens hsoft hstuck hnoted =>
    obtain ⟨noted, hmid, hsoft⟩ := hsoft
    obtain ⟨later, rfl⟩ := hnoted
    refine .inr ⟨us, mid.tokens, c.located ts, htokens, hstuck, ?_, by rw [← htoken]; rfl⟩
    have hhard : (! (c.located ts).cause.isSoft) = true := by simp [Complaint.located, hc]
    rw [hardErrors, herrors, hmid, List.append_nil, List.reverse_append, List.reverse_cons,
      List.map_append, List.map_append, List.filter_append, List.filter_append, hsoftly hsoft,
      List.map_singleton, List.filter_singleton, hhard]
    rfl

/-- No error stops the reading of a statement exactly where the tokens are a program of the relaxed
grammar. -/
theorem hardErrors_eq_nil_iff :
    hardErrors firstId ts = [] ↔ beforeEnd ts ∈ Relaxed.program := by
  obtain ⟨hts, hnil⟩ | ⟨us, vs, e, hts, hstuck, hhead, -⟩ := read_or_stuck firstId ts
  · exact ⟨fun _ => hts, fun _ => hnil⟩
  · refine ⟨fun h => ?_, fun h => absurd h ?_⟩
    · rw [h] at hhead
      cases hhead
    · simpa [hts] using hstuck.stuck 1 nil_of_mem_one vs rfl

/-- The relaxed grammar has every program of the documented one. -/
theorem relaxed_of_sentence {tree : List Stmt} (h : Sentence.Program (beforeEnd ts) tree) :
    beforeEnd ts ∈ Relaxed.program := by
  obtain ⟨p, hp, -⟩ : ∃ p, (parseProgram 0 ts).result = .ok p ∧ Stmt.unnumberedAll p = tree :=
    parseProgram_complete h
  have hnil : hardErrors 0 ts = [] := by
    rw [hardErrors, syntaxErrors_eq_nil.2 ⟨p, hp⟩]
    rfl
  exact hardErrors_eq_nil_iff.1 hnil

/-- The first error that stops the reading of a statement is at the first token with which the
tokens leave the relaxed grammar. If they do not leave it, there is no such error. -/
theorem hardErrors_earliest (firstId : NodeId) (ts : List Token) :
    (∃ i e, IsLeast {i | LeavesAt ts i} i ∧ (hardErrors firstId ts).head? = some e ∧
      e.token = ts[i]?.getD (endToken ts)) ∨
    ((∀ i, ¬ LeavesAt ts i) ∧ hardErrors firstId ts = []) := by
  obtain ⟨hts, hnil⟩ | ⟨us, vs, e, hts, hstuck, hhead, htoken⟩ := read_or_stuck firstId ts
  · exact .inr ⟨fun _ => not_leavesAt hts, hnil⟩
  · have hleast := isLeast_leavesAt nil_of_mem_one hts hstuck
    refine .inl ⟨us.length, e, hleast, hhead, ?_⟩
    rw [htoken, ← getElem?_beforeEnd hleast.1.within, hts,
      List.getElem?_append_right (Nat.le_refl _), Nat.sub_self, List.head?_eq_getElem?]

end Lox.Grammar
