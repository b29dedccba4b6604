import Lox.Proofs.Grammar.Program
import Lox.Proofs.Grammar.Recovered

/-!
# Programs one after the other

The tokens of a program and those of another behind them are read as the statements of both, with
the references numbered on (`parseProgram_append`). The second program does not start with `else`,
so the last statement of the first one ends where it did.
-/

namespace Lox.Grammar

variable {α : Type} {row : Row}

/-- A rule that is run without a fault. -/
theorem run_of_ok {rule : Nat → Reader α} {firstId : NodeId} {ts : List Token} {a : α}
    (h : rule (beforeEnd ts).length ⟨beforeEnd ts, firstId, []⟩ = .ok a row)
    (hcs : row.complaints = []) : run rule firstId ts = ⟨.ok a, row.nextId⟩ := by
  simp only [run, h, hcs]

theorem run_eq_ok {rule : Nat → Reader α} {firstId : NodeId} {ts : List Token} {a : α}
    (h : (run rule firstId ts).result = .ok a) :
    ∃ row, rule (beforeEnd ts).length ⟨beforeEnd ts, firstId, []⟩ = .ok a row ∧
      row.complaints = [] := by
  simp only [run] at h
  split at h
  · rename_i row hrun
    split at h <;> cases h
    exact ⟨row, hrun, by assumption⟩
  · cases h

/-- No program starts with `else`. -/
theorem head_ne_else {firstId : NodeId} {ts : List Token} {p : List Stmt}
    (h : (parseProgram firstId ts).result = .ok p) :
    ∀ t ∈ (beforeEnd ts).head?, t.isKeyword .elseKw = false := by
  obtain ⟨⟨parts, hparts, htok, -⟩, -⟩ := parseProgram_sound h
  intro t ht
  cases parts with
  | nil => simp [htok] at ht
  | cons d parts =>
    obtain ⟨u, us, hu, hstarts⟩ := (hparts d List.mem_cons_self).first
    obtain rfl : u = t := by simpa [htok, hu] using ht
    simpa [Token.isKeyword] using hstarts.ne.1

/-- A program that is read takes all its tokens. -/
theorem program_over {firstId : NodeId} {ts : List Token} {p : List Stmt}
    (hrun : program ts.length ⟨ts, firstId, []⟩ = .ok p row) (hcs : row.complaints = []) :
    row.tokens = [] := by
  have h := program_reads ts.length ⟨ts, firstId, []⟩
  rw [hrun] at h
  exact (h.2 (by rw [hcs]) (Nat.le_refl _)).2

/-- Two programs whose tokens stand one behind the other, the second one `k` lines further down, are
read as one. -/
theorem parseProgram_append {firstId : NodeId} {ts us vs : List Token} {k : Nat} {p q : List Stmt}
    (hp : (parseProgram firstId ts).result = .ok p)
    (hq : (parseProgram (parseProgram firstId ts).nextId us).result = .ok q)
    (hvs : beforeEnd vs = beforeEnd ts ++ (beforeEnd us).map (·.down k)) :
    (parseProgram firstId vs).result = .ok (p ++ Stmt.shiftAll ⟨k, 0⟩ q) ∧
      (parseProgram firstId vs).nextId =
        (parseProgram (parseProgram firstId ts).nextId us).nextId := by
  have helse := head_ne_else hq
  obtain ⟨⟨ts', id, cs⟩, hrun, rfl⟩ := run_eq_ok hp
  obtain rfl : ts' = [] := program_over hrun rfl
  have hid : parseProgram firstId ts = ⟨.ok p, id⟩ := run_of_ok hrun rfl
  rw [hid] at hq ⊢
  obtain ⟨⟨us', id', cs⟩, hrun', rfl⟩ := run_eq_ok hq
  obtain rfl : us' = [] := program_over hrun' rfl
  have hid' : parseProgram id us = ⟨.ok q, id'⟩ := run_of_ok hrun' rfl
  rw [hid']
  have hlen : (beforeEnd vs).length = (beforeEnd ts).length + (beforeEnd us).length := by
    simp [hvs]
  have hts : (beforeEnd ts).length ≤ (beforeEnd vs).length := by omega
  have hus : (beforeEnd us).length ≤ (beforeEnd vs).length := by omega
  have hcount : (beforeEnd ts).length + ((beforeEnd us).map (·.down k)).length ≤
      (beforeEnd vs).length := by simp [hlen]
  have hdown : ∀ t ∈ ((beforeEnd us).map (·.down k)).head?, t.isKeyword .elseKw = false := by
    intro t ht
    rw [List.head?_map] at ht
    obtain ⟨u, hu, rfl⟩ := Option.map_eq_some_iff.1 ht
    exact helse u hu
  -- The first program in front of the second one, and then the second one by itself.
  obtain ⟨left, hleft, hfront⟩ := declarations_append ⟨.none, (beforeEnd us).map (·.down k), []⟩
    hdown hts hrun (Nat.le_refl _) rfl (List.forall_mem_nil _) (.inl rfl) hcount
  have hrest : (beforeEnd us).length + 0 ≤ left := by simpa using hleft
  obtain ⟨left', -, hbehind⟩ := declarations_append ⟨⟨k, 0⟩, [], []⟩ nofun hus hrun'
    (Nat.le_refl _) rfl (List.forall_mem_nil _) (.inl rfl) hrest
  have hrow : (⟨beforeEnd vs, firstId, []⟩ : Row) = Row.into ⟨beforeEnd ts, firstId, []⟩
      ⟨.none, (beforeEnd us).map (·.down k), []⟩ := by
    have hnone : (beforeEnd ts).map (·.down Shift.none.lines) = beforeEnd ts := List.map_id _
    simp only [Row.into, hvs, hnone]
    rfl
  have hmid : Row.into ⟨[], id, []⟩ ⟨.none, (beforeEnd us).map (·.down k), []⟩ =
      Row.into ⟨beforeEnd us, id, []⟩ ⟨⟨k, 0⟩, [], []⟩ := by
    simp [Row.into, Shift.none]
  have hall : program (beforeEnd vs).length ⟨beforeEnd vs, firstId, []⟩ =
      .ok (p ++ Stmt.shiftAll ⟨k, 0⟩ q) ⟨[], id', []⟩ := by
    have hover : declarations (declaration (beforeEnd vs).length) atEnd left'
        (Row.into ⟨[], id', []⟩ ⟨⟨k, 0⟩, [], []⟩) = .ok [] ⟨[], id', []⟩ := declarations_over rfl
    unfold program
    rw [hrow, hfront, hmid, Stmt.shiftAll_none]
    simp only [afterwards, Bind.bind, EStateM.bind] at hbehind ⊢
    rw [hbehind, hover]
    simp only [Pure.pure, EStateM.pure, List.append_nil]
  have hboth : parseProgram firstId vs = ⟨.ok (p ++ Stmt.shiftAll ⟨k, 0⟩ q), id'⟩ :=
    run_of_ok hall rfl
  rw [hboth]
  exact ⟨rfl, rfl⟩

end Lox.Grammar
