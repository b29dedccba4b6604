import Lox.Proofs.Grammar.StatementCarries

/-!
# Going on behind a fault

After a fault the next declaration starts behind a semicolon or at a keyword. So if a row ends with
a semicolon and none of its faults is at its end, or if it has none, then on a longer row its
declarations are read and complained of as they were, and reading goes on with what is behind
(`declarations_append`).
-/

namespace Lox.Grammar

variable {α α' : Type} {σ : Setting} {row mid : Row} {n n' : Nat}

/-- Where a row ends with a semicolon, the same is left out on a longer row. -/
theorem recovering_carries {most taken : Nat} {r : Reader α} {r' : Reader α'} {g : α → α'}
    (h : Carries σ false most taken r r' g) (htaken : taken ≤ 1) {a? : Option α}
    (hr : recovering r row = .ok a? mid) (hm : row.tokens.length ≤ most) (hin : mid.Inside)
    (hends : mid.complaints = [] ∨ Terminated row.tokens) :
    mid.tokens.length + taken ≤ row.tokens.length ∧
      recovering r' (row.into σ) = .ok (a?.map g) (mid.into σ) := by
  unfold recovering at hr
  split at hr <;> rename_i hrun <;> cases hr
  · obtain ⟨hlen, hrun'⟩ := (h row).ok hrun hm hin
    refine ⟨hlen, ?_⟩
    simp only [recovering, hrun' (absurd · Bool.false_ne_true), Option.map_some]
  · rename_i c mid
    obtain ⟨⟨hsuffix, -⟩, hhead⟩ := (h row).advances.error hrun
    have hmid : mid.tokens ≠ [] := by
      intro hnil
      refine hin c List.mem_cons_self ?_
      rw [hhead, hnil]
      rfl
    have hin' : mid.Inside := fun c hc => hin c (List.mem_cons_of_mem _ hc)
    -- A fault was noted, so the row ends with a semicolon, and with it what the fault left.
    have hends' : Terminated mid.tokens :=
      (hends.resolve_left (List.cons_ne_nil _ _)).of_suffix hsuffix
    have hsync : synchronize (mid.into σ).tokens =
        (synchronize mid.tokens).map (·.down σ.lines) ++ σ.behind :=
      synchronize_append σ.lines σ.behind hmid fun _ => hends'
    have hlt := length_synchronize_lt hmid
    have hle := hsuffix.length_le
    refine ⟨by dsimp only; omega, ?_⟩
    simp only [recovering, (h row).error hrun hm hin' hmid, hsync]
    rfl

/-- A declaration that is read or complained of is the same on a longer row. -/
theorem declaration_carries (helse : ∀ t ∈ σ.behind.head?, t.isKeyword .elseKw = false)
    (hn : n ≤ n') {s? : Option Stmt} (hr : declaration n row = .ok s? mid)
    (hm : row.tokens.length ≤ n) (hin : mid.Inside)
    (hends : mid.complaints = [] ∨ Terminated row.tokens) :
    mid.tokens.length + 1 ≤ row.tokens.length ∧
      declaration n' (row.into σ) = .ok (s?.map (·.shift σ.toShift)) (mid.into σ) := by
  cases n with
  | zero =>
    have hnil : row.tokens = [] := List.length_eq_zero_iff.1 (Nat.le_zero.1 hm)
    cases hr
    refine absurd ?_ (hin _ List.mem_cons_self)
    rw [hnil]
    rfl
  | succ n =>
    obtain ⟨n', rfl⟩ : ∃ k, n' = k + 1 := ⟨n' - 1, by omega⟩
    obtain ⟨hs, hd⟩ :=
      statement_declaration_carries helse (Nat.le_refl n) (Nat.le_of_succ_le_succ hn)
    have hrule := declarationRule_carries hs hd helse (Nat.le_refl _) hn (Nat.le_refl _)
    exact recovering_carries hrule (Nat.le_refl _) hr hm hin hends

theorem declaration_advances (n : Nat) (row : Row) : Advances (declaration n) row := by
  have h := (statement_declaration_carries (σ := ⟨.none, [], []⟩) (by simp) (Nat.le_refl n)
    (Nat.le_refl n)).2
  exact (h row).advances

theorem declarations_advances (n : Nat) : ∀ (count : Nat) (row : Row),
    Advances (declarations (declaration n) atEnd count) row
  | 0, row => .pure [] row
  | count + 1, row => by
    refine .bind ⟨fun h => by cases h; exact .refl _, nofun⟩ fun isOver row => ?_
    split
    · exact .pure [] row
    · exact .bind (declaration_advances n row) fun _ row =>
        .bind (declarations_advances n count row) fun _ row => .pure _ row

/-- What some declarations give behind others. -/
def afterwards (ss : List Stmt) (declarations : Reader (List Stmt)) : Reader (List Stmt) := do
  let others ← declarations
  return ss ++ others

theorem afterwards_nil (r : Reader (List Stmt)) : afterwards [] r = r := by
  simp only [afterwards, List.nil_append, bind_pure]

theorem afterwards_append (ss us : List Stmt) (r : Reader (List Stmt)) :
    afterwards (ss ++ us) r = afterwards ss (afterwards us r) := by
  simp only [afterwards, bind_assoc, pure_bind, List.append_assoc]

theorem afterwards_congr {ss : List Stmt} {r r' : Reader (List Stmt)} {row row' : Row}
    (h : r row = r' row') : afterwards ss r row = afterwards ss r' row' := by
  simp only [afterwards, Bind.bind, EStateM.bind, h]

section Count

variable {d : Reader (Option Stmt)} {count : Nat}

theorem declarations_over (h : row.tokens = []) :
    declarations d atEnd count row = .ok [] row := by
  cases count with
  | zero => rfl
  | succ count =>
    simp only [declarations, Bind.bind, EStateM.bind, atEnd, h, List.isEmpty_nil, if_true]
    rfl

theorem declarations_next (h : row.tokens ≠ []) :
    declarations d atEnd (count + 1) row = (do
      let first? ← d
      afterwards first?.toList (declarations d atEnd count)) row := by
  have hempty : row.tokens.isEmpty = false := by simpa using h
  simp only [declarations, Bind.bind, EStateM.bind, atEnd, hempty, Bool.false_eq_true, if_false]
  rfl

end Count

/-- Declarations up to the end of a row come first where the row is longer, and enough of the bound
is left for what is behind. -/
theorem declarations_append (σ : Setting)
    (helse : ∀ t ∈ σ.behind.head?, t.isKeyword .elseKw = false) (hn : n ≤ n') :
    ∀ {count count' : Nat} {row mid : Row} {ss : List Stmt},
      declarations (declaration n) atEnd count row = .ok ss mid → row.tokens.length ≤ n →
      mid.tokens = [] → mid.Inside → (mid.complaints = [] ∨ Terminated row.tokens) →
      row.tokens.length + σ.behind.length ≤ count' →
      ∃ left, σ.behind.length ≤ left ∧
        declarations (declaration n') atEnd count' (row.into σ) =
          afterwards (Stmt.shiftAll σ.toShift ss) (declarations (declaration n') atEnd left)
            (mid.into σ) := by
  intro count
  induction count with
  | zero =>
    intro count' row mid ss hrun _ _ _ _ hle
    cases hrun
    exact ⟨count', by omega, by rw [Stmt.shiftAll, afterwards_nil]⟩
  | succ count ih =>
    intro count' row mid ss hrun hlen hover hin hends hle
    by_cases hempty : row.tokens = []
    · rw [declarations_over hempty] at hrun
      cases hrun
      exact ⟨count', by omega, by rw [Stmt.shiftAll, afterwards_nil]⟩
    · rw [declarations_next hempty] at hrun
      obtain ⟨first?, row₁, hfirst, hrest⟩ := Reader.bind_eq_ok hrun
      obtain ⟨others, row₂, hothers, hlast⟩ := Reader.bind_eq_ok hrest
      cases hlast
      have hon := (declaration_advances n row).ok hfirst
      have hon₁ := (declarations_advances n count row₁).ok hothers
      have hends₁ : row₁.complaints = [] ∨ Terminated row.tokens :=
        hends.imp_left fun hnil => List.suffix_nil.1 (by simpa only [hnil] using hon₁.complaints)
      obtain ⟨hshorter, hs⟩ := declaration_carries helse hn hfirst hlen (hon₁.inside hin) hends₁
      -- A declaration takes a token for the one of the bound that it uses up.
      obtain ⟨c, rfl⟩ : ∃ c, count' = c + 1 := ⟨count' - 1, by omega⟩
      have hle₁ : row₁.tokens.length + σ.behind.length ≤ c := by omega
      obtain ⟨left, hleft, hrest⟩ := ih hothers (by omega) hover hin
        (hends.imp_right (·.of_suffix hon.tokens)) hle₁
      have hne : (row.into σ).tokens ≠ [] := by simp [Row.into, hempty]
      refine ⟨left, hleft, ?_⟩
      have hall : Stmt.shiftAll σ.toShift (first?.toList ++ others) =
          (first?.map (·.shift σ.toShift)).toList ++ Stmt.shiftAll σ.toShift others := by
        cases first? <;> rfl
      rw [declarations_next hne, Reader.bind_of_ok hs, hall, afterwards_append]
      exact afterwards_congr hrest

end Lox.Grammar
