import Lox.Proofs.Scope.Chain
import Lox.Eval.State

/-!
# Scopes around the global one

All scopes of a session lie in the global one: it has no parent, and each other scope has an older
one as its parent (`Scopes.Rooted`). So following the links from any scope leads to the globals and
ends there (`Scopes.Rooted.length_chain`).
-/

namespace Lox.Scopes

variable {s s' s'' : Scopes} {i p : ScopeId} {x : String} {v : Value}

structure Rooted (s : Scopes) : Prop where
  globals : State.globals < s.size
  root : s.parent? State.globals = none
  parent? : ∀ i < s.size, i ≠ State.globals → ∃ p < i, s.parent? i = some p

/-- More scopes, with those that were there in the same places. -/
structure Extends (s s' : Scopes) : Prop where
  size : s.size ≤ s'.size
  parent? : ∀ i < s.size, s'.parent? i = s.parent? i

namespace Rooted

/-- The globals are the only scope without a parent. -/
theorem parent?_eq_none_iff (h : s.Rooted) (hi : i < s.size) :
    s.parent? i = none ↔ i = State.globals := by
  constructor
  · intro hnone
    refine Decidable.byContradiction fun hne => ?_
    obtain ⟨p, -, hp⟩ := h.parent? i hi hne
    cases hnone.symm.trans hp
  · rintro rfl
    exact h.root

theorem aged (h : s.Rooted) : s.Aged := by
  intro i p hp
  have hne : i ≠ State.globals := by
    rintro rfl
    cases h.root.symm.trans hp
  obtain ⟨q, hq, hp'⟩ := h.parent? i (lt_size_of_parent? hp) hne
  obtain rfl := Option.some.inj (hp.symm.trans hp')
  exact hq

theorem acyclic (h : s.Rooted) : s.Acyclic :=
  h.aged.acyclic

/-- Following the links leads to the globals. -/
theorem ancestor?_globals (h : s.Rooted) (hi : i < s.size) :
    ∃ d, s.ancestor? i d = some State.globals := by
  induction i using Nat.strongRecOn with
  | ind i ih =>
    by_cases hne : i = State.globals
    · exact ⟨0, congrArg some hne⟩
    · obtain ⟨p, hlt, hp⟩ := h.parent? i hi hne
      obtain ⟨d, hd⟩ := ih p hlt (Nat.lt_trans hlt hi)
      refine ⟨d + 1, ?_⟩
      rw [ancestor?, hp]
      exact hd

/-- The chain ends there. -/
theorem length_chain (h : s.Rooted) (hi : i < s.size) :
    ∃ d, s.ancestor? i d = some State.globals ∧ (s.chain i).length = d + 1 := by
  obtain ⟨d, hd⟩ := h.ancestor?_globals hi
  exact ⟨d, hd, Scopes.length_chain h.acyclic hd h.root⟩

theorem add (h : s.Rooted) (hp : p < s.size) : (s.add (some p)).2.Rooted where
  globals := by
    rw [size_add]
    exact Nat.lt_succ_of_lt h.globals
  root := by
    rw [parent?_add_ne (Nat.ne_of_lt h.globals)]
    exact h.root
  parent? i hi hne := by
    by_cases hn : i = s.size
    · subst hn
      exact ⟨p, hp, parent?_add_self⟩
    · rw [size_add] at hi
      rw [parent?_add_ne hn]
      exact h.parent? i (Nat.lt_of_le_of_ne (Nat.le_of_lt_succ hi) hn) hne

theorem define (h : s.Rooted) : (s.define i x v).Rooted where
  globals := size_define.symm ▸ h.globals
  root := parent?_define.trans h.root
  parent? j hj hne := by
    rw [size_define] at hj
    rw [parent?_define]
    exact h.parent? j hj hne

end Rooted

namespace Extends

theorem refl (s : Scopes) : s.Extends s :=
  ⟨Nat.le_refl _, fun _ _ => rfl⟩

theorem trans (h : s.Extends s') (h' : s'.Extends s'') : s.Extends s'' where
  size := Nat.le_trans h.size h'.size
  parent? i hi := (h'.parent? i (Nat.lt_of_lt_of_le hi h.size)).trans (h.parent? i hi)

theorem add (s : Scopes) (parent? : Option ScopeId) : s.Extends (s.add parent?).2 where
  size := size_add.symm ▸ Nat.le_succ _
  parent? _ hi := parent?_add_ne (Nat.ne_of_lt hi)

theorem define (s : Scopes) (i : ScopeId) (x : String) (v : Value) :
    s.Extends (s.define i x v) where
  size := Nat.le_of_eq size_define.symm
  parent? _ _ := parent?_define

end Extends

end Lox.Scopes
