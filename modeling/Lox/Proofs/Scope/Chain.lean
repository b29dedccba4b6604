import Mathlib.Data.Fintype.Card
import Lox.Proofs.Lexical.Scopes

/-!
# Chains of scopes

Where following links never leads back to a scope (`Scopes.Acyclic`), all scopes on a way outwards
are different, so the way has no more links than there are scopes (`le_size_of_ancestor?`). So a
chain has the scopes that following the links leads to, one after the other, and then ends
(`getElem?_chain`, `length_chain`). The scope that holds a name is the first of them that binds it
(`holder?_eq_some_iff`).
-/

namespace Lox.Scopes

variable {s : Scopes} {i j p e : ScopeId} {d : Nat} {x : String} {v : Value}

/-- No scope is reached from itself by following links. -/
def Acyclic (s : Scopes) : Prop :=
  ∀ i d, s.ancestor? i (d + 1) ≠ some i

/-- The scope `d` steps outwards binds a name, and none on the way there does. -/
structure Nearest (s : Scopes) (e : ScopeId) (x : String) (d : Nat) (i : ScopeId) : Prop where
  ancestor? : s.ancestor? e d = some i
  binds : s.binds i x = true
  unbound : ∀ k < d, ∀ j, s.ancestor? e k = some j → s.binds j x = false

theorem lt_size_of_parent? (h : s.parent? i = some p) : i < s.size := by
  obtain ⟨scope, hscope, -⟩ := Option.bind_eq_some_iff.1 h
  exact (Array.getElem?_eq_some_iff.1 hscope).1

theorem ancestor?_add (i : ScopeId) (k m : Nat) :
    s.ancestor? i (k + m) = (s.ancestor? i k).bind (s.ancestor? · m) := by
  induction k generalizing i with
  | zero => rw [Nat.zero_add, ancestor?, Option.bind_some]
  | succ k ih =>
    rw [Nat.succ_add, ancestor?, ancestor?, Option.bind_assoc]
    exact congrArg _ (funext ih)

/-! ## Older scopes around younger ones -/

/-- Every link leads to an older scope. -/
def Aged (s : Scopes) : Prop :=
  ∀ i p, s.parent? i = some p → p < i

theorem aged_empty : empty.Aged :=
  fun _ _ h => absurd (lt_size_of_parent? h) (Nat.not_lt_zero _)

namespace Aged

/-- A scope comes up inside one that is there already, or inside none. -/
theorem add (h : s.Aged) {parent? : Option ScopeId} (hp : ∀ p ∈ parent?, p < s.size) :
    (s.add parent?).2.Aged := by
  intro i p hi
  by_cases hn : i = s.size
  · subst hn
    rw [parent?_add_self] at hi
    exact hp p hi
  · rw [parent?_add_ne hn] at hi
    exact h i p hi

theorem define (h : s.Aged) : (s.define j x v).Aged := by
  intro i p hi
  rw [parent?_define] at hi
  exact h i p hi

theorem add_le_of_ancestor? (h : s.Aged) : ∀ {d i j : Nat}, s.ancestor? i d = some j → j + d ≤ i
  | 0, _, _, hj => Nat.le_of_eq (Option.some.inj hj).symm
  | d + 1, i, j, hj => by
    obtain ⟨p, hp, hj⟩ := Option.bind_eq_some_iff.1 hj
    exact Nat.lt_of_le_of_lt (h.add_le_of_ancestor? hj) (h i p hp)

theorem acyclic (h : s.Aged) : s.Acyclic := by
  intro i d hi
  have hle := h.add_le_of_ancestor? hi
  omega

end Aged

/-! ## Chains and steps -/

/-- On a way outwards no scope comes twice. -/
theorem Acyclic.ancestor?_ne (h : s.Acyclic) {k : Nat} (hlt : k < d)
    (hk : s.ancestor? i k = some j) : s.ancestor? i d ≠ some j := by
  obtain ⟨m, rfl⟩ := Nat.exists_eq_add_of_lt hlt
  rw [Nat.add_assoc, ancestor?_add, hk]
  exact h j m

/-- There are as many scopes as a way outwards has links, since each link is that of another
scope. -/
theorem le_size_of_ancestor? (h : s.Acyclic) (hj : s.ancestor? i d = some j) : d ≤ s.size := by
  have hway (k : Fin d) : ∃ a : Fin s.size, s.ancestor? i k = some a.val := by
    obtain ⟨m, hm⟩ := Nat.exists_eq_add_of_lt k.isLt
    rw [hm, Nat.add_assoc, ancestor?_add] at hj
    obtain ⟨a, ha, hj⟩ := Option.bind_eq_some_iff.1 hj
    obtain ⟨p, hp, -⟩ := Option.bind_eq_some_iff.1 hj
    exact ⟨⟨a, lt_size_of_parent? hp⟩, ha⟩
  choose scope hscope using hway
  have hinj : Function.Injective scope := by
    intro k l hkl
    rcases Nat.lt_trichotomy k l with hlt | heq | hlt
    · exact absurd (hkl ▸ hscope l) (h.ancestor?_ne hlt (hscope k))
    · exact Fin.ext heq
    · exact absurd (hkl ▸ hscope k) (h.ancestor?_ne hlt (hscope l))
  simpa using Fintype.card_le_of_injective scope hinj

theorem getElem?_chainWithin (links d : Nat) (i : ScopeId) :
    (s.chainWithin links i)[d]? = if d ≤ links then s.ancestor? i d else none := by
  induction links generalizing d i with
  | zero => cases d <;> rfl
  | succ links ih =>
    unfold chainWithin
    cases d with
    | zero => split <;> rfl
    | succ d =>
      unfold ancestor?
      cases s.parent? i with
      | none => simp
      | some p => simpa using ih d p

/-- A chain has the scopes that the links lead to, in their order. -/
theorem getElem?_chain (h : s.Acyclic) (d : Nat) (i : ScopeId) :
    (s.chain i)[d]? = s.ancestor? i d := by
  unfold chain
  rw [getElem?_chainWithin]
  split
  · rfl
  · cases hj : s.ancestor? i d with
    | none => rfl
    | some j => exact absurd (le_size_of_ancestor? h hj) ‹_›

/-- A chain ends at the scope that has no parent. -/
theorem length_chain (h : s.Acyclic) (ha : s.ancestor? i d = some j) (hj : s.parent? j = none) :
    (s.chain i).length = d + 1 := by
  have hover : s.ancestor? i (d + 1) = none := by
    rw [ancestor?_add, ha, Option.bind_some, ancestor?, hj]
    rfl
  rw [← getElem?_chain h] at ha hover
  exact Nat.le_antisymm (List.getElem?_eq_none_iff.1 hover) (List.getElem?_eq_some_iff.1 ha).1

/-! ## The scope that holds a name -/

theorem holder?_eq_some_iff (h : s.Acyclic) :
    s.holder? e x = some i ↔ ∃ d, s.Nearest e x d i := by
  unfold holder?
  rw [List.find?_eq_some_iff_getElem]
  constructor
  · rintro ⟨hb, d, hd, rfl, hbefore⟩
    refine ⟨d, ?_, hb, fun k hk j hj => ?_⟩
    · rw [← getElem?_chain h, List.getElem?_eq_getElem hd]
    · rw [← getElem?_chain h, List.getElem?_eq_getElem (Nat.lt_trans hk hd)] at hj
      simpa [Option.some.inj hj] using hbefore k hk
  · rintro ⟨d, ha, hb, hbefore⟩
    rw [← getElem?_chain h] at ha
    obtain ⟨hd, hi⟩ := List.getElem?_eq_some_iff.1 ha
    refine ⟨hb, d, hd, hi, fun k hk => ?_⟩
    have hk' := List.getElem?_eq_getElem (Nat.lt_trans hk hd)
    rw [getElem?_chain h] at hk'
    simpa using hbefore k hk _ hk'

theorem holderAt?_eq_some_iff :
    s.holderAt? e d x = some i ↔ s.ancestor? e d = some i ∧ s.binds i x = true :=
  Option.filter_eq_some_iff

/-- Where any scope of a chain binds a name, one of them is the nearest. -/
theorem exists_nearest (h : s.Acyclic) (ha : s.ancestor? e d = some i) (hb : s.binds i x = true) :
    ∃ k j, s.Nearest e x k j := by
  cases hj : s.holder? e x with
  | some j =>
    obtain ⟨k, hk⟩ := (holder?_eq_some_iff h).1 hj
    exact ⟨k, j, hk⟩
  | none =>
    rw [← getElem?_chain h] at ha
    exact absurd hb (List.find?_eq_none.1 hj i (List.mem_of_getElem? ha))

end Lox.Scopes
