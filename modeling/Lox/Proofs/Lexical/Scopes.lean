import Lox.Scope

/-!
# Scopes after a change

What the scopes of a session answer after a name was bound or a scope was added. A binding changes
one name of one scope and no parent; a new scope binds nothing yet. So all values that are bound
keep to what they did (`Scopes.Holds`) if the new ones do.
-/

namespace Lox

namespace Bindings

variable {b : Bindings} {x y : String} {v : Value}

@[simp] theorem get?_set_self : (b.set x v).get? x = some v := by
  simp [set, get?]

theorem get?_set_ne (h : y ≠ x) : (b.set x v).get? y = b.get? y := by
  have hne : (y == x) = false := by simpa using h
  simp only [set, get?, List.lookup_cons, hne]
  induction b with
  | nil => rfl
  | cons e b ih =>
    by_cases he : e.1 = x
    · have hye : (y == e.1) = false := by simpa [he] using h
      rw [List.filter_cons_of_neg (by simpa using he), ih, List.lookup_cons, hye]
    · rw [List.filter_cons_of_pos (by simpa using he), List.lookup_cons, List.lookup_cons, ih]

end Bindings

namespace Scopes

variable {s : Scopes} {i j : ScopeId} {x y : String} {v : Value} {parent? : Option ScopeId}

@[simp] theorem size_define : (s.define i x v).size = s.size := by
  simp [define, size]

theorem getElem?_define : (s.define i x v).all[j]? =
    if i = j then s.all[j]?.map fun scope => { scope with bindings := scope.bindings.set x v }
    else s.all[j]? := by
  simp [define, Array.getElem?_modify]

@[simp] theorem parent?_define : (s.define i x v).parent? j = s.parent? j := by
  unfold parent?
  rw [getElem?_define]
  split
  · cases s.all[j]? <;> rfl
  · rfl

theorem bindings_define_self (h : i < s.size) :
    (s.define i x v).bindings i = (s.bindings i).set x v := by
  have hscope : s.all[i]? = some s.all[i] := Array.getElem?_eq_getElem h
  simp [bindings, getElem?_define, hscope]

theorem bindings_define_ne (h : j ≠ i) : (s.define i x v).bindings j = s.bindings j := by
  simp [bindings, getElem?_define, h.symm]

/-- Where there is no scope nothing is bound. -/
theorem bindings_define_of_size_le (h : s.size ≤ i) :
    (s.define i x v).bindings j = s.bindings j := by
  by_cases hj : j = i
  · have hnone : s.all[i]? = none := Array.getElem?_eq_none h
    simp [bindings, getElem?_define, hj, hnone]
  · exact bindings_define_ne hj

/-- What is bound after one name was bound. -/
theorem get?_define (h : i < s.size) : ((s.define i x v).bindings j).get? y =
    if j = i ∧ y = x then some v else (s.bindings j).get? y := by
  by_cases hj : j = i
  · subst hj
    rw [bindings_define_self h]
    by_cases hy : y = x
    · simp [hy]
    · simp [hy, Bindings.get?_set_ne hy]
  · rw [bindings_define_ne hj]
    simp [hj]

theorem binds_iff : s.binds i x = true ↔ (s.bindings i).get? x ≠ none := by
  simp [binds, Bindings.binds, Option.isSome_iff_ne_none]

@[simp] theorem size_add : (s.add parent?).2.size = s.size + 1 := by
  simp [add, size]

theorem getElem?_add_self : (s.add parent?).2.all[s.size]? = some ⟨[], parent?⟩ := by
  simp [add, size]

theorem getElem?_add_ne (h : j ≠ s.size) : (s.add parent?).2.all[j]? = s.all[j]? := by
  have h : j ≠ s.all.size := h
  simp [add, Array.getElem?_push, h]

theorem bindings_add : (s.add parent?).2.bindings j = s.bindings j := by
  by_cases hj : j = s.size
  · subst hj
    have hnone : s.all[s.size]? = none := by simp [size]
    simp [bindings, getElem?_add_self, hnone]
  · simp [bindings, getElem?_add_ne hj]

theorem parent?_add_self : (s.add parent?).2.parent? s.size = parent? := by
  simp [Scopes.parent?, getElem?_add_self]

theorem parent?_add_ne (h : j ≠ s.size) : (s.add parent?).2.parent? j = s.parent? j := by
  simp [Scopes.parent?, getElem?_add_ne h]

/-! ## Bound values -/

/-- All values that are bound to a name meet `P`. -/
def Holds (P : Value → Prop) (s : Scopes) : Prop :=
  ∀ i x v, (s.bindings i).get? x = some v → P v

namespace Holds

variable {P Q : Value → Prop} (h : s.Holds P)

include h

theorem imp (hv : ∀ v, P v → Q v) : s.Holds Q :=
  fun i x v hget => hv v (h i x v hget)

theorem define (hv : P v) (i : ScopeId) (x : String) : (s.define i x v).Holds P := by
  intro j y w hw
  by_cases hi : i < s.size
  · rw [get?_define hi] at hw
    split at hw
    · exact Option.some.inj hw ▸ hv
    · exact h j y w hw
  · rw [bindings_define_of_size_le (Nat.le_of_not_lt hi)] at hw
    exact h j y w hw

theorem add (parent? : Option ScopeId) : (s.add parent?).2.Holds P := by
  intro i x v hv
  rw [bindings_add] at hv
  exact h i x v hv

/-- Names that are bound one after the other. -/
theorem defineAll (i : ScopeId) (bindings : List (String × Value)) (hv : ∀ b ∈ bindings, P b.2) :
    (bindings.foldl (fun scopes b => scopes.define i b.1 b.2) s).Holds P := by
  induction bindings generalizing s with
  | nil => exact h
  | cons b bindings ih =>
    obtain ⟨hb, hv⟩ := List.forall_mem_cons.1 hv
    exact ih (h.define hb i b.1) hv

end Holds

/-! ## Ways outwards -/

section Congr

variable {t : Scopes} (hp : ∀ i, t.parent? i = s.parent? i)

include hp

/-- Only the links tell which scopes lie around one. -/
theorem ancestor?_congr (i : ScopeId) (d : Nat) : t.ancestor? i d = s.ancestor? i d := by
  induction d generalizing i with
  | zero => rfl
  | succ d ih =>
    unfold ancestor?
    rw [hp]
    exact congrArg _ (funext ih)

theorem chain_congr (hsize : t.size = s.size) (i : ScopeId) : t.chain i = s.chain i := by
  unfold chain
  rw [hsize]
  generalize s.size = links
  induction links generalizing i with
  | zero => rfl
  | succ links ih =>
    unfold chainWithin
    rw [hp]
    split
    · rw [ih]
    · rfl

end Congr

theorem chain_of_root (hi : s.parent? i = none) : s.chain i = [i] := by
  unfold chain
  cases s.size with
  | zero => rfl
  | succ links => rw [chainWithin, hi]

/-- The chain of a scope starts with the scope itself. -/
theorem exists_chain_eq_cons (s : Scopes) (i : ScopeId) : ∃ outer, s.chain i = i :: outer := by
  unfold chain
  cases s.size with
  | zero => exact ⟨[], rfl⟩
  | succ links =>
    unfold chainWithin
    split
    · exact ⟨_, rfl⟩
    · exact ⟨[], rfl⟩

theorem holder?_of_binds (h : s.binds i x = true) : s.holder? i x = some i := by
  obtain ⟨outer, hchain⟩ := s.exists_chain_eq_cons i
  unfold holder?
  rw [hchain, List.find?_cons_of_pos (p := (s.binds · x)) h]

end Scopes

end Lox
