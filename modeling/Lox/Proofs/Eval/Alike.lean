import Lox.Eval.Operator

/-!
# Values that operators do not tell apart

Of a function an operator sees the identity and the name, and not its code or where it was declared.
Values that are alike in that sense give the same results, and what an operator gives is never a
function of a program.
-/

namespace Lox

/-- The same value, as far as operators see it. -/
inductive Value.Alike : Value → Value → Prop where
  | refl (v : Value) : Alike v v
  | closure (i : Nat) {f f' : Function} (h : f.name.lexeme = f'.name.lexeme)
      (scope scope' : ScopeId) :
    Alike (.callable (.closure i f scope)) (.callable (.closure i f' scope'))

namespace Value

variable {v v' w w' : Value}

theorem Alike.text (h : Alike v v') : v.text = v'.text := by
  cases h with
  | refl => rfl
  | closure i h scope scope' => simp only [Value.text, Callable.text, h]

theorem Alike.isTruthy (h : Alike v v') : v.isTruthy = v'.isTruthy := by
  cases h <;> rfl

theorem Alike.decides (h : Alike v v') (op : Token) : v.decides op = v'.decides op := by
  unfold Value.decides
  rw [h.isTruthy]

theorem Alike.unary (h : Alike v v') (op : Token) : v.unary op = v'.unary op := by
  cases h <;> rfl

theorem Alike.equals (h : Alike v v') (h' : Alike w w') : v.equals w = v'.equals w' := by
  cases h with
  | refl =>
    cases h' with
    | refl => rfl
    | closure => cases v <;> rfl
  | closure =>
    cases h' with
    | refl => cases w <;> rfl
    | closure => rfl

theorem Alike.binary (h : Alike v v') (h' : Alike w w') (op : Token) :
    v.binary op w = v'.binary op w' := by
  have heq := h.equals h'
  have hadd : v.add w = v'.add w' := by
    cases h with
    | refl => cases h' <;> cases v <;> rfl
    | closure => rfl
  unfold Value.binary
  rw [heq, hadd]
  split
  · rfl
  · rfl
  · rfl
  · cases h with
    | refl => cases h' <;> cases v <;> rfl
    | closure => rfl

def IsClosure (v : Value) : Prop :=
  ∃ i f scope, v = .callable (.closure i f scope)

theorem not_isClosure_of_unary {op : Token} (h : v.unary op = .ok w) : ¬ w.IsClosure := by
  rintro ⟨i, f, scope, rfl⟩
  unfold Value.unary at h
  split at h <;> first | (split at h <;> cases h) | cases h

theorem not_isClosure_of_binary {op : Token} {u : Value} (h : v.binary op w = .ok u) :
    ¬ u.IsClosure := by
  rintro ⟨i, f, scope, rfl⟩
  unfold Value.binary at h
  split at h
  · unfold Value.add at h
    split at h <;> cases h
  · cases h
  · cases h
  · split at h
    · unfold Value.arithmetic at h
      split at h <;> cases h
    · cases h

end Value

end Lox
