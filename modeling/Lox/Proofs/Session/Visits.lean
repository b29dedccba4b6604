import Lox.Proofs.Eval.Traced

/-!
# The states in which a run reads

A run takes no name out of a scope and leaves the distances alone, on the whole and on the way: in
every state in which it reads a variable, all that was bound at its start is bound (`State.Grows`).
`Traced.Grows` says so of a traced evaluation. It is closed under everything the evaluator is made
of (`Traced.Grows.closed`), so it holds of the evaluator.
-/

namespace Lox

/-- The same distances, and no name is lost. -/
structure State.Grows (s s' : State) : Prop where
  distances : s'.distances = s.distances
  bound : ∀ i x, s.scopes.binds i x = true → s'.scopes.binds i x = true

namespace State.Grows

variable {s s' s'' : State}

theorem refl (s : State) : s.Grows s :=
  ⟨rfl, fun _ _ h => h⟩

theorem trans (h : s.Grows s') (h' : s'.Grows s'') : s.Grows s'' :=
  ⟨h'.distances.trans h.distances, fun i x hx => h'.bound i x (h.bound i x hx)⟩

theorem of_kept {o? : Option ScopeId} (h : s.Kept o? s') : s.Grows s' :=
  ⟨h.distances, h.bound⟩

/-- It does not matter which scope is current. -/
theorem of_scope {scope : ScopeId} (h : State.Grows { s with current := scope } s')
    (scope' : ScopeId) : s.Grows { s' with current := scope' } :=
  ⟨h.distances, h.bound⟩

end State.Grows

/-- An evaluation with its reads, on states that grow. -/
structure Traced.Grows {α : Type} (x : Traced Visit α) (y : Eval α) : Prop where
  grows (s : State) : s.Grows (stateOf (y s))
  visits (s : State) : Traces (· = s) (fun visit => s.Grows visit.state) x y

namespace Traced.Grows

variable {α β : Type} {x : Traced Visit α} {y : Eval α} {f : α → Traced Visit β} {g : α → Eval β}

theorem of_keeps (hkeeps : Eval.Keeps true y)
    (h : ∀ s, Traces (· = s) (fun visit => s.Grows visit.state) x y) : Traced.Grows x y :=
  ⟨fun s => .of_kept (hkeeps s), h⟩

theorem bind (hx : Traced.Grows x y) (hf : ∀ a, Traced.Grows (f a) (g a)) :
    Traced.Grows (x >>= f) (y >>= g) where
  grows s := by
    have h := hx.grows s
    simp only [Bind.bind, EStateM.bind]
    cases hy : y s with
    | error stop s' =>
      rw [hy] at h
      exact h
    | ok a s' =>
      rw [hy] at h
      exact h.trans ((hf a).grows s')
  visits s := by
    refine (hx.visits s).bind_of_ok fun t a s' ht hok => ?_
    have h := hx.grows s
    rw [← ht, hok] at h
    exact ((hf a).visits s').mono fun _ hvisit => ht ▸ h.trans hvisit

theorem within {scope : ScopeId} (h : Traced.Grows x y) :
    Traced.Grows (Traced.within scope x) (Eval.within scope y) where
  grows s := by
    have hs := h.grows { s with current := scope }
    unfold Eval.within
    generalize y { s with current := scope } = xs at hs
    cases xs <;> exact hs.of_scope _
  visits s := by
    refine ((h.visits { s with current := scope }).within fun _ hs => ?_).mono fun _ hvisit => ?_
    · rw [hs]
    · exact hvisit.of_scope _

/-- States only grow in what the evaluator is made of. -/
theorem closed : Closed reads fun x y => Traced.Grows x y where
  lift _ hkeeps := .of_keeps hkeeps fun _ => .lift _
  bind := .bind
  within := .within
  statement _ hx := ⟨hx.grows, fun s => .note (List.forall_mem_nil _) (hx.visits s)⟩
  printLine text := .of_keeps (.printLine text) fun _ => .printLine (List.forall_mem_nil _)
  read id name := .of_keeps (.read id name) fun s =>
    .read fun _ hs => List.forall_mem_singleton.2 (hs ▸ .refl s)
  assign _ id name v := .of_keeps (Eval.Keeps.assign id name v) fun _ =>
    .assign fun _ _ => List.forall_mem_nil _

end Traced.Grows

end Lox
