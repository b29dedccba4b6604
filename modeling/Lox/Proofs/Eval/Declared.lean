import Lox.Proofs.Binding.Joined
import Lox.Proofs.Eval.Kept

/-!
# The names that a program binds

A program that comes to its end has bound the names that its statements declare, and no others, in
the scope that it ran in (`executeProgram_binds`). So the global names that a session has after a
program are those that the analysis of scopes finds declared in it (`mem_globalNames_of_ok`).
-/

namespace Lox

variable {α β : Type}

namespace Eval

/-- An evaluation that comes to its end has bound just these names in the current scope. -/
def Binds (names : List String) (x : Eval α) : Prop :=
  ∀ s a s', x s = .ok a s' → s.current < s.scopes.size →
    s'.current = s.current ∧ s.scopes.size ≤ s'.scopes.size ∧
      ∀ y, s'.scopes.binds s.current y = true ↔ y ∈ names ∨ s.scopes.binds s.current y = true

namespace Binds

variable {names names' : List String} {x : Eval α} {f : α → Eval β}

theorem of_keeps (h : Keeps false x) : Binds [] x := by
  intro s a s' hx hlt
  have hs := h s
  rw [hx] at hs
  refine ⟨hs.current, hs.size, fun y => ?_⟩
  exact ⟨fun hy => .inr (hs.names _ hlt nofun y hy), fun hy => hs.bound _ y (by simpa using hy)⟩

theorem define (name : Token) (v : Value) : Binds [name.lexeme] (define name v) := by
  intro s a s' hx hlt
  cases hx
  refine ⟨rfl, by simp, fun y => ?_⟩
  rw [Scopes.binds_define, List.mem_singleton]
  refine ⟨fun h => h.symm.imp_left (·.2.2), ?_⟩
  rintro (rfl | h)
  · exact .inr ⟨hlt, rfl, rfl⟩
  · exact .inl h

theorem bind (hx : Binds names x) (hf : ∀ a, Binds names' (f a)) :
    Binds (names ++ names') (x >>= f) := by
  intro s b s'' hok hlt
  obtain ⟨a, s', hxs, hok⟩ := bind_eq_ok.1 hok
  obtain ⟨hcurrent, hsize, hbinds⟩ := hx s a s' hxs hlt
  have hlt' : s'.current < s'.scopes.size := hcurrent ▸ Nat.lt_of_lt_of_le hlt hsize
  obtain ⟨hcurrent', hsize', hbinds'⟩ := hf a s' b s'' hok hlt'
  rw [hcurrent] at hcurrent' hbinds'
  refine ⟨hcurrent', Nat.le_trans hsize hsize', fun y => ?_⟩
  rw [hbinds', hbinds, List.mem_append, ← or_assoc, or_comm (a := y ∈ names')]

end Binds

end Eval

open Eval

/-- A statement that comes to its end has bound the name that it declares, if it declares one. -/
theorem execute_binds (n : Nat) (s : Stmt) (hs : s.Proper) :
    Binds (s.declared?.map (·.lexeme)).toList (execute n s) := by
  cases hd : s.declared? with
  | none => exact .of_keeps ((evaluatorKeeps n).execute s fun _ => ⟨hs, hd⟩)
  | some name =>
    cases n with
    | zero => exact fun _ _ _ hok => by cases hok
    | succ n =>
      cases s with
      | var _ initial =>
        cases hd
        exact (Binds.of_keeps ((evaluatorKeeps n).evaluateOption initial)).bind fun v =>
          (Binds.define name v).bind fun _ => .of_keeps (.pure Flow.normal)
      | function _ params body =>
        cases hd
        exact (Binds.of_keeps .here).bind fun scope =>
          (Binds.of_keeps (.newClosure _ scope)).bind fun v =>
            (Binds.define name v).bind fun _ => .of_keeps (.pure Flow.normal)
      | _ => cases hd

theorem executeProgram_binds (n : Nat) : ∀ program : List Stmt, Stmt.ProperAll program →
    Binds (declaredNames program) (executeProgram n program)
  | [], _ => .of_keeps (.pure ())
  | s :: ss, ⟨hs, hss⟩ => by
    have h := (execute_binds n s hs).bind fun _ => executeProgram_binds n ss hss
    have hnames : declaredNames (s :: ss) =
        (s.declared?.map (·.lexeme)).toList ++ declaredNames ss := by
      unfold declaredNames
      rw [List.filterMap_cons]
      cases s.declared? <;> rfl
    rwa [hnames]

theorem State.mem_globalNames {s : State} {x : String} :
    x ∈ s.globalNames ↔ s.scopes.binds State.globals x = true := by
  unfold State.globalNames Bindings.names Scopes.binds Bindings.binds Bindings.get?
  simp only [List.lookup_isSome_iff, List.mem_map, beq_iff_eq]
  exact exists_congr fun entry => and_congr_right fun _ => eq_comm

/-- The global names after a program that came to its end. -/
theorem mem_globalNames_of_ok {n : Nat} {program : List Stmt} {s s' : State}
    (hp : Stmt.ProperAll program) (hc : s.current = State.globals)
    (hlt : State.globals < s.scopes.size) (h : executeProgram n program s = .ok () s')
    (x : String) : x ∈ s'.globalNames ↔ x ∈ declaredNames program ∨ x ∈ s.globalNames := by
  have hbinds := (executeProgram_binds n program hp s () s' h (hc ▸ hlt)).2.2 x
  rwa [hc, ← State.mem_globalNames, ← State.mem_globalNames] at hbinds

end Lox
