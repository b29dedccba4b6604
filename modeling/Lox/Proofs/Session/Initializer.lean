import Lox.Proofs.Binding.Distance
import Lox.Proofs.Binding.Offence
import Lox.Proofs.Eval.Declared
import Lox.Proofs.Session.Reached
import Lox.Proofs.Session.Visits

/-!
# Initializers at the top level

At the top level an initializer may read the variable that it is for, if that is bound already.
Whether it is, is decided before the program runs, from the names that are declared before and the
global names of the session; and it is so in the run, when all that stands before has come to its
end (`Session.initializer_bound`). A read that the analysis allows is global and finds the name that
was bound, since no name gets lost on the way to it.
-/

namespace Lox

variable {α : Type} {e : Expr} {id : NodeId} {name read : Token}

/-- What the parts of an expression have, it has from all depths. -/
theorem Expr.subset_of_at? {f : Expr → List α} (hf : ∀ e : Expr, ∀ part ∈ e.parts, f part ⊆ f e)
    (inner : Path) : ∀ {e e' : Expr}, (Node.expr e).at? inner = some (.expr e') → f e' ⊆ f e := by
  induction inner with
  | nil =>
    rintro e _ ⟨⟩
    exact List.Subset.refl _
  | cons i inner ih =>
    intro e e' h
    obtain ⟨_, hpart, h⟩ := Option.bind_eq_some_iff.1 h
    obtain ⟨part, hmem, rfl⟩ := List.mem_map.1 (List.mem_of_getElem? hpart)
    exact List.Subset.trans (ih h) (hf e part hmem)

theorem Expr.readsOf_subset (own : String) (e : Expr) :
    ∀ part ∈ e.parts, part.readsOf own ⊆ e.readsOf own := by
  intro part h
  cases e <;> simp only [Expr.parts, List.mem_cons, List.not_mem_nil, or_false] at h <;>
    grind [Expr.readsOf, Expr.readsOfAll_eq_flatMap]

theorem Expr.references_subset (names : Names) (e : Expr) :
    ∀ part ∈ e.parts, part.references names ⊆ e.references names := by
  intro part h
  cases e <;> simp only [Expr.parts, List.mem_cons, List.not_mem_nil, or_false] at h <;>
    grind [Expr.references, Expr.mem_referencesOfAll]

/-- A read of the variable that an initializer at the top level is for is reported just if the
variable is not bound before, and then something is. -/
theorem Stmt.violations_initializer (globals : List String) {inner : Path}
    (hread : (Node.expr e).at? inner = some (.expr (.read id read)))
    (hx : read.lexeme = name.lexeme) :
    ((Stmt.var name (some e)).violations ⟨[], globals, false⟩ = [] ↔ name.lexeme ∈ globals) ∧
      (⟨.ownInitializer, read⟩ ∈ (Stmt.var name (some e)).violations ⟨[], globals, false⟩ ↔
        name.lexeme ∉ globals) := by
  have hsubset := Expr.subset_of_at? (Expr.readsOf_subset name.lexeme) inner hread
  have hown : ⟨.ownInitializer, read⟩ ∈ e.readsOf name.lexeme :=
    hsubset (by simp [Expr.readsOf, hx])
  have hviolations : (Stmt.var name (some e)).violations ⟨[], globals, false⟩ =
      if name.lexeme ∈ globals then [] else e.readsOf name.lexeme := by
    unfold Stmt.violations Surroundings.forbidden? Surroundings.redeclaration
    by_cases h : name.lexeme ∈ globals <;> simp [h]
  rw [hviolations]
  by_cases h : name.lexeme ∈ globals
  · simp [h]
  · simp [h, hown, List.ne_nil_of_mem hown]

/-- What is reported for a statement behind others, and then for those behind it. -/
theorem violations_around (globals : List String) (before : List Stmt) (s : Stmt)
    (rest : List Stmt) :
    let here : Surroundings := ⟨[], declaredNames before ++ globals, false⟩
    violations globals (before ++ [s]) = violations globals before ++ s.violations here ∧
      violations globals (before ++ s :: rest) = violations globals before ++ s.violations here ++
        Stmt.violationsOfAll (here.after s) rest := by
  intro here
  have hnames : ∀ x, x ∈ declaredNames before ++ globals ↔
      x ∈ declaredNames before ∨ x ∈ globals := fun x => List.mem_append
  constructor
  · rw [violations_append before [s] hnames]
    exact congrArg _ (List.append_nil _)
  · rw [violations_append before (s :: rest) hnames, List.append_assoc]
    rfl

/-- A read at the top level that no scope is around has no distance. -/
theorem references_initializer {before rest : List Stmt} {inner : Path}
    (hread : (Node.expr e).at? inner = some (.expr (.read id read))) :
    ⟨id, read, none⟩ ∈ references (before ++ .var name (some e) :: rest) := by
  have hsubset := Expr.subset_of_at? (Expr.references_subset []) inner hread
  have hmem : ⟨id, read, none⟩ ∈ e.references [] := hsubset (List.mem_singleton_self _)
  rw [references_append]
  exact List.mem_append_right _ (List.mem_append_left _ hmem)

/-- A read without a distance has a value where the global scope binds the name. -/
theorem Eval.read_global {s : State} (hd : s.distances.get? id = none)
    (hb : s.isGlobal read.lexeme = true) : ∃ value, Eval.read id read s = .ok value s := by
  have hholder : s.holder? id read.lexeme =
      if s.scopes.binds State.globals read.lexeme then some State.globals else none := by
    have hbinds : s.scopes.binds State.globals read.lexeme = true := hb
    unfold State.holder?
    rw [hd, if_pos hbinds]
    exact Scopes.holder?_of_binds hbinds
  obtain ⟨value, hvalue⟩ := Option.isSome_iff_exists.1 hb
  refine ⟨value, ?_⟩
  simp only [Eval.read, State.valueOf?_eq hholder, hvalue]

/-- In an admitted program an initializer that reads its own variable stands behind a declaration of
that, or the variable is global already. -/
theorem State.mem_globals_of_admit {s ready : State} {before rest : List Stmt} {inner : Path}
    (h : s.admit (before ++ .var name (some e) :: rest) = .ok ready)
    (hread : (Node.expr e).at? inner = some (.expr (.read id read)))
    (hx : read.lexeme = name.lexeme) : name.lexeme ∈ declaredNames before ++ s.globalNames := by
  have hv := (State.admit_eq_ok.1 h).1
  rw [(violations_around _ before _ rest).2, List.append_eq_nil_iff, List.append_eq_nil_iff] at hv
  exact (Stmt.violations_initializer _ hread hx).1.1 hv.1.2

namespace Session

variable {S : Session} {firstId : NodeId} {ts : List Token} {before rest : List Stmt} {inner : Path}

/-- The names that are global when the first statements of a program have come to their end. -/
theorem Sound.isGlobal_iff (hS : S.Sound) (hp : Stmt.ProperAll before) {n : Nat}
    {distances : Distances} {s : State}
    (h : executeProgram n before { S.state with distances } = .ok () s) (x : String) :
    s.isGlobal x = true ↔ x ∈ declaredNames before ++ S.state.globalNames := by
  rw [List.mem_append]
  exact State.mem_globalNames.symm.trans
    (mem_globalNames_of_ok (s := { S.state with distances }) hp hS.current hS.globals h x)

section Initializer

variable (hid : S.nextId ≤ firstId)
  (hp : (Grammar.parseProgram firstId ts).result = .ok (before ++ .var name (some e) :: rest))
  (hread : (Node.expr e).at? inner = some (.expr (.read id read)))
  (hx : read.lexeme = name.lexeme)

include hid hp hread hx

/-- A read that the analysis allows in an initializer of its own variable has a value whenever the
initializer comes to it. -/
theorem Sound.read_bound (hS : S.Sound) {ready s s' : State} {n : Nat}
    (ha : S.state.admit (before ++ .var name (some e) :: rest) = .ok ready)
    (hs : executeProgram n before ready = .ok () s) (hgrows : s.Grows s') :
    ∃ value, Eval.read id read s' = .ok value s' := by
  obtain ⟨hsentence, hids⟩ := Grammar.parseProgram_sound hp
  have hproper := Stmt.ProperAll.of_unnumbered _ hsentence.proper
  have hglobal := State.mem_globals_of_admit ha hread hx
  obtain ⟨-, rfl⟩ := State.admit_eq_ok.1 ha
  have hdistance := Distances.known_record (hS.distances.mono hid) hids _
    (references_initializer hread)
  have hkept := executeProgram_keeps n before { S.state with
    distances := S.state.distances.record (references (before ++ .var name (some e) :: rest)) }
  rw [hs] at hkept
  refine Eval.read_global ?_ (hgrows.bound _ _ ?_)
  · rw [hgrows.distances, show s.distances = _ from hkept.distances]
    exact hdistance.2
  · rw [hx]
    exact (hS.isGlobal_iff hproper.left hs _).2 hglobal

/-- The analysis reports an initializer at the top level that reads its own variable just if the
variable is not bound when the statements before have come to their end. So in an admitted program
such a read always has a value. -/
theorem initializer_bound (hS : S.Reached) :
    let stmt := Stmt.var name (some e)
    let program := before ++ stmt :: rest
    (∃ own later,
      (S.state.resolve (before ++ [stmt])).1 = (S.state.resolve before).1 ++ own ∧
      (S.state.resolve program).1 = (S.state.resolve before).1 ++ own ++ later ∧
      (own = [] ↔ name.lexeme ∈ declaredNames before ∨ S.state.isGlobal name.lexeme = true) ∧
      ∀ distances n s, executeProgram n before { S.state with distances } = .ok () s →
        (own ≠ [] ↔ s.isGlobal name.lexeme = false) ∧
        (⟨.ownInitializer, read⟩ ∈ own ↔ s.isGlobal name.lexeme = false)) ∧
    ∀ ready, S.state.admit program = .ok ready →
      ∀ n m s visits, executeProgram n before ready = .ok () s →
        ∃ more, Traced.execute reads m stmt (s, visits) =
            Traced.attach (visits ++ more) (execute m stmt s) ∧
          ∀ s', ⟨id, read, s'⟩ ∈ more → ∃ value, Eval.read id read s' = .ok value s' := by
  intro stmt program
  have hproper : Stmt.ProperAll program :=
    Stmt.ProperAll.of_unnumbered _ (Grammar.parseProgram_sound hp).1.proper
  have hreported := Stmt.violations_initializer (declaredNames before ++ S.state.globalNames)
    hread hx
  have haround := violations_around S.state.globalNames before stmt rest
  constructor
  · simp only [State.resolve_fst]
    refine ⟨_, _, haround.1, haround.2, ?_, fun distances n s hs => ?_⟩
    · rw [hreported.1, List.mem_append, State.mem_globalNames]
      rfl
    · rw [← Bool.not_eq_true, hS.sound.isGlobal_iff hproper.left hs]
      exact ⟨not_congr hreported.1, hreported.2⟩
  · intro ready ha n m s visits hs
    have hgrows := (Traced.Grows.closed.evaluator m).execute stmt
    obtain ⟨more, hmore, hvisits⟩ := hgrows.visits s s visits rfl
    refine ⟨more, hmore, fun s' hs' => ?_⟩
    exact hS.sound.read_bound hid hp hread hx ha hs (hvisits _ hs')

end Initializer

/-- In `var a; var a = a;` the second declaration reads what the first one binds. -/
theorem initializer_bound_again :
    let name (lexeme : String) : Token := ⟨.identifier, lexeme, 1⟩
    let word (k : Keyword) : Token := ⟨.keyword k, k.spelling, 1⟩
    let mark (s : Symbol) : Token := ⟨.symbol s, s.spelling, 1⟩
    let ts := [word .varKw, name "a", mark .semicolon, word .varKw, name "a", mark .equal, name "a",
      mark .semicolon]
    let first := Stmt.var (name "a") none
    let stmt := Stmt.var (name "a") (some (.read 0 (name "a")))
    let S := Session.initial Float.ofNat .unbounded
    (Grammar.parseProgram 0 ts).result = .ok [first, stmt] ∧
      S.state.admit [first, stmt] = .ok S.state ∧
      ∃ s, executeProgram 9 [first] S.state = .ok () s ∧ s.isGlobal "a" = true ∧
        (∃ own later, (S.state.resolve [first, stmt]).1 = [] ++ own ++ later ∧ own = []) ∧
        ∃ more, Traced.execute reads 9 stmt (s, []) = Traced.attach more (execute 9 stmt s) ∧
          ∀ s', ⟨0, name "a", s'⟩ ∈ more →
            ∃ value, Eval.read 0 (name "a") s' = .ok value s' := by
  intro name word mark ts first stmt S
  have hS : S.Reached := .initial Float.ofNat .unbounded
  have hp : (Grammar.parseProgram 0 ts).result = .ok ([first] ++ stmt :: []) := rfl
  have ha : S.state.admit ([first] ++ stmt :: []) = .ok S.state := rfl
  have hread : (Node.expr (.read 0 (name "a"))).at? [] = some (.expr (.read 0 (name "a"))) := rfl
  obtain ⟨⟨own, later, -, hall, hown, -⟩, hbound⟩ :=
    initializer_bound (Nat.le_refl 0) hp hread rfl hS
  refine ⟨hp, ha, _, rfl, rfl, ⟨own, later, hall, hown.2 (.inl ?_)⟩, ?_⟩
  · exact List.mem_singleton_self "a"
  · exact hbound S.state ha 9 9 _ [] rfl

end Session

end Lox
