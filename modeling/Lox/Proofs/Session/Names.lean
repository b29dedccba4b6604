import Lox.Proofs.Binding.Around
import Lox.Proofs.Eval.Declared
import Lox.Proofs.Session.Reached

/-!
# Scopes do not leak

Whatever code a statement runs, the scopes that were there before it have the same names after it,
but for the name of a declaration that comes to its end, which the current scope gets
(`execute_names`). So a run of a program adds to the global names those of its own declarations, as
far as it came, and no others (`executeProgram_names`).
-/

namespace Lox

open Eval

variable {n : Nat} {t : Stmt} {s : State}

/-- A statement comes to its end. -/
def Stmt.Completes (n : Nat) (t : Stmt) (s : State) : Prop :=
  ∃ flow s', execute n t s = .ok flow s'

theorem Stmt.not_completes {stop : Stop} {s' : State} (h : execute n t s = .error stop s') :
    ¬ t.Completes n s := by
  rintro ⟨flow, s'', hok⟩
  cases h.symm.trans hok

/-- A name that a statement declares. -/
def Stmt.Declares (t : Stmt) (x : String) : Prop :=
  ∃ name, t.declared? = some name ∧ name.lexeme = x

theorem Stmt.declares_iff {x : String} :
    t.Declares x ↔ x ∈ (t.declared?.map (·.lexeme)).toList := by
  simp [Declares, Option.mem_toList]

/-- A declaration that stops was not yet bound: only its initializer ran. -/
theorem Stmt.kept_of_error (ht : t.Proper) {stop : Stop} {s' : State}
    (h : execute n t s = .error stop s') : s.Kept none s' := by
  cases hd : t.declared? with
  | none =>
    have hadds : t.Adding false := fun _ => ⟨ht, hd⟩
    have hs := (evaluatorKeeps n).execute t hadds s
    rwa [h] at hs
  | some name =>
    cases n with
    | zero =>
      cases h
      exact .refl none s
    | succ n =>
      cases t with
      | var name initial =>
        have hs := (evaluatorKeeps n).evaluateOption initial s
        rcases bind_eq_error.1 h with hx | ⟨v, s₁, -, h⟩
        · rwa [hx] at hs
        · cases h
      | function name params body => cases h
      | _ => cases hd

/-- The names of the scopes that were there before a statement. -/
theorem execute_names (n : Nat) (ht : t.Proper) (s : State) {i : ScopeId}
    (hi : i < s.scopes.size) (x : String) :
    (stateOf (execute n t s)).scopes.binds i x = true ↔
      s.scopes.binds i x = true ∨ i = s.current ∧ t.Completes n s ∧ t.Declares x := by
  have hkept := (evaluatorKeeps n).execute t t.adding_true s
  by_cases hc : i = s.current
  · subst hc
    cases h : execute n t s with
    | ok flow s' =>
      have hends : t.Completes n s := ⟨flow, s', h⟩
      have hbinds := (execute_binds n t ht s flow s' h hi).2.2 x
      rw [← Stmt.declares_iff] at hbinds
      simpa [stateOf, hends, or_comm] using hbinds
    | error stop s' =>
      have hstops := Stmt.not_completes h
      have hkept := Stmt.kept_of_error ht h
      simp only [hstops, false_and, and_false, or_false]
      exact ⟨hkept.names _ hi nofun x, hkept.bound _ x⟩
  · have hother : some i ≠ some s.current := fun h => hc (Option.some.inj h)
    simp only [hc, false_and, or_false]
    exact ⟨hkept.names i hi hother x, hkept.bound i x⟩

/-- The statements of a program that come to their end, one after the other. -/
def completed (n : Nat) : List Stmt → State → List Stmt
  | [], _ => []
  | t :: ts, s =>
    match execute n t s with
    | .ok _ s' => t :: completed n ts s'
    | .error _ _ => []

theorem mem_declaredNames_cons {ts : List Stmt} {x : String} :
    x ∈ declaredNames (t :: ts) ↔ t.Declares x ∨ x ∈ declaredNames ts := by
  unfold declaredNames
  rw [List.filterMap_cons, Stmt.declares_iff]
  cases t.declared? <;> simp

/-- The names of the scopes that were there before a program. -/
theorem executeProgram_names (n : Nat) : ∀ {program : List Stmt} (s : State) {i : ScopeId},
    Stmt.ProperAll program → i < s.scopes.size → ∀ x : String,
      ((stateOf (executeProgram n program s)).scopes.binds i x = true ↔
        s.scopes.binds i x = true ∨
          i = s.current ∧ x ∈ declaredNames (completed n program s))
  | [], s, i, _, _, x => by
    simp only [completed, declaredNames, List.filterMap_nil, List.not_mem_nil, and_false, or_false]
    rfl
  | t :: ts, s, i, ⟨ht, hts⟩, hi, x => by
    have hkept := (evaluatorKeeps n).execute t t.adding_true s
    have hnames := execute_names n ht s hi x
    simp only [executeProgram, completed, Bind.bind, EStateM.bind]
    cases h : execute n t s with
    | ok flow s' =>
      rw [h] at hkept hnames
      have hends : t.Completes n s := ⟨flow, s', h⟩
      have ih := executeProgram_names n s' hts (Nat.lt_of_lt_of_le hi hkept.size) x
      dsimp only
      rw [ih, mem_declaredNames_cons, show s'.current = s.current from hkept.current]
      have hnames : s'.scopes.binds i x = true ↔
          s.scopes.binds i x = true ∨ i = s.current ∧ t.Declares x := by
        simpa [stateOf, hends] using hnames
      rw [hnames, or_assoc, ← and_or_left]
    | error stop s' =>
      rw [h] at hnames
      have hstops := Stmt.not_completes h
      simpa [stateOf, hstops, declaredNames] using hnames

namespace Session

variable {S : Session} {source : String} {program : List Stmt}

/-- The global names after a source that is accepted. -/
theorem Accepts.globalNames (h : S.Accepts source program) (hS : S.Sound) (n : Nat) (x : String) :
    x ∈ (S.run n source).session.state.globalNames ↔ x ∈ S.state.globalNames ∨
      x ∈ declaredNames (completed n program (S.ready program)) := by
  have hnames := executeProgram_names n (S.ready program) h.proper hS.globals x
  have hcurrent : State.globals = (S.ready program).current := hS.current.symm
  rw [h.run_eq hS.distances, runProgram_session, stateOf_interpret, State.mem_globalNames,
    State.mem_globalNames, hnames]
  simp only [hcurrent, true_and]
  rfl

end Session

/-- Of any statement that the parser gives, in any state: it leaves in the scopes that were there
the names that they had, and adds at most its own name, to the current scope and if it comes to its
end. So the global names after a source are those before it and those of the declarations of the
program that came to their end. -/
theorem scopes_unleaked (n : Nat) :
    (∀ firstId ts program place t, (Grammar.parseProgram firstId ts).result = .ok program →
      nodeAt? program place = some (.stmt t) → ∀ s : State,
        (∀ i < s.scopes.size, ∀ x, (stateOf (execute n t s)).scopes.binds i x = true ↔
          s.scopes.binds i x = true ∨ i = s.current ∧ t.Completes n s ∧ t.Declares x) ∧
        ∀ i x, s.scopes.binds i x = true → (stateOf (execute n t s)).scopes.binds i x = true) ∧
    ∀ S : Session, S.Reached → ∀ source,
      (∀ program, S.Accepts source program → ∀ x,
        x ∈ (S.run n source).session.state.globalNames ↔ x ∈ S.state.globalNames ∨
          x ∈ declaredNames (completed n program (S.ready program))) ∧
      ((∀ program, ¬ S.Accepts source program) →
        (S.run n source).session.state = S.state) := by
  constructor
  · intro firstId ts program place t hp ht s
    have hprogram : Stmt.ProperAll program :=
      Stmt.ProperAll.of_unnumbered _ (Grammar.parseProgram_sound hp).1.proper
    have hproper : t.Proper := Node.Proper.of_at? (n := .program program) place hprogram ht
    exact ⟨fun i hi => execute_names n hproper s hi,
      ((evaluatorKeeps n).execute t t.adding_true s).bound⟩
  · intro S hS source
    refine ⟨fun program h => h.globalNames hS.sound n, fun hnone => ?_⟩
    rcases Session.run_cases hS.sound.distances n source with ⟨program, h, -⟩ | ⟨-, _, -, -, hrun⟩
    · exact absurd h (hnone program)
    · rw [hrun]

/-- A block binds its names in a scope of its own; and a call that fails keeps the declaration after
it from being bound, but not the one before it. -/
theorem scopes_unleaked_call :
    let name (lexeme : String) : Token := ⟨.identifier, lexeme, 1⟩
    let word (k : Keyword) : Token := ⟨.keyword k, k.spelling, 1⟩
    let mark (s : Symbol) : Token := ⟨.symbol s, s.spelling, 1⟩
    let ts := [mark .leftBrace, word .varKw, name "a", mark .semicolon, mark .rightBrace]
    let block := Stmt.block [.var (name "a") none]
    let S := Session.initial Float.ofNat .unbounded
    let source := "\x7b var a; \x7d var b; nil(); var c;"
    ((Grammar.parseProgram 0 ts).result = .ok [block] ∧
      nodeAt? [block] [0] = some (.stmt block) ∧
      ∀ s i x, s.scopes.binds i x = true → (stateOf (execute 9 block s)).scopes.binds i x = true) ∧
    S.Reached ∧ (S.run 9 source).session.state.globalNames = ["b", "clock"] ∧
      ∃ program, S.Accepts source program ∧ ∀ x, x ∈ (S.run 9 source).session.state.globalNames ↔
        x ∈ S.state.globalNames ∨ x ∈ declaredNames (completed 9 program (S.ready program)) := by
  intro name word mark ts block S source
  have hS : S.Reached := .initial Float.ofNat .unbounded
  have hp : (Grammar.parseProgram 0 ts).result = .ok [block] := rfl
  have hblock : nodeAt? [block] [0] = some (.stmt block) := rfl
  have hreport : (S.run 9 source).report?.map (·.hadError) = some false := by decide +kernel
  obtain ⟨report, hreport, he⟩ := Option.map_eq_some_iff.1 hreport
  obtain ⟨program, ha⟩ := Session.accepts_of_report hS.sound.distances hreport he
  refine ⟨⟨hp, hblock, fun s => ?_⟩, hS, by decide +kernel, program, ha, ?_⟩
  · exact ((scopes_unleaked 9).1 0 ts [block] [0] block hp hblock s).2
  · exact ((scopes_unleaked 9).2 S hS source).1 program ha

end Lox
