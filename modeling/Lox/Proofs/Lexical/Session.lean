import Lox.Proofs.Lexical.Steps
import Lox.Proofs.Session.Accepts

/-!
# Sessions are lexically scoped

A session and a state of lexical scoping that ran the same sources go along with each other
(`Session.Follows`): whatever program is accepted next ends with both evaluators in the same way
and prints the same (`interpret_eq_lexical`).
-/

namespace Lox

/-- Why an evaluation stopped, if it did. -/
def stop? {σ α : Type} : EStateM.Result Stop σ α → Option Stop
  | .ok _ _ => none
  | .error stop _ => some stop

/-- The state that an evaluation leaves. -/
def stateOf {σ α : Type} : EStateM.Result Stop σ α → σ
  | .ok _ s => s
  | .error _ s => s

/-- How a program ends: why it stopped, if it did, and what it printed. -/
def outcome (result : EStateM.Result Stop State Unit) : Option Stop × Sink :=
  (stop? result, (stateOf result).sink)

/-- A session after some sources, each run with a bound. -/
def Session.after (session : Session) (sources : List (Nat × String)) : Session :=
  sources.foldl (fun session source => (session.run source.1 source.2).session) session

namespace Lexical

def outcome (result : EStateM.Result Stop State Unit) : Option Stop × Sink :=
  (stop? result, (stateOf result).sink)

/-- The program that a source spells, unless it is refused. -/
def program? (globals : List String) (source : String) : Option (List Stmt) :=
  match (Grammar.parseProgram 0 (tokens source)).result with
  | .error _ => none
  | .ok program =>
    if (lexicalErrors source).isEmpty && (violations globals program).isEmpty then
      some (Stmt.unnumberedAll program)
    else
      none

/-- Runs a source. One that is refused changes nothing. -/
def State.run (fuel : Nat) (source : String) (r : State) : State :=
  match program? r.globalNames source with
  | none => r
  | some program => stateOf (interpret fuel program r)

def State.after (r : State) (sources : List (Nat × String)) : State :=
  sources.foldl (fun r source => r.run source.1 source.2) r

section Program

variable {known : Known} {w : World} {n : Nat}

theorem top_simulates {α β : Type} {o : Option ScopeId} {base : World} {x : Lox.Eval α} {y : Eval β}
    {post : World → α → β → Prop}
    (h : (∀ own?, w.Frame [] own? Lox.State.globals []) → w.Fresh Lox.State.globals [] →
      Simulates known o base w Lox.State.globals x y post) :
    Simulates known o base w Lox.State.globals x y post :=
  .assume fun _ _ hm => h (World.Frame.top hm.pos) hm.fresh_globals

theorem executeTop_simulates (s : Stmt) (hs : s.ResolvedTop known) :
    Simulates known (some Lox.State.globals) w w Lox.State.globals (Lox.execute n s)
      (executeTop n s.unnumbered) fun _ _ _ => True := by
  refine top_simulates fun hf hfresh => ?_
  cases n with
  | zero =>
    cases s <;> exact .outOfFuel
  | succ n =>
    have hother (hs : s.Resolved known []) :
        Simulates known (some Lox.State.globals) w w Lox.State.globals (Lox.execute (n + 1) s)
          (execute (n + 1) [] s.unnumbered >>= fun _ => pure ()) fun _ _ _ => True :=
      .bind_right ((keepsStep (n + 1)).execute s (hf none) hfresh hs)
        fun _ _ _ _ => ⟨(), rfl, trivial⟩
    cases s with
    | var name initial =>
      have h : Simulates known (some Lox.State.globals) w w Lox.State.globals
          (Lox.execute (n + 1) (.var name initial))
          (do
            let v ← evaluateOption n [] (initial.map (·.unnumbered))
            Eval.defineGlobal name v
            return ()) fun _ _ _ => True :=
        .bind ((keepsStep n).evaluateOption initial (hf none) hs).quiet fun _ _ _ _ ⟨_, hv⟩ =>
          .bind (.defineGlobal hv) fun _ _ _ _ _ => .pure trivial
      simp only [bind_pure_unit] at h
      exact h
    | function name params body =>
      have h : Simulates known (some Lox.State.globals) w w Lox.State.globals
          (Lox.execute (n + 1) (.function name params body))
          (do
            let f ← Eval.newClosure ⟨name, params, Stmt.unnumberedAll body⟩ []
            Eval.defineGlobal name f
            return ()) fun _ _ _ => True := by
        refine .here (.bind (.newClosure ⟨name, params, body⟩ []) ?_)
        rintro _ _ _ _ ⟨rfl, i, rfl, rfl⟩
        exact .bind (.defineGlobal (.closure (hf none) hs.1 hs.2)) fun _ _ _ _ _ => .pure trivial
      simp only [bind_pure_unit] at h
      exact h
    | branch condition onTrue onFalse => cases onFalse <;> exact hother hs
    | _ => exact hother hs

theorem executeProgram_simulates : ∀ {w : World} (program : List Stmt),
    (∀ s ∈ program, s.ResolvedTop known) →
    Simulates known (some Lox.State.globals) w w Lox.State.globals (Lox.executeProgram n program)
      (executeProgram n (Stmt.unnumberedAll program)) fun _ _ _ => True
  | _, [], _ => .pure trivial
  | w, s :: ss, h => by
    obtain ⟨hs, hss⟩ := List.forall_mem_cons.1 h
    exact .bind (executeTop_simulates s hs) fun _ _ _ _ _ => (executeProgram_simulates ss hss).since

/-- A program that is resolved ends in the same way with both evaluators. -/
theorem interpret_simulates (program : List Stmt) (h : ∀ s ∈ program, s.ResolvedTop known) :
    Simulates known (some Lox.State.globals) w w Lox.State.globals (Lox.interpret n program)
      (interpret n (Stmt.unnumberedAll program)) fun _ _ _ => True := by
  intro hb s r hm hc
  have hrel := executeProgram_simulates (n := n) program h hb s r hm hc
  unfold Lox.interpret interpret
  generalize Lox.executeProgram n program s = xs at hrel ⊢
  generalize executeProgram n (Stmt.unnumberedAll program) r = ys at hrel ⊢
  cases hrel with
  | ok le ext hm hc hp =>
    simp only [hm.sink]
    split
    · exact .error hm hc
    · exact .ok le ext hm hc hp
  | @error _ _ _ stop hm hc =>
    cases stop with
    | outOfFuel => exact .error hm hc
    | error e =>
      simp only [hm.sink]
      split
      · exact .error hm hc
      · exact .error hm hc

theorem Related.ending {o : Option ScopeId} {base : World} {cur : ScopeId}
    {post : World → Unit → Unit → Prop} {xs : EStateM.Result Stop Lox.State Unit}
    {ys : EStateM.Result Stop State Unit} (h : Related known o base w cur post xs ys) :
    stop? xs = stop? ys ∧
      ∃ w', Matches known w' (stateOf xs) (stateOf ys) ∧ (stateOf xs).current = cur := by
  cases h with
  | ok _ _ hm hc _ => exact ⟨rfl, _, hm, hc⟩
  | error hm hc => exact ⟨rfl, _, hm, hc⟩

end Program

end Lexical

open Lexical

/-- A session that goes along with a state of lexical scoping. -/
structure Session.Follows (S : Session) (r : Lexical.State) : Prop where
  current : S.state.current = State.globals
  world : ∃ w, Matches (S.state.distances.known S.nextId) w S.state r

theorem Session.follows_initial (clock : Nat → Float) (sink : Sink) :
    (Session.initial clock sink).Follows (Lexical.State.initial clock sink) := by
  refine ⟨rfl, ⟨[none], [], fun _ => False⟩, ?_⟩
  have hsize : State.globals < (Scopes.empty.add none).2.size := Nat.one_pos
  have hget (scope : ScopeId) (x : String) :
      ((Session.initial clock sink).state.scopes.bindings scope).get? x =
        if scope = State.globals ∧ x = "clock" then some (.callable (.clock 0)) else none := by
    refine (Scopes.get?_define hsize).trans ?_
    rw [Scopes.bindings_add]
    simp [Scopes.bindings, Scopes.empty, Bindings.get?]
  exact
    { size := rfl
      root := rfl
      parents := fun i => by
        cases i with
        | zero => rfl
        | succ i => rfl
      nodup := .nil
      nextLocation := rfl
      slot := fun l scope x hl => by cases hl
      covered := fun scope x hg hset => absurd ((hget scope x).trans (by simp [hg])) hset
      ready := fun l hl => hl.elim
      unset := fun _ _ => rfl
      globals := fun x => by
        rw [hget]
        by_cases hx : x = "clock"
        · subst hx
          exact .both (.plain (by rintro ⟨i, f, scope, h⟩; cases h))
        · have hne : (x == "clock") = false := by simpa using hx
          simpa [Lexical.State.initial, List.lookup_cons, hx, hne] using AgreesOption.neither
      distances := fun id distance? h => h.2
      recorded := fun e he => by cases he
      sink := rfl
      nextFunction := rfl
      clock := rfl
      ticks := rfl }

theorem Session.runProgram_session (n : Nat) (program : List Stmt) (next : NodeId) (s : State) :
    (Session.runProgram n program next s).session =
      ⟨stateOf (Lox.interpret n program s), next⟩ := by
  unfold Session.runProgram
  split <;> rename_i h <;> rw [h] <;> rfl

namespace Session.Follows

variable {S : Session} {r : Lexical.State} {firstId : NodeId} {ts : List Token}
  {program : List Stmt}

theorem below (h : S.Follows r) : S.state.distances.Below S.nextId := by
  obtain ⟨w, hm⟩ := h.world
  intro e he
  obtain ⟨distance?, hid, -⟩ := hm.recorded e he
  exact hid

theorem later {next : NodeId} (h : S.Follows r) (hle : S.nextId ≤ next) :
    (⟨S.state, next⟩ : Session).Follows r := by
  obtain ⟨w, hm⟩ := h.world
  refine ⟨h.current, w, hm.record S.state.distances ?_ (fun _ _ h => h.2) ?_⟩
  · exact fun id distance? hk => ⟨Nat.lt_of_lt_of_le hk.1 hle, hk.2⟩
  · exact fun e he => ⟨_, Nat.lt_of_lt_of_le (h.below e he) hle, rfl⟩

/-- What was recorded when a program started is what its session goes on with. -/
theorem of_matches {s : State} {distances : Distances} {next : NodeId} {w : World}
    (hm : Matches (distances.known next) w s r) (hc : s.current = State.globals) :
    (⟨s, next⟩ : Session).Follows r := by
  refine ⟨hc, w, hm.record s.distances ?_ (fun _ _ h => h.2) ?_⟩
  · exact fun id distance? h => ⟨h.1, hm.distances id distance? h⟩
  · intro e he
    obtain ⟨_, hid, -⟩ := hm.recorded e he
    exact ⟨_, hid, rfl⟩

variable {s' : State} (h : S.Follows r) (hid : S.nextId ≤ firstId)
  (hp : (Grammar.parseProgram firstId ts).result = .ok program)
  (hs : S.state.admit program = .ok s')

include h hid hp hs

/-- A program that is accepted is resolved where its references are recorded. -/
theorem accepted : ∃ (distances : Distances) (w : World),
    (∀ s ∈ program, s.ResolvedTop (distances.known (Grammar.parseProgram firstId ts).nextId)) ∧
      Matches (distances.known (Grammar.parseProgram firstId ts).nextId) w s' r ∧
      s'.current = State.globals := by
  obtain ⟨hv, rfl⟩ := State.admit_eq_ok.1 hs
  obtain ⟨hsentence, hids⟩ := Grammar.parseProgram_sound hp
  have hbelow := h.below.mono hid
  have hproper := Stmt.ProperAll.of_unnumbered _ hsentence.proper
  obtain ⟨w, hm⟩ := h.world
  refine ⟨_, w, Stmt.allResolvedTop_of_violations program ⟨[], S.state.globalNames, false⟩ rfl
    hproper hv (Distances.known_record hbelow hids), ?_, h.current⟩
  refine hm.record _ (Distances.known_kept hids hid) (fun _ _ h => h.2) fun e he => ?_
  exact ⟨_, Distances.below_record hbelow hids e he, rfl⟩

/-- An accepted program ends in the same way with both evaluators, and the session and the state of
lexical scoping go on along with each other. -/
theorem interpret (n : Nat) :
    stop? (Lox.interpret n program s') =
      stop? (Lexical.interpret n (Stmt.unnumberedAll program) r) ∧
    (⟨stateOf (Lox.interpret n program s'), (Grammar.parseProgram firstId ts).nextId⟩ :
      Session).Follows (stateOf (Lexical.interpret n (Stmt.unnumberedAll program) r)) := by
  obtain ⟨distances, w, hresolved, hm, hc⟩ := h.accepted hid hp hs
  have hrel := interpret_simulates (n := n) program hresolved (.refl _ w) _ r hm hc
  obtain ⟨hstop, w', hm', hc'⟩ := hrel.ending
  exact ⟨hstop, of_matches hm' hc'⟩

omit hid hp hs

theorem sink : S.state.sink = r.sink := by
  obtain ⟨w, hm⟩ := h.world
  exact hm.sink.symm

theorem globalNames (x : String) : x ∈ r.globalNames ↔ x ∈ S.state.globalNames := by
  obtain ⟨w, hm⟩ := h.world
  have hmem {α : Type} (l : List (String × α)) : x ∈ l.map (·.1) ↔ l.lookup x ≠ none := by
    rw [← Option.isSome_iff_ne_none, List.lookup_isSome_iff]
    simp only [List.mem_map, beq_iff_eq]
    exact ⟨fun ⟨p, hp, hx⟩ => ⟨p, hp, hx.symm⟩, fun ⟨p, hp, hx⟩ => ⟨p, hp, hx.symm⟩⟩
  unfold Lexical.State.globalNames Lox.State.globalNames Bindings.names
  rw [hmem, hmem]
  rcases (hm.globals x).none_or_some with ⟨hr, hs⟩ | ⟨v, v', hr, hs, -⟩
  · exact iff_of_false (fun hne => hne hr) fun hne => hne hs
  · exact iff_of_true (by simp [hr]) fun hnone => by
      rw [Bindings.get?, hnone] at hs
      cases hs

/-- Whether a source is refused, and the program that it spells, do not depend on the numbers of
references. -/
theorem program?_eq (source : String) : program? r.globalNames source =
    match (Grammar.parseProgram S.nextId (tokens source)).result with
    | .error _ => none
    | .ok program =>
      if (lexicalErrors source).isEmpty && (violations S.state.globalNames program).isEmpty then
        some (Stmt.unnumberedAll program)
      else
        none := by
  unfold program?
  cases hp : (Grammar.parseProgram S.nextId (tokens source)).result with
  | error faults =>
    cases hq : (Grammar.parseProgram 0 (tokens source)).result with
    | error _ => rfl
    | ok q =>
      obtain ⟨p, hp', -⟩ := Grammar.parseProgram_unnumbered hq S.nextId
      rw [hp] at hp'
      cases hp'
  | ok p =>
    obtain ⟨q, hq, hqp⟩ := Grammar.parseProgram_unnumbered hp 0
    have hv : violations r.globalNames q = violations S.state.globalNames p := by
      rw [← violations_unnumbered (fun _ => Iff.rfl) q, hqp,
        violations_unnumbered h.globalNames p]
    simp only [hq, hqp, hv]

/-- A source is either refused, and leaves the state as it was, or it spells a program that runs. -/
theorem run_cases (n : Nat) (source : String) :
    (program? r.globalNames source = none ∧ ∃ report : Report, report.hadError = true ∧
      report.runtime = none ∧ S.run n source = ⟨some report,
        ⟨S.state, (Grammar.parseProgram S.nextId (tokens source)).nextId⟩⟩) ∨
    ∃ program s', (Grammar.parseProgram S.nextId (tokens source)).result = .ok program ∧
      S.state.admit program = .ok s' ∧
      program? r.globalNames source = some (Stmt.unnumberedAll program) ∧
      S.run n source = Session.runProgram n program
        (Grammar.parseProgram S.nextId (tokens source)).nextId s' := by
  rw [h.program?_eq]
  rcases Session.run_cases h.below n source with
    ⟨program, ha, hrun⟩ | ⟨hnone, report, he, hruntime, hrun⟩
  · refine .inr ⟨program, _, ha.grammar, State.admit_eq_ok.2 ⟨ha.binding, rfl⟩, ?_, hrun⟩
    simp [ha.grammar, ha.lexical, ha.binding]
  · refine .inl ⟨?_, report, he, hruntime, hrun⟩
    cases hp : (Grammar.parseProgram S.nextId (tokens source)).result with
    | error faults => rfl
    | ok program =>
      refine if_neg fun hclean => hnone program ?_
      rw [Bool.and_eq_true, List.isEmpty_iff, List.isEmpty_iff] at hclean
      exact ⟨hclean.1, hp, hclean.2⟩

theorem run (n : Nat) (source : String) : (S.run n source).session.Follows (r.run n source) := by
  have hle := Grammar.firstId_le_nextId S.nextId (tokens source)
  unfold Lexical.State.run
  rcases h.run_cases n source with ⟨hnone, report, -, -, hrun⟩ | ⟨program, s', hp, hs, hsome, hrun⟩
  · rw [hnone, hrun]
    exact h.later hle
  · rw [hsome, hrun, Session.runProgram_session]
    exact (h.interpret (Nat.le_refl _) hp hs n).2

theorem after (sources : List (Nat × String)) : (S.after sources).Follows (r.after sources) := by
  induction sources generalizing S r with
  | nil => exact h
  | cons source sources ih => exact ih (h.run source.1 source.2)

end Session.Follows

/-- Lexical scoping: after any sources, a program that is read and accepted ends with every bound
as it does where nothing but the environment in force at each place tells what its names mean, and
it prints the same. -/
theorem interpret_eq_lexical {clock : Nat → Float} {sink : Sink} {sources : List (Nat × String)}
    {firstId : NodeId} {ts : List Token} {program : List Stmt} {s : State}
    (hid : ((Session.initial clock sink).after sources).nextId ≤ firstId)
    (hp : (Grammar.parseProgram firstId ts).result = .ok program)
    (hs : State.admit ((Session.initial clock sink).after sources).state program = .ok s)
    (n : Nat) :
    outcome (interpret n program s) =
      Lexical.outcome (Lexical.interpret n (Stmt.unnumberedAll program)
        ((Lexical.State.initial clock sink).after sources)) := by
  have h := (Session.follows_initial clock sink).after sources
  obtain ⟨hstop, hfollows⟩ := h.interpret hid hp hs n
  exact Prod.ext hstop hfollows.sink

/-- The first program of a session, in which a block reads a variable of the block around it. -/
theorem interpret_eq_lexical_block :
    let name (lexeme : String) : Token := ⟨.identifier, lexeme, 1⟩
    let word (k : Keyword) : Token := ⟨.keyword k, k.spelling, 1⟩
    let mark (s : Symbol) : Token := ⟨.symbol s, s.spelling, 1⟩
    let ts := [mark .leftBrace, word .varKw, name "a", mark .semicolon, mark .leftBrace,
      word .printKw, name "a", mark .semicolon, mark .rightBrace, mark .rightBrace]
    let program := [Stmt.block [.var (name "a") none, .block [.print (.read 0 (name "a"))]]]
    let S := Session.initial Float.ofNat .unbounded
    let s := { S.state with distances := ⟨[(0, 1)]⟩ }
    S.nextId ≤ 0 ∧ (Grammar.parseProgram 0 ts).result = .ok program ∧
      S.state.admit program = .ok s ∧
      ∀ n, outcome (interpret n program s) =
        Lexical.outcome (Lexical.interpret n (Stmt.unnumberedAll program)
          (Lexical.State.initial Float.ofNat .unbounded)) := by
  intro name word mark ts program S s
  have hp : (Grammar.parseProgram 0 ts).result = .ok program := rfl
  have hs : S.state.admit program = .ok s := rfl
  refine ⟨Nat.le_refl 0, hp, hs, ?_⟩
  exact @interpret_eq_lexical Float.ofNat .unbounded [] 0 ts program s (Nat.le_refl 0) hp hs

end Lox
