import Lox.Proofs.Eval.Kept
import Lox.Proofs.Grammar.WholeExpression

/-!
# Numbers that are never given out again

One counter numbers the references of everything that is read, whichever session it is read for and
whatever becomes of it (`Sessions`). So no two nodes of the trees that come up share a number
(`Sessions.numbers_trees`), and a run records distances under numbers that no earlier program has
(`Session.run_get?`): what was recorded for a program that was accepted stays as it is, whatever is
read and run later (`Sessions.distances_stay`).
-/

namespace Lox

/-- What reading tokens gave. -/
inductive Tree where
  | program (body : List Stmt)
  | expression (e : Expr)

/-- The numbers of the references in a tree. -/
def Tree.ids : Tree → List NodeId
  | program body => Stmt.idsOfAll body
  | expression e => e.ids

/-- Sessions next to each other, with the number of the next reference for all of them. -/
structure Sessions where
  nextId : NodeId
  states : List State

inductive Action where
  | readProgram (ts : List Token)
  | readExpression (ts : List Token)
  /-- A new session comes up. -/
  | start (clock : Nat → Float) (sink : Sink)
  /-- The `k`-th session runs a source text. -/
  | run (k fuel : Nat) (source : String)

namespace Session

variable {S : Session} {program : List Stmt} {n : Nat} {source : String} {id : NodeId}

theorem run_nextId (n : Nat) (source : String) (S : Session) :
    (S.run n source).session.nextId = S.nextAfter source := by
  unfold run nextAfter
  dsimp only
  split
  · rfl
  · split
    · rfl
    · split
      · rw [runProgram_session]
      · rfl

/-- A program runs with its references recorded, and the run leaves the distances alone. -/
theorem Accepts.run_distances (h : S.Accepts source program)
    (hd : S.state.distances.Below S.nextId) (n : Nat) :
    (S.run n source).session.state.distances =
      S.state.distances.record (references program) := by
  rw [h.run_eq hd, runProgram_session]
  exact (interpret_keeps n program _).distances

/-- A run keeps what was recorded under the numbers given out before, -/
theorem run_get? (hd : S.state.distances.Below S.nextId) (n : Nat) (source : String)
    (hid : id < S.nextId) : (S.run n source).session.state.distances.get? id =
      S.state.distances.get? id := by
  rcases run_cases hd n source with ⟨program, h, -⟩ | ⟨-, report, -, -, hrun⟩
  · rw [h.run_distances hd]
    refine Distances.get?_record_of_notMem fun hmem => ?_
    exact Nat.not_lt_of_le ((Distances.numbers_references h.numbers).bounds id hmem).1 hid
  · rw [hrun]

/-- and records nothing under a number that was not given out. -/
theorem run_below (hd : S.state.distances.Below S.nextId) (n : Nat) (source : String) :
    (S.run n source).session.state.distances.Below (S.nextAfter source) := by
  rcases run_cases hd n source with ⟨program, h, -⟩ | ⟨-, report, -, -, hrun⟩
  · rw [h.run_distances hd]
    exact Distances.below_record hd h.numbers
  · rw [hrun]
    exact hd.mono (Grammar.firstId_le_nextId _ _)

/-- What a run records for a program is what the analysis of scopes found. -/
theorem Accepts.run_get? (h : S.Accepts source program) (hd : S.state.distances.Below S.nextId)
    (n : Nat) : ∀ r ∈ references program,
      (S.run n source).session.state.distances.get? r.id = r.distance? := by
  intro r hr
  rw [h.run_distances hd]
  exact (Distances.known_record hd h.numbers r hr).2

end Session

namespace Sessions

def initial : Sessions :=
  ⟨0, []⟩

def session? (p : Sessions) (k : Nat) : Option Session :=
  p.states[k]?.map (⟨·, p.nextId⟩)

def step (p : Sessions) : Action → Sessions
  | .readProgram ts => { p with nextId := (Grammar.parseProgram p.nextId ts).nextId }
  | .readExpression ts => { p with nextId := (Grammar.parseExpression p.nextId ts).nextId }
  | .start clock sink => { p with states := p.states ++ [.initial clock sink] }
  | .run k fuel source =>
    match p.session? k with
    | none => p
    | some S =>
      let S' := (S.run fuel source).session
      ⟨S'.nextId, p.states.set k S'.state⟩

def after (p : Sessions) (actions : List Action) : Sessions :=
  actions.foldl step p

/-- The tree that an action comes to, be it refused later or not. -/
def tree? (p : Sessions) : Action → Option Tree
  | .readProgram ts => (Grammar.parseProgram p.nextId ts).result.toOption.map .program
  | .readExpression ts => (Grammar.parseExpression p.nextId ts).result.toOption.map .expression
  | .start _ _ => none
  | .run k _ source => (p.session? k).bind fun S =>
    (Grammar.parseProgram S.nextId (tokens source)).result.toOption.map .program

/-- All trees that some actions come to. -/
def trees (p : Sessions) : List Action → List Tree
  | [] => []
  | a :: as => (p.tree? a).toList ++ (p.step a).trees as

/-- Distances are recorded under numbers that were given out. -/
def Numbered (p : Sessions) : Prop :=
  ∀ s ∈ p.states, s.distances.Below p.nextId

variable {p : Sessions} {S : Session} {k : Nat}

theorem session?_eq_some : p.session? k = some S ↔
    p.states[k]? = some S.state ∧ S.nextId = p.nextId := by
  unfold session?
  rw [Option.map_eq_some_iff]
  constructor
  · rintro ⟨s, hs, rfl⟩
    exact ⟨hs, rfl⟩
  · rintro ⟨hs, hid⟩
    exact ⟨S.state, hs, hid ▸ rfl⟩

/-! ## Numbers of trees -/

theorem numbers_program (firstId : NodeId) (ts : List Token) :
    Numbers firstId (Grammar.parseProgram firstId ts).nextId
      (((Grammar.parseProgram firstId ts).result.toOption.map Tree.program).toList.flatMap
        (·.ids)) := by
  cases h : (Grammar.parseProgram firstId ts).result with
  | error faults => exact .nil (Grammar.firstId_le_nextId firstId ts)
  | ok body => simpa [Except.toOption, Tree.ids] using (Grammar.parseProgram_sound h).2

theorem numbers_expression (firstId : NodeId) (ts : List Token) :
    Numbers firstId (Grammar.parseExpression firstId ts).nextId
      (((Grammar.parseExpression firstId ts).result.toOption.map Tree.expression).toList.flatMap
        (·.ids)) := by
  obtain ⟨hle, hok⟩ := @Grammar.run_reads ts _ Grammar.wholeExpression _
    (Grammar.wholeExpression_reads _) firstId
  cases h : (Grammar.parseExpression firstId ts).result with
  | error faults => exact .nil hle
  | ok e =>
    obtain ⟨row', ⟨⟨us, -, -, hids⟩, -⟩, hnext⟩ := hok e h
    have hnext : row'.nextId = (Grammar.parseExpression firstId ts).nextId := hnext
    simpa [Except.toOption, Tree.ids, hnext] using hids

theorem numbers_step (p : Sessions) (a : Action) :
    Numbers p.nextId (p.step a).nextId ((p.tree? a).toList.flatMap (·.ids)) := by
  cases a with
  | readProgram ts => exact numbers_program p.nextId ts
  | readExpression ts => exact numbers_expression p.nextId ts
  | start clock sink => exact .nil (Nat.le_refl _)
  | run k fuel source =>
    simp only [step, tree?]
    cases hS : p.session? k with
    | none => exact .nil (Nat.le_refl _)
    | some S =>
      obtain ⟨-, hid⟩ := session?_eq_some.1 hS
      rw [← hid]
      simp only [Session.run_nextId]
      exact numbers_program S.nextId (tokens source)

/-- All trees together are numbered without a repetition. -/
theorem numbers_trees (p : Sessions) (actions : List Action) :
    Numbers p.nextId (p.after actions).nextId ((p.trees actions).flatMap (·.ids)) := by
  induction actions generalizing p with
  | nil => exact .nil (Nat.le_refl _)
  | cons a as ih =>
    rw [trees, List.flatMap_append]
    exact (p.numbers_step a).append (ih (p.step a))

/-! ## Distances -/

theorem Numbered.session? (h : p.Numbered) (hS : p.session? k = some S) :
    S.state.distances.Below S.nextId := by
  obtain ⟨hs, hid⟩ := session?_eq_some.1 hS
  rw [hid]
  exact h S.state (List.mem_of_getElem? hs)

theorem Numbered.step (h : p.Numbered) (a : Action) : (p.step a).Numbered := by
  have hle := (p.numbers_step a).le
  cases a with
  | readProgram ts => exact fun s hs => (h s hs).mono hle
  | readExpression ts => exact fun s hs => (h s hs).mono hle
  | start clock sink =>
    intro s hs
    rcases List.mem_append.1 hs with hs | hs
    · exact h s hs
    · obtain rfl := List.mem_singleton.1 hs
      exact List.forall_mem_nil _
  | run k fuel source =>
    simp only [Sessions.step] at hle ⊢
    cases hS : p.session? k with
    | none => exact h
    | some S =>
      simp only [hS] at hle ⊢
      intro s hs
      rcases List.mem_or_eq_of_mem_set hs with hs | rfl
      · exact (h s hs).mono hle
      · simp only [Session.run_nextId]
        exact Session.run_below (h.session? hS) fuel source

theorem Numbered.after (h : p.Numbered) (actions : List Action) : (p.after actions).Numbered := by
  induction actions generalizing p with
  | nil => exact h
  | cons a as ih => exact ih (h.step a)

/-- No action takes a session away or changes what it has recorded under the numbers given out. -/
theorem Numbered.get?_step (h : p.Numbered) (hS : p.session? k = some S) (a : Action) :
    ∃ S', (p.step a).session? k = some S' ∧
      ∀ id < p.nextId, S'.state.distances.get? id = S.state.distances.get? id := by
  obtain ⟨hs, hid⟩ := session?_eq_some.1 hS
  have hsame : ∀ next states, states[k]? = some S.state →
      ∃ S', (⟨next, states⟩ : Sessions).session? k = some S' ∧
        ∀ id < p.nextId, S'.state.distances.get? id = S.state.distances.get? id :=
    fun next states hs => ⟨⟨S.state, next⟩, session?_eq_some.2 ⟨hs, rfl⟩, fun _ _ => rfl⟩
  cases a with
  | readProgram ts => exact hsame _ _ hs
  | readExpression ts => exact hsame _ _ hs
  | start clock sink =>
    refine hsame _ _ ?_
    rw [List.getElem?_append_left (List.getElem?_eq_some_iff.1 hs).1]
    exact hs
  | run j fuel source =>
    simp only [Sessions.step]
    cases hT : p.session? j with
    | none => exact hsame _ _ hs
    | some T =>
      by_cases hj : j = k
      · subst hj
        obtain rfl : S = T := Option.some.inj (hS.symm.trans hT)
        refine ⟨(S.run fuel source).session, session?_eq_some.2 ⟨?_, rfl⟩, fun id hlt => ?_⟩
        · exact List.getElem?_set_self (List.getElem?_eq_some_iff.1 hs).1
        · exact Session.run_get? (h.session? hS) fuel source (hid ▸ hlt)
      · refine hsame _ _ ?_
        rw [List.getElem?_set_ne hj]
        exact hs

theorem Numbered.get?_after (h : p.Numbered) (hS : p.session? k = some S)
    (actions : List Action) : ∃ S', (p.after actions).session? k = some S' ∧
      ∀ id < p.nextId, S'.state.distances.get? id = S.state.distances.get? id := by
  induction actions generalizing p S with
  | nil => exact ⟨S, hS, fun _ _ => rfl⟩
  | cons a as ih =>
    obtain ⟨S', hS', hstep⟩ := h.get?_step hS a
    obtain ⟨S'', hS'', hafter⟩ := ih (h.step a) hS'
    refine ⟨S'', hS'', fun id hlt => ?_⟩
    rw [hafter id (Nat.lt_of_lt_of_le hlt (p.numbers_step a).le), hstep id hlt]

theorem numbered_initial : initial.Numbered :=
  List.forall_mem_nil _

/-- Of all trees that are read in any order for any sessions, no two nodes have the same number.
And what a session recorded for the references of a program when it accepted it, it has recorded
after whatever is read and run later. -/
theorem distances_stay (actions : List Action) :
    ((initial.trees actions).flatMap (·.ids)).Nodup ∧
    ∀ k S n source program, (initial.after actions).session? k = some S →
      S.Accepts source program → ∀ later, ∃ S',
        ((initial.after actions).after (.run k n source :: later)).session? k = some S' ∧
          ∀ r ∈ references program, S'.state.distances.get? r.id = r.distance? := by
  refine ⟨(initial.numbers_trees actions).nodup, fun k S n source program hS ha later => ?_⟩
  have h := numbered_initial.after actions
  obtain ⟨hs, hid⟩ := session?_eq_some.1 hS
  have hstep : ((initial.after actions).step (.run k n source)).session? k =
      some (S.run n source).session := by
    simp only [step, hS]
    exact session?_eq_some.2 ⟨List.getElem?_set_self (List.getElem?_eq_some_iff.1 hs).1, rfl⟩
  obtain ⟨S', hS', hkept⟩ := (h.step (.run k n source)).get?_after hstep later
  refine ⟨S', hS', fun r hr => ?_⟩
  have hlt : r.id < ((initial.after actions).step (.run k n source)).nextId := by
    obtain ⟨-, hnext⟩ := session?_eq_some.1 hstep
    rw [← hnext, Session.run_nextId]
    exact ((Distances.numbers_references ha.numbers).bounds r.id (List.mem_map_of_mem hr)).2
  rw [hkept r.id hlt]
  exact ha.run_get? (h.session? hS) n r hr

/-- A reference one block further in, and the same text read and run again. -/
theorem distances_stay_block :
    let source := "\x7b var a = 1; \x7b print a; \x7d \x7d"
    let S := Session.initial Float.ofNat .unbounded
    let p := initial.after [.start Float.ofNat .unbounded]
    ∃ program S', p.session? 0 = some S ∧ S.Accepts source program ∧
      (references program).map (·.distance?) = [some 1] ∧
      (p.after [.run 0 9 source, .run 0 9 source]).session? 0 = some S' ∧
        ∀ r ∈ references program, S'.state.distances.get? r.id = r.distance? := by
  intro source S p
  have he : (S.run 9 source).report?.any (! ·.hadError) = true := by decide +kernel
  obtain ⟨report, hreport, he⟩ := (Option.any_eq_true _ _).1 he
  have hS : p.session? 0 = some S := rfl
  obtain ⟨program, ha⟩ := Session.accepts_of_report
    ((numbered_initial.after [.start Float.ofNat .unbounded]).session? hS) hreport
    (by simpa using he)
  have hfound : (Grammar.parseProgram S.nextId (tokens source)).result.toOption.map
      (fun program => (references program).map (·.distance?)) = some [some 1] := by decide +kernel
  rw [ha.grammar] at hfound
  obtain ⟨S', hS', hkept⟩ := (distances_stay [.start Float.ofNat .unbounded]).2 0 S 9 source program
    hS ha [.run 0 9 source]
  exact ⟨program, S', hS, ha, Option.some.inj hfound, hS', hkept⟩

end Sessions

end Lox
