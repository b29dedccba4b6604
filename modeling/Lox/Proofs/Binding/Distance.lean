import Lox.Proofs.Binding.Around
import Lox.Proofs.Session.Accepts

/-!
# Distances are those of the tree

The reference that stands at a place is noted with the distance that the tree gives it: the number
of scopes out to the first one that declares the name before the place (`mem_references_iff`). So
what a program that is admitted adds to the distances of a session is this distance for each of its
references, and nothing else (`State.admit_distances`).
-/

namespace Lox

namespace Node

/-- The number and the name of the variable that a node reads or writes. -/
def use? : Node → Option (NodeId × Token)
  | expr (.read id name) => some (id, name)
  | expr (.assign id name _) => some (id, name)
  | _ => none

def references (c : Context) : Node → List Reference
  | program body => Stmt.referencesOfAll c.here.names body
  | stmt s => s.references c.here.names
  | expr e => e.references c.here.names
  | param _ => []

/-- The reference that a node itself is. -/
def ownReference (c : Context) : Node → List Reference
  | expr (.read id name) => [⟨id, name, c.here.names.distance? name.lexeme⟩]
  | expr (.assign id name _) => [⟨id, name, c.here.names.distance? name.lexeme⟩]
  | _ => []

theorem mem_ownReference {c : Context} {n : Node} {r : Reference} : r ∈ n.ownReference c ↔
    n.use? = some (r.id, r.name) ∧ r.distance? = c.here.names.distance? r.name.lexeme := by
  have hsingle (id : NodeId) (name : Token) :
      r ∈ [⟨id, name, c.here.names.distance? name.lexeme⟩] ↔ some (id, name) = some (r.id, r.name) ∧
        r.distance? = c.here.names.distance? r.name.lexeme := by
    obtain ⟨id', name', distance?⟩ := r
    rw [List.mem_singleton]
    constructor
    · rintro ⟨⟩
      exact ⟨rfl, rfl⟩
    · rintro ⟨⟨⟩, hd⟩
      exact congrArg _ hd
  cases n with
  | expr e =>
    cases e with
    | read id name | assign id name => exact hsingle id name
    | _ => simp [ownReference, use?]
  | _ => simp [ownReference, use?]

end Node

/-- A variable is read or written at a place. -/
def UsesAt (program : List Stmt) (place : Path) (id : NodeId) (name : Token) : Prop :=
  ∃ node, nodeAt? program place = some node ∧ node.use? = some (id, name)

theorem Surroundings.names_declare (here : Surroundings) (x : String) :
    (here.declare x).names = here.names.declare x := by
  obtain ⟨names, globals, inFunction⟩ := here
  cases names <;> rfl

theorem Surroundings.names_after (here : Surroundings) (s : Stmt) :
    (here.after s).names = here.names.after s := by
  unfold after Names.after
  cases s.declared? with
  | none => rfl
  | some name => exact here.names_declare name.lexeme

section Walk

variable {c : Context} {r : Reference}

theorem Expr.mem_referencesOfAll {names : Names} {es : List Expr} :
    r ∈ Expr.referencesOfAll names es ↔ ∃ e ∈ es, r ∈ e.references names := by
  induction es with
  | nil => simp [Expr.referencesOfAll]
  | cons e es ih => simp [Expr.referencesOfAll, ih]

/-- The references in a row of statements, each with what stands before it. -/
theorem Stmt.mem_referencesOfAll (ss : List Stmt) (here : Surroundings) :
    r ∈ Stmt.referencesOfAll here.names ss ↔ ∃ (i : Nat) (s : Stmt),
      ss[i]? = some s ∧ r ∈ s.references ((ss.take i).foldl .after here).names := by
  induction ss generalizing here with
  | nil => simp [Stmt.referencesOfAll]
  | cons s ss ih =>
    rw [Stmt.referencesOfAll, List.mem_append, ← here.names_after, ih]
    constructor
    · rintro (h | ⟨i, s', hs, h⟩)
      · exact ⟨0, s, rfl, h⟩
      · exact ⟨i + 1, s', hs, h⟩
    · rintro ⟨_ | i, s', hs, h⟩
      · cases hs
        exact .inl h
      · exact .inr ⟨i, s', hs, h⟩

/-- A node whose parts all have one context. -/
theorem Node.mem_references_parts {n : Node} {c' : Context} (h : ∀ i, c.inside n i = c') :
    (∃ (i : Nat) (part : Node), n.parts[i]? = some part ∧ r ∈ part.references (c.inside n i)) ↔
      ∃ part ∈ n.parts, r ∈ part.references c' := by
  simp only [h, List.mem_iff_getElem?]
  exact ⟨fun ⟨i, part, hi, hr⟩ => ⟨part, ⟨i, hi⟩, hr⟩, fun ⟨part, ⟨i, hi⟩, hr⟩ => ⟨i, part, hi, hr⟩⟩

/-- The references in a node: it may be one itself, and the others are in its parts. -/
theorem Node.mem_references (c : Context) (n : Node) (r : Reference) : r ∈ n.references c ↔
    r ∈ n.ownReference c ∨ ∃ (i : Nat) (part : Node),
      n.parts[i]? = some part ∧ r ∈ part.references (c.inside n i) := by
  cases n with
  | param name => simp [Node.references, Node.ownReference, Node.parts]
  | expr e =>
    rw [Node.mem_references_parts fun _ => rfl]
    cases e <;> simp [Node.references, Node.ownReference, Node.parts, Expr.parts, Expr.references,
      Expr.mem_referencesOfAll, or_comm]
  | program body =>
    refine (Stmt.mem_referencesOfAll body c.here).trans
      ((or_iff_right List.not_mem_nil).trans ?_).symm
    simp [Node.references, Node.parts, Context.inside]
  | stmt s =>
    refine Iff.trans ?_ (or_iff_right List.not_mem_nil).symm
    cases s with
    | block body =>
      refine (Stmt.mem_referencesOfAll body (c.here.enter [])).trans ?_
      simp [Node.references, Node.parts, Stmt.parts, Context.inside]
    | function name params body =>
      rw [Node.references, Stmt.references, ← Surroundings.names_declare]
      let inner := (c.here.declare name.lexeme).enter (params.map (·.lexeme))
      refine (Stmt.mem_referencesOfAll body { inner with inFunction := true }).trans ?_
      constructor
      · rintro ⟨i, s, hs, hr⟩
        refine ⟨params.length + i, .stmt s, ?_, ?_⟩
        · rw [Node.getElem?_parts_function, hs]
          rfl
        · rw [Context.inside_function]
          exact hr
      · rintro ⟨i, part, hpart, hr⟩
        rcases Nat.lt_or_ge i params.length with hi | hi
        · obtain ⟨p, -, rfl⟩ := List.mem_map.1
            (List.mem_of_getElem? (Node.getElem?_parts_params hi ▸ hpart))
          cases hr
        · obtain ⟨i, rfl⟩ := Nat.exists_eq_add_of_le hi
          rw [Node.getElem?_parts_function] at hpart
          obtain ⟨s, hs, rfl⟩ := Option.map_eq_some_iff.1 hpart
          rw [Context.inside_function] at hr
          exact ⟨i, s, hs, hr⟩
    | var name initial =>
      rw [Node.mem_references_parts fun _ => rfl, Node.references, Stmt.references,
        ← Surroundings.names_declare]
      cases initial <;> simp [Node.references, Node.parts, Stmt.parts, Expr.referencesOfOption]
    | exit keyword value =>
      rw [Node.mem_references_parts fun _ => rfl]
      cases value <;>
        simp [Node.references, Node.parts, Stmt.parts, Stmt.references, Expr.referencesOfOption]
    | branch condition onTrue onFalse =>
      rw [Node.mem_references_parts fun _ => rfl]
      cases onFalse <;> simp [Node.references, Node.parts, Stmt.parts, Stmt.references]
    | _ =>
      rw [Node.mem_references_parts fun _ => rfl]
      simp [Node.references, Node.parts, Stmt.parts, Stmt.references]

end Walk

/-- The distance noted at a place is that of the tree. -/
theorem Context.Knows.distance? {program : List Stmt} {globals : List String} {place : Path}
    {c : Context} (h : c.Knows program globals place) (x : String) (n : Nat) :
    c.here.names.distance? x = some n ↔ DistanceAt program place x n := by
  obtain ⟨hlen, hget⟩ := List.forall₂_iff_get.1 h.names
  have hdeclares (i : Nat) (hi : i < (scopesAround program place).length)
      (hi' : i < c.here.names.length) : c.here.names[i].contains x = true ↔
        DeclaresBefore program (scopesAround program place)[i] x place := by
    rw [List.contains_iff_mem]
    exact hget i hi hi' x
  rw [Names.distance?, List.findIdx?_eq_some_iff_getElem]
  constructor
  · rintro ⟨hn, hx, hfirst⟩
    have hn' := hlen ▸ hn
    refine ⟨_, List.getElem?_eq_getElem hn', (hdeclares n hn' hn).1 hx, fun m hm inner hinner => ?_⟩
    obtain ⟨hm', rfl⟩ := List.getElem?_eq_some_iff.1 hinner
    exact fun hd => hfirst m hm ((hdeclares m hm' (hlen ▸ hm')).2 hd)
  · rintro ⟨scope, hscope, hx, hfirst⟩
    obtain ⟨hn', rfl⟩ := List.getElem?_eq_some_iff.1 hscope
    have hn := hlen ▸ hn'
    refine ⟨hn, (hdeclares n hn' hn).2 hx, fun m hm hc => ?_⟩
    have hm' : m < (scopesAround program place).length := Nat.lt_trans hm hn'
    exact hfirst m hm _ (List.getElem?_eq_getElem hm') ((hdeclares m hm' (Nat.lt_trans hm hn)).1 hc)

/-- The references of a program are what its places use, with the distances of the tree. -/
theorem mem_references_iff {program : List Stmt} (hp : Stmt.ProperAll program) {r : Reference} :
    r ∈ references program ↔ ∃ place, UsesAt program place r.id r.name ∧
      ∀ n, r.distance? = some n ↔ DistanceAt program place r.name.lexeme n := by
  let root : Context := ⟨⟨[], [], false⟩, none⟩
  have hwalk : r ∈ references program ↔ ∃ place m, nodeAt? program place = some m ∧
      r ∈ m.ownReference (root.below (.program program) place) :=
    mem_walk Node.references Node.ownReference Node.mem_references (.program program) root
  have hknows {place : Path} {m : Node} (hm : nodeAt? program place = some m) :=
    (knows_below hp [] place hm).distance? r.name.lexeme
  -- A reference is noted with a distance, and so it is known by what the distance is.
  have hsame {place : Path} {m : Node} (hm : nodeAt? program place = some m) :
      (∀ n, r.distance? = some n ↔ DistanceAt program place r.name.lexeme n) ↔
        r.distance? = (root.below (.program program) place).here.names.distance? r.name.lexeme :=
    ⟨fun h => Option.ext fun n => (h n).trans (hknows hm n).symm,
      fun h n => h ▸ hknows hm n⟩
  rw [hwalk]
  constructor
  · rintro ⟨place, m, hm, hr⟩
    obtain ⟨huse, hd⟩ := Node.mem_ownReference.1 hr
    exact ⟨place, ⟨m, hm, huse⟩, (hsame hm).2 hd⟩
  · rintro ⟨place, ⟨m, hm, huse⟩, hd⟩
    exact ⟨place, m, hm, Node.mem_ownReference.2 ⟨huse, (hsame hm).1 hd⟩⟩

/-- Each reference of a program that is admitted gets the distance of the tree, if it has one there,
and all else stays as it was. -/
theorem State.admit_distances {firstId : NodeId} {ts : List Token} {program : List Stmt}
    {s s' : State} (hp : (Grammar.parseProgram firstId ts).result = .ok program)
    (hfresh : ∀ place id name, UsesAt program place id name → s.distances.get? id = none)
    (h : s.admit program = .ok s') :
    s' = { s with distances := s'.distances } ∧
      (∀ place id name, UsesAt program place id name →
        ∀ n, s'.distances.get? id = some n ↔ DistanceAt program place name.lexeme n) ∧
      ∀ id, (∀ place name, ¬ UsesAt program place id name) →
        s'.distances.get? id = s.distances.get? id := by
  obtain ⟨hsentence, hids⟩ := Grammar.parseProgram_sound hp
  have hproper := Stmt.ProperAll.of_unnumbered _ hsentence.proper
  have hrefs := Distances.numbers_references hids
  obtain ⟨-, rfl⟩ := State.admit_eq_ok.1 h
  have hnew : ∀ r ∈ references program, s.distances.get? r.id = none := fun r hr => by
    obtain ⟨place, huse, -⟩ := (mem_references_iff hproper).1 hr
    exact hfresh place r.id r.name huse
  refine ⟨rfl, fun place i name huse => ?_, fun i hi => ?_⟩
  · have ⟨m, hm, _⟩ := huse
    obtain ⟨distance?, hd⟩ : ∃ distance? : Option Nat, ∀ n, distance? = some n ↔
        DistanceAt program place name.lexeme n :=
      ⟨_, (knows_below hproper [] place hm).distance? name.lexeme⟩
    have hr : ⟨i, name, distance?⟩ ∈ references program :=
      (mem_references_iff hproper).2 ⟨place, huse, hd⟩
    intro n
    rw [Distances.get?_record hrefs.nodup hnew _ hr]
    exact hd n
  · refine Distances.get?_record_of_notMem fun hmem => ?_
    obtain ⟨r, hr, rfl⟩ := List.mem_map.1 hmem
    obtain ⟨place, huse, -⟩ := (mem_references_iff hproper).1 hr
    exact hi place r.name huse

/-- The read in `{ var a; { fun f(b) { print a; } } }` gets the distance 2. -/
theorem State.admit_distances_function :
    let ts := tokens "\x7b var a; \x7b fun f(b) \x7b print a; \x7d \x7d \x7d"
    let s := State.initial Float.ofNat .unbounded
    ∃ program s', (Grammar.parseProgram 0 ts).result = .ok program ∧ s.admit program = .ok s' ∧
      ∃ place id name, UsesAt program place id name ∧ s'.distances.get? id = some 2 ∧
        DistanceAt program place name.lexeme 2 := by
  intro ts s
  let place : Path := [0, 1, 0, 1, 0]
  have hread : (Grammar.parseProgram 0 ts).result.toOption.map
      (fun program => ((nodeAt? program place).bind (·.use?)).map (·.1)) = some (some 0) := by
    decide +kernel
  have hdistance : (Grammar.parseProgram 0 ts).result.toOption.map
      (fun program => (Except.toOption <| s.admit program).map fun s' => s'.distances.get? 0) =
        some (some (some 2)) := by
    decide +kernel
  cases hp : (Grammar.parseProgram 0 ts).result with
  | error faults =>
    rw [hp] at hread
    cases hread
  | ok program =>
    rw [hp] at hread hdistance
    obtain ⟨⟨_, name⟩, huse, rfl⟩ := Option.map_eq_some_iff.1 (Option.some.inj hread)
    replace huse : UsesAt program place 0 name := Option.bind_eq_some_iff.1 huse
    replace hdistance :
        (Except.toOption <| s.admit program).map (·.distances.get? 0) = some (some 2) :=
      Option.some.inj hdistance
    cases hs : s.admit program with
    | error faults =>
      rw [hs] at hdistance
      cases hdistance
    | ok s' =>
      rw [hs] at hdistance
      have hget : s'.distances.get? 0 = some 2 := Option.some.inj hdistance
      have hd := (State.admit_distances hp (fun _ _ _ _ => rfl) hs).2.1 place 0 name huse 2
      exact ⟨program, s', rfl, hs, place, 0, name, huse, hget, hd.1 hget⟩

end Lox
