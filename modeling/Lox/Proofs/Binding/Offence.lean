import Lox.Proofs.Binding.Around
import Lox.Proofs.Grammar.SourceOrder
import Lox.Proofs.Session.Accepts

/-!
# Breaches are those of the tree

What breaks a rule of declaration is a node: a declaration of a name that its scope has already, a
read of a variable in its own initializer, or a `return` outside of all functions (`Offends`). The
breaches in a program are these, each once and in the order of the tree (`violations_offend`), which
is that of the source; and a program is admitted if it has none (`State.resolve_offences`).
-/

namespace Lox

namespace Node

def violations (c : Context) : Node → List BindingError
  | program body => Stmt.violationsOfAll c.here body
  | stmt s => s.violations c.here
  | expr e => c.own?.elim [] e.readsOf
  | param name => c.here.redeclaration name

/-- The breach that a node itself is. -/
def breach (c : Context) : Node → List BindingError
  | stmt (.var name _) => c.here.redeclaration name
  | stmt (.function name _ _) => c.here.redeclaration name
  | stmt (.exit keyword _) => if c.here.inFunction then [] else [⟨.returnOutside, keyword⟩]
  | expr (.read _ name) => if c.own? = some name.lexeme then [⟨.ownInitializer, name⟩] else []
  | param name => c.here.redeclaration name
  | _ => []

/-- The breaches in the parts of a node. -/
def partViolations (c : Context) (n : Node) : List BindingError :=
  (n.parts.mapIdx fun i part => part.violations (c.inside n i)).flatten

end Node

variable {c c' : Context}

theorem length_redeclaration_le (here : Surroundings) (name : Token) :
    (here.redeclaration name).length ≤ 1 := by
  unfold Surroundings.redeclaration
  split
  · exact Nat.zero_le 1
  · split <;> simp

theorem Node.length_breach_le (c : Context) (n : Node) : (n.breach c).length ≤ 1 := by
  unfold breach
  split
  · exact length_redeclaration_le _ _
  · exact length_redeclaration_le _ _
  · split <;> simp
  · split <;> simp
  · exact length_redeclaration_le _ _
  · simp

theorem Expr.readsOfAll_eq_flatMap (own : String) (es : List Expr) :
    Expr.readsOfAll own es = es.flatMap (·.readsOf own) := by
  induction es with
  | nil => rfl
  | cons e es ih => rw [Expr.readsOfAll, ih, List.flatMap_cons]

/-- The breaches in a row of statements, each with what stands before it. -/
theorem Stmt.violationsOfAll_eq_flatten (ss : List Stmt) (here : Surroundings) :
    Stmt.violationsOfAll here ss =
      (ss.mapIdx fun i s => s.violations ((ss.take i).foldl .after here)).flatten := by
  induction ss generalizing here with
  | nil => rfl
  | cons s ss ih =>
    rw [Stmt.violationsOfAll, ih, List.mapIdx_cons, List.flatten_cons]
    rfl

/-- The breaches in a row of parameters, each with those before it. -/
theorem repeatedParams_eq_flatten (here : Surroundings) :
    ∀ (ps : List Token) {earlier scope : List String}, (∀ x, x ∈ earlier ↔ x ∈ scope) →
      repeatedParams earlier ps = (ps.mapIdx fun i p =>
        (here.enter (scope ++ (ps.take i).map (·.lexeme))).redeclaration p).flatten
  | [], _, _, _ => rfl
  | p :: ps, earlier, scope, h => by
    have hcontains : earlier.contains p.lexeme = scope.contains p.lexeme := by
      rw [Bool.eq_iff_iff, List.contains_iff_mem, List.contains_iff_mem, h]
    have hrest : ∀ x, x ∈ p.lexeme :: earlier ↔ x ∈ scope ++ [p.lexeme] := fun x => by
      rw [List.mem_cons, List.mem_append, List.mem_singleton, h, or_comm]
    rw [repeatedParams, repeatedParams_eq_flatten here ps hrest, hcontains, List.mapIdx_cons,
      List.flatten_cons]
    simp only [List.take_zero, List.map_nil, List.append_nil, List.take_succ_cons, List.map_cons,
      List.append_assoc, List.singleton_append]
    rfl

theorem mapIdx_map {α β γ : Type} (f : Nat → β → γ) (g : α → β) (l : List α) :
    (l.map g).mapIdx f = l.mapIdx fun i a => f i (g a) :=
  List.ext_getElem (by simp) fun i _ _ => by simp

/-- A node whose parts all have one context. -/
theorem Node.partViolations_eq {n : Node} (h : ∀ i, c.inside n i = c') :
    n.partViolations c = n.parts.flatMap (·.violations c') := by
  have hmap : (n.parts.mapIdx fun i part => part.violations (c.inside n i)) =
      n.parts.map (·.violations c') :=
    List.ext_getElem (by simp) fun i _ _ => by simp [h]
  rw [partViolations, hmap, List.flatMap_def]

/-- A node may be a breach itself, and the others are in its parts. -/
theorem Node.violations_eq_append (c : Context) (n : Node) :
    n.violations c = n.breach c ++ n.partViolations c := by
  cases n with
  | param name => simp [violations, breach, partViolations, parts]
  | expr e =>
    rw [partViolations_eq fun _ => rfl]
    obtain ⟨here, own?⟩ := c
    cases own? with
    | none => cases e <;> simp [violations, breach, parts, Expr.parts, List.flatMap_map]
    | some x =>
      cases e with
      | read id name =>
        simp [violations, breach, parts, Expr.parts, Expr.readsOf, eq_comm]
      | _ =>
        simp [violations, breach, parts, Expr.parts, Expr.readsOf, List.flatMap_map,
          Expr.readsOfAll_eq_flatMap]
  | program body =>
    rw [violations, Stmt.violationsOfAll_eq_flatten, partViolations, parts, mapIdx_map]
    rfl
  | stmt s =>
    cases s with
    | block body =>
      rw [violations, Stmt.violations, Stmt.violationsOfAll_eq_flatten, partViolations, parts,
        Stmt.parts, mapIdx_map]
      rfl
    | function name params body =>
      rw [violations, Stmt.violations, Stmt.violationsOfAll_eq_flatten, partViolations, parts,
        Stmt.parts, List.mapIdx_append, List.flatten_append, breach, List.append_assoc, mapIdx_map,
        mapIdx_map, repeatedParams_eq_flatten (c.here.declare name.lexeme) params fun _ => Iff.rfl]
      congr 3
      · refine List.ext_getElem (by simp) fun i hi _ => ?_
        have hi : i - params.length = 0 := Nat.sub_eq_zero_of_le (Nat.le_of_lt (by simpa using hi))
        simp only [List.getElem_mapIdx, violations, Context.inside, hi]
        rfl
      · refine List.ext_getElem (by simp) fun i _ _ => ?_
        simp only [List.getElem_mapIdx, List.length_map, Nat.add_comm i, Context.inside_function]
        rfl
    | var name initial =>
      have hinside (i : Nat) : c.inside (.stmt (.var name initial)) i =
          ⟨c.here.declare name.lexeme, c.here.forbidden? name.lexeme⟩ := rfl
      rw [partViolations_eq hinside]
      cases initial with
      | none => simp [violations, Stmt.violations, breach, parts, Stmt.parts]
      | some e =>
        cases h : c.here.forbidden? name.lexeme <;>
          simp [violations, Stmt.violations, breach, parts, Stmt.parts, h]
    | branch condition onTrue onFalse =>
      rw [partViolations_eq fun _ => rfl]
      cases onFalse <;> simp [violations, breach, parts, Stmt.parts, Stmt.violations]
    | exit keyword value =>
      rw [partViolations_eq fun _ => rfl]
      cases value <;> simp [violations, breach, parts, Stmt.parts, Stmt.violations]
    | _ =>
      rw [partViolations_eq fun _ => rfl]
      simp [violations, breach, parts, Stmt.parts, Stmt.violations]

/-- What breaks a rule of declaration at a place: the message and the token it is reported at. -/
inductive Offends (program : List Stmt) (globals : List String) (place : Path) :
    String → Token → Prop where
  | redeclared {scope : Path} {i : Nat} {node : Node} {name : Token} (hplace : place = scope ++ [i])
    (hscope : scope ∈ scopesAround program place) (hnode : nodeAt? program place = some node)
    (hname : node.declared? = some name)
    (h : DeclaresBefore program scope name.lexeme place) :
    Offends program globals place "Already a variable with this name in this scope." name
  | ownInitializer {id : NodeId} {name : Token}
    (hnode : nodeAt? program place = some (.expr (.read id name)))
    (h : InOwnInitializer program globals name.lexeme place) :
    Offends program globals place "Can't read local variable in its own initializer." name
  | returnOutside {keyword : Token} {value : Option Expr}
    (hnode : nodeAt? program place = some (.stmt (.exit keyword value)))
    (h : ¬ InFunction program place) :
    Offends program globals place "Can't return from top-level code." keyword

section Knows

variable {program : List Stmt} {globals : List String} {place : Path} {node : Node} {name : Token}

theorem Node.breach_of_declared (h : node.declared? = some name) :
    node.breach c = c.here.redeclaration name := by
  cases node with
  | stmt s => cases s <;> cases h <;> rfl
  | param => cases h; rfl
  | _ => cases h

theorem redeclaration_eq_of_mem {here : Surroundings} {e : BindingError}
    (h : e ∈ here.redeclaration name) :
    e = ⟨.redeclared, name⟩ ∧ here.redeclaration name = [⟨.redeclared, name⟩] := by
  unfold Surroundings.redeclaration at h ⊢
  split at h
  · cases h
  · split at h
    · next hc => exact ⟨List.mem_singleton.1 h, if_pos hc⟩
    · cases h

/-- A declaration is a breach if the scope it stands in declares the name before. -/
theorem Context.Knows.redeclaration (h : c.Knows program globals place)
    (hp : Stmt.ProperAll program) (hnode : nodeAt? program place = some node)
    (hd : node.declared? = some name) : c.here.redeclaration name = [⟨.redeclared, name⟩] ↔
      ∃ scope i, place = scope ++ [i] ∧ scope ∈ scopesAround program place ∧
        DeclaresBefore program scope name.lexeme place := by
  obtain ⟨outer, k, rfl, houter⟩ := declared_place hp hnode hd
  have hnames := h.names
  rcases houter with rfl | houter
  · have htop : scopesAround program ([] ++ [k]) = [] := scopesAround_concat
    rw [htop] at hnames ⊢
    have hnone : c.here.redeclaration name = [] := by
      rw [Surroundings.redeclaration, List.forall₂_nil_left_iff.1 hnames]
    rw [hnone]
    refine ⟨fun h => absurd h.symm (List.cons_ne_nil _ []), ?_⟩
    rintro ⟨scope, i, -, hscope, -⟩
    exact absurd hscope List.not_mem_nil
  · rw [scopesAround_concat, if_pos houter] at hnames ⊢
    obtain ⟨declared, rest, hhead, -, heq⟩ := List.forall₂_cons_left_iff.1 hnames
    simp only [Surroundings.redeclaration, heq, ite_eq_left_iff, reduceCtorEq, imp_false,
      not_not, List.contains_iff_mem, hhead]
    constructor
    · exact fun hbefore => ⟨outer, k, rfl, List.mem_cons_self, hbefore⟩
    · rintro ⟨scope, i, hplace, -, hbefore⟩
      obtain rfl : outer = scope := List.append_inj_left' hplace rfl
      exact hbefore

/-- What is found at a node is what offends there. -/
theorem Context.Knows.offends (h : c.Knows program globals place) (hp : Stmt.ProperAll program)
    (hnode : nodeAt? program place = some node) {message : String} {token : Token} :
    Offends program globals place message token ↔
      ∃ e ∈ node.breach c, e.cause.message = message ∧ e.token = token := by
  constructor
  · rintro (⟨hplace, hscope, hnode', hname, hbefore⟩ | ⟨hnode', hin⟩ | ⟨hnode', hf⟩)
    · obtain rfl := Option.some.inj (hnode.symm.trans hnode')
      refine ⟨⟨.redeclared, token⟩, ?_, rfl, rfl⟩
      rw [Node.breach_of_declared hname,
        (h.redeclaration hp hnode hname).2 ⟨_, _, hplace, hscope, hbefore⟩]
      exact List.mem_singleton_self _
    · obtain rfl := Option.some.inj (hnode.symm.trans hnode')
      refine ⟨⟨.ownInitializer, token⟩, ?_, rfl, rfl⟩
      rw [Node.breach, if_pos ((h.own _).2 hin)]
      exact List.mem_singleton_self _
    · obtain rfl := Option.some.inj (hnode.symm.trans hnode')
      refine ⟨⟨.returnOutside, token⟩, ?_, rfl, rfl⟩
      rw [Node.breach, if_neg fun hin => hf (h.inFunction.1 hin)]
      exact List.mem_singleton_self _
  · rintro ⟨e, he, rfl, rfl⟩
    cases hd : node.declared? with
    | some name =>
      rw [Node.breach_of_declared hd] at he
      obtain ⟨rfl, hr⟩ := redeclaration_eq_of_mem he
      obtain ⟨scope, i, hplace, hscope, hbefore⟩ := (h.redeclaration hp hnode hd).1 hr
      exact .redeclared hplace hscope hnode hd hbefore
    | none =>
      unfold Node.breach at he
      split at he
      · cases hd
      · cases hd
      · split at he
        · cases he
        · next hf =>
          obtain rfl := List.mem_singleton.1 he
          exact .returnOutside hnode fun hin => hf (h.inFunction.2 hin)
      · split at he
        · next hown =>
          obtain rfl := List.mem_singleton.1 he
          exact .ownInitializer hnode ((h.own _).1 hown)
        · cases he
      · cases hd
      · cases he

end Knows

/-- The breaches in a program are what offends in it, in the order of the tree. -/
theorem violations_offend {program : List Stmt} (hp : Stmt.ProperAll program)
    (globals : List String) : ∃ places : List Path,
      places.Pairwise (· < ·) ∧
      (∀ place, place ∈ places ↔ ∃ message token, Offends program globals place message token) ∧
      List.Forall₂ (fun place (e : BindingError) => ∀ message token,
        Offends program globals place message token ↔ e.cause.message = message ∧ e.token = token)
        places (violations globals program) := by
  let root : Context := ⟨⟨[], globals, false⟩, none⟩
  obtain ⟨places, hordered, hcomplete, heach⟩ :=
    walk_ordered Node.violations Node.breach Node.violations_eq_append Node.length_breach_le
      (.program program) root
  have hfound {place : Path} {e : BindingError} {m : Node} (hm : nodeAt? program place = some m)
      (he : m.breach (root.below (.program program) place) = [e]) (message : String)
      (token : Token) : Offends program globals place message token ↔
        e.cause.message = message ∧ e.token = token := by
    rw [(knows_below hp globals place hm).offends hp hm, he]
    simp
  refine ⟨places, hordered, fun place => ⟨fun hplace => ?_, ?_⟩, heach.imp ?_⟩
  · obtain ⟨i, hi, rfl⟩ := List.mem_iff_getElem.1 hplace
    obtain ⟨m, hm, he⟩ := heach.get hi (heach.length_eq ▸ hi)
    exact ⟨_, _, (hfound hm he _ _).2 ⟨rfl, rfl⟩⟩
  · rintro ⟨message, token, h⟩
    obtain ⟨m, hm⟩ : ∃ m, nodeAt? program place = some m := by
      cases h <;> exact ⟨_, ‹_›⟩
    obtain ⟨e, he, -⟩ := ((knows_below hp globals place hm).offends hp hm).1 h
    exact hcomplete place m hm (List.ne_nil_of_mem he)
  · rintro place e ⟨m, hm, he⟩
    exact hfound hm he

theorem State.resolve_fst (s : State) (program : List Stmt) :
    (s.resolve program).1 = violations s.globalNames program := by
  unfold State.resolve
  cases violations s.globalNames program <;> rfl

/-- What is reported of a program is what offends in it: each once, in the order of the tree and of
the source. -/
theorem State.resolve_offences {firstId : NodeId} {ts : List Token} {program : List Stmt}
    (hp : (Grammar.parseProgram firstId ts).result = .ok program) (s : State) :
    ∃ places : List Path,
      places.Pairwise (· < ·) ∧
      (∀ place, place ∈ places ↔
        ∃ message token, Offends program s.globalNames place message token) ∧
      List.Forall₂ (fun place (e : BindingError) => ∀ message token,
        Offends program s.globalNames place message token ↔
          e.cause.message = message ∧ e.token = token)
        places (s.resolve program).1 ∧
      ((s.resolve program).1.map (·.token)).Sublist (Grammar.beforeEnd ts) ∧
      ((∃ s', s.admit program = .ok s') ↔
        ∀ place message token, ¬ Offends program s.globalNames place message token) := by
  have hsentence := (Grammar.parseProgram_sound hp).1
  have hproper := Stmt.ProperAll.of_unnumbered _ hsentence.proper
  obtain ⟨places, hordered, hmem, heach⟩ := violations_offend hproper s.globalNames
  have horder : InOrder (violations s.globalNames program) (Grammar.beforeEnd ts) := by
    rw [← violations_unnumbered (fun _ => Iff.rfl) program]
    exact hsentence.violations_inOrder s.globalNames
  rw [s.resolve_fst]
  refine ⟨places, hordered, hmem, heach, horder, ?_⟩
  have haccepted : (∃ s', s.admit program = .ok s') ↔ violations s.globalNames program = [] :=
    ⟨fun ⟨_, h⟩ => (State.admit_eq_ok.1 h).1, fun h => ⟨_, State.admit_eq_ok.2 ⟨h, rfl⟩⟩⟩
  have hplaces : violations s.globalNames program = [] ↔ places = [] := by
    rw [← List.length_eq_zero_iff, ← heach.length_eq, List.length_eq_zero_iff]
  rw [haccepted, hplaces, List.eq_nil_iff_forall_not_mem]
  simp only [hmem, not_exists]

/-- In `{ var a; var a = a; } return;` there are three places that offend. -/
theorem State.resolve_offences_three :
    let ts := tokens "\x7b var a; var a = a; \x7d return;"
    let s := State.initial Float.ofNat .unbounded
    ∃ program, (Grammar.parseProgram 0 ts).result = .ok program ∧
      ∃ places : List Path, places.length = 3 ∧ places.Pairwise (· < ·) ∧
        ∀ place, place ∈ places ↔
          ∃ message token, Offends program s.globalNames place message token := by
  intro ts s
  have hlength : (Grammar.parseProgram 0 ts).result.toOption.map
      (fun program => (s.resolve program).1.length) = some 3 := by decide +kernel
  cases hp : (Grammar.parseProgram 0 ts).result with
  | error faults =>
    rw [hp] at hlength
    cases hlength
  | ok program =>
    rw [hp] at hlength
    obtain ⟨places, hordered, hmem, heach, -, -⟩ := State.resolve_offences hp s
    exact ⟨program, rfl, places, heach.length_eq.trans (Option.some.inj hlength), hordered, hmem⟩

end Lox
