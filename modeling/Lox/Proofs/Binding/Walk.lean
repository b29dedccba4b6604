import Lox.Binding.Rule
import Lox.Proofs.Tree.Path
import Mathlib.Data.List.Forall2
import Mathlib.Tactic.Choose

/-!
# Walks over a tree

On the way to a place it is kept what is declared, whether the place is in a function, and which
variable an initializer must not read (`Context`). A list of findings that is put together of what
each node has by itself, with its parts in their order, has an entry for every place with a finding
and no other (`mem_walk`); if a node has no more than one, the entries are in the order of the tree
(`walk_ordered`).
-/

namespace Lox

/-- What is known at a place. -/
structure Context where
  here : Surroundings
  /-- The variable that the expression at the place must not read. -/
  own? : Option String

namespace Context

/-- The context of a part of a node. -/
def inside (c : Context) (n : Node) (i : Nat) : Context :=
  match n with
  | .program body => ⟨(body.take i).foldl .after c.here, none⟩
  | .stmt (.block body) => ⟨(body.take i).foldl .after (c.here.enter []), none⟩
  | .stmt (.function name params body) =>
    let inner := (c.here.declare name.lexeme).enter ((params.take i).map (·.lexeme))
    ⟨(body.take (i - params.length)).foldl .after { inner with inFunction := true }, none⟩
  | .stmt (.var name _) => ⟨c.here.declare name.lexeme, c.here.forbidden? name.lexeme⟩
  | .stmt _ => ⟨c.here, none⟩
  | .expr _ | .param _ => c

/-- The context of a place below a node. -/
def below (c : Context) (n : Node) : Path → Context
  | [] => c
  | i :: place => n.parts[i]?.elim c fun part => (c.inside n i).below part place

theorem below_cons {c : Context} {n part : Node} {i : Nat} (place : Path)
    (h : n.parts[i]? = some part) : c.below n (i :: place) = (c.inside n i).below part place := by
  rw [below, h]
  rfl

theorem below_concat {i : Nat} {part m : Node} (h : m.parts[i]? = some part) (place : Path) :
    ∀ {c : Context} {n : Node}, n.at? place = some m →
      c.below n (place ++ [i]) = (c.below n place).inside m i := by
  induction place with
  | nil =>
    rintro c n ⟨⟩
    exact below_cons [] h
  | cons j place ih =>
    intro c n hm
    obtain ⟨next, hnext, hm⟩ := Option.bind_eq_some_iff.1 hm
    rw [List.cons_append, below_cons _ hnext, below_cons _ hnext, ih hm]

end Context

section Function

variable {name : Token} {params : List Token} {body : List Stmt} {i : Nat}

theorem Node.getElem?_parts_params (h : i < params.length) :
    (Node.stmt (.function name params body)).parts[i]? = (params.map Node.param)[i]? :=
  List.getElem?_append_left (by rwa [List.length_map])

/-- The body of a function stands after its parameters. -/
theorem Node.getElem?_parts_function :
    (Node.stmt (.function name params body)).parts[params.length + i]? = body[i]?.map .stmt := by
  have hlength : (params.map Node.param).length = params.length := List.length_map _
  rw [← List.getElem?_map, ← hlength]
  exact List.getElem?_append_right (Nat.le_add_right _ _) |>.trans (by rw [Nat.add_sub_cancel_left])

theorem Context.inside_function {c : Context} :
    c.inside (.stmt (.function name params body)) (params.length + i) =
      ⟨(body.take i).foldl .after
        { (c.here.declare name.lexeme).enter (params.map (·.lexeme)) with inFunction := true },
        none⟩ := by
  rw [Context.inside, Nat.add_sub_cancel_left, List.take_of_length_le (Nat.le_add_right _ _)]

end Function

section Walk

variable {α : Type} (f own : Context → Node → List α)

/-- What is found in a tree is found at one of its nodes. -/
theorem mem_walk (hf : ∀ c n a, a ∈ f c n ↔
      a ∈ own c n ∨ ∃ i part, n.parts[i]? = some part ∧ a ∈ f (c.inside n i) part)
    {a : α} (n : Node) : ∀ c : Context,
      a ∈ f c n ↔ ∃ place m, n.at? place = some m ∧ a ∈ own (c.below n place) m := by
  induction n using Node.induct with
  | step n ih =>
    intro c
    rw [hf]
    constructor
    · rintro (h | ⟨i, part, hpart, h⟩)
      · exact ⟨[], n, rfl, h⟩
      · obtain ⟨place, m, hm, h⟩ := (ih part (List.mem_of_getElem? hpart) _).1 h
        refine ⟨i :: place, m, ?_, Context.below_cons place hpart ▸ h⟩
        rw [Node.at?, hpart]
        exact hm
    · rintro ⟨_ | ⟨i, place⟩, m, hm, h⟩
      · cases hm
        exact .inl h
      · obtain ⟨part, hpart, hm⟩ := Option.bind_eq_some_iff.1 hm
        refine .inr ⟨i, part, hpart, (ih part (List.mem_of_getElem? hpart) _).2 ⟨place, m, hm, ?_⟩⟩
        rwa [← Context.below_cons place hpart]

variable {f own}

/-- The places at which a list of findings was made, in the order of the tree. -/
structure Finds (own : Context → Node → List α) (c : Context) (n : Node) (places : List Path)
    (found : List α) : Prop where
  ordered : places.Pairwise (· < ·)
  complete : ∀ place m, n.at? place = some m → own (c.below n place) m ≠ [] → place ∈ places
  each : List.Forall₂ (fun place a => ∃ m, n.at? place = some m ∧ own (c.below n place) m = [a])
    places found

namespace Finds

variable {c : Context} {n : Node}

/-- The places in the parts of a node, and what was found there. -/
theorem inside (places : Nat → List Path) (found : Nat → Node → List α)
    (h : ∀ i part, n.parts[i]? = some part →
      Finds own (c.inside n i) part (places i) (found i part)) :
    let below := (n.parts.mapIdx fun i _ => (places i).map (i :: ·)).flatten
    below.Pairwise (· < ·) ∧ (∀ place ∈ below, place ≠ []) ∧
      (∀ i place m, n.at? (i :: place) = some m → own (c.below n (i :: place)) m ≠ [] →
        i :: place ∈ below) ∧
      List.Forall₂ (fun place a => ∃ m, n.at? place = some m ∧ own (c.below n place) m = [a])
        below (n.parts.mapIdx found).flatten := by
  intro below
  refine ⟨List.pairwise_flatten.2 ⟨?_, ?_⟩, ?_, ?_, ?_⟩
  · intro row hrow
    obtain ⟨i, hi, rfl⟩ := List.mem_mapIdx.1 hrow
    refine List.pairwise_map.2 ((h i _ (List.getElem?_eq_getElem hi)).ordered.imp fun hlt => ?_)
    exact List.cons_lt_cons_iff.2 (.inr ⟨rfl, hlt⟩)
  · refine List.pairwise_iff_getElem.2 fun i j hi hj hlt => ?_
    simp only [List.getElem_mapIdx, List.mem_map]
    rintro _ ⟨place, -, rfl⟩ _ ⟨place', -, rfl⟩
    exact List.cons_lt_cons_iff.2 (.inl hlt)
  · intro place hplace
    obtain ⟨row, hrow, hplace⟩ := List.mem_flatten.1 hplace
    obtain ⟨i, -, rfl⟩ := List.mem_mapIdx.1 hrow
    obtain ⟨inner, -, rfl⟩ := List.mem_map.1 hplace
    exact List.cons_ne_nil i inner
  · intro i place m hm hne
    obtain ⟨part, hpart, hm⟩ := Option.bind_eq_some_iff.1 hm
    rw [Context.below_cons place hpart] at hne
    obtain ⟨hi, -⟩ := List.getElem?_eq_some_iff.1 hpart
    refine List.mem_flatten.2 ⟨_, List.mem_mapIdx.2 ⟨i, hi, rfl⟩, ?_⟩
    exact List.mem_map_of_mem ((h i part hpart).complete place m hm hne)
  · refine List.rel_flatten (List.forall₂_iff_get.2 ⟨by simp, fun i hi _ => ?_⟩)
    have hi : i < n.parts.length := by simpa using hi
    have hpart := List.getElem?_eq_getElem hi
    simp only [List.get_eq_getElem, List.getElem_mapIdx]
    refine List.forall₂_map_left_iff.2 ((h i _ hpart).each.imp ?_)
    rintro place a ⟨m, hm, hown⟩
    refine ⟨m, ?_, Context.below_cons place hpart ▸ hown⟩
    rw [Node.at?, hpart]
    exact hm

end Finds

variable (f own)

/-- If a node has no more than one finding by itself, its own comes before those of its parts. -/
theorem walk_ordered (hf : ∀ c n, f c n =
      own c n ++ (n.parts.mapIdx fun i part => f (c.inside n i) part).flatten)
    (hown : ∀ c n, (own c n).length ≤ 1) (n : Node) :
    ∀ c : Context, ∃ places, Finds own c n places (f c n) := by
  induction n using Node.induct with
  | step n ih =>
    intro c
    have hparts (i : Nat) : ∃ places, ∀ part, n.parts[i]? = some part →
        Finds own (c.inside n i) part places (f (c.inside n i) part) := by
      cases h : n.parts[i]? with
      | none => exact ⟨[], nofun⟩
      | some part =>
        obtain ⟨places, hplaces⟩ := ih part (List.mem_of_getElem? h) (c.inside n i)
        exact ⟨places, fun _ hsome => Option.some.inj hsome ▸ hplaces⟩
    choose places hplaces using hparts
    obtain ⟨hordered, hbelow, hcomplete, heach⟩ :=
      Finds.inside places (fun i part => f (c.inside n i) part) hplaces
    rw [hf]
    match hc : own c n, hown c n with
    | [], _ =>
      refine ⟨_, hordered, fun place m hm hne => ?_, heach⟩
      cases place with
      | nil =>
        cases hm
        exact absurd hc hne
      | cons i place => exact hcomplete i place m hm hne
    | [a], _ =>
      refine ⟨[] :: _, List.pairwise_cons.2 ⟨fun place hplace => ?_, hordered⟩,
        fun place m hm hne => ?_, .cons ⟨n, rfl, hc⟩ heach⟩
      · obtain ⟨i, place, rfl⟩ := List.exists_cons_of_ne_nil (hbelow place hplace)
        exact List.nil_lt_cons i place
      · cases place with
        | nil => exact List.mem_cons_self
        | cons i place => exact List.mem_cons_of_mem _ (hcomplete i place m hm hne)

end Walk

end Lox
