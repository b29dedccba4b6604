import Lox.Proofs.Binding.Resolved
import Lox.Proofs.Lexical.Evaluator
import Lox.Proofs.Lexical.Scopes

/-!
# Where locations stand among the scopes

A `World` says which parent each scope has, for which name of which scope each location stands, and
which of these variables are defined. Worlds only grow (`World.Le`); between two worlds no scope
that was there before gets a location, but for one that is still open (`World.Extends`).

A place in a program is described by a `World.Frame`: the names that the program declares around it
tell, for each name, how many scopes out its variable is, and the environment gives the location of
that very variable.
-/

namespace Lox

namespace Names

variable {names : Names} {scope : List String} {x y : String}

theorem distance?_cons : distance? (scope :: names) x =
    if x ∈ scope then some 0 else (distance? names x).map (· + 1) := by
  simp only [distance?, List.findIdx?_cons, List.contains_iff_mem]

theorem distance?_declare : distance? (declare (scope :: names) x) y =
    if y = x then some 0 else distance? (scope :: names) y := by
  simp only [declare, distance?_cons, List.mem_cons]
  by_cases h : y = x <;> simp [h]

end Names

namespace Lexical

structure World where
  /-- The parent of each scope. -/
  parents : List (Option ScopeId)
  /-- The variable for which each location stands. -/
  slots : List (ScopeId × String)
  /-- The locations of the variables that are defined. -/
  ready : Location → Prop

namespace World

def ancestor? (w : World) (scope : ScopeId) : Nat → Option ScopeId
  | 0 => some scope
  | distance + 1 => (w.parents[scope]?.join).bind (w.ancestor? · distance)

/-- What is in one world is in the other. -/
structure Le (w w' : World) : Prop where
  parents : ∀ (i : Nat) parent?, w.parents[i]? = some parent? → w'.parents[i]? = some parent?
  slots : ∀ (l : Nat) slot, w.slots[l]? = some slot → w'.slots[l]? = some slot
  ready : ∀ l, w.ready l → w'.ready l

/-- A world that grows, where only new scopes and an open one get new locations. -/
structure Extends (o : Option ScopeId) (w w' : World) : Prop where
  le : w.Le w'
  quiet : ∀ scope x, (scope, x) ∈ w'.slots → scope < w.parents.length → some scope ≠ o →
    (scope, x) ∈ w.slots

variable {w w' w'' : World} {o : Option ScopeId} {scope : ScopeId}

theorem Le.refl (w : World) : w.Le w :=
  ⟨fun _ _ h => h, fun _ _ h => h, fun _ h => h⟩

theorem Le.trans (h : w.Le w') (h' : w'.Le w'') : w.Le w'' :=
  ⟨fun i p hp => h'.parents i p (h.parents i p hp), fun l s hs => h'.slots l s (h.slots l s hs),
    fun l hl => h'.ready l (h.ready l hl)⟩

theorem Le.lt_parents (h : w.Le w') (hs : scope < w.parents.length) :
    scope < w'.parents.length :=
  (List.getElem?_eq_some_iff.1 (h.parents scope _ (List.getElem?_eq_getElem hs))).1

theorem Le.length_le (h : w.Le w') : w.parents.length ≤ w'.parents.length := by
  refine Nat.le_of_not_lt fun hlt => ?_
  exact Nat.lt_irrefl _ (h.lt_parents hlt)

theorem Le.ancestor? (h : w.Le w') : ∀ distance scope ancestor,
    w.ancestor? scope distance = some ancestor → w'.ancestor? scope distance = some ancestor
  | 0, _, _, ha => ha
  | distance + 1, scope, ancestor, ha => by
    obtain ⟨parent, hp, ha⟩ := Option.bind_eq_some_iff.1 ha
    have hp := h.parents scope _ (Option.join_eq_some_iff.1 hp)
    simpa [World.ancestor?, hp] using Le.ancestor? h distance parent ancestor ha

theorem Extends.refl (o : Option ScopeId) (w : World) : w.Extends o w :=
  ⟨.refl w, fun _ _ h _ _ => h⟩

theorem Extends.trans (h : w.Extends o w') (h' : w'.Extends o w'') : w.Extends o w'' :=
  ⟨h.le.trans h'.le, fun scope x hx hs ho =>
    h.quiet scope x (h'.quiet scope x hx (h.le.lt_parents hs) ho) hs ho⟩

/-- A world in which no scope was open may have any open. -/
theorem Extends.weaken (h : w.Extends none w') : w.Extends o w' :=
  ⟨h.le, fun scope x hx hs _ => h.quiet scope x hx hs nofun⟩

def push (w : World) (parent? : Option ScopeId) : World :=
  { w with parents := w.parents ++ [parent?] }

def grow (w : World) (scope : ScopeId) (x : String) : World :=
  { w with slots := w.slots ++ [(scope, x)] }

def define (w : World) (l : Location) : World :=
  { w with ready := fun l' => l' = l ∨ w.ready l' }

theorem extends_push (o : Option ScopeId) (w : World) (parent? : Option ScopeId) :
    w.Extends o (w.push parent?) := by
  refine ⟨⟨fun i p hp => ?_, fun _ _ h => h, fun _ h => h⟩, fun _ _ h _ _ => h⟩
  have hi := (List.getElem?_eq_some_iff.1 hp).1
  rwa [push, List.getElem?_append_left hi]

theorem le_grow (w : World) (scope : ScopeId) (x : String) : w.Le (w.grow scope x) := by
  refine ⟨fun _ _ h => h, fun l slot hl => ?_, fun _ h => h⟩
  have hi := (List.getElem?_eq_some_iff.1 hl).1
  rwa [grow, List.getElem?_append_left hi]

theorem extends_grow {base : World} (h : base.Extends o w)
    (hs : o = some scope ∨ base.parents.length ≤ scope) (x : String) :
    base.Extends o (w.grow scope x) := by
  refine ⟨h.le.trans (w.le_grow scope x), fun i y hy hi ho => ?_⟩
  rcases List.mem_append.1 hy with hy | hy
  · exact h.quiet i y hy hi ho
  · obtain ⟨rfl, rfl⟩ : i = scope ∧ y = x := by simpa using hy
    rcases hs with rfl | hs
    · exact absurd rfl ho
    · exact absurd hi (Nat.not_lt_of_le hs)

theorem extends_define (o : Option ScopeId) (w : World) (l : Location) :
    w.Extends o (w.define l) :=
  ⟨⟨fun _ _ h => h, fun _ _ h => h, fun _ h => .inr h⟩, fun _ _ h _ _ => h⟩

/-- A place where some names are declared, in a scope and with an environment. The variable whose
initializer the place is in, if it is in one, need not be defined. -/
structure Frame (w : World) (names : Names) (own? : Option String) (scope : ScopeId) (env : Env) :
    Prop where
  lt : scope < w.parents.length
  inside : names ≠ [] → scope ≠ Lox.State.globals
  globals : ∀ x, names.distance? x = none → env.lookup x = none
  locals : ∀ x distance, names.distance? x = some distance → ∃ holder l,
    w.ancestor? scope distance = some holder ∧ env.lookup x = some l ∧
      w.slots[l]? = some (holder, x) ∧ (own? ≠ some x → w.ready l)

/-- Only names that are declared have a location in the innermost scope. -/
def Fresh (w : World) (scope : ScopeId) (names : Names) : Prop :=
  ∀ x, (scope, x) ∈ w.slots → names.distance? x = some 0

section Frame

variable {names : Names} {own? : Option String} {env : Env} {x : String}

theorem Frame.ne_globals {inner : List String} {outer : Names}
    (h : w.Frame (inner :: outer) own? scope env) : scope ≠ Lox.State.globals :=
  h.inside (List.cons_ne_nil _ _)

theorem Frame.mono (h : w.Frame names own? scope env) (hw : w.Le w') :
    w'.Frame names own? scope env := by
  refine ⟨hw.lt_parents h.lt, h.inside, h.globals, fun x distance hx => ?_⟩
  obtain ⟨holder, l, ha, hl, hs, hr⟩ := h.locals x distance hx
  exact ⟨holder, l, hw.ancestor? _ _ _ ha, hl, hw.slots _ _ hs, fun ho => hw.ready l (hr ho)⟩

theorem Fresh.mono (h : w.Fresh scope names) (hw : w.Extends none w')
    (hs : scope < w.parents.length) : w'.Fresh scope names :=
  fun x hx => h x (hw.quiet scope x hx hs nofun)

theorem Frame.top (h : 0 < w.parents.length) (own? : Option String) :
    w.Frame [] own? Lox.State.globals [] :=
  ⟨h, fun hn => absurd rfl hn, fun _ _ => rfl, nofun⟩

theorem Frame.enter (h : w.Frame names none scope env) :
    (w.push (some scope)).Frame ([] :: names) none w.parents.length env := by
  have hw := (extends_push none w (some scope)).le
  have hne : w.parents.length ≠ Lox.State.globals := Nat.ne_of_gt (Nat.zero_lt_of_lt h.lt)
  refine ⟨by simp [push], fun _ => hne, fun x hx => ?_, fun x distance hx => ?_⟩
  · simp only [Names.distance?_cons, List.not_mem_nil, if_false, Option.map_eq_none_iff] at hx
    exact h.globals x hx
  · simp only [Names.distance?_cons, List.not_mem_nil, if_false, Option.map_eq_some_iff] at hx
    obtain ⟨distance, hx, rfl⟩ := hx
    obtain ⟨holder, l, ha, hl, hs, hr⟩ := h.locals x distance hx
    refine ⟨holder, l, ?_, hl, hw.slots _ _ hs, hr⟩
    simpa [World.ancestor?, push] using hw.ancestor? _ _ _ ha

/-- The place after a name was declared, whose variable is not defined yet. -/
theorem Frame.declare {inner : List String} {outer : Names}
    (h : w.Frame (inner :: outer) none scope env) (x : String) :
    (w.grow scope x).Frame (Names.declare (inner :: outer) x) (some x) scope
      ((x, w.slots.length) :: env) := by
  have hw := w.le_grow scope x
  refine ⟨hw.lt_parents h.lt, fun _ => h.ne_globals, fun y hy => ?_, fun y distance hy => ?_⟩
  all_goals rw [Names.distance?_declare] at hy
  · split at hy
    · cases hy
    · rename_i hne
      have hne : (y == x) = false := by simpa using hne
      rw [List.lookup_cons, hne]
      exact h.globals y hy
  · split at hy
    · rename_i heq
      obtain rfl : 0 = distance := by simpa using hy
      subst heq
      refine ⟨scope, w.slots.length, rfl, by simp, by simp [grow], fun ho => absurd rfl ho⟩
    · rename_i hne
      have hne' : (y == x) = false := by simpa using hne
      obtain ⟨holder, l, ha, hl, hs, hr⟩ := h.locals y distance hy
      exact ⟨holder, l, hw.ancestor? _ _ _ ha, by rw [List.lookup_cons, hne']; exact hl,
        hw.slots _ _ hs, fun _ => hr nofun⟩

theorem Frame.define {l : Location} (h : w.Frame names (some x) scope ((x, l) :: env)) :
    (w.define l).Frame names none scope ((x, l) :: env) := by
  have hw := (extends_define none w l).le
  refine ⟨h.lt, h.inside, h.globals, fun y distance hy => ?_⟩
  obtain ⟨holder, l', ha, hl, hs, hr⟩ := h.locals y distance hy
  refine ⟨holder, l', hw.ancestor? _ _ _ ha, hl, hs, fun _ => ?_⟩
  by_cases hyx : y = x
  · subst hyx
    simp only [List.lookup_cons, beq_self_eq_true, Option.some.injEq] at hl
    exact .inl hl.symm
  · exact .inr (hr fun h => hyx (by simpa using h.symm))

/-- The order of the names in a scope does not matter. -/
theorem Frame.congr {inner inner' : List String} {outer : Names}
    (h : w.Frame (inner :: outer) own? scope env) (hn : ∀ x, x ∈ inner' ↔ x ∈ inner) :
    w.Frame (inner' :: outer) own? scope env := by
  have hd (x : String) :
      Names.distance? (inner' :: outer) x = Names.distance? (inner :: outer) x := by
    simp only [Names.distance?_cons, hn]
  exact ⟨h.lt, fun _ => h.ne_globals, fun x hx => h.globals x (hd x ▸ hx),
    fun x distance hx => h.locals x distance (hd x ▸ hx)⟩

theorem Fresh.congr {inner inner' : List String} {outer : Names}
    (h : w.Fresh scope (inner :: outer)) (hn : ∀ x, x ∈ inner' ↔ x ∈ inner) :
    w.Fresh scope (inner' :: outer) := by
  intro x hx
  rw [← h x hx]
  simp only [Names.distance?_cons, hn]

theorem Fresh.declare {inner : List String} {outer : Names} (h : w.Fresh scope (inner :: outer)) :
    (w.grow scope x).Fresh scope (Names.declare (inner :: outer) x) := by
  intro y hy
  rw [Names.distance?_declare]
  rcases List.mem_append.1 hy with hy | hy
  · rw [h y hy, ite_self]
  · have hyx : y = x := by simpa using hy
    rw [if_pos hyx]

theorem Fresh.notMem {inner : List String} {outer : Names} (h : w.Fresh scope (inner :: outer))
    (hx : x ∉ inner) : (scope, x) ∉ w.slots := by
  intro hs
  have := h x hs
  rw [Names.distance?_cons, if_neg hx] at this
  cases hd : Names.distance? outer x <;> simp [hd] at this

end Frame

end World

end Lexical

end Lox
