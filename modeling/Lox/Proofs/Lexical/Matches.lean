import Lox.Proofs.Eval.Alike
import Lox.Proofs.Lexical.World
import Mathlib.Data.List.Forall2

/-!
# States that agree

`Agrees known w v v'` relates a value of lexical scoping to one of the evaluator with scopes: a
function was declared at a place that `World.Frame` describes, and its body is resolved there.
`Matches known w s r` relates whole states.
-/

namespace Lox

def Function.unnumbered (f : Function) : Function :=
  { f with body := Stmt.unnumberedAll f.body }

namespace Lexical

variable {known known' : Known} {w w' : World}

/-- A value of one evaluator and the same value of the other. -/
inductive Agrees (known : Known) (w : World) : Value → Lox.Value → Prop where
  | plain {v : Lox.Value} (h : ¬ v.IsClosure) : Agrees known w (.plain v) v
  | closure {i : Nat} {f : Function} {names : Names} {scope : ScopeId} {env : Env}
      (hf : w.Frame names none scope env) (hp : (f.params.map (·.lexeme)).Nodup)
      (hb : Stmt.ResolvedAll known (f.params.map (·.lexeme) :: names) f.body) :
      Agrees known w (.closure i f.unnumbered env) (.callable (.closure i f scope))

theorem Agrees.nil : Agrees known w (.plain .nil) .nil :=
  .plain (by rintro ⟨i, f, scope, h⟩; cases h)

theorem Agrees.mono {v : Value} {v' : Lox.Value} (h : Agrees known w v v') (hw : w.Le w')
    (hk : known.Kept known') : Agrees known' w' v v' := by
  cases h with
  | plain h => exact .plain h
  | closure hf hp hb => exact .closure (hf.mono hw) hp (Stmt.ResolvedAll.mono hk _ hb)

theorem Agrees.alike {v : Value} {v' : Lox.Value} (h : Agrees known w v v') :
    Lox.Value.Alike v.shown v' := by
  cases h with
  | plain _ => exact .refl _
  | @closure i f =>
    have hname : f.unnumbered.name.lexeme = f.name.lexeme := rfl
    exact .closure i hname _ _

def AgreesAll (known : Known) (w : World) : List Value → List Lox.Value → Prop :=
  List.Forall₂ (Agrees known w)

theorem AgreesAll.mono {vs : List Value} {vs' : List Lox.Value} (h : AgreesAll known w vs vs')
    (hw : w.Le w') : AgreesAll known w' vs vs' :=
  List.Forall₂.imp (fun _ _ h => h.mono hw fun _ _ hk => hk) h

/-- As many arguments were given as a function has parameters. -/
theorem AgreesAll.length_params {vs : List Value} {vs' : List Lox.Value} {f : Function}
    (h : AgreesAll known w vs vs') (hlen : f.params.length = vs'.length) :
    (f.params.map (·.lexeme)).length = vs.length := by
  rw [List.length_map, hlen, List.Forall₂.length_eq h]

/-- Both values are there and agree, or neither is. -/
def AgreesOption (known : Known) (w : World) : Option Value → Option Lox.Value → Prop :=
  Option.Rel (Agrees known w)

theorem AgreesOption.both {v : Value} {v' : Lox.Value} (h : Agrees known w v v') :
    AgreesOption known w (some v) (some v') :=
  Option.Rel.some h

theorem AgreesOption.neither : AgreesOption known w none none :=
  Option.Rel.none

theorem AgreesOption.none_or_some {v? : Option Value} {v'? : Option Lox.Value}
    (h : AgreesOption known w v? v'?) : (v? = none ∧ v'? = none) ∨
      ∃ v v', v? = some v ∧ v'? = some v' ∧ Agrees known w v v' := by
  cases h with
  | none => exact .inl ⟨rfl, rfl⟩
  | some h => exact .inr ⟨_, _, rfl, rfl, h⟩

theorem AgreesOption.mono {v : Option Value} {v' : Option Lox.Value}
    (h : AgreesOption known w v v') (hw : w.Le w') (hk : known.Kept known') :
    AgreesOption known' w' v v' := by
  cases h with
  | some h => exact .both (h.mono hw hk)
  | none => exact .neither

/-- Every location holds the value of its variable, and the global names have the same values. -/
structure Matches (known : Known) (w : World) (s : Lox.State) (r : State) : Prop where
  size : s.scopes.size = w.parents.length
  root : w.parents[Lox.State.globals]? = some none
  parents : ∀ i, s.scopes.parent? i = w.parents[i]?.join
  nodup : w.slots.Nodup
  nextLocation : r.nextLocation = w.slots.length
  slot : ∀ (l : Nat) (scope : ScopeId) (x : String), w.slots[l]? = some (scope, x) →
    scope ≠ Lox.State.globals ∧ scope < w.parents.length ∧
      AgreesOption known w (r.store l) ((s.scopes.bindings scope).get? x)
  covered : ∀ scope x, scope ≠ Lox.State.globals → (s.scopes.bindings scope).get? x ≠ none →
    (scope, x) ∈ w.slots
  ready : ∀ l, w.ready l → r.store l ≠ none
  unset : ∀ l, w.slots.length ≤ l → r.store l = none
  globals : ∀ x, AgreesOption known w (r.globals.lookup x)
    ((s.scopes.bindings Lox.State.globals).get? x)
  distances : ∀ id distance?, known id distance? → s.distances.get? id = distance?
  recorded : ∀ e ∈ s.distances.entries, ∃ distance?, known e.1 distance?
  sink : r.sink = s.sink
  nextFunction : r.nextFunction = s.nextFunction
  clock : r.clock = s.clock
  ticks : r.ticks = s.ticks

namespace Matches

variable {s : Lox.State} {r : State}

theorem pos (h : Matches known w s r) : 0 < w.parents.length :=
  (List.getElem?_eq_some_iff.1 h.root).1

/-- The global scope lies in no other. -/
theorem parent?_globals (h : Matches known w s r) :
    s.scopes.parent? Lox.State.globals = none := by
  rw [h.parents, h.root]
  rfl

theorem ancestor? (h : Matches known w s r) :
    ∀ distance scope, s.scopes.ancestor? scope distance = w.ancestor? scope distance
  | 0, _ => rfl
  | distance + 1, scope => by
    unfold Scopes.ancestor? World.ancestor?
    rw [h.parents]
    exact congrArg _ (funext fun parent => ancestor? h distance parent)

/-- The variable of a name that is declared around a place. -/
theorem local_slot {names : Names} {own? : Option String} {scope : ScopeId} {env : Env}
    {x : String} {distance : Nat} (h : Matches known w s r) (hf : w.Frame names own? scope env)
    (hx : names.distance? x = some distance) : ∃ holder l,
      s.scopes.ancestor? scope distance = some holder ∧ env.lookup x = some l ∧
      w.slots[l]? = some (holder, x) ∧
      AgreesOption known w (r.store l) ((s.scopes.bindings holder).get? x) ∧
      (own? ≠ some x → s.scopes.binds holder x = true) := by
  obtain ⟨holder, l, ha, hl, hs, hr⟩ := hf.locals x distance hx
  have hslot := (h.slot l holder x hs).2.2
  refine ⟨holder, l, (h.ancestor? distance scope).trans ha, hl, hs, hslot, fun ho => ?_⟩
  have hset := h.ready l (hr ho)
  rw [Scopes.binds_iff]
  intro hnone
  rw [hnone] at hslot
  cases hrl : r.store l with
  | none => exact hset hrl
  | some v => rw [hrl] at hslot; cases hslot

theorem slot_ne {l l' : Nat} {scope scope' : ScopeId} {x x' : String} (h : Matches known w s r)
    (hl : w.slots[l]? = some (scope, x)) (hl' : w.slots[l']? = some (scope', x'))
    (hne : l' ≠ l) : ¬ (scope' = scope ∧ x' = x) := by
  rintro ⟨rfl, rfl⟩
  have hlt := (List.getElem?_eq_some_iff.1 hl').1
  exact hne ((List.getElem?_inj hlt h.nodup).1 (hl'.trans hl.symm))

/-- A variable and its location are given values that agree, and the variable may be defined by
it. -/
theorem fill {l : Nat} {scope : ScopeId} {x : String} {v : Value} {v' : Lox.Value}
    {ready : Location → Prop} (h : Matches known w s r) (hl : w.slots[l]? = some (scope, x))
    (hle : ∀ l', w.ready l' → ready l') (hr : ∀ l', ready l' → l' = l ∨ w.ready l')
    (hv : Agrees known { w with ready } v v') :
    Matches known { w with ready } { s with scopes := s.scopes.define scope x v' }
      (r.fill l v) := by
  have hw : w.Le { w with ready } := ⟨fun _ _ h => h, fun _ _ h => h, hle⟩
  have hk : known.Kept known := fun _ _ h => h
  obtain ⟨hglobal, hlt, -⟩ := h.slot l scope x hl
  have hsize : scope < s.scopes.size := h.size ▸ hlt
  refine { h with
    size := by simpa using h.size
    parents := by simpa using h.parents
    slot := fun l' scope' x' hl' => ?_
    covered := fun scope' x' hg hset => ?_
    ready := fun l' hl' => ?_
    unset := fun l' hle => ?_
    globals := fun x' => ?_ }
  · obtain ⟨hg, hlt, hv'⟩ := h.slot l' scope' x' hl'
    refine ⟨hg, hlt, ?_⟩
    rw [Scopes.get?_define hsize]
    by_cases hll : l' = l
    · subst hll
      obtain ⟨rfl, rfl⟩ : scope = scope' ∧ x = x' := by simpa [hl] using hl'
      simpa [State.fill] using AgreesOption.both hv
    · rw [if_neg (h.slot_ne hl hl' hll)]
      simpa [State.fill, hll] using hv'.mono hw hk
  · rw [Scopes.get?_define hsize] at hset
    split at hset
    · rename_i heq
      rw [heq.1, heq.2]
      exact List.mem_of_getElem? hl
    · exact h.covered scope' x' hg hset
  · by_cases hll : l' = l
    · simp [State.fill, hll]
    · simpa [State.fill, hll] using h.ready l' ((hr l' hl').resolve_left hll)
  · have hlt := (List.getElem?_eq_some_iff.1 hl).1
    have hll : l' ≠ l := by
      rintro rfl
      exact Nat.not_lt_of_le hle hlt
    simpa [State.fill, hll] using h.unset l' hle
  · rw [Scopes.get?_define hsize, if_neg fun heq => hglobal heq.1.symm]
    exact (h.globals x').mono hw hk

theorem defineGlobal {x : String} {v : Value} {v' : Lox.Value} (h : Matches known w s r)
    (hv : Agrees known w v v') :
    Matches known w { s with scopes := s.scopes.define Lox.State.globals x v' }
      (r.defineGlobal x v) := by
  have hsize : Lox.State.globals < s.scopes.size := h.size ▸ h.pos
  refine { h with
    size := by simpa using h.size
    parents := by simpa using h.parents
    slot := fun l scope y hl => ?_
    covered := fun scope y hg hset => ?_
    globals := fun y => ?_ }
  · obtain ⟨hg, hlt, hv⟩ := h.slot l scope y hl
    refine ⟨hg, hlt, ?_⟩
    rwa [Scopes.bindings_define_ne hg]
  · rw [Scopes.bindings_define_ne hg] at hset
    exact h.covered scope y hg hset
  · rw [Scopes.get?_define hsize]
    by_cases hy : y = x
    · subst hy
      simpa [State.defineGlobal] using AgreesOption.both hv
    · have hyx : (y == x) = false := by simpa using hy
      simpa [State.defineGlobal, hy, List.lookup_cons, hyx] using h.globals y

theorem grow {scope : ScopeId} {x : String} (h : Matches known w s r)
    (hg : scope ≠ Lox.State.globals) (hlt : scope < w.parents.length)
    (hnew : (scope, x) ∉ w.slots) :
    Matches known (w.grow scope x) s { r with nextLocation := r.nextLocation + 1 } := by
  have hw := w.le_grow scope x
  have hk : known.Kept known := fun _ _ h => h
  refine { h with
    nodup := ?_
    nextLocation := by simp [World.grow, h.nextLocation]
    slot := fun l scope' y hl => ?_
    covered := fun scope' y hg' hset => List.mem_append_left _ (h.covered scope' y hg' hset)
    unset := fun l hle => h.unset l ?_
    globals := fun y => (h.globals y).mono hw hk }
  · refine List.nodup_append.2 ⟨h.nodup, by simp, ?_⟩
    rintro slot hs _ hn rfl
    rw [List.mem_singleton.1 hn] at hs
    exact hnew hs
  · have hold : (s.scopes.bindings scope).get? x = none := by
      cases hset : (s.scopes.bindings scope).get? x with
      | none => rfl
      | some v => exact absurd (h.covered scope x hg (by simp [hset])) hnew
    by_cases hl' : l < w.slots.length
    · rw [World.grow, List.getElem?_append_left hl'] at hl
      obtain ⟨hg', hlt', hv⟩ := h.slot l scope' y hl
      exact ⟨hg', hlt', hv.mono hw hk⟩
    · obtain rfl : l = w.slots.length := by
        have := (List.getElem?_eq_some_iff.1 hl).1
        simp only [World.grow, List.length_append, List.length_singleton] at this
        omega
      obtain ⟨rfl, rfl⟩ : scope = scope' ∧ x = y := by simpa [World.grow] using hl
      refine ⟨hg, hlt, ?_⟩
      rw [hold, h.unset _ (Nat.le_refl _)]
      exact .neither
  · simp only [World.grow, List.length_append, List.length_singleton] at hle
    exact Nat.le_of_succ_le hle

theorem push (h : Matches known w s r) (parent? : Option ScopeId) :
    Matches known (w.push parent?) { s with scopes := (s.scopes.add parent?).2 } r := by
  have hw := (World.extends_push none w parent?).le
  have hk : known.Kept known := fun _ _ h => h
  refine { h with
    size := by simp [World.push, h.size]
    root := (List.getElem?_append_left h.pos).trans h.root
    parents := fun i => ?_
    slot := fun l scope x hl => ?_
    covered := fun scope x hg hset =>
      h.covered scope x hg (by simpa [Scopes.bindings_add] using hset)
    globals := fun x => by simpa [Scopes.bindings_add] using (h.globals x).mono hw hk }
  · by_cases hi : i = s.scopes.size
    · subst hi
      rw [Scopes.parent?_add_self, h.size]
      simp [World.push]
    · rw [Scopes.parent?_add_ne hi, h.parents]
      by_cases hlt : i < w.parents.length
      · rw [World.push, List.getElem?_append_left hlt]
      · have hne : i ≠ w.parents.length := h.size ▸ hi
        have hgt : w.parents.length < i := Nat.lt_of_le_of_ne (Nat.le_of_not_lt hlt) hne.symm
        have hold : w.parents[i]? = none := List.getElem?_eq_none (Nat.le_of_lt hgt)
        have hnew : (w.push parent?).parents[i]? = none :=
          List.getElem?_eq_none (by simpa [World.push] using Nat.succ_le_of_lt hgt)
        rw [hold, hnew]
  · obtain ⟨hg, hlt, hv⟩ := h.slot l scope x hl
    exact ⟨hg, hw.lt_parents hlt, by simpa [Scopes.bindings_add] using hv.mono hw hk⟩

theorem record (h : Matches known w s r) (distances : Distances) (hk : known.Kept known')
    (hd : ∀ id distance?, known' id distance? → distances.get? id = distance?)
    (hr : ∀ e ∈ distances.entries, ∃ distance?, known' e.1 distance?) :
    Matches known' w { s with distances } r := by
  refine { h with
    slot := fun l scope x hl => ?_
    globals := fun x => (h.globals x).mono (.refl w) hk
    distances := hd
    recorded := hr }
  obtain ⟨hg, hlt, hv⟩ := h.slot l scope x hl
  exact ⟨hg, hlt, hv.mono (.refl w) hk⟩

end Matches

end Lexical

end Lox
