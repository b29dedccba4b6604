import Lox.Eval
import Lox.Proofs.Eval.Reline

/-!
# States that mirror each other

One run of a program may mirror another one on other lines. A `Mirror` says where each line goes,
which tokens and references the code of the first run keeps to, and how many more steps the second
run may take. A value is mirrored by the same value on its new lines, if its code keeps to those
tokens and references (`Value.Mirrors`); and a state by a state with its values so, in which the
references have the same distances (`State.Mirrors`).
-/

namespace Lox

structure Mirror where
  /-- The line on which a token of a line stands in the second run. -/
  line : Nat → Nat
  /-- The tokens that there are. -/
  tokens : Token → Prop
  /-- The references with the same distance. -/
  known : NodeId → Prop
  /-- How many more steps the second run may take. -/
  extra : Nat

section Within

variable (P : Token → Prop) (N : NodeId → Prop)

/-- A function keeps tokens and references of a kind only. -/
def Callable.Within : Callable → Prop
  | .clock _ => True
  | .closure _ f _ => f.Within P N

def Value.Within : Value → Prop
  | .callable f => f.Within P N
  | _ => True

end Within

/-- The same value on other lines. -/
structure Value.Mirrors (m : Mirror) (v v' : Value) : Prop where
  within : v.Within m.tokens m.known
  eq : v' = v.reline m.line

structure Value.MirrorsAll (m : Mirror) (vs vs' : List Value) : Prop where
  within : ∀ v ∈ vs, v.Within m.tokens m.known
  eq : vs' = vs.map (·.reline m.line)

/-- The same state on other lines, but for the distances of other references. -/
structure State.Mirrors (m : Mirror) (s s' : State) : Prop where
  within : s.scopes.Holds (Value.Within m.tokens m.known)
  scopes : s'.scopes = s.scopes.reline m.line
  current : s'.current = s.current
  distances : ∀ id, m.known id → s'.distances.get? id = s.distances.get? id
  sink : s'.sink = s.sink
  nextFunction : s'.nextFunction = s.nextFunction
  clock : s'.clock = s.clock
  ticks : s'.ticks = s.ticks

/-- The same error, at a token that there is. -/
inductive Stop.Mirrors (m : Mirror) : Stop → Stop → Prop where
  | fault (cause : RuntimeFault) {t : Token} (h : m.tokens t) :
    Mirrors m (.error (.fault cause t)) (.error (.fault cause (t.reline m.line)))
  | sink (cause : SinkFault) : Mirrors m (.error (.sink cause)) (.error (.sink cause))
  | outOfFuel : Mirrors m .outOfFuel .outOfFuel

inductive Flow.Mirrors (m : Mirror) : Flow → Flow → Prop where
  | normal : Mirrors m .normal .normal
  | returned {v v' : Value} (h : v.Mirrors m v') : Mirrors m (.returned v) (.returned v')

variable {m : Mirror}

namespace Value

variable {P : Token → Prop} {N : NodeId → Prop} {v : Value}

theorem within_of_not_isClosure (h : ¬ v.IsClosure) : v.Within P N := by
  cases v with
  | callable f =>
    cases f with
    | clock i => trivial
    | closure i f scope => exact absurd ⟨i, f, scope, rfl⟩ h
  | _ => trivial

theorem Within.imp {P' : Token → Prop} {N' : NodeId → Prop} (h : v.Within P N)
    (hP : ∀ t, P t → P' t) (hN : ∀ i, N i → N' i) : v.Within P' N' := by
  cases v with
  | callable f =>
    cases f with
    | clock i => trivial
    | closure i f scope =>
      obtain ⟨ht, hi⟩ := Function.within_iff.1 h
      exact Function.within_iff.2 ⟨fun t h => hP t (ht t h), fun i h => hN i (hi i h)⟩
  | _ => trivial

theorem Mirrors.plain (h : ¬ v.IsClosure) : v.Mirrors m v :=
  ⟨within_of_not_isClosure h, (reline_of_not_isClosure h).symm⟩

theorem Mirrors.nil : Value.nil.Mirrors m .nil :=
  ⟨trivial, rfl⟩

theorem Mirrors.ofLiteral (l : Literal) : (ofLiteral l).Mirrors m (.ofLiteral l) :=
  .plain (by rintro ⟨i, f, scope, h⟩; cases l <;> cases h)

end Value

namespace State.Mirrors

variable {s s' : State} (h : s.Mirrors m s')

include h

theorem holder? {id : NodeId} (hid : m.known id) (x : String) :
    s'.holder? id x = s.holder? id x := by
  unfold State.holder?
  rw [h.distances id hid, h.current, h.scopes]
  split
  · exact Scopes.holderAt?_reline _ _ x _
  · exact Scopes.holder?_reline _ _ x

theorem valueOf? {id : NodeId} (hid : m.known id) (x : String) :
    s'.valueOf? id x = (s.valueOf? id x).map (·.reline m.line) := by
  unfold State.valueOf?
  rw [h.holder? hid, h.scopes]
  cases s.holder? id x with
  | none => rfl
  | some holder =>
    simp only [Option.bind_some, Scopes.bindings_reline, Bindings.get?_reline]

/-- But for its distances the second state is the first one on other lines. -/
theorem eq_reline : s' = { s.reline m.line with distances := s'.distances } := by
  obtain ⟨-, hscopes, hcurrent, -, hsink, hnext, hclock, hticks⟩ := h
  cases s'
  cases hscopes
  cases hcurrent
  cases hsink
  cases hnext
  cases hclock
  cases hticks
  rfl

end State.Mirrors

end Lox
