import Lox.Eval

/-!
# Evaluations and the sink

Of what the evaluator is made of only printing looks at the sink. Everything else goes the same way
on every sink and leaves it as it is (`Eval.Blind`).
-/

namespace Lox

def State.onto (s : State) (sink : Sink) : State :=
  { s with sink }

/-- The end of an evaluation, with another sink. -/
def Eval.endOnto {α : Type} (sink : Sink) :
    EStateM.Result Stop State α → EStateM.Result Stop State α
  | .ok a s => .ok a (s.onto sink)
  | .error stop s => .error stop (s.onto sink)

/-- An evaluation that goes the same way on every sink and leaves it as it is. -/
def Eval.Blind {α : Type} (x : Eval α) : Prop :=
  ∀ s sink, x (s.onto sink) = Eval.endOnto sink (x s)

namespace Eval.Blind

variable {α β : Type} {x : Eval α} {f : α → Eval β}

theorem bind (hx : Blind x) (hf : ∀ a, Blind (f a)) : Blind (x >>= f) := by
  intro s sink
  simp only [Bind.bind, EStateM.bind, hx s sink]
  cases x s with
  | ok a s' => exact hf a s' sink
  | error stop s' => rfl

theorem pure (a : α) : Blind (Pure.pure a : Eval α) :=
  fun _ _ => rfl

theorem outOfFuel : Blind (Eval.outOfFuel : Eval α) :=
  fun _ _ => rfl

theorem fault (cause : RuntimeFault) (token : Token) : Blind (fault cause token : Eval α) :=
  fun _ _ => rfl

theorem tick : Blind tick :=
  fun _ _ => rfl

theorem readClock : Blind readClock :=
  fun _ _ => rfl

theorem here : Blind here :=
  fun _ _ => rfl

theorem define (name : Token) (v : Value) : Blind (define name v) :=
  fun _ _ => rfl

theorem newScope (parent? : Option ScopeId) (bindings : List (String × Value)) :
    Blind (newScope parent? bindings) :=
  fun _ _ => rfl

theorem newClosure (function : Function) (scope : ScopeId) : Blind (newClosure function scope) :=
  fun _ _ => rfl

theorem operate (op : Token) (result : Except RuntimeFault Value) : Blind (operate op result) := by
  cases result with
  | ok v => exact pure v
  | error cause => exact fault cause op

theorem read (id : NodeId) (name : Token) : Blind (read id name) := by
  intro s sink
  have hvalue : (s.onto sink).valueOf? id name.lexeme = s.valueOf? id name.lexeme := rfl
  simp only [Eval.read, hvalue]
  cases s.valueOf? id name.lexeme <;> rfl

theorem assign (id : NodeId) (name : Token) (v : Value) : Blind (assign id name v) := by
  intro s sink
  have hholder : (s.onto sink).holder? id name.lexeme = s.holder? id name.lexeme := rfl
  simp only [Eval.assign, hholder]
  cases s.holder? id name.lexeme <;> rfl

end Eval.Blind

end Lox
