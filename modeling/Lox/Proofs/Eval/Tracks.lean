import Lox.Proofs.Eval.Mirror
import Lox.Proofs.Lexical.Session

/-!
# Evaluations that mirror each other

`Tracks m x y post` says of two evaluations that from states that mirror each other `y` ends as `x`
does, in such states again; if `x` ran out of steps and `y` may take more, nothing is said. So it
does with the same code on other lines and as many more steps (`evaluatorTracks`), by induction on
the bound of steps. With no more steps the second run is the first one on other lines, however that
ends; and a run that ends does so in the same way with a larger bound.
-/

namespace Lox

variable {m : Mirror} {α α' β β' : Type} {n : Nat}

/-- How one evaluation ends if another one ended as it did. -/
inductive Tracked (m : Mirror) (post : α → β → Prop) :
    EStateM.Result Stop State α → EStateM.Result Stop State β → Prop where
  | ok {s s' : State} {a : α} {b : β} (hs : s.Mirrors m s') (h : post a b) :
    Tracked m post (.ok a s) (.ok b s')
  | error {s s' : State} {e e' : Stop} (hs : s.Mirrors m s') (h : e.Mirrors m e') :
    Tracked m post (.error e s) (.error e' s')
  | spent {s : State} {ys : EStateM.Result Stop State β} (h : m.extra ≠ 0) :
    Tracked m post (.error .outOfFuel s) ys

/-- Where no more steps are allowed, both evaluations leave states that mirror each other. -/
theorem Tracked.stateOf {post : α → β → Prop} {xs : EStateM.Result Stop State α}
    {ys : EStateM.Result Stop State β} (h : Tracked m post xs ys) (hextra : m.extra = 0) :
    (stateOf xs).Mirrors m (stateOf ys) := by
  cases h with
  | ok hs _ => exact hs
  | error hs _ => exact hs
  | spent h => exact absurd hextra h

/-- From states that mirror each other the second evaluation ends as the first one. -/
def Tracks (m : Mirror) (x : Eval α) (y : Eval β) (post : α → β → Prop) : Prop :=
  ∀ s s', s.Mirrors m s' → Tracked m post (x s) (y s')

namespace Tracks

open Eval

variable {x : Eval α} {y : Eval β} {post : α → β → Prop} {φ : Nat → Nat}

theorem pure {a : α} {b : β} (h : post a b) : Tracks m (pure a) (pure b) post :=
  fun _ _ hs => .ok hs h

theorem fault (cause : RuntimeFault) {t : Token} (ht : m.tokens t) :
    Tracks m (Eval.fault cause t) (Eval.fault cause (t.reline m.line)) post :=
  fun _ _ hs => .error hs (.fault cause ht)

/-- Where no step is left, the second evaluation has none left or may take more. -/
theorem outOfFuel (h : m.extra = 0 → y = Eval.outOfFuel) :
    Tracks m (Eval.outOfFuel : Eval α) y post := by
  by_cases hextra : m.extra = 0
  · rw [h hextra]
    exact fun _ _ hs => .error hs .outOfFuel
  · exact fun _ _ _ => .spent hextra

theorem bind {f : α → Eval α'} {g : β → Eval β'} {post' : α' → β' → Prop}
    (hx : Tracks m x y post) (hf : ∀ a b, post a b → Tracks m (f a) (g b) post') :
    Tracks m (x >>= f) (y >>= g) post' := by
  intro s s' hs
  have h := hx s s' hs
  simp only [Bind.bind, EStateM.bind]
  generalize x s = xs at h ⊢
  generalize y s' = ys at h ⊢
  cases h with
  | ok hs hpost => exact hf _ _ hpost _ _ hs
  | error hs he => exact .error hs he
  | spent h => exact .spent h

theorem tick : Tracks m tick tick fun _ _ => True :=
  fun _ _ hs =>
    .ok { hs with ticks := congrArg (· + 1) hs.ticks } trivial

theorem readClock : Tracks m readClock readClock (Value.Mirrors m) := by
  intro s s' hs
  unfold Eval.readClock
  rw [hs.clock, hs.ticks]
  exact .ok hs ⟨trivial, rfl⟩

theorem here : Tracks m here here fun a b => b = a :=
  fun _ _ hs => .ok hs hs.current

theorem printLine (text : String) : Tracks m (printLine text) (printLine text) fun _ _ => True := by
  intro s s' hs
  unfold Eval.printLine
  rw [hs.sink]
  rcases s.sink.write (text.push '\n').toUTF8 with ⟨_ | _, sink⟩
  · exact .error { hs with sink := rfl } (.sink .full)
  · exact .ok { hs with sink := rfl } trivial

theorem operate {t : Token} (ht : m.tokens t) (result : Except RuntimeFault Value)
    (h : ∀ v, result = .ok v → ¬ v.IsClosure) :
    Tracks m (operate t result) (operate (t.reline m.line) result) (Value.Mirrors m) := by
  cases result with
  | ok v => exact .pure (.plain (h v rfl))
  | error cause => exact .fault cause ht

theorem read {id : NodeId} {t : Token} (hid : m.known id) (ht : m.tokens t) :
    Tracks m (read id t) (read id (t.reline m.line)) (Value.Mirrors m) := by
  intro s s' hs
  have hvalue : s'.valueOf? id (t.reline m.line).lexeme = _ := hs.valueOf? hid t.lexeme
  unfold Eval.read
  rw [hvalue]
  cases hv : s.valueOf? id t.lexeme with
  | none => exact Tracks.fault _ ht s s' hs
  | some v =>
    obtain ⟨holder, -, hget⟩ := Option.bind_eq_some_iff.1 hv
    exact .ok hs ⟨hs.within holder t.lexeme v hget, rfl⟩

/-- States in which a name was bound to a value. -/
theorem mirrors_define {s s' : State} (hs : s.Mirrors m s') {v v' : Value} (hv : v.Mirrors m v')
    (i : ScopeId) (x : String) :
    State.Mirrors m { s with scopes := s.scopes.define i x v }
      { s' with scopes := s'.scopes.define i x v' } :=
  { hs with
    within := hs.within.define hv.within i x
    scopes := by rw [hs.scopes, hv.eq, Scopes.define_reline] }

theorem assign {id : NodeId} {t : Token} {v v' : Value} (hid : m.known id) (ht : m.tokens t)
    (hv : v.Mirrors m v') :
    Tracks m (assign id t v) (assign id (t.reline m.line) v') fun _ _ => True := by
  intro s s' hs
  have hholder : s'.holder? id (t.reline m.line).lexeme = _ := hs.holder? hid t.lexeme
  unfold Eval.assign
  rw [hholder]
  cases s.holder? id t.lexeme with
  | some holder => exact .ok (mirrors_define hs hv holder t.lexeme) trivial
  | none => exact Tracks.fault _ ht s s' hs

theorem define (t : Token) {v v' : Value} (hv : v.Mirrors m v') :
    Tracks m (define t v) (define (t.reline m.line) v') fun _ _ => True := by
  intro s s' hs
  have h := mirrors_define hs hv s.current t.lexeme
  exact .ok { h with scopes := by rw [← h.scopes, ← hs.current]; rfl } trivial

theorem newScope (parent? : Option ScopeId) {vs vs' : List Value} (hvs : Value.MirrorsAll m vs vs')
    (names : List String) :
    Tracks m (newScope parent? (names.zip vs)) (newScope parent? (names.zip vs'))
      fun a b => b = a := by
  intro s s' hs
  have hsize : s'.scopes.size = s.scopes.size := by rw [hs.scopes, Scopes.size_reline]
  have hscopes : (names.zip vs').foldl (fun scopes b => scopes.define s'.scopes.size b.1 b.2)
      (s'.scopes.add parent?).2 =
      Scopes.reline m.line ((names.zip vs).foldl
        (fun scopes b => scopes.define s.scopes.size b.1 b.2) (s.scopes.add parent?).2) := by
    rw [hsize, hvs.eq, hs.scopes, Scopes.add_reline, Scopes.defineAll_reline]
  have hwithin := (hs.within.add parent?).defineAll s.scopes.size (names.zip vs) fun b hb =>
    hvs.within b.2 (List.of_mem_zip hb).2
  exact .ok { hs with within := hwithin, scopes := hscopes } hsize

theorem newClosure {f : Function} (hf : f.Within m.tokens m.known) (scope : ScopeId) :
    Tracks m (newClosure f scope) (newClosure (f.reline m.line) scope) (Value.Mirrors m) := by
  intro s s' hs
  have hvalue : Value.Mirrors m (.callable (.closure s.nextFunction f scope))
      (.callable (.closure s'.nextFunction (f.reline m.line) scope)) := by
    rw [hs.nextFunction]
    exact ⟨hf, rfl⟩
  exact .ok { hs with nextFunction := congrArg (· + 1) hs.nextFunction } hvalue

theorem within (hx : Tracks m x y post) (scope : ScopeId) :
    Tracks m (within scope x) (within scope y) post := by
  intro s s' hs
  have h := hx { s with current := scope } { s' with current := scope } { hs with current := rfl }
  unfold Eval.within
  generalize x { s with current := scope } = xs at h ⊢
  generalize y { s' with current := scope } = ys at h ⊢
  cases h with
  | ok hs' hpost => exact .ok { hs' with current := hs.current } hpost
  | error hs' he => exact .error { hs' with current := hs.current } he
  | spent h => exact .spent h

end Tracks

/-- With `n` steps and with so many more the parts of the evaluator track each other. -/
structure EvaluatorTracks (m : Mirror) (n : Nat) : Prop where
  evaluate (e : Expr) (he : e.Within m.tokens m.known) :
    Tracks m (evaluate n e) (evaluate (n + m.extra) (e.reline m.line)) (Value.Mirrors m)
  evaluateAll (es : List Expr) (hes : Expr.WithinAll m.tokens m.known es) :
    Tracks m (evaluateAll n es) (evaluateAll (n + m.extra) (Expr.relineAll m.line es))
      (Value.MirrorsAll m)
  call (f : Callable) {vs vs' : List Value} (hf : f.Within m.tokens m.known)
    (hvs : Value.MirrorsAll m vs vs') :
    Tracks m (call n f vs) (call (n + m.extra) (f.reline m.line) vs') (Value.Mirrors m)
  execute (s : Stmt) (hs : s.Within m.tokens m.known) :
    Tracks m (execute n s) (execute (n + m.extra) (s.reline m.line)) (Flow.Mirrors m)
  evaluateOption (e? : Option Expr) (he : Expr.WithinOption m.tokens m.known e?) :
    Tracks m (evaluateOption n e?) (evaluateOption (n + m.extra) (e?.map (·.reline m.line)))
      (Value.Mirrors m)
  repeatWhile (e : Expr) (s : Stmt) (he : e.Within m.tokens m.known)
    (hs : s.Within m.tokens m.known) :
    Tracks m (repeatWhile n e s)
      (repeatWhile (n + m.extra) (e.reline m.line) (s.reline m.line)) (Flow.Mirrors m)
  executeAll (ss : List Stmt) (hss : Stmt.WithinAll m.tokens m.known ss) :
    Tracks m (executeAll n ss) (executeAll (n + m.extra) (Stmt.relineAll m.line ss))
      (Flow.Mirrors m)

theorem evaluatorTracks_zero : EvaluatorTracks m 0 where
  evaluate _ _ := .outOfFuel fun h => by rw [h]; rfl
  evaluateAll _ _ := .outOfFuel fun h => by rw [h]; rfl
  call _ _ _ _ _ := .outOfFuel fun h => by rw [h]; rfl
  execute _ _ := .outOfFuel fun h => by rw [h]; rfl
  evaluateOption _ _ := .outOfFuel fun h => by rw [h]; rfl
  repeatWhile _ _ _ _ := .outOfFuel fun h => by rw [h]; rfl
  executeAll _ _ := .outOfFuel fun h => by rw [h]; rfl

namespace EvaluatorTracks

variable (h : EvaluatorTracks m n)

include h

theorem evaluate_succ (e : Expr) (he : e.Within m.tokens m.known) :
    Tracks m (Lox.evaluate (n + 1) e) (Lox.evaluate (n + m.extra + 1) (e.reline m.line))
      (Value.Mirrors m) := by
  cases e with
  | literal value => exact .pure (.ofLiteral value)
  | grouping inner => exact h.evaluate inner he
  | unary operator operand =>
    refine (h.evaluate operand he.2).bind fun v v' hv => ?_
    have hunary : v'.unary (operator.reline m.line) = v.unary operator :=
      hv.eq ▸ (v.alike_reline.unary operator).symm
    rw [hunary]
    exact .operate he.1 _ fun _ => Value.not_isClosure_of_unary
  | binary left operator right =>
    refine (h.evaluate left he.1).bind fun v v' hv => ?_
    refine (h.evaluate right he.2.2).bind fun w w' hw => ?_
    have hbinary : v'.binary (operator.reline m.line) w' = v.binary operator w :=
      hv.eq ▸ hw.eq ▸ (v.alike_reline.binary w.alike_reline operator).symm
    rw [hbinary]
    exact .operate he.2.1 _ fun _ => Value.not_isClosure_of_binary
  | logical left operator right =>
    refine (h.evaluate left he.1).bind fun v v' hv => ?_
    have hdecides : v'.decides (operator.reline m.line) = v.decides operator :=
      hv.eq ▸ (v.alike_reline.decides operator).symm
    rw [hdecides]
    split
    · exact .pure hv
    · exact h.evaluate right he.2.2
  | read id name => exact .read he.1 he.2
  | assign id name value =>
    exact (h.evaluate value he.2).bind fun v v' hv =>
      (Tracks.assign he.1.1 he.1.2 hv).bind fun _ _ _ => .pure hv
  | call callee paren arguments =>
    refine (h.evaluate callee he.1).bind ?_
    rintro v _ ⟨hv, rfl⟩
    refine (h.evaluateAll arguments he.2.2).bind fun vs vs' hvs => ?_
    cases v with
    | callable f =>
      have hlength : vs'.length = vs.length := hvs.eq ▸ List.length_map _
      simp only [Value.reline, f.arity_reline, hlength]
      split
      · exact h.call f hv hvs
      · exact .fault _ he.2.1
    | _ => exact .fault _ he.2.1

theorem evaluateAll_succ (es : List Expr) (hes : Expr.WithinAll m.tokens m.known es) :
    Tracks m (Lox.evaluateAll (n + 1) es)
      (Lox.evaluateAll (n + m.extra + 1) (Expr.relineAll m.line es)) (Value.MirrorsAll m) := by
  cases es with
  | nil => exact .pure ⟨List.forall_mem_nil _, rfl⟩
  | cons e es =>
    exact (h.evaluate e hes.1).bind fun v v' hv =>
      (h.evaluateAll es hes.2).bind fun vs vs' hvs =>
        .pure ⟨List.forall_mem_cons.2 ⟨hv.within, hvs.within⟩, by rw [hv.eq, hvs.eq]; rfl⟩

theorem call_succ (f : Callable) {vs vs' : List Value} (hf : f.Within m.tokens m.known)
    (hvs : Value.MirrorsAll m vs vs') :
    Tracks m (Lox.call (n + 1) f vs) (Lox.call (n + m.extra + 1) (f.reline m.line) vs')
      (Value.Mirrors m) := by
  cases f with
  | clock i => exact Tracks.tick.bind fun _ _ _ => .readClock
  | closure i f scope =>
    refine Tracks.tick.bind fun _ _ _ => ?_
    rw [f.lexemes_reline]
    refine (Tracks.newScope scope hvs _).bind ?_
    rintro _ inner rfl
    refine ((h.executeAll f.body hf.2).within inner).bind fun flow flow' hflow => ?_
    cases hflow with
    | normal => exact .pure .nil
    | returned hv => exact .pure hv

theorem evaluateOption_succ (e? : Option Expr) (he : Expr.WithinOption m.tokens m.known e?) :
    Tracks m (Lox.evaluateOption (n + 1) e?)
      (Lox.evaluateOption (n + m.extra + 1) (e?.map (·.reline m.line))) (Value.Mirrors m) := by
  cases e? with
  | none => exact .pure .nil
  | some e => exact h.evaluate e he

theorem execute_succ (s : Stmt) (hs : s.Within m.tokens m.known) :
    Tracks m (Lox.execute (n + 1) s) (Lox.execute (n + m.extra + 1) (s.reline m.line))
      (Flow.Mirrors m) := by
  cases s with
  | expression value => exact (h.evaluate value hs).bind fun _ _ _ => .pure .normal
  | print value =>
    refine (h.evaluate value hs).bind ?_
    rintro v _ ⟨-, rfl⟩
    rw [← v.alike_reline.text]
    exact (Tracks.printLine v.text).bind fun _ _ _ => .pure .normal
  | var name initial =>
    exact (h.evaluateOption initial hs.2).bind fun v v' hv =>
      (Tracks.define name hv).bind fun _ _ _ => .pure .normal
  | block body =>
    refine Tracks.here.bind ?_
    rintro _ scope rfl
    refine (Tracks.newScope scope ⟨List.forall_mem_nil _, rfl⟩ []).bind ?_
    rintro _ inner rfl
    exact (h.executeAll body hs).within inner
  | branch condition onTrue onFalse =>
    cases onFalse with
    | none =>
      refine (h.evaluate condition hs.1).bind ?_
      rintro v _ ⟨-, rfl⟩
      rw [← v.alike_reline.isTruthy]
      split
      · exact h.execute onTrue hs.2
      · exact .pure .normal
    | some onFalse =>
      refine (h.evaluate condition hs.1).bind ?_
      rintro v _ ⟨-, rfl⟩
      rw [← v.alike_reline.isTruthy]
      split
      · exact h.execute onTrue hs.2.1
      · exact h.execute onFalse hs.2.2
  | loop condition body => exact h.repeatWhile condition body hs.1 hs.2
  | function name params body =>
    refine Tracks.here.bind ?_
    rintro _ scope rfl
    have hf : Function.Within m.tokens m.known ⟨name, params, body⟩ := hs
    exact (Tracks.newClosure hf scope).bind fun v v' hv =>
      (Tracks.define name hv).bind fun _ _ _ => .pure .normal
  | exit keyword value =>
    exact (h.evaluateOption value hs.2).bind fun v v' hv => .pure (.returned hv)

theorem repeatWhile_succ (e : Expr) (s : Stmt) (he : e.Within m.tokens m.known)
    (hs : s.Within m.tokens m.known) :
    Tracks m (Lox.repeatWhile (n + 1) e s)
      (Lox.repeatWhile (n + m.extra + 1) (e.reline m.line) (s.reline m.line))
      (Flow.Mirrors m) := by
  refine Tracks.tick.bind fun _ _ _ => (h.evaluate e he).bind ?_
  rintro v _ ⟨-, rfl⟩
  rw [← v.alike_reline.isTruthy]
  split
  · refine (h.execute s hs).bind fun flow flow' hflow => ?_
    cases hflow with
    | normal => exact h.repeatWhile e s he hs
    | returned hv => exact .pure (.returned hv)
  · exact .pure .normal

theorem executeAll_succ (ss : List Stmt) (hss : Stmt.WithinAll m.tokens m.known ss) :
    Tracks m (Lox.executeAll (n + 1) ss)
      (Lox.executeAll (n + m.extra + 1) (Stmt.relineAll m.line ss)) (Flow.Mirrors m) := by
  cases ss with
  | nil => exact .pure .normal
  | cons s ss =>
    refine (h.execute s hss.1).bind fun flow flow' hflow => ?_
    cases hflow with
    | normal => exact h.executeAll ss hss.2
    | returned hv => exact .pure (.returned hv)

theorem succ : EvaluatorTracks m (n + 1) := by
  have hsteps : n + 1 + m.extra = n + m.extra + 1 := Nat.add_right_comm n 1 m.extra
  constructor <;> rw [hsteps]
  · exact h.evaluate_succ
  · exact h.evaluateAll_succ
  · exact h.call_succ
  · exact h.execute_succ
  · exact h.evaluateOption_succ
  · exact h.repeatWhile_succ
  · exact h.executeAll_succ

end EvaluatorTracks

/-- The same code on other lines is run in the same way, with the same bound or a larger one. -/
theorem evaluatorTracks : ∀ n : Nat, EvaluatorTracks m n
  | 0 => evaluatorTracks_zero
  | n + 1 => (evaluatorTracks n).succ

theorem executeProgram_tracks (n : Nat) : ∀ program : List Stmt,
    Stmt.WithinAll m.tokens m.known program →
      Tracks m (executeProgram n program)
        (executeProgram (n + m.extra) (Stmt.relineAll m.line program)) fun _ _ => True
  | [], _ => .pure trivial
  | s :: ss, h =>
    ((evaluatorTracks n).execute s h.1).bind fun _ _ _ => executeProgram_tracks n ss h.2

theorem interpret_tracks (n : Nat) {program : List Stmt}
    (h : Stmt.WithinAll m.tokens m.known program) :
    Tracks m (interpret n program) (interpret (n + m.extra) (Stmt.relineAll m.line program))
      fun _ _ => True := by
  intro s s' hs
  have h := executeProgram_tracks n program h s s' hs
  unfold interpret
  generalize executeProgram n program s = xs at h ⊢
  generalize executeProgram (n + m.extra) (Stmt.relineAll m.line program) s' = ys at h ⊢
  cases h with
  | ok hs _ =>
    simp only [hs.sink]
    split
    · exact .error hs (.sink .flushFailed)
    · exact .ok hs trivial
  | error hs he =>
    cases he with
    | outOfFuel => exact .error hs .outOfFuel
    | fault cause ht =>
      simp only [hs.sink]
      split
      · exact .error hs (.sink .flushFailed)
      · exact .error hs (.fault cause ht)
    | sink cause =>
      simp only [hs.sink]
      split
      · exact .error hs (.sink .flushFailed)
      · exact .error hs (.sink cause)
  | spent h => exact .spent h

end Lox
