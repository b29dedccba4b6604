import Lox.Proofs.Eval.Traced

/-!
# Entries at the places of a program

A trace of a resolved program has an entry only for what happens at a place that a frame describes.
What a probe puts down at such places (`Probe.Meets`), all entries of all runs are
(`Session.Follows.entries`), by induction on the bound of steps (`tracesStep`). Which frame
describes the place that comes next is known from `keepsStep`: the evaluators with and without
scopes keep step up to there. Within an initializer the states also keep the variable unset
(`Before`).
-/

namespace Lox

open Lexical

/-- Where a distance is recorded, only the scope that many steps out is looked at. -/
theorem State.holder?_of_distance {s : State} {id : NodeId} {distance : Nat} {holder : ScopeId}
    {x : String} (hd : s.distances.get? id = some distance)
    (ha : s.scopes.ancestor? s.current distance = some holder) :
    s.holder? id x = if s.scopes.binds holder x then some holder else none := by
  unfold State.holder?
  rw [hd]
  exact Scopes.holderAt?_eq ha

/-- A state at a place in a world. -/
def At (known : Known) (w : World) (cur : ScopeId) (s : State) : Prop :=
  s.current = cur ∧ ∃ r, Matches known w s r

/-- A state at a place in the initializer of `own?`: if that is a variable of a scope, then of the
current one, which does not bind it yet. -/
def Before (known : Known) (names : Names) (own? : Option String) (w : World) (cur : ScopeId)
    (s : State) : Prop :=
  At known w cur s ∧ ∀ x ∈ own?, ∀ distance, names.distance? x = some distance →
    distance = 0 ∧ s.scopes.binds cur x = false

variable {ε α β γ : Type} {p : Probe ε} {Q : ε → Prop} {known : Known} {w : World}
  {cur scope : ScopeId} {names : Names} {own? site? : Option String} {env : Env} {n : Nat}

/-- Outside of initializers nothing has to be unset. -/
theorem Before.outside {s : State} (h : At known w cur s) : Before known names none w cur s :=
  ⟨h, nofun⟩

/-- Global variables need not be unset. -/
theorem Before.top {s : State} (h : At known w cur s) : Before known [] own? w cur s :=
  ⟨h, fun _ _ _ hd => by cases hd⟩

/-- A variable that is declared is not bound in its scope. -/
theorem Before.declare {s : State} {inner : List String} {outer : Names} {x : String}
    (h : At known w cur s) (hf : w.Frame (inner :: outer) none cur env)
    (hfresh : w.Fresh cur (inner :: outer)) (hx : x ∉ inner) :
    Before known (Names.declare (inner :: outer) x) (some x) (w.grow cur x) cur s := by
  obtain ⟨hc, r, hm⟩ := h
  refine ⟨⟨hc, _, hm.grow hf.ne_globals hf.lt (hfresh.notMem hx)⟩, ?_⟩
  rintro _ ⟨⟩ distance hd
  rw [Names.distance?_declare, if_pos rfl] at hd
  refine ⟨(Option.some.inj hd).symm, Bool.eq_false_iff.2 fun hb => ?_⟩
  exact hfresh.notMem hx (hm.covered cur _ hf.ne_globals (Scopes.binds_iff.1 hb))

namespace Traces

variable {P : World → ScopeId → State → Prop} {x : Traced ε α} {y : Eval α} {f : α → Traced ε β}
  {g : α → Eval β}

/-- One evaluation after the other: where the second one starts is known from the evaluation
without scopes that keeps step with the first one. -/
theorem follow {o : Option ScopeId} {z : Lexical.Eval γ} {post : World → α → γ → Prop}
    (hat : ∀ s, P w cur s → At known w cur s)
    (hnext : ∀ s a s' w', P w cur s → y s = .ok a s' → At known w' cur s' → P w' cur s')
    (hx : Traces (P w cur) Q x y) (hy : Simulates known o w w cur y z post)
    (hf : ∀ w' a c, w.Extends o w' → post w' a c → Traces (P w' cur) Q (f a) (g a)) :
    Traces (P w cur) Q (x >>= f) (y >>= g) := by
  refine hx.bind_of_ok fun s a s' hs hok => ?_
  obtain ⟨hc, r, hm⟩ := hat s hs
  have hrel := hy (.refl o w) s r hm hc
  rw [hok] at hrel
  generalize z r = zr at hrel
  cases hrel with
  | ok _ ext hm hc hp =>
    refine (hf _ _ _ ext hp).imp ?_
    rintro _ rfl
    exact hnext _ _ _ _ hs hok ⟨hc, _, hm⟩

theorem bind {o : Option ScopeId} {z : Lexical.Eval γ} {post : World → α → γ → Prop}
    (hx : Traces (At known w cur) Q x y) (hy : Simulates known o w w cur y z post)
    (hf : ∀ w' a c, w.Extends o w' → post w' a c → Traces (At known w' cur) Q (f a) (g a)) :
    Traces (At known w cur) Q (x >>= f) (y >>= g) :=
  follow (P := At known) (fun _ hs => hs) (fun _ _ _ _ _ _ hs => hs) hx hy hf

/-- What is evaluated in an initializer leaves the variable unset. -/
theorem bind_before {o : Option ScopeId} {z : Lexical.Eval γ} {post : World → α → γ → Prop}
    (hf : w.Frame names site? cur env) (hkeeps : Eval.Keeps false y)
    (hx : Traces (Before known names own? w cur) Q x y) (hy : Simulates known o w w cur y z post)
    (hg : ∀ w' a c, w.Extends o w' → post w' a c →
      Traces (Before known names own? w' cur) Q (f a) (g a)) :
    Traces (Before known names own? w cur) Q (x >>= f) (y >>= g) := by
  refine follow (P := Before known names own?) (fun _ hs => hs.1) ?_ hx hy hg
  rintro s a s' w' ⟨⟨-, r, hm⟩, hunset⟩ hok hat
  refine ⟨hat, fun x hx distance hd => ?_⟩
  obtain ⟨rfl, hb⟩ := hunset x hx distance hd
  have hkept := hkeeps s
  rw [hok] at hkept
  refine ⟨rfl, Bool.eq_false_iff.2 fun hbinds => ?_⟩
  have hold := hkept.names cur (hm.size ▸ hf.lt) nofun x hbinds
  rw [hb] at hold
  cases hold

theorem here {f : ScopeId → Traced ε β} {g : ScopeId → Eval β}
    (h : Traces (At known w cur) Q (f cur) (g cur)) :
    Traces (At known w cur) Q (Traced.lift Eval.here >>= f) (Eval.here >>= g) :=
  (lift Eval.here).bind_of_ok fun _ _ _ hs hok => by
    cases hok
    rw [hs.1]
    exact h.imp fun _ heq => heq ▸ hs

theorem enter {f : ScopeId → Traced ε β} {g : ScopeId → Eval β}
    (hf : w.Frame names none cur env)
    (h : ∀ w' inner, w'.Frame ([] :: names) none inner env → w'.Fresh inner ([] :: names) →
      Traces (At known w' cur) Q (f inner) (g inner)) :
    Traces (At known w cur) Q (Traced.lift (Eval.newScope (some cur) []) >>= f)
      (Eval.newScope (some cur) [] >>= g) := by
  refine (lift _).bind_of_ok fun s inner s' hs hok => ?_
  obtain ⟨hc, r, hm⟩ := hs
  cases hok
  refine (h (w.push (some cur)) s.scopes.size ?_ ?_).imp ?_
  · exact hm.size ▸ hf.enter
  · exact hm.size ▸ hm.fresh_push (some cur)
  · rintro _ rfl
    exact ⟨hc, r, hm.push (some cur)⟩

theorem inside {inner : ScopeId} (h : Traces (At known w inner) Q x y) :
    Traces (At known w cur) Q (Traced.within inner x) (Eval.within inner y) :=
  h.within fun _ ⟨_, r, hm⟩ => ⟨rfl, r, { hm with }⟩

end Traces

/-- What a probe puts down at the places of a resolved program meets `Q`. The initializer that an
entry stands in, `own?`, is known where the analysis knows it (`site?`). -/
structure Probe.Meets (p : Probe ε) (known : Known) (Q : ε → Prop) : Prop where
  statement (s : Stmt) : ∀ entry ∈ p.statement s, Q entry
  line (text : String) : ∀ entry ∈ p.line text, Q entry
  read {w : World} {cur : ScopeId} {names : Names} {own? site? : Option String} {env : Env}
    {s : State} {id : NodeId} {name : Token} (hs : Before known names own? w cur s)
    (hf : w.Frame names site? cur env) (hk : known id (names.distance? name.lexeme))
    (hsite : site? ≠ some name.lexeme) : ∀ entry ∈ p.read ⟨id, name, s⟩, Q entry
  write {w : World} {cur : ScopeId} {names : Names} {own? site? : Option String} {env : Env}
    {s : State} {id : NodeId} {name : Token} (v : Value) (hs : Before known names own? w cur s)
    (hf : w.Frame names site? cur env) (hk : known id (names.distance? name.lexeme))
    (hsite : ∀ x, site? = some x → own? = some x) :
    ∀ entry ∈ p.write ⟨own?, id, name, v, s⟩, Q entry

/-- With a bound of steps the functions of the evaluator make entries that meet `Q` only. -/
structure TracesStep (p : Probe ε) (known : Known) (Q : ε → Prop) (n : Nat) : Prop where
  evaluate : ∀ {w cur names own? site? env} (e : Expr), w.Frame names site? cur env →
    (∀ x, site? = some x → own? = some x) → e.Resolved known names site? →
    Traces (Before known names own? w cur) Q (Traced.evaluate p n own? e)
      (evaluate n e)
  evaluateAll : ∀ {w cur names own? site? env} (es : List Expr), w.Frame names site? cur env →
    (∀ x, site? = some x → own? = some x) → Expr.ResolvedAll known names site? es →
    Traces (Before known names own? w cur) Q (Traced.evaluateAll p n own? es)
      (evaluateAll n es)
  call : ∀ {w cur f v' vs vs'}, Agrees known w v' (.callable f) → AgreesAll known w vs' vs →
    f.arity = vs.length →
    Traces (At known w cur) Q (Traced.call p n f vs) (call n f vs)
  execute : ∀ {w cur names env} (s : Stmt), w.Frame names none cur env → w.Fresh cur names →
    s.Resolved known names →
    Traces (At known w cur) Q (Traced.execute p n s) (execute n s)
  evaluateOption : ∀ {w cur names own? site? env} (e? : Option Expr), w.Frame names site? cur env →
    (∀ x, site? = some x → own? = some x) → Expr.ResolvedOption known names site? e? →
    Traces (Before known names own? w cur) Q (Traced.evaluateOption p n own? e?)
      (evaluateOption n e?)
  repeatWhile : ∀ {w cur names env} (condition : Expr) (body : Stmt), w.Frame names none cur env →
    w.Fresh cur names → (Stmt.loop condition body).Resolved known names →
    Traces (At known w cur) Q (Traced.repeatWhile p n condition body)
      (repeatWhile n condition body)
  executeAll : ∀ {w cur names env} (ss : List Stmt), w.Frame names none cur env →
    w.Fresh cur names → Stmt.ResolvedAll known names ss →
    Traces (At known w cur) Q (Traced.executeAll p n ss) (executeAll n ss)

theorem tracesStep_zero : TracesStep p known Q 0 where
  evaluate _ _ _ _ := .outOfFuel
  evaluateAll _ _ _ _ := .outOfFuel
  call _ _ _ := .outOfFuel
  execute _ _ _ _ := .outOfFuel
  evaluateOption _ _ _ _ := .outOfFuel
  repeatWhile _ _ _ _ _ := .outOfFuel
  executeAll _ _ _ _ := .outOfFuel

namespace TracesStep

variable (ih : TracesStep p known Q n)

include ih

theorem outside (e : Expr) (hf : w.Frame names none cur env) (he : e.Resolved known names none) :
    Traces (At known w cur) Q (Traced.evaluate p n none e) (Lox.evaluate n e) :=
  (ih.evaluate e hf nofun he).imp fun _ => .outside

theorem evaluate_succ (meets : p.Meets known Q) (e : Expr) (hf : w.Frame names site? cur env)
    (hsite : ∀ x, site? = some x → own? = some x) (he : e.Resolved known names site?) :
    Traces (Before known names own? w cur) Q (Traced.evaluate p (n + 1) own? e)
      (Lox.evaluate (n + 1) e) := by
  have step : KeepsStep known n := keepsStep n
  have keeps : EvaluatorKeeps n := evaluatorKeeps n
  cases e with
  | literal value => exact .pure _
  | grouping inner => exact ih.evaluate inner hf hsite he
  | unary op operand => exact (ih.evaluate operand hf hsite he).bind_quiet fun _ => .lift _
  | binary left op right =>
    refine .bind_before hf (keeps.evaluate left) (ih.evaluate left hf hsite he.1)
      (step.evaluate left hf he.1) fun w₁ v v' h₁ _ => ?_
    exact (ih.evaluate right (hf.mono h₁.le) hsite he.2).bind_quiet fun _ => .lift _
  | logical left op right =>
    refine .bind_before hf (keeps.evaluate left) (ih.evaluate left hf hsite he.1)
      (step.evaluate left hf he.1) fun w₁ v v' h₁ _ => ?_
    split
    · exact .pure _
    · exact ih.evaluate right (hf.mono h₁.le) hsite he.2
  | read id name => exact .read fun _ hs => meets.read hs hf he.1 he.2
  | assign id name value =>
    refine .bind_before hf (keeps.evaluate value) (ih.evaluate value hf hsite he.2)
      (step.evaluate value hf he.2) fun w₁ v v' h₁ _ => ?_
    have hassign : Traces (Before known names own? w₁ cur) Q (Traced.assign p own? id name v)
        (Eval.assign id name v) :=
      .assign fun _ hs => meets.write v hs (hf.mono h₁.le) he.1 hsite
    exact hassign.bind_quiet fun _ => .pure _
  | call callee paren arguments =>
    refine .bind_before hf (keeps.evaluate callee) (ih.evaluate callee hf hsite he.1)
      (step.evaluate callee hf he.1) fun w₁ v v' h₁ hv => ?_
    have hf₁ := hf.mono h₁.le
    refine .bind_before hf₁ (keeps.evaluateAll arguments) (ih.evaluateAll arguments hf₁ hsite he.2)
      (step.evaluateAll arguments hf₁ he.2) fun w₂ vs vs' h₂ hvs => ?_
    cases v with
    | callable f =>
      simp only
      split
      · rename_i harity
        exact (ih.call (hv.mono h₂.le fun _ _ h => h) hvs harity).imp fun _ hs => hs.1
      · exact .lift _
    | _ => exact .lift _

theorem evaluateAll_succ (es : List Expr) (hf : w.Frame names site? cur env)
    (hsite : ∀ x, site? = some x → own? = some x) (he : Expr.ResolvedAll known names site? es) :
    Traces (Before known names own? w cur) Q
      (Traced.evaluateAll p (n + 1) own? es) (Lox.evaluateAll (n + 1) es) := by
  cases es with
  | nil => exact .pure _
  | cons e es =>
    refine .bind_before hf ((evaluatorKeeps n).evaluate e) (ih.evaluate e hf hsite he.1)
      ((keepsStep n).evaluate e hf he.1) fun w₁ v v' h₁ _ => ?_
    exact (ih.evaluateAll es (hf.mono h₁.le) hsite he.2).bind_quiet fun _ => .pure _

theorem evaluateOption_succ (e? : Option Expr) (hf : w.Frame names site? cur env)
    (hsite : ∀ x, site? = some x → own? = some x)
    (he : Expr.ResolvedOption known names site? e?) :
    Traces (Before known names own? w cur) Q
      (Traced.evaluateOption p (n + 1) own? e?) (Lox.evaluateOption (n + 1) e?) := by
  cases e? with
  | none => exact .pure _
  | some e => exact ih.evaluate e hf hsite he

theorem call_succ {f : Callable} {v : Lexical.Value} {vs : List Value}
    {vs' : List Lexical.Value} (hv : Agrees known w v (.callable f))
    (hvs : AgreesAll known w vs' vs) (harity : f.arity = vs.length) :
    Traces (At known w cur) Q (Traced.call p (n + 1) f vs)
      (Lox.call (n + 1) f vs) := by
  cases hv with
  | plain h =>
    cases f with
    | clock i => exact .lift (Lox.call (n + 1) (.clock i) vs)
    | closure i f scope => exact absurd ⟨i, f, scope, rfl⟩ h
  | @closure i f names scope env hf hp hb =>
    refine Traces.bind (.lift _) (.tick (o := none)) ?_
    rintro _ _ _ _ rfl
    have hlen := AgreesAll.length_params hvs harity
    refine Traces.bind (.lift _) (.newScope (o := none) hf hvs hlen hp) ?_
    rintro w₁ inner env' _ ⟨-, hf₁, hfresh⟩
    refine (ih.executeAll f.body hf₁ hfresh hb).inside.bind_quiet fun flow => ?_
    cases flow <;> exact .pure _

theorem execute_succ (meets : p.Meets known Q) (s : Stmt) (hf : w.Frame names none cur env)
    (hfresh : w.Fresh cur names) (hs : s.Resolved known names) :
    Traces (At known w cur) Q (Traced.execute p (n + 1) s) (Lox.execute (n + 1) s) := by
  have step : KeepsStep known n := keepsStep n
  refine .note (meets.statement s) ?_
  cases s with
  | expression value => exact (ih.outside value hf hs).bind_quiet fun _ => .pure _
  | print value =>
    refine (ih.outside value hf hs).bind_quiet fun v => ?_
    exact (Traces.printLine (meets.line v.text)).bind_quiet fun _ => .pure _
  | var name initial =>
    obtain ⟨inner, outer, rfl, hx⟩ := hs.1
    have hinitial := ih.evaluateOption initial (hf.declare name.lexeme) (fun _ h => h) hs.2
    refine (hinitial.imp fun _ hat => .declare hat hf hfresh hx).bind_quiet fun v => ?_
    exact (Traces.lift _).bind_quiet fun _ => .pure _
  | block body =>
    refine .here (.enter hf fun w₁ inner hf₁ hfresh₁ => ?_)
    exact (ih.executeAll body hf₁ hfresh₁ hs).inside
  | branch condition onTrue onFalse =>
    cases onFalse with
    | none =>
      refine .bind (ih.outside condition hf hs.1) (step.evaluate condition hf hs.1)
        fun w₁ v v' h₁ _ => ?_
      have hf₁ := hf.mono h₁.le
      have hfresh₁ := hfresh.mono h₁ hf.lt
      split
      · exact ih.execute onTrue hf₁ hfresh₁ hs.2.2
      · exact .pure _
    | some onFalse =>
      refine .bind (ih.outside condition hf hs.1) (step.evaluate condition hf hs.1)
        fun w₁ v v' h₁ _ => ?_
      have hf₁ := hf.mono h₁.le
      have hfresh₁ := hfresh.mono h₁ hf.lt
      split
      · exact ih.execute onTrue hf₁ hfresh₁ hs.2.1.2
      · exact ih.execute onFalse hf₁ hfresh₁ hs.2.2.2
  | loop condition body => exact ih.repeatWhile condition body hf hfresh hs
  | function name params body => exact .lift (Lox.execute (n + 1) (.function name params body))
  | exit keyword value =>
    have hvalue : Traces (Before known names none w cur) Q
        (Traced.evaluateOption p n none value) (Lox.evaluateOption n value) :=
      ih.evaluateOption value hf nofun hs
    exact (hvalue.imp fun _ => .outside).bind_quiet fun _ => .pure _

theorem repeatWhile_succ (condition : Expr) (body : Stmt) (hf : w.Frame names none cur env)
    (hfresh : w.Fresh cur names) (hs : (Stmt.loop condition body).Resolved known names) :
    Traces (At known w cur) Q (Traced.repeatWhile p (n + 1) condition body)
      (Lox.repeatWhile (n + 1) condition body) := by
  have step : KeepsStep known n := keepsStep n
  refine Traces.bind (.lift _) (.tick (o := none)) ?_
  rintro _ _ _ _ rfl
  refine .bind (ih.outside condition hf hs.1) (step.evaluate condition hf hs.1)
    fun w₁ v v' h₁ _ => ?_
  have hf₁ := hf.mono h₁.le
  have hfresh₁ := hfresh.mono h₁ hf.lt
  split
  · refine .bind (ih.execute body hf₁ hfresh₁ hs.2.2) (inner_step step body hf₁ hfresh₁ hs.2) ?_
    rintro w₂ f f' h₂ hflow
    cases hflow with
    | normal _ hfresh₂ => exact ih.repeatWhile condition body (hf₁.mono h₂.le) hfresh₂ hs
    | returned _ => exact .pure _
  · exact .pure _

theorem executeAll_succ (ss : List Stmt) (hf : w.Frame names none cur env)
    (hfresh : w.Fresh cur names) (hs : Stmt.ResolvedAll known names ss) :
    Traces (At known w cur) Q (Traced.executeAll p (n + 1) ss)
      (Lox.executeAll (n + 1) ss) := by
  cases ss with
  | nil => exact .pure _
  | cons s ss =>
    refine .bind (ih.execute s hf hfresh hs.1) ((keepsStep n).execute s hf hfresh hs.1) ?_
    rintro w₁ f f' _ hflow
    cases hflow with
    | normal hf₁ hfresh₁ => exact ih.executeAll ss hf₁ hfresh₁ hs.2
    | returned _ => exact .pure _

end TracesStep

section Meets

variable (meets : p.Meets known Q)

include meets

/-- The evaluator makes entries that meet `Q` only, whatever the bound of steps. -/
theorem tracesStep (n : Nat) : TracesStep p known Q n := by
  induction n with
  | zero => exact tracesStep_zero
  | succ n ih =>
    exact
      { evaluate := ih.evaluate_succ meets
        evaluateAll := ih.evaluateAll_succ
        call := ih.call_succ
        execute := ih.execute_succ meets
        evaluateOption := ih.evaluateOption_succ
        repeatWhile := ih.repeatWhile_succ
        executeAll := ih.executeAll_succ }

theorem traces_top (s : Stmt) (hs : s.ResolvedTop known) :
    Traces (At known w State.globals) Q (Traced.execute p n s) (execute n s) := by
  refine .assume fun σ ⟨_, r, hm⟩ => ?_
  have hf (site? : Option String) : w.Frame [] site? State.globals [] := .top hm.pos site?
  have hother (hs : s.Resolved known []) :
      Traces (At known w State.globals) Q (Traced.execute p n s) (execute n s) :=
    (tracesStep meets n).execute s (hf none) hm.fresh_globals hs
  cases n with
  | zero => exact .outOfFuel
  | succ n =>
    cases s with
    | var name initial =>
      have hinitial : Traces (Before known [] (some name.lexeme) w State.globals) Q
          (Traced.evaluateOption p n (some name.lexeme) initial) (evaluateOption n initial) :=
        (tracesStep meets n).evaluateOption initial (hf none) nofun hs
      refine .note (meets.statement _) ?_
      refine (hinitial.imp fun _ => .top).bind_quiet fun v => ?_
      exact (Traces.lift _).bind_quiet fun _ => .pure _
    | function name params body =>
      exact .note (meets.statement _) (.lift (execute (n + 1) (.function name params body)))
    | branch condition onTrue onFalse => cases onFalse <;> exact hother hs
    | _ => exact hother hs

theorem traces_program : ∀ {w : World} (program : List Stmt),
    (∀ s ∈ program, s.ResolvedTop known) →
    Traces (At known w State.globals) Q (Traced.executeProgram p n program)
      (executeProgram n program)
  | _, [], _ => .pure _
  | _, s :: ss, h => by
    obtain ⟨hs, hss⟩ := List.forall_mem_cons.1 h
    refine .bind (traces_top meets s hs) (executeTop_simulates s hs) fun _ _ _ _ _ => ?_
    exact traces_program ss hss

end Meets

/-- All entries of a run in any session meet what a probe puts down at places. -/
theorem Session.Follows.entries {S : Session} {r : Lexical.State} (h : S.Follows r)
    (meets : ∀ known, p.Meets known Q) (n : Nat) (source : String) :
    ∀ entry ∈ (Traced.run p n source S).2, Q entry := by
  rcases Traced.run_cases p n source S with ⟨program, s, hp, hs, htraced, -⟩ | hrefused
  · obtain ⟨distances, w, hresolved, hm, hc⟩ := h.accepted (Nat.le_refl _) hp hs
    rw [htraced]
    exact (Traces.runProgram (P := At _ w State.globals) ⟨hc, r, hm⟩
      (traces_program (meets _) program hresolved)).2
  · rw [hrefused]
    exact List.forall_mem_nil _

end Lox
