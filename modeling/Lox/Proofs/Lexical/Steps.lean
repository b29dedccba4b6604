import Lox.Proofs.Lexical.Variables

/-!
# The two evaluators keep step

With every bound, the evaluator with scopes and the one without end in the same way on a resolved
tree, from matching states at a place that a frame describes (`keepsStep`). The proof is by
induction on the bound, for all functions of the evaluator at once.
-/

namespace Lox.Lexical

variable {known : Known} {w : World} {cur : ScopeId} {names : Names} {own? : Option String}
  {env : Env} {n : Nat}

def Gives (known : Known) (w : World) (v : Lox.Value) (v' : Value) : Prop :=
  Agrees known w v' v

/-- Both runs return the same value, or go on at a place where some names are declared. -/
inductive Leads (known : Known) (cur : ScopeId) (names : Names) (w : World) :
    Lox.Flow → Flow → Prop where
  | normal {env : Env} (hf : w.Frame names none cur env) (hfresh : w.Fresh cur names) :
      Leads known cur names w .normal (.normal env)
  | returned {v : Lox.Value} {v' : Value} (h : Agrees known w v' v) :
      Leads known cur names w (.returned v) (.returned v')

/-- The functions of the two evaluators keep step with a bound. -/
structure KeepsStep (known : Known) (n : Nat) : Prop where
  evaluate : ∀ {w cur names own? env} (e : Expr), w.Frame names own? cur env →
    e.Resolved known names own? → Simulates known none w w cur (Lox.evaluate n e)
      (evaluate n env e.unnumbered) (Gives known)
  evaluateAll : ∀ {w cur names own? env} (es : List Expr), w.Frame names own? cur env →
    Expr.ResolvedAll known names own? es → Simulates known none w w cur (Lox.evaluateAll n es)
      (evaluateAll n env (Expr.unnumberedAll es)) fun w' vs vs' => AgreesAll known w' vs' vs
  call : ∀ {w cur f v' vs vs'}, Agrees known w v' (.callable f) → AgreesAll known w vs' vs →
    f.arity = vs.length → Simulates known none w w cur (Lox.call n f vs) (call n v' vs')
      (Gives known)
  execute : ∀ {w cur names env} (s : Stmt), w.Frame names none cur env → w.Fresh cur names →
    s.Resolved known names → Simulates known (some cur) w w cur (Lox.execute n s)
      (execute n env s.unnumbered) (Leads known cur (names.after s))
  evaluateOption : ∀ {w cur names own? env} (e? : Option Expr), w.Frame names own? cur env →
    Expr.ResolvedOption known names own? e? → Simulates known none w w cur
      (Lox.evaluateOption n e?) (evaluateOption n env (e?.map (·.unnumbered))) (Gives known)
  repeatWhile : ∀ {w cur names env} (condition : Expr) (body : Stmt), w.Frame names none cur env →
    w.Fresh cur names → (Stmt.loop condition body).Resolved known names →
    Simulates known (some cur) w w cur (Lox.repeatWhile n condition body)
      (repeatWhile n env condition.unnumbered body.unnumbered) (Leads known cur names)
  executeAll : ∀ {w cur names env} (ss : List Stmt), w.Frame names none cur env →
    w.Fresh cur names → Stmt.ResolvedAll known names ss →
    Simulates known (some cur) w w cur (Lox.executeAll n ss)
      (executeAll n env (Stmt.unnumberedAll ss)) fun w' f f' =>
        ∃ names, Leads known cur names w' f f'

theorem keepsStep_zero : KeepsStep known 0 where
  evaluate _ _ _ := .outOfFuel
  evaluateAll _ _ _ := .outOfFuel
  call _ _ _ := .outOfFuel
  execute _ _ _ _ := .outOfFuel
  evaluateOption _ _ _ := .outOfFuel
  repeatWhile _ _ _ _ _ := .outOfFuel
  executeAll _ _ _ _ := .outOfFuel

/-- A declaration in a scope opens a location there. -/
theorem declare_step {α β : Type} {x : Lox.Eval α} {k : Location → Eval β}
    {post : World → α → β → Prop} {name : Token} (hf : w.Frame names none cur env)
    (hfresh : w.Fresh cur names)
    (hd : ∃ scope outer, names = scope :: outer ∧ name.lexeme ∉ scope)
    (h : ∀ w' l, w'.Frame (names.declare name.lexeme) (some name.lexeme) cur
        ((name.lexeme, l) :: env) → w'.Fresh cur (names.declare name.lexeme) →
      w'.slots[l]? = some (cur, name.lexeme) →
      Simulates known (some cur) w w' cur x (k l) post) :
    Simulates known (some cur) w w cur x (Eval.allocate >>= k) post := by
  obtain ⟨scope, outer, rfl, hx⟩ := hd
  refine .allocate (.inl rfl) (hf.ne_globals) hf.lt (hfresh.notMem hx) ?_
  exact h _ _ (hf.declare _) hfresh.declare (by simp [World.grow])

theorem after_eq {s : Stmt} (h : s.declared? = none) : names.after s = names := by
  unfold Names.after
  rw [h]

section Step

variable (ih : KeepsStep known n)

include ih

theorem evaluate_step (e : Expr) (hf : w.Frame names own? cur env)
    (he : e.Resolved known names own?) :
    Simulates known none w w cur (Lox.evaluate (n + 1) e) (evaluate (n + 1) env e.unnumbered)
      (Gives known) := by
  cases e with
  | literal value =>
    refine .pure (.plain ?_)
    rintro ⟨i, f, scope, h⟩
    cases value <;> cases h
  | grouping inner => exact ih.evaluate inner hf he
  | unary op operand =>
    refine .bind (ih.evaluate operand hf he) fun w₁ v v' _ hv => ?_
    rw [hv.alike.unary]
    exact .operate op _ fun _ => Lox.Value.not_isClosure_of_unary
  | binary left op right =>
    refine .bind (ih.evaluate left hf he.1) fun w₁ v v' h₁ hv => ?_
    refine .bind (ih.evaluate right (hf.mono h₁) he.2).since fun w₂ u u' h₂ hu => ?_
    rw [hv.alike.binary hu.alike]
    exact .operate op _ fun _ => Lox.Value.not_isClosure_of_binary
  | logical left op right =>
    refine .bind (ih.evaluate left hf he.1) fun w₁ v v' h₁ hv => ?_
    rw [hv.alike.decides]
    split
    · exact .pure hv
    · exact (ih.evaluate right (hf.mono h₁) he.2).since
  | read id name => exact .read hf he.1
  | assign id name value =>
    refine .bind (ih.evaluate value hf he.2) fun w₁ v v' h₁ hv => ?_
    refine .bind (.assign (hf.mono h₁) he.1 hv) fun w₂ _ _ h₂ _ => ?_
    exact .pure (hv.mono h₂ fun _ _ h => h)
  | call callee paren arguments =>
    refine .bind (ih.evaluate callee hf he.1) fun w₁ v v' h₁ hv => ?_
    refine .bind (ih.evaluateAll arguments (hf.mono h₁) he.2).since fun w₂ vs vs' h₂ hvs => ?_
    have hlen : vs'.length = vs.length := List.Forall₂.length_eq hvs
    have hv := hv.mono h₂ fun _ _ h => h
    -- Both functions take as many arguments, so both calls are made or neither.
    have hcall : ∀ f : Callable, v = .callable f → ∀ g : Callable, g.arity = f.arity →
        Simulates known none w w₂ cur
          (if f.arity = vs.length then Lox.call n f vs
            else Lox.Eval.fault (.wrongArity f.arity vs.length) paren)
          (if g.arity = vs'.length then call n v' vs'
            else Eval.fault (.wrongArity g.arity vs'.length) paren) (Gives known) := by
      rintro f rfl g hg
      rw [hg, hlen]
      split
      · rename_i harity
        exact (ih.call hv hvs harity).since
      · exact .fault _ _
    cases hv with
    | plain _ =>
      cases v with
      | callable f => exact hcall f rfl f rfl
      | _ => exact .fault _ _
    | closure _ _ _ => exact hcall _ rfl _ rfl

theorem evaluateAll_step (es : List Expr) (hf : w.Frame names own? cur env)
    (he : Expr.ResolvedAll known names own? es) :
    Simulates known none w w cur (Lox.evaluateAll (n + 1) es)
      (evaluateAll (n + 1) env (Expr.unnumberedAll es)) fun w' vs vs' =>
        AgreesAll known w' vs' vs := by
  cases es with
  | nil => exact .pure .nil
  | cons e es =>
    refine .bind (ih.evaluate e hf he.1) fun w₁ v v' h₁ hv => ?_
    refine .bind (ih.evaluateAll es (hf.mono h₁) he.2).since fun w₂ vs vs' h₂ hvs => ?_
    exact .pure (.cons (hv.mono h₂ fun _ _ h => h) hvs)

theorem evaluateOption_step (e? : Option Expr) (hf : w.Frame names own? cur env)
    (he : Expr.ResolvedOption known names own? e?) :
    Simulates known none w w cur (Lox.evaluateOption (n + 1) e?)
      (evaluateOption (n + 1) env (e?.map (·.unnumbered))) (Gives known) := by
  cases e? with
  | none => exact .pure .nil
  | some e => exact ih.evaluate e hf he

theorem call_step {f : Callable} {v : Value} {vs : List Lox.Value} {vs' : List Value}
    (hv : Agrees known w v (.callable f)) (hvs : AgreesAll known w vs' vs)
    (harity : f.arity = vs.length) :
    Simulates known none w w cur (Lox.call (n + 1) f vs) (call (n + 1) v vs') (Gives known) := by
  cases hv with
  | plain h =>
    cases f with
    | clock i =>
      refine .bind .tick ?_
      rintro _ _ _ _ rfl
      exact .readClock
    | closure i f scope => exact absurd ⟨i, f, scope, rfl⟩ h
  | @closure i f names scope env hf hp hb =>
    refine .bind .tick ?_
    rintro _ _ _ _ rfl
    refine .bind (.newScope hf hvs (AgreesAll.length_params hvs harity) hp) ?_
    rintro w₁ inner env' _ ⟨hi, hf₁, hfresh⟩
    refine .bind (.within (ih.executeAll f.body hf₁ hfresh hb) hi) ?_
    rintro w₂ _ _ _ ⟨names', hflow⟩
    cases hflow with
    | normal _ _ => exact .pure .nil
    | returned h => exact .pure h

theorem inner_step {base : World} (s : Stmt) (hf : w.Frame names none cur env)
    (hfresh : w.Fresh cur names) (hs : s.declared? = none ∧ s.Resolved known names) :
    Simulates known (some cur) base w cur (Lox.execute n s) (execute n env s.unnumbered)
      (Leads known cur names) := by
  have h := ih.execute s hf hfresh hs.2
  rw [after_eq hs.1] at h
  exact h.since

theorem block_step (body : List Stmt) (hf : w.Frame names none cur env)
    (hs : Stmt.ResolvedAll known ([] :: names) body) :
    Simulates known none w w cur (Lox.execute (n + 1) (.block body))
      (execute (n + 1) env (Stmt.block body).unnumbered) fun w' f f' =>
        (f = .normal ∧ f' = .normal env) ∨
          ∃ v v', f = .returned v ∧ f' = .returned v' ∧ Agrees known w' v' v := by
  refine .here (.enter hf fun w₁ inner _ hi hf₁ hfresh => ?_)
  refine .bind_right (.within (ih.executeAll body hf₁ hfresh hs) hi) ?_
  rintro w₂ f f' ⟨names', hflow⟩
  cases hflow with
  | normal _ _ => exact ⟨_, rfl, .inl ⟨rfl, rfl⟩⟩
  | returned h => exact ⟨_, rfl, .inr ⟨_, _, rfl, rfl, h⟩⟩

theorem execute_step (s : Stmt) (hf : w.Frame names none cur env) (hfresh : w.Fresh cur names)
    (hs : s.Resolved known names) :
    Simulates known (some cur) w w cur (Lox.execute (n + 1) s)
      (execute (n + 1) env s.unnumbered) (Leads known cur (names.after s)) := by
  cases s with
  | expression value =>
    refine .bind (ih.evaluate value hf hs).quiet fun w₁ _ _ h₁ ⟨hext, _⟩ => ?_
    exact .pure (.normal (hf.mono h₁) (hfresh.mono hext hf.lt))
  | print value =>
    refine .bind (ih.evaluate value hf hs).quiet fun w₁ v v' h₁ ⟨hext, hv⟩ => ?_
    rw [hv.alike.text]
    refine .bind (.printLine _) ?_
    rintro _ _ _ _ rfl
    exact .pure (.normal (hf.mono h₁) (hfresh.mono hext hf.lt))
  | var name initial =>
    refine declare_step hf hfresh hs.1 fun w₁ l hf₁ hfresh₁ hl => ?_
    refine .bind (ih.evaluateOption initial hf₁ hs.2).quiet fun w₂ v v' h₂ ⟨hext, hv⟩ => ?_
    have hdefine := (World.extends_define none w₂ l).le
    have hfresh₂ := hfresh₁.mono hext hf₁.lt
    refine .bind (.define (h₂.slots l _ hl) (hv.mono hdefine fun _ _ h => h)) ?_
    rintro _ _ _ _ rfl
    exact .pure (.normal (hf₁.mono h₂).define hfresh₂)
  | block body =>
    refine (block_step ih body hf hs).quiet.mono ?_
    rintro w₁ f f' h₁ ⟨hext, ⟨rfl, rfl⟩ | ⟨v, v', rfl, rfl, h⟩⟩
    · exact .normal (hf.mono h₁) (hfresh.mono hext hf.lt)
    · exact .returned h
  | branch condition onTrue onFalse =>
    cases onFalse with
    | none =>
      refine .bind (ih.evaluate condition hf hs.1).quiet fun w₁ v v' h₁ ⟨hext, hv⟩ => ?_
      rw [hv.alike.isTruthy]
      split
      · exact inner_step ih onTrue (hf.mono h₁) (hfresh.mono hext hf.lt) hs.2
      · exact .pure (.normal (hf.mono h₁) (hfresh.mono hext hf.lt))
    | some onFalse =>
      refine .bind (ih.evaluate condition hf hs.1).quiet fun w₁ v v' h₁ ⟨hext, hv⟩ => ?_
      rw [hv.alike.isTruthy]
      split
      · exact inner_step ih onTrue (hf.mono h₁) (hfresh.mono hext hf.lt) hs.2.1
      · exact inner_step ih onFalse (hf.mono h₁) (hfresh.mono hext hf.lt) hs.2.2
  | loop condition body => exact ih.repeatWhile condition body hf hfresh hs
  | function name params body =>
    refine declare_step hf hfresh hs.1 fun w₁ l hf₁ hfresh₁ hl => ?_
    refine .here (.bind (.newClosure ⟨name, params, body⟩ _) ?_)
    rintro _ _ _ _ ⟨rfl, i, rfl, rfl⟩
    refine .bind (.define hl (.closure hf₁.define hs.2.1 hs.2.2)) ?_
    rintro _ _ _ _ rfl
    exact .pure (.normal hf₁.define hfresh₁)
  | exit keyword value =>
    refine .bind (ih.evaluateOption value hf hs).quiet fun w₁ v v' h₁ ⟨hext, hv⟩ => ?_
    exact .pure (.returned hv)

theorem repeatWhile_step (condition : Expr) (body : Stmt) (hf : w.Frame names none cur env)
    (hfresh : w.Fresh cur names) (hs : (Stmt.loop condition body).Resolved known names) :
    Simulates known (some cur) w w cur (Lox.repeatWhile (n + 1) condition body)
      (repeatWhile (n + 1) env condition.unnumbered body.unnumbered) (Leads known cur names) := by
  refine .bind .tick ?_
  rintro _ _ _ _ rfl
  refine .bind (ih.evaluate condition hf hs.1).quiet fun w₁ v v' h₁ ⟨hext, hv⟩ => ?_
  rw [hv.alike.isTruthy]
  split
  · refine .bind (inner_step ih body (hf.mono h₁) (hfresh.mono hext hf.lt) hs.2) ?_
    rintro w₂ f f' h₂ hflow
    cases hflow with
    | normal _ hfresh₂ =>
      exact (ih.repeatWhile condition body (hf.mono (h₁.trans h₂)) hfresh₂ hs).since
    | returned h => exact .pure (.returned h)
  · exact .pure (.normal (hf.mono h₁) (hfresh.mono hext hf.lt))

theorem executeAll_step (ss : List Stmt) (hf : w.Frame names none cur env)
    (hfresh : w.Fresh cur names) (hs : Stmt.ResolvedAll known names ss) :
    Simulates known (some cur) w w cur (Lox.executeAll (n + 1) ss)
      (executeAll (n + 1) env (Stmt.unnumberedAll ss)) fun w' f f' =>
        ∃ names, Leads known cur names w' f f' := by
  cases ss with
  | nil => exact .pure ⟨names, .normal hf hfresh⟩
  | cons s ss =>
    refine .bind (ih.execute s hf hfresh hs.1) ?_
    rintro w₁ f f' h₁ hflow
    cases hflow with
    | normal hf₁ hfresh₁ => exact (ih.executeAll ss hf₁ hfresh₁ hs.2).since
    | returned h => exact .pure ⟨names, .returned h⟩

end Step

/-- The two evaluators keep step, whatever the bound. -/
theorem keepsStep : ∀ n, KeepsStep known n
  | 0 => keepsStep_zero
  | n + 1 => by
    have ih := keepsStep n
    exact
      { evaluate := evaluate_step ih
        evaluateAll := evaluateAll_step ih
        call := call_step ih
        execute := execute_step ih
        evaluateOption := evaluateOption_step ih
        repeatWhile := repeatWhile_step ih
        executeAll := executeAll_step ih }

end Lox.Lexical
