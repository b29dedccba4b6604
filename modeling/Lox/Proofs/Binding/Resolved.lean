import Lox.Binding.Rule
import Lox.Proofs.Tree.Unnumbered

/-!
# Trees whose references are recorded

`Stmt.Resolved known names s` says that a statement that stands where `names` are declared keeps
the rules of declaration, and that for every reference in it `known` holds of the distance to the
scope that declares its name. The distances of a session only grow, so what is resolved stays
resolved (`Stmt.Resolved.mono`).
-/

namespace Lox

/-- What is recorded of references: a number and the distance of its reference. -/
abbrev Known := NodeId → Option Nat → Prop

variable {known known' : Known}

namespace Expr

variable (known) in
mutual

/-- The references in an expression are recorded, and none of them reads the variable `own?` whose
initializer it is. -/
def Resolved (names : Names) (own? : Option String) : Expr → Prop
  | .literal _ => True
  | .grouping inner => inner.Resolved names own?
  | .unary _ operand => operand.Resolved names own?
  | .binary left _ right => left.Resolved names own? ∧ right.Resolved names own?
  | .logical left _ right => left.Resolved names own? ∧ right.Resolved names own?
  | .read id name => known id (names.distance? name.lexeme) ∧ own? ≠ some name.lexeme
  | .assign id name value =>
    known id (names.distance? name.lexeme) ∧ value.Resolved names own?
  | .call callee _ arguments => callee.Resolved names own? ∧ ResolvedAll names own? arguments

def ResolvedAll (names : Names) (own? : Option String) : List Expr → Prop
  | [] => True
  | e :: es => e.Resolved names own? ∧ ResolvedAll names own? es

end

variable (known) in
def ResolvedOption (names : Names) (own? : Option String) : Option Expr → Prop
  | none => True
  | some e => e.Resolved known names own?

end Expr

namespace Stmt

variable (known) in
mutual

/-- The references in a statement are recorded, a scope declares a name once, and what a branch or
a loop repeats declares nothing where it stands. -/
def Resolved (names : Names) : Stmt → Prop
  | .expression value => value.Resolved known names none
  | .print value => value.Resolved known names none
  | .var name initial =>
    (∃ scope outer, names = scope :: outer ∧ name.lexeme ∉ scope) ∧
      Expr.ResolvedOption known (names.declare name.lexeme) (some name.lexeme) initial
  | .block body => ResolvedAll ([] :: names) body
  | .branch condition onTrue none =>
    condition.Resolved known names none ∧ onTrue.declared? = none ∧ onTrue.Resolved names
  | .branch condition onTrue (some onFalse) =>
    condition.Resolved known names none ∧ (onTrue.declared? = none ∧ onTrue.Resolved names) ∧
      onFalse.declared? = none ∧ onFalse.Resolved names
  | .loop condition body =>
    condition.Resolved known names none ∧ body.declared? = none ∧ body.Resolved names
  | .function name params body =>
    (∃ scope outer, names = scope :: outer ∧ name.lexeme ∉ scope) ∧
      (params.map (·.lexeme)).Nodup ∧
      ResolvedAll (params.map (·.lexeme) :: names.declare name.lexeme) body
  | .exit _ value => Expr.ResolvedOption known names none value

def ResolvedAll (names : Names) : List Stmt → Prop
  | [] => True
  | s :: ss => s.Resolved names ∧ ResolvedAll (names.after s) ss

end

variable (known) in
/-- The same outside all scopes, where a declaration may be repeated and declares a global name. -/
def ResolvedTop : Stmt → Prop
  | .var _ initial => Expr.ResolvedOption known [] none initial
  | .function _ params body =>
    (params.map (·.lexeme)).Nodup ∧ ResolvedAll known [params.map (·.lexeme)] body
  | s => s.Resolved known []

end Stmt

/-- Whatever is recorded stays so. -/
def Known.Kept (known known' : Known) : Prop :=
  ∀ id distance?, known id distance? → known' id distance?

mutual

theorem Expr.Resolved.mono (h : known.Kept known') {names : Names} {own? : Option String} :
    ∀ e : Expr, e.Resolved known names own? → e.Resolved known' names own?
  | .literal _, _ => trivial
  | .grouping inner, he => Expr.Resolved.mono h inner he
  | .unary _ operand, he => Expr.Resolved.mono h operand he
  | .binary left _ right, ⟨hl, hr⟩ =>
    ⟨Expr.Resolved.mono h left hl, Expr.Resolved.mono h right hr⟩
  | .logical left _ right, ⟨hl, hr⟩ =>
    ⟨Expr.Resolved.mono h left hl, Expr.Resolved.mono h right hr⟩
  | .read _ _, ⟨hk, hne⟩ => ⟨h _ _ hk, hne⟩
  | .assign _ _ value, ⟨hk, hv⟩ => ⟨h _ _ hk, Expr.Resolved.mono h value hv⟩
  | .call callee _ arguments, ⟨hc, ha⟩ =>
    ⟨Expr.Resolved.mono h callee hc, Expr.ResolvedAll.mono h arguments ha⟩

theorem Expr.ResolvedAll.mono (h : known.Kept known') {names : Names} {own? : Option String} :
    ∀ es : List Expr, Expr.ResolvedAll known names own? es → Expr.ResolvedAll known' names own? es
  | [], _ => trivial
  | e :: es, ⟨he, hes⟩ => ⟨Expr.Resolved.mono h e he, Expr.ResolvedAll.mono h es hes⟩

end

theorem Expr.ResolvedOption.mono (h : known.Kept known') {names : Names} {own? : Option String} :
    ∀ e? : Option Expr, Expr.ResolvedOption known names own? e? →
      Expr.ResolvedOption known' names own? e?
  | none, _ => trivial
  | some e, he => Expr.Resolved.mono h e he

mutual

theorem Stmt.Resolved.mono (h : known.Kept known') {names : Names} :
    ∀ s : Stmt, s.Resolved known names → s.Resolved known' names
  | .expression value, hs => Expr.Resolved.mono h value hs
  | .print value, hs => Expr.Resolved.mono h value hs
  | .var _ initial, ⟨hd, hi⟩ => ⟨hd, Expr.ResolvedOption.mono h initial hi⟩
  | .block body, hs => Stmt.ResolvedAll.mono h body hs
  | .branch condition onTrue none, ⟨hc, hd, ht⟩ =>
    ⟨Expr.Resolved.mono h condition hc, hd, Stmt.Resolved.mono h onTrue ht⟩
  | .branch condition onTrue (some onFalse), ⟨hc, ⟨hd, ht⟩, hd', hf⟩ =>
    ⟨Expr.Resolved.mono h condition hc, ⟨hd, Stmt.Resolved.mono h onTrue ht⟩, hd',
      Stmt.Resolved.mono h onFalse hf⟩
  | .loop condition body, ⟨hc, hd, hb⟩ =>
    ⟨Expr.Resolved.mono h condition hc, hd, Stmt.Resolved.mono h body hb⟩
  | .function _ _ body, ⟨hd, hp, hb⟩ => ⟨hd, hp, Stmt.ResolvedAll.mono h body hb⟩
  | .exit _ value, hs => Expr.ResolvedOption.mono h value hs

theorem Stmt.ResolvedAll.mono (h : known.Kept known') {names : Names} :
    ∀ ss : List Stmt, Stmt.ResolvedAll known names ss → Stmt.ResolvedAll known' names ss
  | [], _ => trivial
  | s :: ss, ⟨hs, hss⟩ => ⟨Stmt.Resolved.mono h s hs, Stmt.ResolvedAll.mono h ss hss⟩

end

end Lox
