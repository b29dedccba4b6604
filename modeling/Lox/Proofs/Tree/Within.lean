import Lox.Proofs.Tree.Shift
import Lox.Value

/-!
# The tokens of a tree

`Stmt.Within P N s` says that the tokens that a tree keeps meet `P` and the numbers of its
references meet `N`; it is a matter of its tokens and numbers alone (`Stmt.within_iff`).
-/

namespace Lox

mutual

/-- The tokens that an expression keeps. -/
def Expr.tokens : Expr → List Token
  | .literal _ => []
  | .grouping inner => inner.tokens
  | .unary operator operand => operator :: operand.tokens
  | .binary left operator right => left.tokens ++ operator :: right.tokens
  | .logical left operator right => left.tokens ++ operator :: right.tokens
  | .read _ name => [name]
  | .assign _ name value => name :: value.tokens
  | .call callee paren arguments => callee.tokens ++ paren :: tokensOfAll arguments

def Expr.tokensOfAll : List Expr → List Token
  | [] => []
  | e :: es => e.tokens ++ tokensOfAll es

end

def Expr.tokensOfOption : Option Expr → List Token
  | none => []
  | some e => e.tokens

mutual

/-- The tokens that a statement keeps. -/
def Stmt.tokens : Stmt → List Token
  | .expression value => value.tokens
  | .print value => value.tokens
  | .var name initial => name :: Expr.tokensOfOption initial
  | .block body => tokensOfAll body
  | .branch condition onTrue none => condition.tokens ++ onTrue.tokens
  | .branch condition onTrue (some onFalse) =>
    condition.tokens ++ onTrue.tokens ++ onFalse.tokens
  | .loop condition body => condition.tokens ++ body.tokens
  | .function name params body => name :: params ++ tokensOfAll body
  | .exit keyword value => keyword :: Expr.tokensOfOption value

def Stmt.tokensOfAll : List Stmt → List Token
  | [] => []
  | s :: ss => s.tokens ++ tokensOfAll ss

end

def Function.tokens (f : Function) : List Token :=
  f.name :: f.params ++ Stmt.tokensOfAll f.body

section Within

variable (P : Token → Prop) (N : NodeId → Prop)

mutual

def Expr.Within : Expr → Prop
  | .literal _ => True
  | .grouping inner => inner.Within
  | .unary operator operand => P operator ∧ operand.Within
  | .binary left operator right => left.Within ∧ P operator ∧ right.Within
  | .logical left operator right => left.Within ∧ P operator ∧ right.Within
  | .read id name => N id ∧ P name
  | .assign id name value => (N id ∧ P name) ∧ value.Within
  | .call callee paren arguments => callee.Within ∧ P paren ∧ WithinAll arguments

def Expr.WithinAll : List Expr → Prop
  | [] => True
  | e :: es => e.Within ∧ WithinAll es

end

def Expr.WithinOption : Option Expr → Prop
  | none => True
  | some e => e.Within P N

mutual

def Stmt.Within : Stmt → Prop
  | .expression value => value.Within P N
  | .print value => value.Within P N
  | .var name initial => P name ∧ Expr.WithinOption P N initial
  | .block body => WithinAll body
  | .branch condition onTrue none => condition.Within P N ∧ onTrue.Within
  | .branch condition onTrue (some onFalse) =>
    condition.Within P N ∧ onTrue.Within ∧ onFalse.Within
  | .loop condition body => condition.Within P N ∧ body.Within
  | .function name params body => (P name ∧ ∀ p ∈ params, P p) ∧ WithinAll body
  | .exit keyword value => P keyword ∧ Expr.WithinOption P N value

def Stmt.WithinAll : List Stmt → Prop
  | [] => True
  | s :: ss => s.Within ∧ WithinAll ss

end

/-- The same of a function, with its name and its parameters. -/
def Function.Within (f : Function) : Prop :=
  (P f.name ∧ ∀ p ∈ f.params, P p) ∧ Stmt.WithinAll P N f.body

end Within

variable {P : Token → Prop} {N : NodeId → Prop}

mutual

theorem Expr.within_iff : ∀ e : Expr,
    e.Within P N ↔ (∀ t ∈ e.tokens, P t) ∧ ∀ i ∈ e.ids, N i
  | .literal _ => by simp [Expr.Within, Expr.tokens, Expr.ids]
  | .grouping inner => Expr.within_iff inner
  | .unary _ operand => by
    simp only [Expr.Within, Expr.tokens, Expr.ids, List.forall_mem_cons, Expr.within_iff operand,
      and_assoc]
  | .binary left _ right | .logical left _ right => by
    simp only [Expr.Within, Expr.tokens, Expr.ids, List.forall_mem_append, List.forall_mem_cons,
      Expr.within_iff left, Expr.within_iff right]
    grind
  | .read _ _ => by
    simp only [Expr.Within, Expr.tokens, Expr.ids, List.forall_mem_singleton, and_comm]
  | .assign _ _ value => by
    simp only [Expr.Within, Expr.tokens, Expr.ids, List.forall_mem_cons, Expr.within_iff value]
    grind
  | .call callee _ arguments => by
    simp only [Expr.Within, Expr.tokens, Expr.ids, List.forall_mem_append, List.forall_mem_cons,
      Expr.within_iff callee, Expr.withinAll_iff arguments]
    grind

theorem Expr.withinAll_iff : ∀ es : List Expr, Expr.WithinAll P N es ↔
    (∀ t ∈ Expr.tokensOfAll es, P t) ∧ ∀ i ∈ Expr.idsOfAll es, N i
  | [] => by simp [Expr.WithinAll, Expr.tokensOfAll, Expr.idsOfAll]
  | e :: es => by
    simp only [Expr.WithinAll, Expr.tokensOfAll, Expr.idsOfAll, List.forall_mem_append,
      Expr.within_iff e, Expr.withinAll_iff es]
    grind

end

theorem Expr.withinOption_iff (e? : Option Expr) : Expr.WithinOption P N e? ↔
    (∀ t ∈ Expr.tokensOfOption e?, P t) ∧ ∀ i ∈ Expr.idsOfOption e?, N i := by
  cases e? with
  | none => simp [Expr.WithinOption, Expr.tokensOfOption, Expr.idsOfOption]
  | some e => exact e.within_iff

mutual

theorem Stmt.within_iff : ∀ s : Stmt,
    s.Within P N ↔ (∀ t ∈ s.tokens, P t) ∧ ∀ i ∈ s.ids, N i
  | .expression value | .print value => value.within_iff
  | .var _ initial | .exit _ initial => by
    simp only [Stmt.Within, Stmt.tokens, Stmt.ids, List.forall_mem_cons,
      Expr.withinOption_iff initial, and_assoc]
  | .block body => Stmt.withinAll_iff body
  | .branch condition onTrue none | .loop condition onTrue => by
    simp only [Stmt.Within, Stmt.tokens, Stmt.ids, List.forall_mem_append, condition.within_iff,
      Stmt.within_iff onTrue]
    grind
  | .branch condition onTrue (some onFalse) => by
    simp only [Stmt.Within, Stmt.tokens, Stmt.ids, List.forall_mem_append, condition.within_iff,
      Stmt.within_iff onTrue, Stmt.within_iff onFalse]
    grind
  | .function _ _ body => by
    simp only [Stmt.Within, Stmt.tokens, Stmt.ids, List.cons_append, List.forall_mem_cons,
      List.forall_mem_append, Stmt.withinAll_iff body, and_assoc]

theorem Stmt.withinAll_iff : ∀ ss : List Stmt, Stmt.WithinAll P N ss ↔
    (∀ t ∈ Stmt.tokensOfAll ss, P t) ∧ ∀ i ∈ Stmt.idsOfAll ss, N i
  | [] => by simp [Stmt.WithinAll, Stmt.tokensOfAll, Stmt.idsOfAll]
  | s :: ss => by
    simp only [Stmt.WithinAll, Stmt.tokensOfAll, Stmt.idsOfAll, List.forall_mem_append,
      Stmt.within_iff s, Stmt.withinAll_iff ss]
    grind

end

theorem Function.within_iff {f : Function} : f.Within P N ↔
    (∀ t ∈ f.tokens, P t) ∧ ∀ i ∈ Stmt.idsOfAll f.body, N i :=
  Stmt.within_iff (.function f.name f.params f.body)

end Lox
