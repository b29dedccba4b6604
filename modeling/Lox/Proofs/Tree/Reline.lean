import Lox.Proofs.Tree.Within

/-!
# The same tree on other lines

`Expr.reline φ` and `Stmt.reline φ` take the token on line `l` of a tree to line `φ l`, and leave
all else. Lines further down are a case of this (`Stmt.relineAll_add`); and what the tokens of a
tree keep to on their new lines, they keep to on the old ones (`Stmt.withinAll_reline`).
-/

namespace Lox

/-- The same token on another line. -/
def Token.reline (φ : Nat → Nat) (t : Token) : Token :=
  { t with line := φ t.line }

section Reline

variable (φ : Nat → Nat)

mutual

def Expr.reline : Expr → Expr
  | .literal value => .literal value
  | .grouping inner => .grouping inner.reline
  | .unary operator operand => .unary (operator.reline φ) operand.reline
  | .binary left operator right => .binary left.reline (operator.reline φ) right.reline
  | .logical left operator right => .logical left.reline (operator.reline φ) right.reline
  | .read id name => .read id (name.reline φ)
  | .assign id name value => .assign id (name.reline φ) value.reline
  | .call callee paren arguments => .call callee.reline (paren.reline φ) (relineAll arguments)

def Expr.relineAll : List Expr → List Expr
  | [] => []
  | e :: es => e.reline :: relineAll es

end

mutual

def Stmt.reline : Stmt → Stmt
  | .expression value => .expression (value.reline φ)
  | .print value => .print (value.reline φ)
  | .var name initial => .var (name.reline φ) (initial.map (·.reline φ))
  | .block body => .block (relineAll body)
  | .branch condition onTrue none => .branch (condition.reline φ) onTrue.reline none
  | .branch condition onTrue (some onFalse) =>
    .branch (condition.reline φ) onTrue.reline (some onFalse.reline)
  | .loop condition body => .loop (condition.reline φ) body.reline
  | .function name params body =>
    .function (name.reline φ) (params.map (·.reline φ)) (relineAll body)
  | .exit keyword value => .exit (keyword.reline φ) (value.map (·.reline φ))

def Stmt.relineAll : List Stmt → List Stmt
  | [] => []
  | s :: ss => s.reline :: relineAll ss

end

end Reline

/-! ## Lines that are changed twice -/

section Comp

variable (φ ψ : Nat → Nat)

theorem Token.map_reline_reline (ts : List Token) :
    (ts.map (·.reline φ)).map (·.reline ψ) = ts.map (·.reline (ψ ∘ φ)) :=
  List.map_map

mutual

theorem Expr.reline_reline : ∀ e : Expr, (e.reline φ).reline ψ = e.reline (ψ ∘ φ)
  | .literal _ | .read _ _ => rfl
  | .grouping e => by simp only [Expr.reline, e.reline_reline]
  | .unary _ e | .assign _ _ e => by
    simp only [Expr.reline, e.reline_reline]
    rfl
  | .binary left _ right | .logical left _ right => by
    simp only [Expr.reline, left.reline_reline, right.reline_reline]
    rfl
  | .call callee _ arguments => by
    simp only [Expr.reline, callee.reline_reline, Expr.relineAll_relineAll arguments]
    rfl

theorem Expr.relineAll_relineAll : ∀ es : List Expr,
    Expr.relineAll ψ (Expr.relineAll φ es) = Expr.relineAll (ψ ∘ φ) es
  | [] => rfl
  | e :: es => by simp only [Expr.relineAll, e.reline_reline, Expr.relineAll_relineAll es]

end

theorem Expr.map_reline_reline (e? : Option Expr) :
    (e?.map (·.reline φ)).map (·.reline ψ) = e?.map (·.reline (ψ ∘ φ)) := by
  cases e? with
  | none => rfl
  | some e => exact congrArg some (e.reline_reline φ ψ)

mutual

theorem Stmt.reline_reline : ∀ s : Stmt, (s.reline φ).reline ψ = s.reline (ψ ∘ φ)
  | .expression e | .print e => by simp only [Stmt.reline, e.reline_reline]
  | .var _ e? | .exit _ e? => by
    simp only [Stmt.reline, Expr.map_reline_reline]
    rfl
  | .block body => by simp only [Stmt.reline, Stmt.relineAll_relineAll body]
  | .branch condition s none | .loop condition s => by
    simp only [Stmt.reline, condition.reline_reline, s.reline_reline]
  | .branch condition onTrue (some onFalse) => by
    simp only [Stmt.reline, condition.reline_reline, onTrue.reline_reline, onFalse.reline_reline]
  | .function _ params body => by
    simp only [Stmt.reline, Token.map_reline_reline, Stmt.relineAll_relineAll body]
    rfl

theorem Stmt.relineAll_relineAll : ∀ ss : List Stmt,
    Stmt.relineAll ψ (Stmt.relineAll φ ss) = Stmt.relineAll (ψ ∘ φ) ss
  | [] => rfl
  | s :: ss => by simp only [Stmt.relineAll, s.reline_reline, Stmt.relineAll_relineAll ss]

end

end Comp

/-! ## Lines further down -/

section Add

variable (k : Nat)

mutual

theorem Expr.reline_add : ∀ e : Expr, e.reline (· + k) = e.shift ⟨k, 0⟩
  | .literal _ | .read _ _ => rfl
  | .grouping e => by simp only [Expr.reline, Expr.shift, e.reline_add]
  | .unary _ e | .assign _ _ e => by
    simp only [Expr.reline, Expr.shift, e.reline_add]
    rfl
  | .binary left _ right | .logical left _ right => by
    simp only [Expr.reline, Expr.shift, left.reline_add, right.reline_add]
    rfl
  | .call callee _ arguments => by
    simp only [Expr.reline, Expr.shift, callee.reline_add, Expr.relineAll_add arguments]
    rfl

theorem Expr.relineAll_add : ∀ es : List Expr,
    Expr.relineAll (· + k) es = Expr.shiftAll ⟨k, 0⟩ es
  | [] => rfl
  | e :: es => by simp only [Expr.relineAll, Expr.shiftAll, e.reline_add, Expr.relineAll_add es]

end

theorem Expr.map_reline_add (e? : Option Expr) :
    e?.map (·.reline (· + k)) = e?.map (·.shift ⟨k, 0⟩) := by
  cases e? with
  | none => rfl
  | some e => exact congrArg some (e.reline_add k)

mutual

theorem Stmt.reline_add : ∀ s : Stmt, s.reline (· + k) = s.shift ⟨k, 0⟩
  | .expression e | .print e => by simp only [Stmt.reline, Stmt.shift, e.reline_add]
  | .var _ e? | .exit _ e? => by
    simp only [Stmt.reline, Stmt.shift, Expr.map_reline_add]
    rfl
  | .block body => by simp only [Stmt.reline, Stmt.shift, Stmt.relineAll_add body]
  | .function _ _ body => by
    simp only [Stmt.reline, Stmt.shift, Stmt.relineAll_add body]
    rfl
  | .branch condition s none | .loop condition s => by
    simp only [Stmt.reline, Stmt.shift, condition.reline_add, s.reline_add]
  | .branch condition onTrue (some onFalse) => by
    simp only [Stmt.reline, Stmt.shift, condition.reline_add, onTrue.reline_add,
      onFalse.reline_add]

theorem Stmt.relineAll_add : ∀ ss : List Stmt,
    Stmt.relineAll (· + k) ss = Stmt.shiftAll ⟨k, 0⟩ ss
  | [] => rfl
  | s :: ss => by simp only [Stmt.relineAll, Stmt.shiftAll, s.reline_add, Stmt.relineAll_add ss]

end

theorem Stmt.relineAll_id (ss : List Stmt) : Stmt.relineAll id ss = ss :=
  (Stmt.relineAll_add 0 ss).trans (Stmt.shiftAll_none ss)

end Add

/-! ## What tokens keep to -/

section Within

variable {P : Token → Prop} {N : NodeId → Prop} (φ : Nat → Nat)

mutual

theorem Expr.within_reline : ∀ e : Expr,
    (e.reline φ).Within P N = e.Within (fun t => P (t.reline φ)) N
  | .literal _ | .read _ _ => rfl
  | .grouping e => Expr.within_reline e
  | .unary _ e | .assign _ _ e => by simp only [Expr.reline, Expr.Within, e.within_reline]
  | .binary left _ right | .logical left _ right => by
    simp only [Expr.reline, Expr.Within, left.within_reline, right.within_reline]
  | .call callee _ arguments => by
    simp only [Expr.reline, Expr.Within, callee.within_reline, Expr.withinAll_reline arguments]

theorem Expr.withinAll_reline : ∀ es : List Expr,
    Expr.WithinAll P N (Expr.relineAll φ es) = Expr.WithinAll (fun t => P (t.reline φ)) N es
  | [] => rfl
  | e :: es => by
    simp only [Expr.relineAll, Expr.WithinAll, e.within_reline, Expr.withinAll_reline es]

end

theorem Expr.withinOption_reline (e? : Option Expr) :
    Expr.WithinOption P N (e?.map (·.reline φ)) =
      Expr.WithinOption (fun t => P (t.reline φ)) N e? := by
  cases e? with
  | none => rfl
  | some e => exact e.within_reline φ

mutual

theorem Stmt.within_reline : ∀ s : Stmt,
    (s.reline φ).Within P N = s.Within (fun t => P (t.reline φ)) N
  | .expression e | .print e => e.within_reline φ
  | .var _ e? | .exit _ e? => by
    simp only [Stmt.reline, Stmt.Within, Expr.withinOption_reline]
  | .block body => Stmt.withinAll_reline body
  | .branch condition s none | .loop condition s => by
    simp only [Stmt.reline, Stmt.Within, condition.within_reline, s.within_reline]
  | .branch condition onTrue (some onFalse) => by
    simp only [Stmt.reline, Stmt.Within, condition.within_reline, onTrue.within_reline,
      onFalse.within_reline]
  | .function _ _ body => by
    simp only [Stmt.reline, Stmt.Within, List.forall_mem_map, Stmt.withinAll_reline body]

theorem Stmt.withinAll_reline : ∀ ss : List Stmt,
    Stmt.WithinAll P N (Stmt.relineAll φ ss) = Stmt.WithinAll (fun t => P (t.reline φ)) N ss
  | [] => rfl
  | s :: ss => by
    simp only [Stmt.relineAll, Stmt.WithinAll, s.within_reline, Stmt.withinAll_reline ss]

end

end Within

end Lox
