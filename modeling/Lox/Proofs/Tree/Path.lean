import Lox.Binding.Reference
import Mathlib.Data.List.Infix

/-!
# Places in a program

A place is the way to a node from the root of a program's tree: at every step, which part of the
node comes next. Of two places the lesser one comes first in the order of the tree, in which a node
comes before its parts. The scopes around a place are the blocks and functions that it lies in
(`scopesAround`), and a name is bound by the innermost of them that declares it before the place
(`DistanceAt`).
-/

namespace Lox

/-- The number of a part in each node on the way. -/
abbrev Path := List Nat

/-- What a tree is made of. A parameter is a node, since it declares a name. -/
inductive Node where
  | program (body : List Stmt)
  | stmt (s : Stmt)
  | expr (e : Expr)
  | param (name : Token)

/-- The operands of an expression. -/
def Expr.parts : Expr → List Expr
  | .literal _ => []
  | .grouping inner => [inner]
  | .unary _ operand => [operand]
  | .binary left _ right => [left, right]
  | .logical left _ right => [left, right]
  | .read _ _ => []
  | .assign _ _ value => [value]
  | .call callee _ arguments => callee :: arguments

/-- What a statement consists of, in the order of its text. -/
def Stmt.parts : Stmt → List Node
  | .expression value => [.expr value]
  | .print value => [.expr value]
  | .var _ initial => initial.toList.map .expr
  | .block body => body.map .stmt
  | .branch condition onTrue onFalse =>
    .expr condition :: .stmt onTrue :: onFalse.toList.map .stmt
  | .loop condition body => [.expr condition, .stmt body]
  | .function _ params body => params.map .param ++ body.map .stmt
  | .exit _ value => value.toList.map .expr

namespace Node

def parts : Node → List Node
  | program body => body.map .stmt
  | stmt s => s.parts
  | expr e => e.parts.map .expr
  | param _ => []

/-- The node at a place below this one. -/
def at? (n : Node) : Path → Option Node
  | [] => some n
  | i :: place => n.parts[i]?.bind (·.at? place)

/-- The name that a node declares in the scope it stands in. -/
def declared? : Node → Option Token
  | stmt s => s.declared?
  | param name => some name
  | _ => none

/-- Whether a node is a scope of its own. The parameters of a function belong to its scope. -/
def isScope : Node → Bool
  | stmt (.block _) => true
  | stmt (.function _ _ _) => true
  | _ => false

/-- The names that some parts of a node declare in it. -/
def declaredIn (parts : List Node) : List String :=
  parts.filterMap fun part => part.declared?.map (·.lexeme)

end Node

def nodeAt? (program : List Stmt) (place : Path) : Option Node :=
  (Node.program program).at? place

/-- The places of the blocks and functions around a place, the innermost first. -/
def scopesAround (program : List Stmt) (place : Path) : List Path :=
  place.inits.dropLast.reverse.filter fun outer => (nodeAt? program outer).any (·.isScope)

/-- A scope itself declares a name before a place. -/
def DeclaresBefore (program : List Stmt) (scope : Path) (x : String) (place : Path) : Prop :=
  ∃ i node name, nodeAt? program (scope ++ [i]) = some node ∧ node.declared? = some name ∧
    name.lexeme = x ∧ scope ++ [i] < place

/-- Of the scopes around a place, the first one that declares a name before it stands `n` steps
out. -/
def DistanceAt (program : List Stmt) (place : Path) (x : String) (n : Nat) : Prop :=
  ∃ scope, (scopesAround program place)[n]? = some scope ∧ DeclaresBefore program scope x place ∧
    ∀ m < n, ∀ inner, (scopesAround program place)[m]? = some inner →
      ¬ DeclaresBefore program inner x place

/-- A node lies in another one, at some depth. -/
def Path.Encloses (outer place : Path) : Prop :=
  ∃ i inner, place = outer ++ i :: inner

theorem Expr.sizeOf_lt_of_mem_parts {e part : Expr} (h : part ∈ e.parts) :
    sizeOf part < sizeOf e := by
  cases e with
  | literal | read => cases h
  | grouping | unary | assign =>
    obtain rfl := List.mem_singleton.1 h
    decreasing_tactic
  | binary left operator right | logical left operator right =>
    replace h := List.mem_pair.1 h
    rcases h with rfl | rfl <;> decreasing_tactic
  | call callee paren arguments =>
    replace h := List.mem_cons.1 h
    rcases h with rfl | h
    · decreasing_tactic
    · have := List.sizeOf_lt_of_mem h
      simp only [Expr.call.sizeOf_spec]
      omega

theorem Stmt.sizeOf_lt_of_mem_parts {s : Stmt} {part : Node} (h : part ∈ s.parts) :
    sizeOf part < sizeOf (Node.stmt s) := by
  have hexpr {e? : Option Expr} (h : part ∈ e?.toList.map Node.expr) :
      sizeOf part < 1 + sizeOf e? := by
    obtain ⟨e, he, rfl⟩ := List.mem_map.1 h
    obtain rfl := Option.mem_toList.1 he
    decreasing_tactic
  have hbody {body : List Stmt} (h : part ∈ body.map Node.stmt) :
      sizeOf part < 1 + sizeOf body := by
    obtain ⟨s, hs, rfl⟩ := List.mem_map.1 h
    have := List.sizeOf_lt_of_mem hs
    simp only [Node.stmt.sizeOf_spec]
    omega
  cases s with
  | expression value | print value =>
    obtain rfl := List.mem_singleton.1 h
    decreasing_tactic
  | var name initial | exit name initial =>
    have := hexpr h
    simp
    omega
  | block body =>
    have := hbody h
    simp
    omega
  | branch condition onTrue onFalse =>
    rcases List.mem_cons.1 h with rfl | h
    · decreasing_tactic
    rcases List.mem_cons.1 h with rfl | h
    · decreasing_tactic
    · obtain ⟨s, hs, rfl⟩ := List.mem_map.1 h
      obtain rfl := Option.mem_toList.1 hs
      decreasing_tactic
  | loop condition body =>
    rcases List.mem_pair.1 h with rfl | rfl <;> decreasing_tactic
  | function name params body =>
    rcases List.mem_append.1 h with h | h
    · obtain ⟨p, hp, rfl⟩ := List.mem_map.1 h
      have := List.sizeOf_lt_of_mem hp
      simp
      omega
    · have := hbody h
      simp
      omega

namespace Node

theorem sizeOf_lt_of_mem_parts {n part : Node} (h : part ∈ n.parts) : sizeOf part < sizeOf n := by
  cases n with
  | program body =>
    obtain ⟨s, hs, rfl⟩ := List.mem_map.1 h
    have := List.sizeOf_lt_of_mem hs
    simp
    omega
  | stmt s => exact Stmt.sizeOf_lt_of_mem_parts h
  | expr e =>
    obtain ⟨e', he, rfl⟩ := List.mem_map.1 h
    have := Expr.sizeOf_lt_of_mem_parts he
    simp
    omega
  | param name => cases h

/-- What holds of a node if it holds of its parts holds of every node. -/
theorem induct {P : Node → Prop} (step : ∀ n : Node, (∀ part ∈ n.parts, P part) → P n)
    (n : Node) : P n :=
  step n fun part _ => induct step part
termination_by sizeOf n
decreasing_by exact sizeOf_lt_of_mem_parts ‹_›

theorem declaredIn_append (parts others : List Node) :
    declaredIn (parts ++ others) = declaredIn parts ++ declaredIn others :=
  List.filterMap_append

theorem declaredIn_params (params : List Token) :
    declaredIn (params.map .param) = params.map (·.lexeme) := by
  rw [declaredIn, List.filterMap_map]
  exact List.filterMap_eq_map ▸ rfl

theorem at?_append (place inner : Path) :
    ∀ n : Node, n.at? (place ++ inner) = (n.at? place).bind (·.at? inner) := by
  induction place with
  | nil => exact fun _ => rfl
  | cons i place ih =>
    intro n
    rw [List.cons_append, at?, at?, Option.bind_assoc]
    exact Option.bind_congr fun m _ => ih m

theorem at?_single (n : Node) (i : Nat) : n.at? [i] = n.parts[i]? :=
  Option.bind_fun_some _

end Node

namespace Path

theorem encloses_concat {outer place : Path} {i : Nat} :
    Encloses outer (place ++ [i]) ↔ outer = place ∨ Encloses outer place := by
  constructor
  · rintro ⟨j, inner, h⟩
    rcases List.eq_nil_or_concat inner with rfl | ⟨inner, k, rfl⟩
    · exact .inl (List.append_inj_left' h rfl).symm
    · rw [List.concat_eq_append, ← List.cons_append, ← List.append_assoc] at h
      exact .inr ⟨j, inner, List.append_inj_left' h rfl⟩
  · rintro (rfl | ⟨j, inner, rfl⟩)
    · exact ⟨i, [], rfl⟩
    · exact ⟨j, inner ++ [i], List.append_assoc ..⟩

theorem encloses_nil {outer : Path} : ¬ Encloses outer [] := by
  rintro ⟨i, inner, h⟩
  exact List.append_ne_nil_of_right_ne_nil outer (List.cons_ne_nil i inner) h.symm

theorem Encloses.ne {outer place : Path} (h : Encloses outer place) : outer ≠ place := by
  rintro rfl
  obtain ⟨i, inner, h⟩ := h
  exact List.cons_ne_nil i inner (List.self_eq_append_right.1 h)

theorem nil_encloses {place : Path} (h : place ≠ []) : Encloses [] place := by
  obtain ⟨i, inner, rfl⟩ := List.exists_cons_of_ne_nil h
  exact ⟨i, inner, rfl⟩

theorem append_lt_append {outer place place' : Path} :
    outer ++ place < outer ++ place' ↔ place < place' := by
  induction outer with
  | nil => rfl
  | cons i outer ih =>
    rw [List.cons_append, List.cons_append, List.cons_lt_cons_iff, ih]
    simp

theorem concat_lt_concat {place : Path} {i j : Nat} : place ++ [i] < place ++ [j] ↔ i < j := by
  rw [append_lt_append, List.cons_lt_cons_iff]
  simp

/-- A part of a node that lies around a place comes before what is in that place if it comes before
the place or is it. -/
theorem Encloses.part_lt_concat {outer place : Path} (h : Encloses outer place) (j i : Nat) :
    outer ++ [j] < place ++ [i] ↔ outer ++ [j] < place ∨ outer ++ [j] = place := by
  obtain ⟨k, inner, rfl⟩ := h
  rw [List.append_assoc, append_lt_append, append_lt_append, List.append_cancel_left_eq,
    List.cons_append, List.cons_lt_cons_iff, List.cons_lt_cons_iff, List.cons_eq_cons]
  cases inner <;> simp

end Path

section Program

variable {program : List Stmt} {place scope : Path} {node : Node} {x : String} {i : Nat}

theorem nodeAt?_concat : nodeAt? program (place ++ [i]) =
    (nodeAt? program place).bind (·.parts[i]?) :=
  (Node.at?_append place [i] _).trans (Option.bind_congr fun m _ => m.at?_single i)

theorem scopesAround_nil : scopesAround program [] = [] :=
  rfl

theorem scopesAround_concat : scopesAround program (place ++ [i]) =
    if (nodeAt? program place).any (·.isScope) then place :: scopesAround program place
    else scopesAround program place := by
  have hlast : place.inits = place.inits.dropLast ++ [place] := by
    rcases List.eq_nil_or_concat place with rfl | ⟨outer, j, rfl⟩
    · rfl
    · simp [List.inits_append]
  have hinits : (place ++ [i]).inits.dropLast.reverse = place :: place.inits.dropLast.reverse := by
    rw [List.inits_append, hlast]
    simp
  rw [scopesAround, hinits, List.filter_cons]
  rfl

theorem scopesAround_of_scope (hnode : nodeAt? program place = some node)
    (h : node.isScope = true) :
    scopesAround program (place ++ [i]) = place :: scopesAround program place := by
  rw [scopesAround_concat, hnode, Option.any_some, if_pos h]

theorem scopesAround_of_not_scope (hnode : nodeAt? program place = some node)
    (h : node.isScope = false) :
    scopesAround program (place ++ [i]) = scopesAround program place := by
  rw [scopesAround_concat, hnode, Option.any_some, if_neg (Bool.eq_false_iff.1 h)]

theorem mem_scopesAround : scope ∈ scopesAround program place ↔
    scope.Encloses place ∧ (nodeAt? program scope).any (·.isScope) = true := by
  induction place using List.reverseRecOn with
  | nil => simp [scopesAround_nil, Path.encloses_nil]
  | append_singleton place i ih =>
    rw [scopesAround_concat, Path.encloses_concat, or_and_right, ← ih]
    split
    · next h =>
      rw [List.mem_cons]
      exact or_congr_left ⟨fun he => ⟨he, he ▸ h⟩, And.left⟩
    · next h => exact (or_iff_right fun ⟨he, hs⟩ => h (he ▸ hs)).symm

theorem not_declaresBefore_nil : ¬ DeclaresBefore program scope x [] := by
  rintro ⟨i, part, name, -, -, -, hlt⟩
  exact List.not_lt_nil _ hlt

/-- What a scope declares before a part of a node, it declares before the node, or the node itself
is the declaration. -/
theorem declaresBefore_concat (hnode : nodeAt? program place = some node)
    (h : Path.Encloses scope place) : DeclaresBefore program scope x (place ++ [i]) ↔
      DeclaresBefore program scope x place ∨
        ∃ k name, place = scope ++ [k] ∧ node.declared? = some name ∧ name.lexeme = x := by
  constructor
  · rintro ⟨k, part, name, hpart, hname, hx, hlt⟩
    rcases (h.part_lt_concat k i).1 hlt with hlt | rfl
    · exact .inl ⟨k, part, name, hpart, hname, hx, hlt⟩
    · obtain rfl : node = part := Option.some.inj (hnode.symm.trans hpart)
      exact .inr ⟨k, name, rfl, hname, hx⟩
  · rintro (⟨k, part, name, hpart, hname, hx, hlt⟩ | ⟨k, name, rfl, hname, hx⟩)
    · exact ⟨k, part, name, hpart, hname, hx, (h.part_lt_concat k i).2 (.inl hlt)⟩
    · exact ⟨k, node, name, hnode, hname, hx, (h.part_lt_concat k i).2 (.inr rfl)⟩

/-- What a node declares in itself before one of its parts is declared by the parts before. -/
theorem declaresBefore_part (hnode : nodeAt? program place = some node) :
    DeclaresBefore program place x (place ++ [i]) ↔ x ∈ Node.declaredIn (node.parts.take i) := by
  have hpart (k : Nat) : nodeAt? program (place ++ [k]) = node.parts[k]? := by
    rw [nodeAt?_concat, hnode]
    rfl
  have hbefore (part : Node) :
      part ∈ node.parts.take i ↔ ∃ k, node.parts[k]? = some part ∧ k < i := by
    simp only [List.mem_iff_getElem?, List.getElem?_take, Option.ite_none_right_eq_some,
      and_comm]
  simp only [DeclaresBefore, hpart, Path.concat_lt_concat, Node.declaredIn, List.mem_filterMap,
    Option.map_eq_some_iff, hbefore]
  constructor
  · rintro ⟨k, part, name, hk, hname, hx, hlt⟩
    exact ⟨part, ⟨k, hk, hlt⟩, name, hname, hx⟩
  · rintro ⟨part, ⟨k, hk, hlt⟩, name, hname, hx⟩
    exact ⟨k, part, name, hk, hname, hx, hlt⟩

end Program

end Lox
