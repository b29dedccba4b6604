import Lox.Proofs.Binding.Accepted
import Lox.Proofs.Binding.Walk

/-!
# What stands around a place

A walk from the root of a program comes to every place with what the tree says of it: the names in
each scope are those that the scope declares before the place, the global names are those that were
bound before the run or are declared above, and so on (`Context.Knows`, `knows_below`). This takes
that declarations stand in a program, a block or a function and nowhere else, as in every program
that is parsed.
-/

namespace Lox

namespace Node

/-- What a branch or a loop repeats, anywhere in the node, declares nothing. -/
def Proper : Node → Prop
  | program body => Stmt.ProperAll body
  | stmt s => s.Proper
  | _ => True

variable {n part m : Node}

/-- A proper node has proper parts, and of these only the parts of a scope or of a program declare
a name. -/
theorem Proper.of_mem_parts (h : n.Proper) (hpart : part ∈ n.parts) :
    part.Proper ∧ (part.declared? ≠ none → n.isScope = true ∨ ∃ body, n = .program body) := by
  have hexpr {e? : Option Expr} (hpart : part ∈ e?.toList.map Node.expr) :
      part.Proper ∧ (part.declared? ≠ none → n.isScope = true ∨ ∃ body, n = .program body) := by
    obtain ⟨e, -, rfl⟩ := List.mem_map.1 hpart
    exact ⟨trivial, fun hd => absurd rfl hd⟩
  have hbody {body : List Stmt} (hb : Stmt.ProperAll body) (hpart : part ∈ body.map Node.stmt) :
      part.Proper := by
    obtain ⟨s, hs, rfl⟩ := List.mem_map.1 hpart
    exact (Stmt.properAll_iff body).1 hb s hs
  cases n with
  | program body => exact ⟨hbody h hpart, fun _ => .inr ⟨body, rfl⟩⟩
  | expr e =>
    obtain ⟨e, -, rfl⟩ := List.mem_map.1 hpart
    exact ⟨trivial, fun hd => absurd rfl hd⟩
  | param name => cases hpart
  | stmt s =>
    cases s with
    | expression value | print value =>
      exact hexpr (show _ ∈ (some value).toList.map Node.expr from hpart)
    | var name initial | exit name initial => exact hexpr hpart
    | block body => exact ⟨hbody h hpart, fun _ => .inl rfl⟩
    | function name params body =>
      refine ⟨?_, fun _ => .inl rfl⟩
      rcases List.mem_append.1 hpart with hpart | hpart
      · obtain ⟨p, -, rfl⟩ := List.mem_map.1 hpart
        trivial
      · exact hbody h hpart
    | branch condition onTrue onFalse =>
      rcases List.mem_cons.1 hpart with rfl | hpart
      · exact ⟨trivial, fun hd => absurd rfl hd⟩
      cases onFalse with
      | none =>
        obtain rfl := List.mem_singleton.1 hpart
        exact ⟨h.2, fun hd => absurd h.1 hd⟩
      | some onFalse =>
        rcases List.mem_pair.1 hpart with rfl | rfl
        · exact ⟨h.1.2, fun hd => absurd h.1.1 hd⟩
        · exact ⟨h.2.2, fun hd => absurd h.2.1 hd⟩
    | loop condition body =>
      rcases List.mem_pair.1 hpart with rfl | rfl
      · exact ⟨trivial, fun hd => absurd rfl hd⟩
      · exact ⟨h.2, fun hd => absurd h.1 hd⟩

theorem Proper.of_at? (place : Path) :
    ∀ {n : Node}, n.Proper → n.at? place = some m → m.Proper := by
  induction place with
  | nil =>
    rintro n h ⟨⟩
    exact h
  | cons i place ih =>
    intro n h hm
    obtain ⟨part, hpart, hm⟩ := Option.bind_eq_some_iff.1 hm
    exact ih (h.of_mem_parts (List.mem_of_getElem? hpart)).1 hm

theorem program_notMem_parts {body : List Stmt} : Node.program body ∉ n.parts := by
  cases n with
  | stmt s => cases s <;> simp [parts, Stmt.parts]
  | _ => simp [parts]

theorem at?_expr (place : Path) : ∀ {e : Expr}, (Node.expr e).at? place = some m →
    ∃ e', m = .expr e' := by
  induction place with
  | nil =>
    rintro e ⟨⟩
    exact ⟨e, rfl⟩
  | cons i place ih =>
    intro e hm
    obtain ⟨part, hpart, hm⟩ := Option.bind_eq_some_iff.1 hm
    obtain ⟨e', -, rfl⟩ := List.mem_map.1 (List.mem_of_getElem? hpart)
    exact ih hm

end Node

section Program

variable {program : List Stmt} {place scope : Path} {node : Node} {name : Token}

theorem eq_nil_of_program {body : List Stmt} (h : nodeAt? program place = some (.program body)) :
    place = [] := by
  rcases List.eq_nil_or_concat place with rfl | ⟨outer, i, rfl⟩
  · rfl
  · rw [List.concat_eq_append, nodeAt?_concat] at h
    obtain ⟨m, -, h⟩ := Option.bind_eq_some_iff.1 h
    exact absurd (List.mem_of_getElem? h) Node.program_notMem_parts

/-- A name is declared directly in the program or in a scope. -/
theorem declared_place (hp : Stmt.ProperAll program) (hnode : nodeAt? program place = some node)
    (hd : node.declared? = some name) : ∃ outer i, place = outer ++ [i] ∧
      (outer = [] ∨ (nodeAt? program outer).any (·.isScope) = true) := by
  rcases List.eq_nil_or_concat place with rfl | ⟨outer, i, rfl⟩
  · cases hnode
    cases hd
  · refine ⟨outer, i, List.concat_eq_append, ?_⟩
    rw [List.concat_eq_append, nodeAt?_concat] at hnode
    obtain ⟨m, hm, hnode⟩ := Option.bind_eq_some_iff.1 hnode
    have hproper : m.Proper := Node.Proper.of_at? outer (n := .program program) hp hm
    have hd : node.declared? ≠ none := hd ▸ nofun
    rcases (hproper.of_mem_parts (List.mem_of_getElem? hnode)).2 hd with hscope | ⟨body, rfl⟩
    · exact .inr (by rw [hm]; exact hscope)
    · exact .inl (eq_nil_of_program hm)

/-- In an initializer there are expressions only. -/
theorem expr_of_encloses {initial : Option Expr} (h : scope.Encloses place)
    (hvar : nodeAt? program scope = some (.stmt (.var name initial)))
    (hnode : nodeAt? program place = some node) : ∃ e, node = .expr e := by
  obtain ⟨i, inner, rfl⟩ := h
  rw [nodeAt?, Node.at?_append] at hnode
  obtain ⟨m, hm, hnode⟩ := Option.bind_eq_some_iff.1 hnode
  obtain rfl : Node.stmt (.var name initial) = m := Option.some.inj (hvar.symm.trans hm)
  obtain ⟨part, hpart, hnode⟩ := Option.bind_eq_some_iff.1 hnode
  obtain ⟨e, -, rfl⟩ := List.mem_map.1 (List.mem_of_getElem? hpart)
  exact Node.at?_expr inner hnode

end Program

/-- A place in the body of a function. -/
def InFunction (program : List Stmt) (place : Path) : Prop :=
  ∃ (outer : Path) (name : Token) (params : List Token) (body : List Stmt),
    outer.Encloses place ∧ nodeAt? program outer = some (.stmt (.function name params body))

/-- A place in the initializer of a variable `x` that must not be read there: one of a block or a
function, or a global one that is neither bound nor declared before. -/
def InOwnInitializer (program : List Stmt) (globals : List String) (x : String) (place : Path) :
    Prop :=
  ∃ (outer : Path) (name : Token) (initial : Option Expr),
    outer.Encloses place ∧ nodeAt? program outer = some (.stmt (.var name initial)) ∧
      name.lexeme = x ∧
      (outer.length = 1 → x ∉ globals ∧ ¬ DeclaresBefore program [] x outer)

/-- A context says of a place what the tree says. -/
structure Context.Knows (program : List Stmt) (globals : List String) (place : Path)
    (c : Context) : Prop where
  names : List.Forall₂
    (fun scope declared => ∀ x, x ∈ declared ↔ DeclaresBefore program scope x place)
    (scopesAround program place) c.here.names
  bound : ∀ x, x ∈ c.here.globals ↔ x ∈ globals ∨ DeclaresBefore program [] x place
  inFunction : c.here.inFunction = true ↔ InFunction program place
  own : ∀ x, c.own? = some x ↔ InOwnInitializer program globals x place

namespace Surroundings

variable {here : Surroundings} {s : Stmt} {name : Token} {scope : List String} {outer : Names}

theorem after_of_none (hs : s.declared? = none) : here.after s = here := by
  rw [after, hs]

theorem after_of_scope (hs : s.declared? = some name) (h : here.names = scope :: outer) :
    here.after s = { here with names := (name.lexeme :: scope) :: outer } := by
  simp only [after, hs, declare, h, List.isEmpty_cons, Bool.false_eq_true, if_false, Names.declare]

theorem after_of_top (hs : s.declared? = some name) (h : here.names = []) :
    here.after s = { here with globals := name.lexeme :: here.globals } := by
  simp only [after, hs, declare, h, List.isEmpty_nil, if_true]

/-- A row of statements in a scope adds what they declare. -/
theorem foldl_after_scope : ∀ (ss : List Stmt) (here : Surroundings) {scope : List String},
    here.names = scope :: outer → ss.foldl .after here =
      { here with names := ((Node.declaredIn (ss.map .stmt)).reverse ++ scope) :: outer }
  | [], here, scope, h => by
    rw [List.map_nil, List.foldl_nil, Node.declaredIn, List.filterMap_nil, List.reverse_nil,
      List.nil_append, ← h]
  | s :: ss, here, scope, h => by
    rw [List.foldl_cons]
    cases hs : s.declared? with
    | none =>
      rw [after_of_none hs, foldl_after_scope ss here h]
      simp [Node.declaredIn, Node.declared?, hs]
    | some name =>
      rw [after_of_scope hs h, foldl_after_scope ss _ rfl]
      simp [Node.declaredIn, Node.declared?, hs]

/-- Outside all scopes it adds global names. -/
theorem foldl_after_top : ∀ (ss : List Stmt) {here : Surroundings}, here.names = [] →
    ss.foldl .after here =
      { here with globals := (Node.declaredIn (ss.map .stmt)).reverse ++ here.globals }
  | [], here, _ => rfl
  | s :: ss, here, h => by
    rw [List.foldl_cons]
    cases hs : s.declared? with
    | none =>
      rw [after_of_none hs, foldl_after_top ss h]
      simp [Node.declaredIn, Node.declared?, hs]
    | some name =>
      rw [after_of_top hs h, foldl_after_top ss (by exact h)]
      simp [Node.declaredIn, Node.declared?, hs]

theorem forbidden?_eq_some {x y : String} :
    here.forbidden? y = some x ↔ y = x ∧ (here.names = [] → y ∉ here.globals) := by
  by_cases h : here.names = [] ∧ y ∈ here.globals
  · have hnone : here.forbidden? y = none := by simp [forbidden?, h.1, h.2]
    rw [hnone]
    exact ⟨nofun, fun h' => absurd h.2 (h'.2 h.1)⟩
  · have hsome : here.forbidden? y = some y := by
      simpa [forbidden?] using fun hn hy => h ⟨hn, hy⟩
    rw [hsome, Option.some.injEq]
    exact ⟨fun hx => ⟨hx, fun hn hy => h ⟨hn, hy⟩⟩, And.left⟩

theorem inFunction_declare (here : Surroundings) (x : String) :
    (here.declare x).inFunction = here.inFunction := by
  unfold declare
  split <;> rfl

end Surroundings

section Steps

variable {program : List Stmt} {globals : List String} {place : Path} {node : Node} {c : Context}
  {i : Nat} {x : String}

theorem inFunction_concat (hnode : nodeAt? program place = some node) :
    InFunction program (place ++ [i]) ↔
      (∃ name params body, node = .stmt (.function name params body)) ∨
        InFunction program place := by
  constructor
  · rintro ⟨outer, name, params, body, h, hf⟩
    rcases Path.encloses_concat.1 h with rfl | h
    · exact .inl ⟨name, params, body, Option.some.inj (hnode.symm.trans hf)⟩
    · exact .inr ⟨outer, name, params, body, h, hf⟩
  · rintro (⟨name, params, body, rfl⟩ | ⟨outer, name, params, body, h, hf⟩)
    · exact ⟨place, name, params, body, Path.encloses_concat.2 (.inl rfl), hnode⟩
    · exact ⟨outer, name, params, body, Path.encloses_concat.2 (.inr h), hf⟩

theorem inOwnInitializer_concat (hnode : nodeAt? program place = some node) :
    InOwnInitializer program globals x (place ++ [i]) ↔
      (∃ name initial, node = .stmt (.var name initial) ∧ name.lexeme = x ∧
        (place.length = 1 → x ∉ globals ∧ ¬ DeclaresBefore program [] x place)) ∨
      InOwnInitializer program globals x place := by
  constructor
  · rintro ⟨outer, name, initial, h, hvar, hrest⟩
    rcases Path.encloses_concat.1 h with rfl | h
    · exact .inl ⟨name, initial, Option.some.inj (hnode.symm.trans hvar), hrest⟩
    · exact .inr ⟨outer, name, initial, h, hvar, hrest⟩
  · rintro (⟨name, initial, rfl, hrest⟩ | ⟨outer, name, initial, h, hvar, hrest⟩)
    · exact ⟨place, name, initial, Path.encloses_concat.2 (.inl rfl), hnode, hrest⟩
    · exact ⟨outer, name, initial, Path.encloses_concat.2 (.inr h), hvar, hrest⟩

/-- An initializer holds expressions, so nothing else is in one. -/
theorem not_inOwnInitializer (hnode : nodeAt? program place = some node)
    (h : ∀ e, node ≠ .expr e) : ¬ InOwnInitializer program globals x place := by
  rintro ⟨outer, name, initial, hin, hvar, -⟩
  obtain ⟨e, rfl⟩ := expr_of_encloses hin hvar hnode
  exact h e rfl

theorem none_iff_inOwnInitializer (hnode : nodeAt? program place = some node)
    (he : ∀ e, node ≠ .expr e) (hv : ∀ name initial, node ≠ .stmt (.var name initial))
    (x : String) : none = some x ↔ InOwnInitializer program globals x (place ++ [i]) := by
  refine ⟨nofun, fun hx => ?_⟩
  rcases (inOwnInitializer_concat hnode).1 hx with ⟨name, initial, hvar, -⟩ | hx
  · exact absurd hvar (hv name initial)
  · exact absurd hx (not_inOwnInitializer hnode he)

namespace Context.Knows

/-- A node that declares nothing leaves the names as they are. -/
theorem quiet (h : c.Knows program globals place) (hnode : nodeAt? program place = some node)
    (hplace : place ≠ []) (hd : node.declared? = none) (i : Nat) :
    List.Forall₂ (fun scope declared => ∀ x, x ∈ declared ↔
      DeclaresBefore program scope x (place ++ [i])) (scopesAround program place) c.here.names ∧
    ∀ x, x ∈ c.here.globals ↔ x ∈ globals ∨ DeclaresBefore program [] x (place ++ [i]) := by
  have hsame {scope : Path} {x : String} (hscope : scope.Encloses place) :
      DeclaresBefore program scope x (place ++ [i]) ↔ DeclaresBefore program scope x place := by
    refine (declaresBefore_concat hnode hscope).trans (or_iff_left ?_)
    rintro ⟨k, name, -, hname, -⟩
    cases hd.symm.trans hname
  constructor
  · have hin := (List.forall₂_and_left _ _).2
      ⟨fun scope hscope => (mem_scopesAround.1 hscope).1, h.names⟩
    exact hin.imp fun scope declared ⟨hscope, hx⟩ x => (hx x).trans (hsame hscope).symm
  · exact fun x => (h.bound x).trans (or_congr_right (hsame (Path.nil_encloses hplace)).symm)

/-- What a statement declares is seen in its parts. -/
theorem after (h : c.Knows program globals place) (hp : Stmt.ProperAll program) {s : Stmt}
    (hs : nodeAt? program place = some (.stmt s)) (i : Nat) :
    List.Forall₂ (fun scope declared => ∀ x, x ∈ declared ↔
      DeclaresBefore program scope x (place ++ [i])) (scopesAround program place)
      (c.here.after s).names ∧
    ∀ x, x ∈ (c.here.after s).globals ↔
      x ∈ globals ∨ DeclaresBefore program [] x (place ++ [i]) := by
  have hplace : place ≠ [] := by
    rintro rfl
    cases hs
  cases hd : s.declared? with
  | none =>
    rw [Surroundings.after_of_none hd]
    exact h.quiet hs hplace hd i
  | some name =>
    obtain ⟨outer, k, rfl, houter⟩ := declared_place hp hs hd
    have hstep {scope : Path} {x : String} (hscope : scope.Encloses (outer ++ [k])) :
        DeclaresBefore program scope x (outer ++ [k] ++ [i]) ↔
          DeclaresBefore program scope x (outer ++ [k]) ∨ outer = scope ∧ name.lexeme = x := by
      rw [declaresBefore_concat hs hscope]
      refine or_congr_right ⟨?_, ?_⟩
      · rintro ⟨k', name', h, hname, hx⟩
        obtain rfl : name = name' := Option.some.inj (hd.symm.trans hname)
        exact ⟨List.append_inj_left' h rfl, hx⟩
      · rintro ⟨rfl, hx⟩
        exact ⟨k, name, rfl, hd, hx⟩
    have hnames := h.names
    rcases houter with rfl | houter
    · have htop : scopesAround program ([] ++ [k]) = [] := scopesAround_concat
      rw [htop] at hnames ⊢
      replace hnames := List.forall₂_nil_left_iff.1 hnames
      rw [Surroundings.after_of_top hd hnames]
      refine ⟨hnames ▸ .nil, fun x => ?_⟩
      rw [hstep (Path.nil_encloses hplace), List.mem_cons, h.bound x]
      simp [or_assoc, or_comm, eq_comm]
    · rw [scopesAround_concat, if_pos houter] at hnames ⊢
      obtain ⟨declared, rest, hhead, htail, heq⟩ := List.forall₂_cons_left_iff.1 hnames
      rw [Surroundings.after_of_scope hd heq]
      refine ⟨.cons (fun x => ?_) ?_, fun x => ?_⟩
      · rw [hstep ⟨k, [], rfl⟩, List.mem_cons, hhead x]
        simp [or_comm, eq_comm]
      · have hin := (List.forall₂_and_left _ _).2
          ⟨fun scope hscope => (mem_scopesAround.1 hscope).1, htail⟩
        refine hin.imp fun scope declared ⟨hscope, hx⟩ x => ?_
        rw [hstep (Path.encloses_concat.2 (.inr hscope)), hx]
        exact (or_iff_left fun ⟨he, _⟩ => hscope.ne he.symm).symm
      · have hne : outer ≠ [] := by
          rintro rfl
          cases houter
        have hsame := (hstep (x := x) (Path.nil_encloses hplace)).trans
          (or_iff_left fun ⟨he, _⟩ => hne he)
        exact (h.bound x).trans (or_congr_right hsame.symm)

section Inside

variable (h : c.Knows program globals place) (hp : Stmt.ProperAll program)

include h

/-- Only a function is one. -/
theorem inFunction_inside (hnode : nodeAt? program place = some node)
    (hf : ∀ name params body, node ≠ .stmt (.function name params body)) (i : Nat) :
    c.here.inFunction = true ↔ InFunction program (place ++ [i]) := by
  rw [h.inFunction, inFunction_concat hnode]
  exact (or_iff_right fun ⟨name, params, body, he⟩ => hf name params body he).symm

theorem inside_program (hnode : nodeAt? program place = some (.program program)) (i : Nat) :
    (c.inside (.program program) i).Knows program globals (place ++ [i]) := by
  obtain rfl := eq_nil_of_program hnode
  have hnames : c.here.names = [] := List.forall₂_nil_left_iff.1 h.names
  have hinside : c.inside (.program program) i = ⟨_, none⟩ :=
    congrArg (Context.mk · none) (Surroundings.foldl_after_top (program.take i) hnames)
  rw [hinside]
  refine ⟨?_, fun x => ?_, h.inFunction_inside hnode nofun i,
    none_iff_inOwnInitializer hnode nofun nofun⟩
  · rw [scopesAround_of_not_scope hnode rfl, scopesAround_nil]
    exact hnames ▸ .nil
  · have hbound : x ∈ c.here.globals ↔ x ∈ globals :=
      (h.bound x).trans (or_iff_left not_declaresBefore_nil)
    rw [declaresBefore_part hnode, List.mem_append, List.mem_reverse, hbound, or_comm,
      List.map_take]
    rfl

theorem inside_expr {e : Expr} (hnode : nodeAt? program place = some (.expr e)) (i : Nat) :
    (c.inside (.expr e) i).Knows program globals (place ++ [i]) := by
  have hplace : place ≠ [] := by
    rintro rfl
    cases hnode
  obtain ⟨hnames, hbound⟩ := h.quiet hnode hplace rfl i
  refine ⟨scopesAround_of_not_scope hnode rfl ▸ hnames, hbound, h.inFunction_inside hnode nofun i,
    fun x => (h.own x).trans ?_⟩
  exact ((inOwnInitializer_concat hnode).trans (or_iff_right nofun)).symm

include hp

theorem inside_block {body : List Stmt} (hnode : nodeAt? program place = some (.stmt (.block body)))
    (i : Nat) : (c.inside (.stmt (.block body)) i).Knows program globals (place ++ [i]) := by
  obtain ⟨hnames, hbound⟩ := h.after hp hnode i
  have hinside : c.inside (.stmt (.block body)) i = ⟨_, none⟩ := congrArg (Context.mk · none)
    (Surroundings.foldl_after_scope (body.take i) (c.here.enter []) rfl)
  rw [hinside]
  refine ⟨?_, hbound, h.inFunction_inside hnode nofun i,
    none_iff_inOwnInitializer hnode nofun nofun⟩
  rw [scopesAround_of_scope hnode rfl]
  refine .cons (fun x => ?_) hnames
  rw [declaresBefore_part hnode, List.append_nil, List.mem_reverse, List.map_take]
  rfl

theorem inside_function {name : Token} {params : List Token} {body : List Stmt}
    (hnode : nodeAt? program place = some (.stmt (.function name params body))) (i : Nat) :
    (c.inside (.stmt (.function name params body)) i).Knows program globals (place ++ [i]) := by
  obtain ⟨hnames, hbound⟩ := h.after hp hnode i
  let inner := (c.here.declare name.lexeme).enter ((params.take i).map (·.lexeme))
  have hinside : c.inside (.stmt (.function name params body)) i = ⟨_, none⟩ :=
    congrArg (Context.mk · none) (Surroundings.foldl_after_scope (body.take (i - params.length))
      { inner with inFunction := true } rfl)
  have hin : InFunction program (place ++ [i]) :=
    (inFunction_concat hnode).2 (.inl ⟨name, params, body, rfl⟩)
  rw [hinside]
  refine ⟨?_, hbound, iff_of_true rfl hin, none_iff_inOwnInitializer hnode nofun nofun⟩
  rw [scopesAround_of_scope hnode rfl]
  refine .cons (fun x => ?_) hnames
  have hparts : (Node.stmt (.function name params body)).parts.take i =
      (params.take i).map .param ++ (body.take (i - params.length)).map .stmt := by
    have hlength : (params.map Node.param).length = params.length := List.length_map _
    rw [List.map_take, List.map_take, ← hlength, ← List.take_append]
    rfl
  rw [declaresBefore_part hnode, hparts, Node.declaredIn_append, Node.declaredIn_params,
    List.mem_append, List.mem_append, List.mem_reverse, or_comm]

/-- A declaration stands in no scope if it stands directly in the program. -/
theorem names_eq_nil_iff {name : Token} (hnode : nodeAt? program place = some node)
    (hd : node.declared? = some name) : c.here.names = [] ↔ place.length = 1 := by
  obtain ⟨outer, k, rfl, houter⟩ := declared_place hp hnode hd
  have hnames := h.names
  rcases houter with rfl | houter
  · exact iff_of_true (List.forall₂_nil_left_iff.1 hnames) rfl
  · rw [scopesAround_concat, if_pos houter] at hnames
    obtain ⟨declared, rest, -, -, heq⟩ := List.forall₂_cons_left_iff.1 hnames
    have hne : outer ≠ [] := by
      rintro rfl
      cases houter
    rw [heq, List.length_append, List.length_singleton]
    simpa using hne

/-- The initializer of a variable must not read it, unless it is a global one that is bound. -/
theorem inside_var {name : Token} {initial : Option Expr}
    (hnode : nodeAt? program place = some (.stmt (.var name initial))) (i : Nat) :
    (c.inside (.stmt (.var name initial)) i).Knows program globals (place ++ [i]) := by
  obtain ⟨hnames, hbound⟩ := h.after hp hnode i
  have hfunction := Bool.eq_iff_iff.1 (c.here.inFunction_declare name.lexeme)
  refine ⟨scopesAround_of_not_scope hnode rfl ▸ hnames, hbound,
    hfunction.trans (h.inFunction_inside hnode nofun i), fun x => ?_⟩
  have htop : c.here.names = [] ↔ place.length = 1 := h.names_eq_nil_iff hp hnode rfl
  have hnone : ¬ InOwnInitializer program globals x place := not_inOwnInitializer hnode nofun
  refine Surroundings.forbidden?_eq_some.trans ?_
  rw [inOwnInitializer_concat hnode, or_iff_left hnone, htop, h.bound, not_or]
  constructor
  · rintro ⟨rfl, hx⟩
    exact ⟨name, initial, rfl, rfl, hx⟩
  · rintro ⟨_, _, ⟨⟩, rfl, hx⟩
    exact ⟨rfl, hx⟩

theorem inside {part : Node} (hnode : nodeAt? program place = some node)
    (hpart : node.parts[i]? = some part) :
    (c.inside node i).Knows program globals (place ++ [i]) := by
  cases node with
  | param name => cases hpart
  | expr e => exact h.inside_expr hnode i
  | program body =>
    obtain rfl := eq_nil_of_program hnode
    cases hnode
    exact h.inside_program rfl i
  | stmt s =>
    obtain ⟨hnames, hbound⟩ := h.after hp hnode i
    cases s with
    | block body => exact h.inside_block hp hnode i
    | function name params body => exact h.inside_function hp hnode i
    | var name initial => exact h.inside_var hp hnode i
    | _ =>
      exact ⟨scopesAround_of_not_scope hnode rfl ▸ hnames, hbound,
        h.inFunction_inside hnode nofun i, none_iff_inOwnInitializer hnode nofun nofun⟩

end Inside

end Context.Knows

end Steps

/-- A walk from the root of a program knows what stands around every place. -/
theorem knows_below {program : List Stmt} (hp : Stmt.ProperAll program) (globals : List String)
    (place : Path) : ∀ {node : Node}, nodeAt? program place = some node →
      (Context.below ⟨⟨[], globals, false⟩, none⟩ (.program program) place).Knows program globals
        place := by
  induction place using List.reverseRecOn with
  | nil =>
    rintro node -
    exact {
      names := .nil
      bound := fun x => (or_iff_left not_declaresBefore_nil).symm
      inFunction := ⟨nofun, fun ⟨_, _, _, _, h, _⟩ => absurd h Path.encloses_nil⟩
      own := fun x => ⟨nofun, fun ⟨_, _, _, h, _⟩ => absurd h Path.encloses_nil⟩ }
  | append_singleton place i ih =>
    intro part hpart
    rw [nodeAt?_concat] at hpart
    obtain ⟨node, hnode, hpart⟩ := Option.bind_eq_some_iff.1 hpart
    rw [Context.below_concat hpart place hnode]
    exact (ih hnode).inside hp hnode hpart

end Lox
