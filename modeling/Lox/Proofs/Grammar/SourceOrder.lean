import Lox.Binding.Rule
import Lox.Proofs.Grammar.Sentence

/-!
# Breaches in the order of the source

The tokens at which the breaches in a sentence are reported stand in it in the same order
(`Sentence.Program.violations_inOrder`). The tree of a `for` has its increment after its body, but
neither an increment nor a condition is ever in breach.
-/

namespace Lox

/-- Breaches at some of the tokens in a row, from left to right. -/
def InOrder (errors : List BindingError) (ts : List Token) : Prop :=
  (errors.map (·.token)).Sublist ts

namespace InOrder

variable {errors others : List BindingError} {ts us : List Token}

theorem nil (ts : List Token) : InOrder [] ts :=
  List.nil_sublist ts

theorem one (cause : BindingFault) (t : Token) : InOrder [⟨cause, t⟩] [t] :=
  List.Sublist.refl [t]

theorem append (h : InOrder errors ts) (h' : InOrder others us) :
    InOrder (errors ++ others) (ts ++ us) := by
  unfold InOrder
  rw [List.map_append]
  exact List.Sublist.append h h'

theorem cons (h : InOrder errors ts) (t : Token) : InOrder errors (t :: ts) :=
  List.Sublist.cons t h

theorem sublist (h : InOrder errors ts) (hs : ts.Sublist us) : InOrder errors us :=
  List.Sublist.trans h hs

theorem left (h : InOrder errors ts) (us : List Token) : InOrder errors (ts ++ us) :=
  h.sublist (List.sublist_append_left ts us)

theorem right (h : InOrder errors us) (ts : List Token) : InOrder errors (ts ++ us) :=
  h.sublist (List.sublist_append_right ts us)

end InOrder

theorem Surroundings.redeclaration_inOrder (here : Surroundings) (name : Token) :
    InOrder (here.redeclaration name) [name] := by
  unfold redeclaration
  split
  · exact .nil _
  · split
    · exact .one _ name
    · exact .nil _

theorem repeatedParams_inOrder : ∀ (earlier : List String) (ps : List Token),
    InOrder (repeatedParams earlier ps) ps
  | _, [] => .nil _
  | earlier, p :: ps => by
    have hrest := repeatedParams_inOrder (p.lexeme :: earlier) ps
    rw [repeatedParams]
    split
    · exact (InOrder.one .redeclared p).append hrest
    · exact hrest.cons p

namespace Sentence

theorem Separated.flatten_sublist {phrases : List (List Token)} {ts : List Token}
    (h : Separated phrases ts) : phrases.flatten.Sublist ts := by
  induction h with
  | none => exact .slnil
  | one ts => simp
  | more ts comma hc hr ih => exact (List.Sublist.refl ts).append (ih.cons comma)

theorem Expression.readsOf_inOrder (own : String) {rank : Rank} {ts : List Token} {e : Expr}
    (h : Expression rank ts e) : InOrder (e.readsOf own) ts := by
  induction h with
  | assign name equals _ _ _ ih => exact (ih.cons equals).cons name
  | operand _ _ ih => exact ih
  | @operator rank left right a b op _ _ _ ihl ihr =>
    have happend : (rank.node a op b).readsOf own = a.readsOf own ++ b.readsOf own := by
      cases rank <;> rfl
    rw [happend]
    exact ihl.append (ihr.cons op)
  | unary op _ _ ih => exact ih.cons op
  | @call _ inner _ arguments opening closing _ _ _ hs _ _ ihf iha =>
    have hall : ∀ arguments : List (List Token × Expr),
        (∀ a ∈ arguments, InOrder (a.2.readsOf own) a.1) →
        InOrder (Expr.readsOfAll own (arguments.map (·.2))) (arguments.map (·.1)).flatten := by
      intro arguments h
      induction arguments with
      | nil => exact .nil _
      | cons a arguments ih =>
        obtain ⟨ha, h⟩ := List.forall_mem_cons.1 h
        exact ha.append (ih h)
    have harguments := ((hall arguments iha).sublist hs.flatten_sublist).cons opening
    exact (ihf.append harguments).left [closing]
  | literal t _ => exact .nil _
  | name t _ =>
    rw [Expr.readsOf]
    split
    · exact .one _ t
    · exact .nil _
  | grouping opening closing _ _ _ ih => exact (ih.left [closing]).cons opening

theorem VarDecl.violations_inOrder {ts : List Token} {s : Stmt} (h : VarDecl ts s)
    (here : Surroundings) : InOrder (s.violations here) ts := by
  cases h with
  | plain var name semicolon _ _ _ =>
    exact (((here.redeclaration_inOrder name).append (.nil [semicolon])).cons var)
  | @initialized ts e var name equals semicolon _ _ _ h _ =>
    have hname := here.redeclaration_inOrder name
    cases hforbidden : here.forbidden? name.lexeme with
    | none =>
      simp only [Stmt.violations, hforbidden]
      exact ((hname.append (.nil (equals :: ts))).cons var).left [semicolon]
    | some x =>
      simp only [Stmt.violations, hforbidden]
      have hreads := (h.readsOf_inOrder x).cons equals
      exact ((hname.append hreads).cons var).left [semicolon]

theorem ForInitial.violations_inOrder {ts : List Token} {s : Stmt} (h : ForInitial ts (some s))
    (here : Surroundings) : InOrder (s.violations here) ts := by
  cases h with
  | var h => exact h.violations_inOrder here
  | expression h =>
    cases h
    exact .nil _

theorem violationsOfAll_inOrder : ∀ {body : List (List Token × Stmt)},
    (∀ d ∈ body, ∀ here, InOrder (d.2.violations here) d.1) → ∀ here,
      InOrder (Stmt.violationsOfAll here (body.map (·.2))) (body.flatMap (·.1))
  | [], _, _ => .nil _
  | d :: body, h, here => by
    obtain ⟨hd, h⟩ := List.forall_mem_cons.1 h
    exact (hd here).append (violationsOfAll_inOrder h (here.after d.2))

/-- The breaches in a declaration or statement, wherever it stands. -/
theorem Statement.violations_inOrder {phrase : Phrase} {ts : List Token} {s : Stmt}
    (h : Statement phrase ts s) : ∀ here : Surroundings, InOrder (s.violations here) ts := by
  induction h with
  | @function inner params body fn name opening closing left right _ _ _ _ hs _ _ _ _ _ ih =>
    intro here
    have hparams : InOrder (repeatedParams [] params) inner := by
      have hflatten : (params.map ([·])).flatten = params := by
        rw [← List.flatMap_def, List.flatMap_singleton']
      have hsub := hs.flatten_sublist
      rw [hflatten] at hsub
      exact (repeatedParams_inOrder [] params).sublist hsub
    have hhead := ((here.redeclaration_inOrder name).append (hparams.cons opening)).cons fn
    have hbody (here : Surroundings) :=
      ((violationsOfAll_inOrder ih here).cons left).cons closing
    exact (hhead.append (hbody _)).left [right]
  | var h => exact h.violations_inOrder
  | statement _ ih => exact ih
  | expression h =>
    cases h
    exact fun _ => .nil _
  | print => exact fun _ => .nil _
  | block body left right _ _ _ ih =>
    exact fun here => ((violationsOfAll_inOrder ih (here.enter [])).cons left).left [right]
  | @exit ts value keyword semicolon _ _ _ =>
    intro here
    have hkeyword : InOrder ((Stmt.exit keyword value).violations here) [keyword] := by
      rw [Stmt.violations]
      split
      · exact .nil _
      · exact .one _ keyword
    exact (hkeyword.left ts).left [semicolon]
  | loop keyword opening closing _ _ _ _ _ ih =>
    exact fun here => ((ih here).cons closing).right _
  | @counted _ is cs ns ts initial condition increment body keyword opening semicolon closing _ _ hi
      _ _ _ _ _ ih =>
    intro here
    let round := increment.elim body fun i => .block [body, .expression i]
    have hround (here : Surroundings) : InOrder (round.violations here) (closing :: ts) := by
      cases increment with
      | none => exact (ih here).cons closing
      | some i =>
        have happend : (Stmt.block [body, .expression i]).violations here =
            body.violations (here.enter []) := by
          simp [Stmt.violations, Stmt.violationsOfAll]
        exact happend ▸ (ih _).cons closing
    cases initial with
    | none => exact (hround here).right _
    | some s =>
      have happend : (loopOf (some s) condition increment body).violations here =
          s.violations (here.enter []) ++ round.violations ((here.enter []).after s) := by
        simp [loopOf, Stmt.violations, Stmt.violationsOfAll, round]
      have hinitial := (((hi.violations_inOrder (here.enter [])).cons opening).cons keyword)
      rw [happend]
      exact ((hinitial.left cs).left (semicolon :: ns)).append (hround _)
  | ifThen keyword opening closing _ _ _ _ _ ih =>
    exact fun here => ((ih here).cons closing).right _
  | ifElse keyword opening closing otherwise _ _ _ _ _ _ _ ih ih' =>
    exact fun here => (((ih here).cons closing).right _).append ((ih' here).cons otherwise)

/-- The breaches in a program are at some of its tokens, in their order. -/
theorem Program.violations_inOrder {ts : List Token} {program : List Stmt} (h : Program ts program)
    (globals : List String) : InOrder (violations globals program) ts := by
  obtain ⟨parts, hparts, rfl, rfl⟩ := h
  exact violationsOfAll_inOrder (fun d hd => (hparts d hd).violations_inOrder) _

end Sentence

end Lox
