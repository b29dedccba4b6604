import Lox.Proofs.Binding.Resolved
import Lox.Proofs.Binding.Violations
import Lox.Proofs.Grammar.Sentence

/-!
# Programs that keep the rules are resolved

A program of the grammar that breaks no rule of declaration, and whose references are recorded, is
resolved (`Stmt.resolvedTop_of_violations`). The grammar is needed for one thing: what a branch or
a loop repeats is a statement and declares nothing (`Stmt.Proper`).
-/

namespace Lox

namespace Stmt

mutual

/-- What a branch or a loop repeats declares nothing where it stands. -/
def Proper : Stmt → Prop
  | .block body => ProperAll body
  | .branch _ onTrue none => onTrue.declared? = none ∧ onTrue.Proper
  | .branch _ onTrue (some onFalse) =>
    (onTrue.declared? = none ∧ onTrue.Proper) ∧ onFalse.declared? = none ∧ onFalse.Proper
  | .loop _ body => body.declared? = none ∧ body.Proper
  | .function _ _ body => ProperAll body
  | _ => True

def ProperAll : List Stmt → Prop
  | [] => True
  | s :: ss => s.Proper ∧ ProperAll ss

end

theorem properAll_iff (ss : List Stmt) : ProperAll ss ↔ ∀ s ∈ ss, s.Proper := by
  induction ss with
  | nil => simp [ProperAll]
  | cons s ss ih => simp [ProperAll, ih]

theorem ProperAll.left {ss ss' : List Stmt} (h : ProperAll (ss ++ ss')) : ProperAll ss :=
  (properAll_iff ss).2 fun s hs => (properAll_iff _).1 h s (List.mem_append_left ss' hs)

mutual

theorem Proper.of_unnumbered : ∀ s : Stmt, s.unnumbered.Proper → s.Proper
  | .expression _, _ => trivial
  | .print _, _ => trivial
  | .var _ _, _ => trivial
  | .block body, h => ProperAll.of_unnumbered body h
  | .branch _ onTrue none, ⟨hd, h⟩ =>
    ⟨declared?_unnumbered onTrue ▸ hd, Proper.of_unnumbered onTrue h⟩
  | .branch _ onTrue (some onFalse), ⟨⟨hd, h⟩, hd', h'⟩ =>
    ⟨⟨declared?_unnumbered onTrue ▸ hd, Proper.of_unnumbered onTrue h⟩,
      declared?_unnumbered onFalse ▸ hd', Proper.of_unnumbered onFalse h'⟩
  | .loop _ body, ⟨hd, h⟩ => ⟨declared?_unnumbered body ▸ hd, Proper.of_unnumbered body h⟩
  | .function _ _ body, h => ProperAll.of_unnumbered body h
  | .exit _ _, _ => trivial

theorem ProperAll.of_unnumbered : ∀ ss : List Stmt, ProperAll (unnumberedAll ss) → ProperAll ss
  | [], _ => trivial
  | s :: ss, ⟨h, h'⟩ => ⟨Proper.of_unnumbered s h, ProperAll.of_unnumbered ss h'⟩

end

end Stmt

namespace Sentence

theorem VarDecl.declares {ts : List Token} {s : Stmt} (h : VarDecl ts s) : s.Proper := by
  cases h <;> trivial

theorem ForInitial.proper {ts : List Token} {initial : Option Stmt} (h : ForInitial ts initial) :
    ∀ s ∈ initial, s.Proper := by
  cases h with
  | none => simp
  | var h => simpa using h.declares
  | expression h =>
    cases h
    simp [Stmt.Proper]

/-- A sentence is proper, and a statement declares nothing. -/
theorem Statement.proper {phrase : Phrase} {ts : List Token} {s : Stmt}
    (h : Statement phrase ts s) :
    s.Proper ∧ ∀ isOpen, phrase = .statement isOpen → s.declared? = none := by
  induction h with
  | function params body _ _ _ _ _ _ _ _ _ _ _ _ _ _ _ _ ih =>
    refine ⟨(Stmt.properAll_iff _).2 fun s hs => ?_, nofun⟩
    obtain ⟨d, hd, rfl⟩ := List.mem_map.1 hs
    exact (ih d hd).1
  | var h => exact ⟨h.declares, nofun⟩
  | statement _ ih => exact ⟨ih.1, nofun⟩
  | expression h =>
    cases h
    exact ⟨trivial, fun _ _ => rfl⟩
  | print => exact ⟨trivial, fun _ _ => rfl⟩
  | block body _ _ _ _ _ ih =>
    refine ⟨(Stmt.properAll_iff _).2 fun s hs => ?_, fun _ _ => rfl⟩
    obtain ⟨d, hd, rfl⟩ := List.mem_map.1 hs
    exact (ih d hd).1
  | exit => exact ⟨trivial, fun _ _ => rfl⟩
  | loop _ _ _ _ _ _ _ _ ih => exact ⟨⟨ih.2 _ rfl, ih.1⟩, fun _ _ => rfl⟩
  | @counted _ _ _ _ _ initial condition increment body _ _ _ _ _ _ hi _ _ _ _ _ ih =>
    have hround : (increment.elim body fun i => .block [body, .expression i]).declared? = none ∧
        (increment.elim body fun i => .block [body, .expression i]).Proper := by
      cases increment with
      | none => exact ⟨ih.2 _ rfl, ih.1⟩
      | some i => exact ⟨rfl, ih.1, trivial, trivial⟩
    cases initial with
    | none => exact ⟨hround, fun _ _ => rfl⟩
    | some s => exact ⟨⟨hi.proper s rfl, hround, trivial⟩, fun _ _ => rfl⟩
  | ifThen _ _ _ _ _ _ _ _ ih => exact ⟨⟨ih.2 _ rfl, ih.1⟩, fun _ _ => rfl⟩
  | ifElse _ _ _ _ _ _ _ _ _ _ _ ih ih' =>
    exact ⟨⟨⟨ih.2 _ rfl, ih.1⟩, ih'.2 _ rfl, ih'.1⟩, fun _ _ => rfl⟩

theorem Program.proper {ts : List Token} {program : List Stmt} (h : Program ts program) :
    Stmt.ProperAll program := by
  obtain ⟨parts, hparts, -, rfl⟩ := h
  refine (Stmt.properAll_iff _).2 fun s hs => ?_
  obtain ⟨d, hd, rfl⟩ := List.mem_map.1 hs
  exact (hparts d hd).proper.1

end Sentence

variable {known : Known}

def Known.Holds (known : Known) (references : List Reference) : Prop :=
  ∀ r ∈ references, known r.id r.distance?

@[simp] theorem Known.holds_append (rs rs' : List Reference) :
    known.Holds (rs ++ rs') ↔ known.Holds rs ∧ known.Holds rs' := by
  simp only [Known.Holds, List.mem_append, or_imp, forall_and]

@[simp] theorem Known.holds_singleton (r : Reference) :
    known.Holds [r] ↔ known r.id r.distance? := by
  simp [Known.Holds]

mutual

theorem Expr.resolved_of_holds {names : Names} {own? : Option String} :
    ∀ e : Expr, known.Holds (e.references names) → (∀ x ∈ own?, e.readsOf x = []) →
      e.Resolved known names own?
  | .literal _, _, _ => trivial
  | .grouping inner, hk, ho => Expr.resolved_of_holds inner hk ho
  | .unary _ operand, hk, ho => Expr.resolved_of_holds operand hk ho
  | .binary left _ right, hk, ho | .logical left _ right, hk, ho => by
    simp only [Expr.references, Known.holds_append] at hk
    simp only [Expr.readsOf, List.append_eq_nil_iff] at ho
    exact ⟨Expr.resolved_of_holds left hk.1 fun x hx => (ho x hx).1,
      Expr.resolved_of_holds right hk.2 fun x hx => (ho x hx).2⟩
  | .read id name, hk, ho => by
    simp only [Expr.references, Known.holds_singleton] at hk
    refine ⟨hk, fun hx => ?_⟩
    simpa [Expr.readsOf] using ho _ hx
  | .assign id name value, hk, ho => by
    simp only [Expr.references, Known.holds_append, Known.holds_singleton] at hk
    exact ⟨hk.2, Expr.resolved_of_holds value hk.1 ho⟩
  | .call callee _ arguments, hk, ho => by
    simp only [Expr.references, Known.holds_append] at hk
    simp only [Expr.readsOf, List.append_eq_nil_iff] at ho
    exact ⟨Expr.resolved_of_holds callee hk.1 fun x hx => (ho x hx).1,
      Expr.resolvedAll_of_holds arguments hk.2 fun x hx => (ho x hx).2⟩

theorem Expr.resolvedAll_of_holds {names : Names} {own? : Option String} :
    ∀ es : List Expr, known.Holds (Expr.referencesOfAll names es) →
      (∀ x ∈ own?, Expr.readsOfAll x es = []) → Expr.ResolvedAll known names own? es
  | [], _, _ => trivial
  | e :: es, hk, ho => by
    simp only [Expr.referencesOfAll, Known.holds_append] at hk
    simp only [Expr.readsOfAll, List.append_eq_nil_iff] at ho
    exact ⟨Expr.resolved_of_holds e hk.1 fun x hx => (ho x hx).1,
      Expr.resolvedAll_of_holds es hk.2 fun x hx => (ho x hx).2⟩

end

theorem Expr.resolvedOption_of_holds {names : Names} (e? : Option Expr)
    (hk : known.Holds (Expr.referencesOfOption names e?)) :
    Expr.ResolvedOption known names none e? := by
  cases e? with
  | none => trivial
  | some e => exact Expr.resolved_of_holds e hk (by simp)

namespace Surroundings

theorem declare_names (here : Surroundings) (x : String) :
    (here.declare x).names = here.names.declare x := by
  unfold declare
  split
  · rename_i h
    simp [List.isEmpty_iff.1 h, Names.declare]
  · rfl

theorem after_names (here : Surroundings) (s : Stmt) :
    (here.after s).names = here.names.after s := by
  unfold after Names.after
  cases s.declared? with
  | none => rfl
  | some x => exact here.declare_names x.lexeme

/-- Inside a scope, a name that is no redeclaration is new to the innermost scope. -/
theorem new_of_redeclaration {here : Surroundings} {name : Token} (hn : here.names ≠ [])
    (h : here.redeclaration name = []) :
    ∃ scope outer, here.names = scope :: outer ∧ name.lexeme ∉ scope := by
  rcases hnames : here.names with _ | ⟨scope, outer⟩
  · exact absurd hnames hn
  · refine ⟨scope, outer, rfl, ?_⟩
    simpa [redeclaration, hnames] using h

end Surroundings

theorem nodup_of_repeatedParams :
    ∀ (params : List Token) (earlier : List String), repeatedParams earlier params = [] →
      (params.map (·.lexeme)).Nodup ∧ ∀ x ∈ params.map (·.lexeme), x ∉ earlier
  | [], _, _ => by simp
  | p :: ps, earlier, h => by
    simp only [repeatedParams, List.append_eq_nil_iff] at h
    obtain ⟨hnodup, hnew⟩ := nodup_of_repeatedParams ps _ h.2
    simp only [List.mem_cons, not_or] at hnew
    refine ⟨List.nodup_cons.2 ⟨fun hp => (hnew _ hp).1 rfl, hnodup⟩, ?_⟩
    intro x hx
    rcases List.mem_cons.1 hx with rfl | hx
    · simpa using h.1
    · exact (hnew x hx).2

mutual

theorem Stmt.resolved_of_violations :
    ∀ (s : Stmt) (here : Surroundings), s.Proper → here.names ≠ [] ∨ s.declared? = none →
      s.violations here = [] → known.Holds (s.references here.names) →
      s.Resolved known here.names
  | .expression value, _, _, _, _, hk => Expr.resolved_of_holds value hk (by simp)
  | .print value, _, _, _, _, hk => Expr.resolved_of_holds value hk (by simp)
  | .var name initial, here, _, hn, hv, hk => by
    have hne : here.names ≠ [] := hn.resolve_right (Option.some_ne_none _)
    simp only [Stmt.violations, List.append_eq_nil_iff] at hv
    refine ⟨here.new_of_redeclaration hne hv.1, ?_⟩
    cases initial with
    | none => trivial
    | some e =>
      refine Expr.resolved_of_holds e hk ?_
      rintro x ⟨⟩
      simpa [Surroundings.forbidden?, hne] using hv.2
  | .block body, here, hp, _, hv, hk =>
    Stmt.resolvedAll_of_violations body (here.enter []) hp (List.cons_ne_nil _ _) hv hk
  | .branch condition onTrue none, here, ⟨hd, hp⟩, _, hv, hk => by
    simp only [Stmt.references, Known.holds_append] at hk
    exact ⟨Expr.resolved_of_holds condition hk.1 (by simp), hd,
      Stmt.resolved_of_violations onTrue here hp (.inr hd) hv hk.2⟩
  | .branch condition onTrue (some onFalse), here, ⟨⟨hd, hp⟩, hd', hp'⟩, _, hv, hk => by
    simp only [Stmt.references, Known.holds_append] at hk
    simp only [Stmt.violations, List.append_eq_nil_iff] at hv
    exact ⟨Expr.resolved_of_holds condition hk.1.1 (by simp),
      ⟨hd, Stmt.resolved_of_violations onTrue here hp (.inr hd) hv.1 hk.1.2⟩, hd',
      Stmt.resolved_of_violations onFalse here hp' (.inr hd') hv.2 hk.2⟩
  | .loop condition body, here, ⟨hd, hp⟩, _, hv, hk => by
    simp only [Stmt.references, Known.holds_append] at hk
    exact ⟨Expr.resolved_of_holds condition hk.1 (by simp), hd,
      Stmt.resolved_of_violations body here hp (.inr hd) hv hk.2⟩
  | .function name params body, here, hp, hn, hv, hk => by
    have hne : here.names ≠ [] := hn.resolve_right (Option.some_ne_none _)
    simp only [Stmt.violations, List.append_eq_nil_iff] at hv
    simp only [Stmt.references] at hk
    have hbody := Stmt.resolvedAll_of_violations body
      { (here.declare name.lexeme).enter (params.map (·.lexeme)) with inFunction := true } hp
      (List.cons_ne_nil _ _) hv.2 (by simpa only [Surroundings.enter, here.declare_names] using hk)
    refine ⟨here.new_of_redeclaration hne hv.1.1, (nodup_of_repeatedParams _ _ hv.1.2).1, ?_⟩
    simpa only [Surroundings.enter, here.declare_names] using hbody
  | .exit _ value, _, _, _, _, hk => Expr.resolvedOption_of_holds value hk

theorem Stmt.resolvedAll_of_violations :
    ∀ (ss : List Stmt) (here : Surroundings), ProperAll ss → here.names ≠ [] →
      violationsOfAll here ss = [] → known.Holds (referencesOfAll here.names ss) →
      ResolvedAll known here.names ss
  | [], _, _, _, _, _ => trivial
  | s :: ss, here, ⟨hp, hp'⟩, hn, hv, hk => by
    simp only [Stmt.violationsOfAll, List.append_eq_nil_iff] at hv
    simp only [Stmt.referencesOfAll, Known.holds_append] at hk
    have hafter : (here.after s).names ≠ [] := by
      rw [here.after_names]
      unfold Names.after
      split
      · cases hnames : here.names with
        | nil => exact absurd hnames hn
        | cons scope outer => exact List.cons_ne_nil _ _
      · exact hn
    refine ⟨Stmt.resolved_of_violations s here hp (.inl hn) hv.1 hk.1, ?_⟩
    rw [← here.after_names]
    exact Stmt.resolvedAll_of_violations ss (here.after s) hp' hafter hv.2
      (here.after_names s ▸ hk.2)

end

theorem Stmt.resolvedTop_of_violations (s : Stmt) {here : Surroundings} (hn : here.names = [])
    (hp : s.Proper) (hv : s.violations here = []) (hk : known.Holds (s.references [])) :
    s.ResolvedTop known := by
  have hall (hd : s.declared? = none) : s.Resolved known [] := by
    rw [← hn]
    exact Stmt.resolved_of_violations s here hp (.inr hd) hv (hn ▸ hk)
  cases s with
  | var name initial => exact Expr.resolvedOption_of_holds initial hk
  | function name params body =>
    simp only [Stmt.violations, List.append_eq_nil_iff] at hv
    have hnames : (here.declare name.lexeme).names = [] := by rw [here.declare_names, hn]; rfl
    have hk : known.Holds (Stmt.referencesOfAll [params.map (·.lexeme)] body) := hk
    have hbody := Stmt.resolvedAll_of_violations body
      { (here.declare name.lexeme).enter (params.map (·.lexeme)) with inFunction := true } hp
      (List.cons_ne_nil _ _) hv.2 (by simpa only [Surroundings.enter, hnames] using hk)
    refine ⟨(nodup_of_repeatedParams _ _ hv.1.2).1, ?_⟩
    simpa only [Surroundings.enter, hnames] using hbody
  | _ => exact hall rfl

/-- The statements of a program that keeps the rules are resolved. -/
theorem Stmt.allResolvedTop_of_violations :
    ∀ (ss : List Stmt) (here : Surroundings), here.names = [] → ProperAll ss →
      violationsOfAll here ss = [] → known.Holds (referencesOfAll [] ss) →
      ∀ s ∈ ss, s.ResolvedTop known
  | [], _, _, _, _, _ => by simp
  | s :: ss, here, hn, ⟨hp, hp'⟩, hv, hk => by
    have hafter : Names.after [] s = [] := by
      unfold Names.after
      split <;> rfl
    simp only [Stmt.violationsOfAll, List.append_eq_nil_iff] at hv
    simp only [Stmt.referencesOfAll, Known.holds_append, hafter] at hk
    refine List.forall_mem_cons.2 ⟨Stmt.resolvedTop_of_violations s hn hp hv.1 hk.1, ?_⟩
    exact Stmt.allResolvedTop_of_violations ss (here.after s)
      (by rw [here.after_names, hn, hafter]) hp' hv.2 hk.2

end Lox
