import Lox.Proofs.Grammar.Repeats
import Lox.Proofs.Tree.Unlined

/-!
# Rows on other lines

A reader asks what a token is and never on which line it stands. `Unlines r r' g` says that what `r`
does in a row, `r'` does in the row without lines; so it is with every rule of the grammar, whatever
the bound, and what comes of a row of tokens without lines is what comes of the row
(`expression_unlines`, `run_unlined`).
-/

namespace Lox

/-- The same complaint on no line. -/
def Complaint.unlined (c : Complaint) : Complaint :=
  { c with token? := c.token?.map (·.unlined) }

/-- The same row on no line. -/
def Row.unlined (row : Row) : Row where
  tokens := row.tokens.map (·.unlined)
  nextId := row.nextId
  complaints := row.complaints.map (·.unlined)

/-- What came of a reader, on no line. -/
def unlinedResult {α β : Type} (g : α → β) :
    EStateM.Result Complaint Row α → EStateM.Result Complaint Row β
  | .ok a row => .ok (g a) row.unlined
  | .error c row => .error c.unlined row.unlined

/-- What `r` does in a row, `r'` does in the row without lines. -/
def Unlines {α β : Type} (r : Reader α) (r' : Reader β) (g : α → β) : Prop :=
  ∀ row, r' row.unlined = unlinedResult g (r row)

theorem resumeAfter_unlined : ∀ (last : Token) (ts : List Token),
    resumeAfter last.unlined (ts.map (·.unlined)) = (resumeAfter last ts).map (·.unlined)
  | _, [] => rfl
  | last, t :: ts => by
    have hstop : (last.unlined.isSymbol .semicolon || t.unlined.startsStatement) =
        (last.isSymbol .semicolon || t.startsStatement) := rfl
    rw [List.map_cons, resumeAfter, resumeAfter, hstop]
    split
    · rfl
    · exact resumeAfter_unlined t ts

theorem synchronize_unlined (ts : List Token) :
    synchronize (ts.map (·.unlined)) = (synchronize ts).map (·.unlined) := by
  cases ts with
  | nil => rfl
  | cons t ts => exact resumeAfter_unlined t ts

namespace Unlines

variable {α α' β β' : Type} {r x : Reader α} {r' x' : Reader α'} {g : α → α'} {h : β → β'}

theorem pure {a : α} {a' : α'} (ha : g a = a') : Unlines (Pure.pure a) (Pure.pure a') g :=
  fun _ => ha ▸ rfl

theorem fail (cause : SyntaxFault) : Unlines (Reader.fail cause) (Reader.fail cause) g := by
  intro row
  simp only [Reader.fail, Row.unlined, unlinedResult, Complaint.unlined, List.head?_map]

theorem bind {f : α → Reader β} {f' : α' → Reader β'} (hx : Unlines x x' g)
    (hf : ∀ a, Unlines (f a) (f' (g a)) h) : Unlines (x >>= f) (x' >>= f') h := by
  intro row
  have hrun := hx row
  cases hfirst : x row with
  | ok a mid =>
    rw [hfirst] at hrun
    rw [Reader.bind_of_ok hfirst, Reader.bind_of_ok hrun]
    exact hf a mid
  | error c mid =>
    rw [hfirst] at hrun
    rw [Reader.bind_of_error hfirst, Reader.bind_of_error hrun]
    rfl

theorem map {k : α → β} {k' : α' → β'} (hx : Unlines x x' g) (hk : ∀ a, h (k a) = k' (g a)) :
    Unlines (k <$> x) (k' <$> x') h := by
  rw [← bind_pure_comp, ← bind_pure_comp]
  exact hx.bind fun a => .pure (hk a)

theorem map_some (hx : Unlines x x' g) : Unlines (some <$> x) (some <$> x') (Option.map g) :=
  hx.map fun _ => rfl

theorem expect {p : Token → Bool} (hp : ∀ t : Token, p t.unlined = p t) (cause : SyntaxFault) :
    Unlines (Reader.expect p cause) (Reader.expect p cause) (·.unlined) := by
  rintro ⟨_ | ⟨t, ts⟩, id, cs⟩
  · rfl
  · simp only [Reader.expect, Row.unlined, List.map_cons, hp]
    cases p t <;> rfl

theorem symbol (s : Symbol) (place : Place) :
    Unlines (Reader.symbol s place) (Reader.symbol s place) (·.unlined) :=
  expect (fun _ => rfl) _

theorem name (what : Named) : Unlines (Reader.name what) (Reader.name what) (·.unlined) :=
  expect (fun _ => rfl) _

theorem freshId : Unlines Reader.freshId Reader.freshId id :=
  fun _ => rfl

theorem complain (cause : SyntaxFault) (t? : Option Token) :
    Unlines (Reader.complain cause t?) (Reader.complain cause (t?.map (·.unlined))) id :=
  fun _ => rfl

theorem peek? : Unlines Reader.peek? Reader.peek? (Option.map (·.unlined)) := by
  intro row
  simp only [Reader.peek?, Row.unlined, unlinedResult, List.head?_map]

/-- A complaint about the token in front, made or not. -/
theorem complainIf {c : Prop} [Decidable c] {cause : SyntaxFault} (hx : Unlines x x' g) :
    Unlines
      (do
        if c then
          Reader.complain cause (← Reader.peek?)
        x)
      (do
        if c then
          Reader.complain cause (← Reader.peek?)
        x') g := by
  by_cases hc : c
  · simp only [if_pos hc]
    exact peek?.bind fun t? => (complain cause t?).bind fun _ => hx
  · simp only [if_neg hc]
    exact hx

theorem ifAccept {p : Token → Bool} {f : Option Token → Reader β} {f' : Option Token → Reader β'}
    (hp : ∀ t : Token, p t.unlined = p t)
    (hsome : ∀ t : Token, Unlines (f (some t)) (f' (some t.unlined)) h)
    (hnone : Unlines (f none) (f' none) h) :
    Unlines (Reader.accept? p >>= f) (Reader.accept? p >>= f') h := by
  rintro ⟨_ | ⟨t, ts⟩, id, cs⟩
  · exact hnone ⟨[], id, cs⟩
  · simp only [Row.unlined, List.map_cons, Reader.accept?_bind_cons, hp]
    cases p t with
    | true => exact hsome t ⟨ts, id, cs⟩
    | false => exact hnone ⟨t :: ts, id, cs⟩

/-- A test of the row. -/
theorem ifTest {test : Reader Bool} {b : Row → Bool} (htest : ∀ row, test row = .ok (b row) row)
    (hb : ∀ row : Row, b row.unlined = b row) (hx : Unlines x x' g) (hr : Unlines r r' g) :
    Unlines (do if ← test then x else r) (do if ← test then x' else r') g := by
  intro row
  simp only [Bind.bind, EStateM.bind, htest, hb]
  cases b row with
  | true => exact hx row
  | false => exact hr row

theorem recovering (hr : Unlines r r' g) :
    Unlines (Lox.recovering r) (Lox.recovering r') (Option.map g) := by
  intro row
  have hrun := hr row
  unfold Lox.recovering
  rw [hrun]
  cases r row with
  | ok a mid => rfl
  | error c mid =>
    simp only [unlinedResult, Row.unlined, synchronize_unlined, List.map_cons, Option.map_none]

end Unlines

theorem any_head?_unlined {p : Token → Bool} (hp : ∀ t : Token, p t.unlined = p t) (row : Row) :
    row.unlined.tokens.head?.any p = row.tokens.head?.any p := by
  simp only [Row.unlined, List.head?_map, Option.any_map]
  exact congrArg (Option.any · _) (funext hp)

namespace Grammar

variable {α β : Type} {n : Nat}

/-! ## Expressions -/

theorem chain_unlines {level : Level} {side : Reader Expr}
    (hholds : ∀ t : Token, level.holds t.unlined = level.holds t)
    (hnode : ∀ a op b, (level.node a op b).unlined = level.node a.unlined op.unlined b.unlined)
    (hs : Unlines side side (·.unlined)) : ∀ (n : Nat) (left : Expr),
      Unlines (chain level side n left) (chain level side n left.unlined) (·.unlined)
  | 0, _ => .pure rfl
  | n + 1, left => .ifAccept hholds
    (fun op => hs.bind fun right => by
      rw [← hnode]
      exact chain_unlines hholds hnode hs n _)
    (.pure rfl)

theorem binary_unlines {operand : Reader Expr} (h : Unlines operand operand (·.unlined))
    (n : Nat) : ∀ levels : List Level,
      (∀ level ∈ levels, (∀ t : Token, level.holds t.unlined = level.holds t) ∧
        ∀ a op b, (level.node a op b).unlined = level.node a.unlined op.unlined b.unlined) →
      Unlines (binary n operand levels) (binary n operand levels) (·.unlined)
  | [], _ => h
  | level :: tighter, hlevels => by
    obtain ⟨⟨hholds, hnode⟩, htighter⟩ := List.forall_mem_cons.1 hlevels
    have hside := binary_unlines h n tighter htighter
    exact hside.bind fun left => chain_unlines hholds hnode hside n left

theorem unary_unlines {call : Reader Expr} (h : Unlines call call (·.unlined)) :
    ∀ n : Nat, Unlines (unary call n) (unary call n) (·.unlined)
  | 0 => h
  | n + 1 => .ifAccept (fun _ => rfl)
    (fun _ => (unary_unlines h n).bind fun _ => .pure rfl) h

section List

variable {item : Reader α} {g : α → α} (h : Unlines item item g) (excess : SyntaxFault)

include h

theorem commaList_unlines : ∀ n count : Nat,
    Unlines (commaList excess item n count) (commaList excess item n count) (List.map g)
  | 0, _ => .complainIf (h.bind fun _ => .pure rfl)
  | n + 1, count => .complainIf (h.bind fun _ => .ifAccept (fun _ => rfl)
    (fun _ => (commaList_unlines n (count + 1)).bind fun _ => .pure rfl) (.pure rfl))

theorem listToParen_unlines (n : Nat) :
    Unlines (listToParen n excess item) (listToParen n excess item) (List.map g) :=
  .ifTest (fun _ => rfl) (any_head?_unlined fun _ => rfl) (.pure rfl)
    (commaList_unlines h excess n 0)

end List

section Call

variable {shorter : Reader Expr} (h : Unlines shorter shorter (·.unlined))

include h

theorem calls_unlines (n : Nat) : ∀ (k : Nat) (callee : Expr),
    Unlines (calls n shorter k callee) (calls n shorter k callee.unlined) (·.unlined)
  | 0, _ => .pure rfl
  | k + 1, callee => .ifAccept (fun _ => rfl)
    (fun _ => (listToParen_unlines h .tooManyArguments n).bind fun arguments =>
      (Unlines.symbol .rightParen .arguments).bind fun paren => by
        rw [← Expr.unlinedAll_eq_map]
        exact calls_unlines n k (.call callee paren arguments))
    (.pure rfl)

theorem primary_unlines : Unlines (primary shorter) (primary shorter) (·.unlined) := by
  rw [primary_eq]
  refine .ifAccept (fun _ => rfl) (fun t => .pure rfl) (.ifAccept (fun _ => rfl) (fun t => ?_) ?_)
  · exact Unlines.freshId.bind fun id => .pure rfl
  · refine (Unlines.expect (fun _ => rfl) _).bind fun _ => h.bind fun inner => ?_
    exact (Unlines.symbol .rightParen .expression).bind fun _ => .pure rfl

theorem assignment_unlines (n : Nat) :
    Unlines (assignment n shorter) (assignment n shorter) (·.unlined) := by
  have hcall : Unlines (call n shorter) (call n shorter) (·.unlined) :=
    (primary_unlines h).bind fun callee => calls_unlines h n n callee
  refine (binary_unlines (unary_unlines hcall n) n levels ?_).bind fun target => ?_
  · simp only [levels, List.forall_mem_cons]
    refine ⟨?_, ?_, ?_, ?_, ?_, ?_, List.forall_mem_nil _⟩ <;>
      exact ⟨fun _ => rfl, fun _ _ _ => rfl⟩
  · refine .ifAccept (fun _ => rfl) (fun equals => h.bind fun value => ?_) (.pure rfl)
    cases target with
    | read id name => exact Unlines.freshId.bind fun id => .pure rfl
    | _ => exact (Unlines.complain .invalidTarget equals).bind fun _ => .pure rfl

end Call

theorem expression_unlines : ∀ n : Nat, Unlines (expression n) (expression n) (·.unlined)
  | 0 => .fail .expressionMissing
  | n + 1 => assignment_unlines (expression_unlines n) (n + 1)

theorem wholeExpression_unlines (n : Nat) :
    Unlines (wholeExpression n) (wholeExpression n) (·.unlined) :=
  (expression_unlines n).bind fun _ =>
    .ifTest (fun _ => rfl) (fun _ => List.isEmpty_map) (.pure rfl)
      (.fail .endMissing)

end Grammar

end Lox
