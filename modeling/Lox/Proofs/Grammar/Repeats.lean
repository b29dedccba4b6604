import Lox.Proofs.Grammar.ExpressionCarries
import Lox.Proofs.Grammar.ExpressionPredicts

/-!
# The same row again

What a reader does to a row depends neither on the number that references go on from, nor on the
complaints made before, nor on a bound that suffices. `Repeats σ most taken r r' g` says that what
`r` does to a row of at most `most` tokens, `r'` does to the same row elsewhere (`Row.later`), also
at its end, and that `r` takes `taken` tokens at least where it succeeds, or all there are.
-/

namespace Lox

/-- Where a row is read again: with higher numbers, and after other complaints. -/
structure Later where
  ids : Nat
  before : List Complaint

def Later.shift (σ : Later) : Shift :=
  ⟨0, σ.ids⟩

def Row.later (row : Row) (σ : Later) : Row where
  tokens := row.tokens
  nextId := row.nextId + σ.ids
  complaints := row.complaints ++ σ.before

/-- What comes of reading a row again. -/
def Later.result {α β : Type} (σ : Later) (g : α → β) :
    EStateM.Result Complaint Row α → EStateM.Result Complaint Row β
  | .ok a row => .ok (g a) (row.later σ)
  | .error c row => .error c (row.later σ)

/-- What `r` does in rows of at most `most` tokens, `r'` does again. -/
structure Repeats {α β : Type} (σ : Later) (most taken : Nat) (r : Reader α) (r' : Reader β)
    (g : α → β) : Prop where
  run (row : Row) : row.tokens.length ≤ most → r' (row.later σ) = σ.result g (r row)
  takes {row mid : Row} {a : α} : r row = .ok a mid → row.tokens.length ≤ most →
    mid.tokens.length ≤ row.tokens.length - taken

namespace Repeats

variable {σ : Later} {most most' taken more : Nat} {α α' β β' : Type} {r x : Reader α}
  {r' x' : Reader α'} {s : Reader β} {s' : Reader β'} {g : α → α'} {h : β → β'}

theorem weaken (hr : Repeats σ most more r r' g) (hle : taken ≤ more) :
    Repeats σ most taken r r' g where
  run := hr.run
  takes hrun hrow := by
    have := hr.takes hrun hrow
    omega

theorem shorter (hr : Repeats σ most' taken r r' g) (hle : most ≤ most') :
    Repeats σ most taken r r' g where
  run row hrow := hr.run row (Nat.le_trans hrow hle)
  takes hrun hrow := hr.takes hrun (Nat.le_trans hrow hle)

theorem pure {a : α} {a' : α'} (ha : g a = a') :
    Repeats σ most 0 (Pure.pure a) (Pure.pure a') g where
  run _ _ := ha ▸ rfl
  takes hrun _ := by
    cases hrun
    exact Nat.sub_zero _ ▸ Nat.le_refl _

theorem fail (cause : SyntaxFault) :
    Repeats σ most taken (Reader.fail cause) (Reader.fail cause) g where
  run _ _ := rfl
  takes hrun := by cases hrun

theorem bind_both {f : α → Reader β} {f' : α' → Reader β'} (hx : Repeats σ most taken x x' g)
    (hf : ∀ a, Repeats σ (most - taken) more (f a) (f' (g a)) h) :
    Repeats σ most (taken + more) (x >>= f) (x' >>= f') h where
  run row hrow := by
    have hrun := hx.run row hrow
    cases hfirst : x row with
    | ok a mid =>
      have hmid := hx.takes hfirst hrow
      rw [hfirst] at hrun
      rw [Reader.bind_of_ok hfirst, Reader.bind_of_ok hrun]
      exact (hf a).run mid (by omega)
    | error c mid =>
      rw [hfirst] at hrun
      rw [Reader.bind_of_error hfirst, Reader.bind_of_error hrun]
      rfl
  takes hrun hrow := by
    obtain ⟨a, mid, hfirst, hrest⟩ := Reader.bind_eq_ok hrun
    have hmid := hx.takes hfirst hrow
    have := (hf a).takes hrest (by omega)
    omega

section Bind

variable {f : α → Reader β} {f' : α' → Reader β'} (hx : Repeats σ most taken x x' g)

include hx

/-- One reader after the other takes as much as the first one. -/
theorem bind (hf : ∀ a, Repeats σ (most - taken) 0 (f a) (f' (g a)) h) :
    Repeats σ most taken (x >>= f) (x' >>= f') h :=
  hx.bind_both hf

/-- One reader after the other takes as much as the second one. -/
theorem bind_last (hf : ∀ a, Repeats σ (most - taken) more (f a) (f' (g a)) h) :
    Repeats σ most more (x >>= f) (x' >>= f') h :=
  (hx.bind_both hf).weaken (Nat.le_add_left _ _)

theorem map {k : α → β} {k' : α' → β'} (hk : ∀ a, h (k a) = k' (g a)) :
    Repeats σ most taken (k <$> x) (k' <$> x') h := by
  rw [← bind_pure_comp, ← bind_pure_comp]
  exact hx.bind fun a => .pure (hk a)

end Bind

theorem map_some (hx : Repeats σ most taken x x' g) :
    Repeats σ most taken (some <$> x) (some <$> x') (Option.map g) :=
  hx.map fun _ => rfl

theorem expect (p : Token → Bool) (cause : SyntaxFault) :
    Repeats σ most 1 (Reader.expect p cause) (Reader.expect p cause) id where
  run := by
    rintro ⟨_ | ⟨t, ts⟩, id, cs⟩ -
    · rfl
    · simp only [Reader.expect, Row.later]
      cases p t <;> rfl
  takes := by
    rintro ⟨_ | ⟨t, ts⟩, id, cs⟩ mid a hrun -
    · cases hrun
    · simp only [Reader.expect] at hrun
      split at hrun <;> cases hrun
      exact Nat.le_refl _

theorem symbol (s : Symbol) (place : Place) :
    Repeats σ most 1 (Reader.symbol s place) (Reader.symbol s place) id :=
  expect _ _

theorem name (what : Named) : Repeats σ most 1 (Reader.name what) (Reader.name what) id :=
  expect _ _

theorem freshId : Repeats σ most 0 Reader.freshId Reader.freshId (· + σ.ids) where
  run row _ := by
    simp only [Reader.freshId, Row.later, Later.result, Nat.add_right_comm]
  takes hrun _ := by
    cases hrun
    exact Nat.le_refl _

theorem complain (cause : SyntaxFault) (t? : Option Token) :
    Repeats σ most 0 (Reader.complain cause t?) (Reader.complain cause t?) id where
  run _ _ := rfl
  takes hrun _ := by
    cases hrun
    exact Nat.le_refl _

theorem peek? : Repeats σ most 0 Reader.peek? Reader.peek? id where
  run _ _ := rfl
  takes hrun _ := by
    cases hrun
    exact Nat.le_refl _

/-- A complaint about the token in front, made or not. -/
theorem complainIf {c : Prop} [Decidable c] {cause : SyntaxFault}
    (hx : Repeats σ most taken x x' g) :
    Repeats σ most taken
      (do
        if c then
          Reader.complain cause (← Reader.peek?)
        x)
      (do
        if c then
          Reader.complain cause (← Reader.peek?)
        x') g := by
  by_cases hc : c
  · simp only [if_pos hc]
    exact peek?.bind_last fun t? => (complain cause t?).bind_last fun _ => hx
  · simp only [if_neg hc]
    exact hx

theorem ifAccept {p : Token → Bool} {f : Option Token → Reader β} {f' : Option Token → Reader β'}
    (hsome : ∀ t, Repeats σ (most - 1) 0 (f (some t)) (f' (some t)) h)
    (hnone : Repeats σ most taken (f none) (f' none) h) (htaken : taken ≤ 1) :
    Repeats σ most taken (Reader.accept? p >>= f) (Reader.accept? p >>= f') h where
  run := by
    rintro ⟨_ | ⟨t, ts⟩, id, cs⟩ hrow
    · exact hnone.run ⟨[], id, cs⟩ hrow
    · simp only [Row.later, Reader.accept?_bind_cons]
      cases p t with
      | true => exact (hsome t).run ⟨ts, id, cs⟩ (Nat.sub_le_sub_right hrow 1)
      | false => exact hnone.run ⟨t :: ts, id, cs⟩ hrow
  takes := by
    rintro ⟨_ | ⟨t, ts⟩, id, cs⟩ mid b hrun hrow
    · exact hnone.takes hrun hrow
    · rw [Reader.accept?_bind_cons] at hrun
      cases hp : p t with
      | true =>
        rw [hp, if_pos rfl] at hrun
        have hlen := (hsome t).takes hrun (Nat.sub_le_sub_right hrow 1)
        dsimp only [List.length_cons] at hlen ⊢
        omega
      | false =>
        rw [hp, if_neg Bool.false_ne_true] at hrun
        exact hnone.takes hrun hrow

/-- A test of the token in front. -/
theorem ifTest {test : Reader Bool} {b : Option Token → Bool}
    (htest : ∀ row, test row = .ok (b row.tokens.head?) row) (hx : Repeats σ most taken x x' g)
    (hr : Repeats σ most taken r r' g) :
    Repeats σ most taken (do if ← test then x else r) (do if ← test then x' else r') g := by
  have hrun {γ : Type} (x r : Reader γ) (row : Row) :
      (do if ← test then x else r) row = if b row.tokens.head? then x row else r row := by
    simp only [Bind.bind, EStateM.bind, htest]
    cases b row.tokens.head? <;> rfl
  constructor
  · intro row hrow
    have hsame : (row.later σ).tokens = row.tokens := rfl
    rw [hrun, hrun, hsame]
    split
    · exact hx.run row hrow
    · exact hr.run row hrow
  · intro row mid a hok hrow
    rw [hrun] at hok
    split at hok
    · exact hx.takes hok hrow
    · exact hr.takes hok hrow

/-- At the end of a row, a reader may be one that does the same there. -/
theorem ended {s' : Reader α'} (hr : Repeats σ 0 taken r s' g)
    (hend : ∀ id cs, r' ⟨[], id, cs⟩ = s' ⟨[], id, cs⟩) : Repeats σ 0 taken r r' g where
  run := by
    rintro ⟨_ | ⟨t, ts⟩, id, cs⟩ hrow
    · exact (hend _ _).trans (hr.run _ hrow)
    · cases hrow
  takes := hr.takes

/-- After a failure both go on with the same next statement. -/
theorem recovering (hr : Repeats σ most 1 r r' g) (hforward : GoesForward r) :
    Repeats σ most 1 (Lox.recovering r) (Lox.recovering r') (Option.map g) where
  run row hrow := by
    have hrun := hr.run row hrow
    unfold Lox.recovering
    rw [hrun]
    cases r row <;> rfl
  takes := by
    intro row mid a hrun hrow
    unfold Lox.recovering at hrun
    cases hfirst : r row with
    | ok a mid =>
      rw [hfirst] at hrun
      cases hrun
      exact hr.takes hfirst hrow
    | error c mid =>
      have hlen := (hforward row).tokens.length_le
      rw [hfirst] at hrun hlen
      cases hrun
      dsimp only [rowOf] at hlen ⊢
      -- The token at which it failed is left out, if there is one.
      by_cases hnil : mid.tokens = []
      · rw [hnil]
        exact Nat.zero_le _
      · have := length_synchronize_lt hnil
        omega

end Repeats

namespace Grammar

variable {α β : Type} {σ : Later} {bound most n n' : Nat}

section Expressions

variable {level : Level} {side side' operand operand' : Reader Expr}

theorem chain_repeats (hl : ∀ a op b, (level.node a op b).shift σ.shift =
      level.node (a.shift σ.shift) op (b.shift σ.shift))
    (hs : Repeats σ bound 0 side side' (·.shift σ.shift)) :
    ∀ {n n' most : Nat} (left : Expr), most ≤ n → n ≤ n' → most ≤ bound →
      Repeats σ most 0 (chain level side n left) (chain level side' n' (left.shift σ.shift))
        (·.shift σ.shift)
  | 0, n', most, left, hmost, _, _ => by
    obtain rfl := Nat.le_zero.1 hmost
    refine .ended (.pure rfl) fun _ _ => ?_
    cases n' <;> rfl
  | n + 1, n' + 1, most, left, hmost, hn, hbound => by
    refine .ifAccept (fun op => ?_) (.pure rfl) (Nat.zero_le _)
    refine (hs.shorter (by omega)).bind_last fun right => ?_
    rw [← hl]
    exact chain_repeats hl hs _ (by omega) (by omega) (by omega)

theorem binary_repeats (hmost : most ≤ n) (hn : n ≤ n')
    (h : Repeats σ most 0 operand operand' (·.shift σ.shift)) : ∀ levels : List Level,
      (∀ level ∈ levels, ∀ a op b, (level.node a op b).shift σ.shift =
        level.node (a.shift σ.shift) op (b.shift σ.shift)) →
      Repeats σ most 0 (binary n operand levels) (binary n' operand' levels) (·.shift σ.shift)
  | [], _ => h
  | level :: tighter, hlevels => by
    obtain ⟨hlevel, htighter⟩ := List.forall_mem_cons.1 hlevels
    have hside := binary_repeats hmost hn h tighter htighter
    exact hside.bind fun left => chain_repeats hlevel hside left (by omega) hn (Nat.sub_le _ _)

theorem unary_repeats (h : Repeats σ bound 0 operand operand' (·.shift σ.shift)) :
    ∀ {n n' most : Nat}, most ≤ n → n ≤ n' → most ≤ bound →
      Repeats σ most 0 (unary operand n) (unary operand' n') (·.shift σ.shift)
  | 0, n', most, hmost, _, hbound => by
    obtain rfl := Nat.le_zero.1 hmost
    refine .ended (h.shorter hbound) fun _ _ => ?_
    cases n' <;> rfl
  | n + 1, n' + 1, most, hmost, hn, hbound => by
    refine .ifAccept (fun op => ?_) (h.shorter hbound) (Nat.zero_le _)
    exact (unary_repeats h (by omega) (by omega) (by omega)).bind fun operand => .pure rfl

section List

variable {item : Reader α} {item' : Reader β} {g : α → β}
  (h : Repeats σ bound 0 item item' g) (excess : SyntaxFault)

include h

theorem commaList_repeats : ∀ {n n' most : Nat} (count : Nat), most ≤ n → n ≤ n' →
    most ≤ bound → Repeats σ most 0 (commaList excess item n count)
      (commaList excess item' n' count) (List.map g)
  | 0, n', most, count, hmost, _, hbound => by
    obtain rfl := Nat.le_zero.1 hmost
    cases n' with
    | zero => exact .complainIf ((h.shorter hbound).bind fun first => .pure rfl)
    | succ n' =>
      exact .complainIf ((h.shorter hbound).bind fun first => .ended (.pure rfl) fun _ _ => rfl)
  | n + 1, n' + 1, most, count, hmost, hn, hbound => by
    refine .complainIf ((h.shorter hbound).bind fun first => ?_)
    refine .ifAccept (fun comma => ?_) (.pure rfl) (Nat.zero_le _)
    exact (commaList_repeats (count + 1) (by omega) (by omega) (by omega)).bind fun others =>
      .pure rfl

theorem listToParen_repeats (hmost : most ≤ n) (hn : n ≤ n') (hbound : most ≤ bound) :
    Repeats σ most 0 (listToParen n excess item) (listToParen n' excess item') (List.map g) :=
  .ifTest (fun _ => rfl) (.pure rfl) (commaList_repeats h excess 0 hmost hn hbound)

end List

section Call

variable {shorter shorter' : Reader Expr}
  (h : Repeats σ bound 0 shorter shorter' (·.shift σ.shift))

include h

theorem calls_repeats (hb : bound ≤ n) (hn : n ≤ n') : ∀ {k k' most : Nat} (callee : Expr),
    most ≤ k → k ≤ k' → most ≤ bound + 1 →
      Repeats σ most 0 (calls n shorter k callee) (calls n' shorter' k' (callee.shift σ.shift))
        (·.shift σ.shift)
  | 0, k', most, callee, hmost, _, _ => by
    obtain rfl := Nat.le_zero.1 hmost
    refine .ended (.pure rfl) fun _ _ => ?_
    cases k' <;> rfl
  | k + 1, k' + 1, most, callee, hmost, hk, hbound => by
    refine .ifAccept (fun opening => ?_) (.pure rfl) (Nat.zero_le _)
    refine (listToParen_repeats h .tooManyArguments (by omega) hn (by omega)).bind
      fun arguments => ?_
    refine (Repeats.symbol .rightParen .arguments).bind_last fun paren => ?_
    rw [← Expr.shiftAll_eq_map]
    exact calls_repeats hb hn (.call callee paren arguments) (by omega) (by omega) (by omega)

theorem primary_repeats (hbound : most ≤ bound + 1) :
    Repeats σ most 0 (primary shorter) (primary shorter') (·.shift σ.shift) := by
  rw [primary_eq, primary_eq]
  refine .ifAccept (fun t => .pure rfl) (.ifAccept (fun t => ?_) ?_ (Nat.zero_le _)) (Nat.zero_le _)
  · exact Repeats.freshId.bind fun id => .pure rfl
  · refine ((Repeats.expect _ _).bind_last fun _ => ?_)
    refine (h.shorter (by omega)).bind fun inner => ?_
    exact (Repeats.symbol .rightParen .expression).bind_last fun _ => .pure rfl

theorem assignment_repeats (hb : bound ≤ n) (hn : n ≤ n') (hmost : most ≤ n)
    (hbound : most ≤ bound + 1) :
    Repeats σ most 0 (assignment n shorter) (assignment n' shorter') (·.shift σ.shift) := by
  have hcall : Repeats σ most 0 (call n shorter) (call n' shorter') (·.shift σ.shift) :=
    (primary_repeats h hbound).bind fun callee => calls_repeats h hb hn callee (by omega) hn
      (by omega)
  have hunary := unary_repeats hcall hmost hn (Nat.le_refl _)
  refine (binary_repeats hmost hn hunary levels ?_).bind fun target => ?_
  · exact fun level hlevel => (levels_move ⟨σ.shift, [], []⟩ level hlevel).node
  · refine .ifAccept (fun equals => ?_) (.pure rfl) (Nat.zero_le _)
    refine (h.shorter (by omega)).bind fun value => ?_
    cases target with
    | read id name => exact Repeats.freshId.bind fun id => .pure rfl
    | _ => exact (Repeats.complain .invalidTarget equals).bind fun _ => .pure rfl

end Call

/-- At the end of a row there is no expression. -/
theorem expression_nil (n : Nat) (id : NodeId) (cs : List Complaint) :
    expression n ⟨[], id, cs⟩ = .error ⟨.expressionMissing, none⟩ ⟨[], id, cs⟩ := by
  cases n with
  | zero => rfl
  | succ n =>
    have hbinary : ∀ levels, binary (n + 1) (unary (call (n + 1) (expression n)) (n + 1)) levels
        ⟨[], id, cs⟩ = .error ⟨.expressionMissing, none⟩ ⟨[], id, cs⟩ := by
      intro levels
      induction levels with
      | nil => rfl
      | cons level tighter ih => exact Reader.bind_of_error ih
    exact Reader.bind_of_error (hbinary levels)

theorem expression_repeats : ∀ {n n' most : Nat}, most ≤ n → n ≤ n' →
    Repeats σ most 0 (expression n) (expression n') (·.shift σ.shift)
  | 0, n', most, hmost, _ => by
    obtain rfl := Nat.le_zero.1 hmost
    exact .ended (.fail .expressionMissing) fun id cs => expression_nil n' id cs
  | n + 1, n' + 1, _, hmost, hn =>
    assignment_repeats (expression_repeats (Nat.le_refl n) (Nat.le_of_succ_le_succ hn))
      (Nat.le_succ n) hn hmost hmost

end Expressions

end Grammar

end Lox
