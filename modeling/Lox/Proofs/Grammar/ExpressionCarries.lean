import Lox.Proofs.Grammar.Carries

/-!
# Expressions on longer rows

An expression that is left in front of a token is the same in front of more tokens, whatever the
bounds are that suffice (`expression_carries`).
-/

namespace Lox.Grammar

variable {α : Type} {σ : Setting} {bound most n n' : Nat}

/-- A level looks at the kind of an operator only. -/
structure Level.Moves (level : Level) (σ : Setting) : Prop where
  holds (t : Token) : level.holds (t.down σ.lines) = level.holds t
  node (a : Expr) (op : Token) (b : Expr) : (level.node a op b).shift σ.toShift =
    level.node (a.shift σ.toShift) (op.down σ.lines) (b.shift σ.toShift)

theorem levels_move (σ : Setting) : ∀ level ∈ levels, level.Moves σ := by
  simp only [levels, List.forall_mem_cons]
  refine ⟨?_, ?_, ?_, ?_, ?_, ?_, List.forall_mem_nil _⟩ <;>
    exact ⟨fun _ => rfl, fun _ _ _ => rfl⟩

section Binary

variable {level : Level} {side side' : Reader Expr}

theorem chain_carries (hl : level.Moves σ)
    (hs : Carries σ true bound 0 side side' (·.shift σ.toShift)) :
    ∀ {n n' most : Nat} (left : Expr), most ≤ n → n ≤ n' → most ≤ bound →
      Carries σ true most 0 (chain level side n left)
        (chain level side' n' (left.shift σ.toShift)) (·.shift σ.toShift)
  | 0, _, _, left, hmost, _, _ => .empty (.pure left) (Nat.le_zero.1 hmost)
  | n + 1, n' + 1, most, left, hmost, hn, hbound => by
    refine .ifAccept hl.holds (.pure rfl) (fun op => ?_) (Nat.zero_le _) (.inl (.inl rfl))
    refine (hs.shorter (by omega)).bind fun right => ?_
    rw [← hl.node]
    exact chain_carries hl hs _ (by omega) (by omega) (by omega)

theorem binary_carries {operand operand' : Reader Expr} (hmost : most ≤ n) (hn : n ≤ n')
    (h : Carries σ true most 0 operand operand' (·.shift σ.toShift)) :
    ∀ levels : List Level, (∀ level ∈ levels, level.Moves σ) →
      Carries σ true most 0 (binary n operand levels) (binary n' operand' levels)
        (·.shift σ.toShift)
  | [], _ => h
  | level :: tighter, hmoves => by
    obtain ⟨hlevel, htighter⟩ := List.forall_mem_cons.1 hmoves
    have hside := binary_carries hmost hn h tighter htighter
    exact hside.bind fun left =>
      chain_carries hlevel hside left (by omega) hn (Nat.sub_le _ _)

end Binary

theorem unary_carries {call call' : Reader Expr}
    (h : Carries σ true bound 0 call call' (·.shift σ.toShift)) :
    ∀ {n n' most : Nat}, most ≤ n → n ≤ n' → most ≤ bound →
      Carries σ true most 0 (unary call n) (unary call' n') (·.shift σ.toShift)
  | 0, _, _, hmost, _, _ => .empty (fun row => (h row).advances) (Nat.le_zero.1 hmost)
  | n + 1, n' + 1, most, hmost, hn, hbound => by
    refine .ifAccept (fun _ => rfl) (h.shorter hbound) (fun op => ?_) (Nat.zero_le _)
      (.inl (.inl rfl))
    exact (unary_carries h (by omega) (by omega) (by omega)).bind fun operand =>
      .pure rfl

section List

variable {β : Type} {item : Reader α} {item' : Reader β} {g : α → β}
  (h : Carries σ true bound 0 item item' g) (excess : SyntaxFault)

include h

theorem commaList_carries : ∀ {n n' most : Nat} (count : Nat), most ≤ n → n ≤ n' →
    most ≤ bound → Carries σ true most 0 (commaList excess item n count)
      (commaList excess item' n' count) (List.map g)
  | 0, n', most, count, hmost, _, hbound => by
    have hone : Carries σ true most 0 (commaList excess item 0 count)
        (commaList excess item' 0 count) (List.map g) :=
      .complainIf ((h.shorter hbound).bind fun first => .pure rfl)
    exact .empty (fun row => (hone row).advances) (Nat.le_zero.1 hmost)
  | n + 1, n' + 1, most, count, hmost, hn, hbound => by
    refine .complainIf ((h.shorter hbound).bind fun first => ?_)
    refine .ifAccept (fun _ => rfl) (.pure rfl) (fun comma => ?_) (Nat.zero_le _)
      (.inl (.inl rfl))
    exact (commaList_carries (count + 1) (by omega) (by omega) (by omega)).bind fun others =>
      .pure rfl

theorem listToParen_carries (hmost : most ≤ n) (hn : n ≤ n') (hbound : most ≤ bound) :
    Carries σ true most 0 (listToParen n excess item) (listToParen n' excess item')
      (List.map g) :=
  .ifTest (fun _ => rfl) (fun _ hne => Row.any_head?_into (fun _ => rfl) hne) (.pure rfl)
    (commaList_carries h excess 0 hmost hn hbound)

end List

section Call

variable {shorter shorter' : Reader Expr}
  (h : Carries σ true bound 0 shorter shorter' (·.shift σ.toShift))

include h

theorem calls_carries (hb : bound ≤ n) (hn : n ≤ n') : ∀ {k k' most : Nat} (callee : Expr),
    most ≤ k → k ≤ k' → most ≤ bound + 1 →
      Carries σ true most 0 (calls n shorter k callee)
        (calls n' shorter' k' (callee.shift σ.toShift)) (·.shift σ.toShift)
  | 0, _, _, callee, hmost, _, _ => .empty (.pure callee) (Nat.le_zero.1 hmost)
  | k + 1, k' + 1, most, callee, hmost, hk, hbound => by
    refine .ifAccept (fun _ => rfl) (.pure rfl) (fun opening => ?_) (Nat.zero_le _)
      (.inl (.inl rfl))
    refine (listToParen_carries h .tooManyArguments (by omega) hn (by omega)).bind
      fun arguments => ?_
    refine (Carries.symbol .rightParen .arguments).bind fun paren => ?_
    rw [← Expr.shiftAll_eq_map]
    exact calls_carries hb hn (.call callee paren arguments) (by omega) (by omega) (by omega)

theorem primary_carries (hbound : most ≤ bound + 1) :
    Carries σ true most 0 (primary shorter) (primary shorter') (·.shift σ.toShift) := by
  refine .ifPeek (.fail .expressionMissing) (fun t row hrow => ?_) (.inl rfl)
  have hliteral : literal? (t.down σ.lines) = literal? t := rfl
  dsimp only
  rw [hliteral]
  cases literal? t with
  | some value => exact Carries.skip hrow (.pure rfl) (Nat.zero_le _)
  | none =>
    dsimp only
    have hname : (t.down σ.lines).isIdentifier = t.isIdentifier := rfl
    have hopen : (t.down σ.lines).isSymbol .leftParen = t.isSymbol .leftParen := rfl
    rw [hname, hopen]
    split
    · exact Carries.skip hrow (Carries.freshId.bind fun id => .pure rfl) (Nat.zero_le _)
    · split
      · refine Carries.skip hrow ((h.shorter (by omega)).bind fun inner => ?_) (Nat.zero_le _)
        exact (Carries.symbol .rightParen .expression).bind fun _ =>
          .pure rfl
      · exact Carries.fail .expressionMissing row

theorem call_carries (hb : bound ≤ n) (hn : n ≤ n') (hmost : most ≤ n) (hbound : most ≤ bound + 1) :
    Carries σ true most 0 (call n shorter) (call n' shorter') (·.shift σ.toShift) :=
  (primary_carries h hbound).bind fun callee =>
    calls_carries h hb hn callee (by omega) hn (by omega)

omit h in
theorem assign_carries (target : Expr) (equals : Token) (value : Expr) :
    Carries σ true most 0 (assign target equals value)
      (assign (target.shift σ.toShift) (equals.down σ.lines) (value.shift σ.toShift))
      (·.shift σ.toShift) := by
  cases target with
  | read id name => exact Carries.freshId.bind fun id => .pure rfl
  | _ => exact (Carries.complain .invalidTarget equals).bind fun _ => .pure rfl

theorem assignment_carries (hb : bound ≤ n) (hn : n ≤ n') (hmost : most ≤ n)
    (hbound : most ≤ bound + 1) :
    Carries σ true most 0 (assignment n shorter) (assignment n' shorter')
      (·.shift σ.toShift) := by
  have hcall := call_carries h hb hn hmost hbound
  have hunary := unary_carries hcall hmost hn (Nat.le_refl _)
  refine (binary_carries hmost hn hunary levels (levels_move σ)).bind fun target => ?_
  refine .ifAccept (fun _ => rfl) (.pure rfl) (fun equals => ?_) (Nat.zero_le _)
    (.inl (.inl rfl))
  exact (h.shorter (by omega)).bind fun value => assign_carries target equals value

end Call

/-- An expression that is left in front of a token is the same on a longer row. -/
theorem expression_carries : ∀ {n n' most : Nat}, most ≤ n → n ≤ n' →
    Carries σ true most 0 (expression n) (expression n') (·.shift σ.toShift)
  | 0, _, _, hmost, _ => .empty (.fail .expressionMissing) (Nat.le_zero.1 hmost)
  | n + 1, _ + 1, _, hmost, hn =>
    assignment_carries (expression_carries (Nat.le_refl n) (Nat.le_of_succ_le_succ hn))
      (Nat.le_succ n) hn hmost hmost

end Lox.Grammar
