import Lox.Proofs.Grammar.StatementPredicts
import Lox.Proofs.Grammar.StatementUnlined
import Lox.Proofs.Indexed.Parser

/-!
# A parser by position and a reader of the row in front of it

`At v looked s row` says that the row of tokens is what is left of a closed vector of tokens before
its first end token, from the position of `s` on, and that `s` has looked at tokens in order since
the looks of the list `looked`. `Tracks v most taken p r` says that from there, in rows of at most
`most` tokens, `p` comes to an answer and does what `r` does: it neither runs out of fuel nor looks
past the vector. Where both succeed they take `taken` tokens at least, or all there are.
-/

namespace Lox.Indexed

open Grammar

/-- A vector of tokens cut at its first end token. -/
structure Closed where
  front : List Token
  last : Token
  behind : List Token
  front_open : ∀ t ∈ front, t.isEof = false
  last_end : last.isEof = true

def Closed.tokens (v : Closed) : List Token :=
  v.front ++ v.last :: v.behind

section Bind

variable {α β : Type} {x : Parser α} {f : α → Parser β} {s s' : State}

theorem bind_of_ok {a : α} (h : x s = .ok a s') : (x >>= f) s = f a s' := by
  simp only [Bind.bind, EStateM.bind, h]

theorem bind_of_error {halt : Halt} (h : x s = .error halt s') : (x >>= f) s = .error halt s' := by
  simp only [Bind.bind, EStateM.bind, h]

theorem map_of_ok {a : α} {g : α → β} (h : x s = .ok a s') : (g <$> x) s = .ok (g a) s' := by
  simp only [Functor.map, EStateM.map, h]

end Bind

/-- The row is what a parser has in front of it, and it stands inside the vector. -/
structure At (v : Closed) (looked : List Nat) (s : State) (row : Row) : Prop where
  tokens : s.tokens = v.tokens
  within : s.current ≤ v.front.length
  ahead : v.front.drop s.current = row.tokens
  nextId : s.nextId = row.nextId
  errors : s.errors = row.complaints.map (·.locatedAt v.last)
  ordered : ∃ positions, s.positions = positions ++ looked ∧
    (s.current :: positions).Pairwise (· ≥ ·)

/-- What a parser comes to where a reader of `row` comes to the second result. -/
inductive Follows {α : Type} (v : Closed) (looked : List Nat) (taken : Nat) (row : Row) :
    EStateM.Result Halt State α → EStateM.Result Complaint Row α → Prop
  | ok {a : α} {s : State} {mid : Row} (h : At v looked s mid)
      (hmid : mid.tokens.length ≤ row.tokens.length - taken) :
      Follows v looked taken row (.ok a s) (.ok a mid)
  | error {c : Complaint} {s : State} {mid : Row} (h : At v looked s mid)
      (hmid : mid.tokens.length ≤ row.tokens.length) :
      Follows v looked taken row (.error (.error (c.locatedAt v.last)) s) (.error c mid)

/-- From every place in short rows `p` does what `r` does. -/
def Tracks {α : Type} (v : Closed) (most taken : Nat) (p : Parser α) (r : Reader α) : Prop :=
  ∀ looked s row, At v looked s row → row.tokens.length ≤ most →
    Follows v looked taken row (p s) (r row)

section Looks

variable {v : Closed} {looked : List Nat} {s : State} {row : Row} {t : Token} {ts : List Token}

namespace At

theorem look (h : At v looked s row) : At v looked s.looked row := by
  obtain ⟨positions, hpositions, hsorted⟩ := h.ordered
  refine ⟨h.tokens, h.within, h.ahead, h.nextId, h.errors, s.current :: positions, ?_, ?_⟩
  · exact congrArg (s.current :: ·) hpositions
  · refine List.pairwise_cons.2 ⟨List.forall_mem_cons.2 ⟨Nat.le_refl _, fun i hi => ?_⟩, hsorted⟩
    exact List.rel_of_pairwise_cons hsorted hi

/-- The position of a row is what is missing from it. -/
theorem current_add (h : At v looked s row) :
    s.current + row.tokens.length = v.front.length := by
  rw [← h.ahead, List.length_drop]
  have := h.within
  omega

/-- Up to the first end token there is a token at every index. -/
theorem lookAt (h : At v looked s row) {index : Nat} (hi : index ≤ v.front.length) :
    ∃ t, lookAt index s = .ok t s.looked := by
  have hlt : index < s.tokens.length := by
    rw [h.tokens, Closed.tokens, List.length_append, List.length_cons]
    omega
  exact ⟨s.tokens[index], by rw [Indexed.lookAt, List.getElem?_eq_getElem hlt]⟩

theorem previous (h : At v looked s row) : ∃ t, previous s = .ok t s.looked :=
  h.lookAt ((Nat.sub_le _ _).trans h.within)

/-- The token in front is that of the row, or the first end token. -/
theorem getElem?_current (h : At v looked s row) :
    s.tokens[s.current]? = some (row.tokens.head?.getD v.last) := by
  rw [h.tokens, Closed.tokens, ← h.ahead, List.head?_drop]
  rcases Nat.lt_or_eq_of_le h.within with hlt | heq
  · rw [List.getElem?_append_left hlt, List.getElem?_eq_getElem hlt, Option.getD_some]
  · rw [heq, List.getElem?_append_right (Nat.le_refl _), Nat.sub_self, List.getElem?_cons_zero,
      List.getElem?_eq_none (Nat.le_refl _), Option.getD_none]

theorem peek (h : At v looked s row) :
    peek s = .ok (row.tokens.head?.getD v.last) s.looked := by
  rw [Indexed.peek, Indexed.lookAt, h.getElem?_current]

theorem isAtEnd (h : At v looked s row) :
    isAtEnd s = .ok row.tokens.isEmpty s.looked := by
  rw [Indexed.isAtEnd, map_of_ok h.peek]
  rcases hrow : row.tokens with _ | ⟨t, ts⟩
  · exact congrArg (EStateM.Result.ok · _) v.last_end
  · have ht : t ∈ v.front := List.mem_of_mem_drop (h.ahead ▸ hrow ▸ List.mem_cons_self)
    exact congrArg (EStateM.Result.ok · _) (v.front_open t ht)

theorem isAtEnd_cons (h : At v looked s row) (hrow : row.tokens = t :: ts) :
    Indexed.isAtEnd s = .ok false s.looked := by
  rw [h.isAtEnd, hrow, List.isEmpty_cons]

theorem check (h : At v looked s row) (p : Token → Bool) :
    ∃ s', check p s = .ok (row.tokens.head?.any p) s' ∧ At v looked s' row := by
  rcases hrow : row.tokens with _ | ⟨t, ts⟩
  · exact ⟨s.looked, by rw [Indexed.check, bind_of_ok h.isAtEnd, hrow]; rfl, h.look⟩
  · refine ⟨s.looked.looked, ?_, h.look.look⟩
    rw [Indexed.check, bind_of_ok (h.isAtEnd_cons hrow)]
    simp only [Bool.false_eq_true, if_false]
    rw [map_of_ok h.look.peek, hrow]
    rfl

theorem blockOver (h : At v looked s row) :
    ∃ s', blockOver s = .ok (row.tokens.head?.all (·.isSymbol .rightBrace)) s' ∧
      At v looked s' row := by
  obtain ⟨s₁, hcheck, hat⟩ := h.check (·.isSymbol .rightBrace)
  rw [Indexed.blockOver, bind_of_ok hcheck]
  rcases row with ⟨_ | ⟨t, ts⟩, id, cs⟩
  · exact ⟨s₁.looked, hat.isAtEnd, hat.look⟩
  · rw [List.head?_cons, Option.any_some, Option.all_some]
    cases t.isSymbol .rightBrace with
    | true => exact ⟨s₁, rfl, hat⟩
    | false => exact ⟨s₁.looked, hat.isAtEnd, hat.look⟩

/-- One token further on. -/
theorem step (h : At v looked s row) (hrow : row.tokens = t :: ts) :
    At v looked { s with current := s.current + 1 } { row with tokens := ts } := by
  obtain ⟨positions, hpositions, hsorted⟩ := h.ordered
  have hadd := h.current_add
  have hrest : v.front.drop (s.current + 1) = ts := by
    rw [← List.drop_drop, h.ahead, hrow]
    rfl
  rw [hrow, List.length_cons] at hadd
  refine ⟨h.tokens, by dsimp only; omega, hrest, h.nextId, h.errors, positions, hpositions, ?_⟩
  obtain ⟨hlast, hsorted⟩ := List.pairwise_cons.1 hsorted
  exact List.pairwise_cons.2 ⟨fun i hi => Nat.le_succ_of_le (hlast i hi), hsorted⟩

theorem advance_nil (h : At v looked s row) (hrow : row.tokens = []) :
    ∃ t s', advance s = .ok t s' ∧ At v looked s' row := by
  obtain ⟨t, ht⟩ := h.look.previous
  refine ⟨t, s.looked.looked, ?_, h.look.look⟩
  rw [Indexed.advance, bind_of_ok h.isAtEnd, hrow]
  exact ht

/-- Where a parser takes a token, it is the token in front, and then the token before. -/
theorem advance_cons (h : At v looked s row) (hrow : row.tokens = t :: ts) :
    ∃ s', advance s = .ok t s' ∧ At v looked s' { row with tokens := ts } ∧
      s'.tokens[s'.current - 1]? = some t := by
  have hfront : s.tokens[s.current]? = some t := by
    rw [h.getElem?_current, hrow, List.head?_cons, Option.getD_some]
  let next : State := { s.looked with current := s.current + 1 }
  have hprevious : Indexed.previous next = .ok t next.looked := by
    have hfront : next.tokens[next.current - 1]? = some t := hfront
    rw [Indexed.previous, Indexed.lookAt, hfront]
  refine ⟨next.looked, ?_, (h.look.step hrow).look, hfront⟩
  rw [Indexed.advance, bind_of_ok (h.isAtEnd_cons hrow)]
  exact hprevious

theorem report (h : At v looked s row) (c : Complaint) :
    At v looked { s with errors := c.locatedAt v.last :: s.errors }
      { row with complaints := c :: row.complaints } :=
  ⟨h.tokens, h.within, h.ahead, h.nextId, congrArg (c.locatedAt v.last :: ·) h.errors, h.ordered⟩

end At

/-- The next statement starts at the same place, whichever way it is looked for. Every round that
goes on takes a token, so that there is fuel left for those behind it. -/
theorem resume_spec : ∀ {n : Nat} {s : State} {row : Row} {t : Token}, At v looked s row →
    (row.tokens ≠ [] → s.tokens[s.current - 1]? = some t) → row.tokens.length < n →
    ∃ s', resume n s = .ok () s' ∧
      At v looked s' { row with tokens := resumeAfter t row.tokens }
  | n + 1, s, row, t, h, hprev, hn => by
    rcases hrow : row.tokens with _ | ⟨u, us⟩
    · refine ⟨s.looked, ?_, by simpa only [resumeAfter, ← hrow] using h.look⟩
      rw [resume, bind_of_ok h.isAtEnd, hrow]
      rfl
    · have hprevious : previous s.looked = .ok t s.looked.looked := by
        have hprev : s.looked.tokens[s.looked.current - 1]? = some t := hprev (by simp [hrow])
        rw [previous, lookAt, hprev]
      have hpeek := h.look.look.peek
      rw [hrow, List.head?_cons, Option.getD_some] at hpeek
      rw [resume, bind_of_ok (h.isAtEnd_cons hrow), resumeAfter]
      simp only [Bool.false_eq_true, if_false]
      rw [bind_of_ok hprevious]
      cases ht : t.isSymbol .semicolon with
      | true => exact ⟨_, rfl, by simpa [← hrow] using h.look.look⟩
      | false =>
        simp only [Bool.false_eq_true, if_false]
        rw [bind_of_ok hpeek]
        cases hu : u.startsStatement with
        | true => exact ⟨_, rfl, by simpa [← hrow] using h.look.look.look⟩
        | false =>
          obtain ⟨s₁, hadvance, hat, htoken⟩ := h.look.look.look.advance_cons hrow
          rw [hrow, List.length_cons] at hn
          obtain ⟨s₂, hrest, hat'⟩ := resume_spec hat (fun _ => htoken) (Nat.lt_of_succ_lt_succ hn)
          refine ⟨s₂, ?_, hat'⟩
          simp only [Bool.false_eq_true, if_false]
          rw [bind_of_ok hadvance]
          exact hrest

theorem synchronize_spec {n : Nat} (h : At v looked s row) (hn : row.tokens.length < n) :
    ∃ s', synchronize n s = .ok () s' ∧
      At v looked s' { row with tokens := Lox.synchronize row.tokens } := by
  rcases hrow : row.tokens with _ | ⟨t, ts⟩
  · obtain ⟨t, s₁, hadvance, hat⟩ := h.advance_nil hrow
    obtain ⟨s₂, hrest, hat'⟩ := resume_spec (t := t) hat (absurd hrow) hn
    refine ⟨s₂, by rw [synchronize, bind_of_ok hadvance, hrest], ?_⟩
    simpa only [hrow, resumeAfter, Lox.synchronize] using hat'
  · obtain ⟨s₁, hadvance, hat, htoken⟩ := h.advance_cons hrow
    rw [hrow, List.length_cons] at hn
    obtain ⟨s₂, hrest, hat'⟩ := resume_spec hat (fun _ => htoken) (Nat.lt_of_succ_lt hn)
    exact ⟨s₂, by rw [synchronize, bind_of_ok hadvance, hrest], hat'⟩

theorem At.accept?_none {p : Token → Bool} (h : At v looked s row)
    (hp : row.tokens.head?.any p = false) :
    ∃ s', accept? p s = .ok none s' ∧ At v looked s' row := by
  obtain ⟨s₁, hcheck, hat⟩ := h.check p
  rw [hp] at hcheck
  exact ⟨s₁, by rw [accept?, bind_of_ok hcheck]; rfl, hat⟩

theorem At.accept?_some {p : Token → Bool} (h : At v looked s row) (hrow : row.tokens = t :: ts)
    (hp : p t = true) :
    ∃ s', accept? p s = .ok (some t) s' ∧ At v looked s' { row with tokens := ts } := by
  obtain ⟨s₁, hcheck, hat⟩ := h.check p
  rw [hrow, List.head?_cons, Option.any_some, hp] at hcheck
  obtain ⟨s₂, hadvance, hat, -⟩ := hat.advance_cons hrow
  exact ⟨s₂, by rw [accept?, bind_of_ok hcheck]; exact map_of_ok hadvance, hat⟩

end Looks

namespace Tracks

variable {α β : Type} {v : Closed} {most most' taken more n : Nat} {p x : Parser α}
  {r x' : Reader α}

theorem weaken (h : Tracks v most more p r) (hle : taken ≤ more) : Tracks v most taken p r := by
  intro looked s row hat hrow
  have h := h looked s row hat hrow
  generalize p s = result, r row = result' at h
  cases h with
  | ok h hmid => exact .ok h (by omega)
  | error h hmid => exact .error h hmid

theorem shorter (h : Tracks v most' taken p r) (hle : most ≤ most') : Tracks v most taken p r :=
  fun looked s row hat hrow => h looked s row hat (Nat.le_trans hrow hle)

theorem pure (a : α) : Tracks v most 0 (Pure.pure a) (Pure.pure a) :=
  fun _ _ _ hat _ => .ok hat (Nat.le_refl _)

theorem fail (cause : SyntaxFault) :
    Tracks v most taken (Indexed.fail cause : Parser α) (Reader.fail cause) := by
  intro looked s row hat _
  have hrun : (Indexed.fail cause : Parser α) s =
      .error (.error ((⟨cause, row.tokens.head?⟩ : Complaint).locatedAt v.last)) s.looked := by
    simp only [Indexed.fail, Bind.bind, EStateM.bind, hat.peek]
    rfl
  rw [hrun]
  exact .error hat.look (Nat.le_refl _)

theorem bind_both {f : α → Parser β} {f' : α → Reader β} (hx : Tracks v most taken x x')
    (hf : ∀ a, Tracks v (most - taken) more (f a) (f' a)) :
    Tracks v most (taken + more) (x >>= f) (x' >>= f') := by
  intro looked s row hat hrow
  have hx := hx looked s row hat hrow
  simp only [Bind.bind, EStateM.bind]
  generalize x s = result, x' row = result' at hx
  cases hx with
  | ok hmid hlen =>
    rename_i a s₁ mid
    have hf := hf a looked s₁ mid hmid (by omega)
    dsimp only
    generalize f a s₁ = result, f' a mid = result' at hf
    cases hf with
    | ok hend hlen' => exact .ok hend (by omega)
    | error hend hlen' => exact .error hend (by omega)
  | error hmid hlen => exact .error hmid hlen

section Bind

variable {f : α → Parser β} {f' : α → Reader β} (hx : Tracks v most taken x x')

include hx

/-- One parser after the other takes as much as the first one. -/
theorem bind (hf : ∀ a, Tracks v (most - taken) 0 (f a) (f' a)) :
    Tracks v most taken (x >>= f) (x' >>= f') :=
  hx.bind_both hf

/-- One parser after the other takes as much as the second one. -/
theorem bind_last (hf : ∀ a, Tracks v (most - taken) more (f a) (f' a)) :
    Tracks v most more (x >>= f) (x' >>= f') :=
  (hx.bind_both hf).weaken (Nat.le_add_left _ _)

theorem map (k : α → β) : Tracks v most taken (k <$> x) (k <$> x') := by
  rw [← bind_pure_comp, ← bind_pure_comp]
  exact hx.bind fun a => .pure (k a)

end Bind

theorem freshId : Tracks v most 0 Indexed.freshId Reader.freshId := by
  intro looked s row hat _
  rw [Indexed.freshId, Reader.freshId, hat.nextId]
  exact .ok { hat with nextId := rfl } (Nat.le_refl _)

theorem report (c : Complaint) :
    Tracks v most 0 (Indexed.report (c.locatedAt v.last)) (Reader.complain c.cause c.token?) :=
  fun _ _ _ hat _ => .ok (hat.report c) (Nat.le_refl _)

/-- An error at the token in front, found or not. -/
theorem reportIf {c : Prop} [Decidable c] {cause : SyntaxFault} (hx : Tracks v most taken x x') :
    Tracks v most taken
      (do
        if c then
          Indexed.report ⟨cause, ← Indexed.peek⟩
        x)
      (do
        if c then
          Reader.complain cause (← Reader.peek?)
        x') := by
  by_cases hc : c
  · simp only [if_pos hc]
    intro looked s row hat hrow
    rw [bind_of_ok hat.peek, Reader.bind_of_ok (x := Reader.peek?) rfl]
    exact ((report ⟨cause, row.tokens.head?⟩).bind_last fun _ => hx) looked s.looked row hat.look
      hrow
  · simp only [if_neg hc]
    exact hx

/-- A choice by a test of what is in front. -/
theorem ifTest {test : Parser Bool} {test' : Reader Bool} {b : Row → Bool}
    (htest : ∀ {looked s row}, At v looked s row →
      ∃ s', test s = .ok (b row) s' ∧ At v looked s' row)
    (htest' : ∀ row, test' row = .ok (b row) row) (hx : Tracks v most taken x x')
    (hp : ∀ row, b row = false → row.tokens.length ≤ most → Tracks v most taken p r) :
    Tracks v most taken (do if ← test then x else p) (do if ← test' then x' else r) := by
  intro looked s row hat hrow
  obtain ⟨s', hrun, hat'⟩ := htest hat
  simp only [Bind.bind, EStateM.bind, hrun, htest']
  cases hb : b row with
  | true => exact hx looked s' row hat' hrow
  | false => exact hp row hb hrow looked s' row hat' hrow

theorem ifCheck {q : Token → Bool} (hx : Tracks v most taken x x') (hp : Tracks v most taken p r) :
    Tracks v most taken (do if ← Indexed.check q then x else p)
      (do if ← Reader.sees q then x' else r) :=
  .ifTest (fun hat => hat.check q) (fun _ => rfl) hx fun _ _ _ => hp

theorem ifAccept {q : Token → Bool} {f : Option Token → Parser β} {f' : Option Token → Reader β}
    (hsome : ∀ t, 0 < most → Tracks v (most - 1) 0 (f (some t)) (f' (some t)))
    (hnone : Tracks v most taken (f none) (f' none)) (htaken : taken ≤ 1) :
    Tracks v most taken (Indexed.accept? q >>= f) (Reader.accept? q >>= f') := by
  rintro looked s ⟨_ | ⟨t, ts⟩, id, cs⟩ hat hrow
  · obtain ⟨s', haccept, hat'⟩ := hat.accept?_none (p := q) rfl
    rw [bind_of_ok haccept]
    exact hnone looked s' _ hat' hrow
  · rw [Reader.accept?_bind_cons]
    cases hq : q t with
    | false =>
      obtain ⟨s', haccept, hat'⟩ := hat.accept?_none (p := q) hq
      rw [bind_of_ok haccept]
      exact hnone looked s' _ hat' hrow
    | true =>
      obtain ⟨s', haccept, hat'⟩ := hat.accept?_some rfl hq
      rw [List.length_cons] at hrow
      have hrest := hsome t (Nat.zero_lt_of_lt hrow) looked s' _ hat' (Nat.le_sub_one_of_lt hrow)
      rw [bind_of_ok haccept, if_pos rfl]
      generalize f (some t) s' = result, f' (some t) ⟨ts, id, cs⟩ = result' at hrest
      cases hrest with
      | ok h hmid => exact .ok h (hmid.trans (by dsimp only [List.length_cons]; omega))
      | error h hmid => exact .error h (hmid.trans (Nat.le_succ _))

theorem expect (q : Token → Bool) (cause : SyntaxFault) :
    Tracks v most 1 (Indexed.expect q cause) (Reader.expect q cause) := by
  rintro looked s ⟨_ | ⟨t, ts⟩, id, cs⟩ hat hrow
  · obtain ⟨s', hcheck, hat'⟩ := hat.check q
    rw [Indexed.expect, bind_of_ok hcheck]
    exact fail cause looked s' _ hat' hrow
  · have hexpect : Reader.expect q cause ⟨t :: ts, id, cs⟩ =
        if q t then .ok t ⟨ts, id, cs⟩ else Reader.fail cause ⟨t :: ts, id, cs⟩ := rfl
    obtain ⟨s₁, hcheck, hat₁⟩ := hat.check q
    rw [Indexed.expect, bind_of_ok hcheck, hexpect, List.head?_cons, Option.any_some]
    cases q t with
    | false => exact fail cause looked s₁ _ hat₁ hrow
    | true =>
      obtain ⟨s₂, hadvance, hat₂, -⟩ := hat₁.advance_cons rfl
      simp only [if_true, hadvance]
      exact .ok hat₂ (Nat.le_refl ts.length)

/-- What follows a token that has to be there is never reached at the end of the row. -/
theorem expect_bind {q : Token → Bool} {cause : SyntaxFault} {f : Token → Parser β}
    {f' : Token → Reader β} (hf : ∀ t, 0 < most → Tracks v (most - 1) 0 (f t) (f' t)) :
    Tracks v most 1 (Indexed.expect q cause >>= f) (Reader.expect q cause >>= f') := by
  rcases Nat.eq_zero_or_pos most with rfl | hpos
  · rintro looked s ⟨_ | ⟨t, ts⟩, id, cs⟩ hat hrow
    · have hfail := expect q cause looked s _ hat hrow
      rw [Reader.bind_of_error (x := Reader.expect q cause) rfl]
      generalize hrun : Indexed.expect q cause s = result at hfail
      cases hfail with
      | error h hmid =>
        rw [bind_of_error hrun]
        exact .error h hmid
    · cases hrow
  · exact (expect q cause).bind fun t => hf t hpos

theorem symbol (s : Symbol) (place : Place) :
    Tracks v most 1 (Indexed.symbol s place) (Reader.symbol s place) :=
  expect _ _

theorem name (what : Named) : Tracks v most 1 (Indexed.name what) (Reader.name what) :=
  expect _ _

/-- Recovery takes a token at least, also where nothing was taken before the failure. -/
theorem recovering (h : Tracks v most 1 p r) (hn : most < n) :
    Tracks v most 1 (Indexed.recovering n p) (Lox.recovering r) := by
  intro looked s row hat hrow
  have h := h looked s row hat hrow
  unfold Indexed.recovering Lox.recovering
  generalize p s = result, r row = result' at h
  cases h with
  | ok hmid hlen => exact .ok hmid hlen
  | error hmid hlen =>
    rename_i c s₁ mid
    obtain ⟨s₂, hsynchronize, hend⟩ := synchronize_spec (hmid.report c) (n := n)
      (Nat.lt_of_le_of_lt (hlen.trans hrow) hn)
    have hreport : Indexed.report (c.locatedAt v.last) s₁ =
      .ok () { s₁ with errors := c.locatedAt v.last :: s₁.errors } := rfl
    dsimp only
    rw [bind_of_ok hreport, bind_of_ok hsynchronize]
    refine .ok hend ?_
    dsimp only
    by_cases hnil : mid.tokens = []
    · rw [hnil]
      exact Nat.zero_le _
    · have := length_synchronize_lt hnil
      omega

end Tracks

end Lox.Indexed
