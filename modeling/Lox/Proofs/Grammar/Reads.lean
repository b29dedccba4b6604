import Lox.Grammar.Statement

/-!
# What a reader does to its row

`Reads r P` says that `r` never takes back a number or a complaint, and that a run in which nothing
is complained of relates the row before it, what was read and the row after it by `P`. The rules
below give the relation of a reader from those of its parts.
-/

namespace Lox

/-- Numbers and complaints are only added. -/
structure Row.Grown (row row' : Row) : Prop where
  nextId : row.nextId ≤ row'.nextId
  complaints : row.complaints.length ≤ row'.complaints.length

theorem Row.Grown.refl (row : Row) : row.Grown row :=
  ⟨Nat.le_refl _, Nat.le_refl _⟩

theorem Row.Grown.trans {row row' row'' : Row} (h : row.Grown row') (h' : row'.Grown row'') :
    row.Grown row'' :=
  ⟨Nat.le_trans h.nextId h'.nextId, Nat.le_trans h.complaints h'.complaints⟩

/-- Every run of `r` adds numbers and complaints only, and one without a complaint meets `P`. -/
def Reads {α : Type} (r : Reader α) (P : Row → α → Row → Prop) : Prop :=
  ∀ row, match r row with
    | .ok a row' => row.Grown row' ∧
      (row'.complaints.length = row.complaints.length → P row a row')
    | .error _ row' => row.Grown row'

namespace Reads

variable {α β : Type} {P Q : Row → α → Row → Prop}

theorem mono {r : Reader α} (h : Reads r P) (hPQ : ∀ row a row', P row a row' → Q row a row') :
    Reads r Q := by
  intro row
  have hr := h row
  rcases hrow : r row with ⟨a, row'⟩ | ⟨c, row'⟩ <;> rw [hrow] at hr
  · exact ⟨hr.1, fun hc => hPQ _ _ _ (hr.2 hc)⟩
  · exact hr

theorem pure (a : α) : Reads (pure a) fun row b row' => b = a ∧ row' = row :=
  fun row => ⟨.refl row, fun _ => ⟨rfl, rfl⟩⟩

/-- One reader after the other: the relations compose. -/
theorem bind {x : Reader α} {f : α → Reader β} {R : α → Row → β → Row → Prop} (hx : Reads x P)
    (hf : ∀ a, Reads (f a) (R a)) :
    Reads (x >>= f) fun row b row'' => ∃ a row', P row a row' ∧ R a row' b row'' := by
  intro row
  have h := hx row
  simp only [Bind.bind, EStateM.bind]
  rcases hrow : x row with ⟨a, row'⟩ | ⟨c, row'⟩ <;> rw [hrow] at h
  · have h' := hf a row'
    simp only
    rcases hrow' : f a row' with ⟨b, row''⟩ | ⟨c, row''⟩ <;> rw [hrow'] at h'
    · refine ⟨h.1.trans h'.1, fun hc => ⟨a, row', h.2 ?_, h'.2 ?_⟩⟩
      all_goals
        have h1 := h.1.complaints
        have h2 := h'.1.complaints
        omega
    · exact h.1.trans h'
  · exact h

theorem map {x : Reader α} (f : α → β) (hx : Reads x P) :
    Reads (f <$> x) fun row b row' => ∃ a, b = f a ∧ P row a row' := by
  intro row
  have h := hx row
  simp only [Functor.map, EStateM.map]
  rcases hrow : x row with ⟨a, row'⟩ | ⟨c, row'⟩ <;> rw [hrow] at h
  · exact ⟨h.1, fun hc => ⟨a, rfl, h.2 hc⟩⟩
  · exact h

theorem fail (cause : SyntaxFault) : Reads (Reader.fail cause : Reader α) P :=
  fun row => .refl row

theorem complain (cause : SyntaxFault) (token? : Option Token) :
    Reads (Reader.complain cause token?) fun _ _ _ => False :=
  fun row => ⟨⟨Nat.le_refl _, by simp⟩, fun hc => by simp at hc⟩

theorem peek? : Reads Reader.peek? fun row t? row' => t? = row.tokens.head? ∧ row' = row :=
  fun row => ⟨.refl row, fun _ => ⟨rfl, rfl⟩⟩

theorem skip :
    Reads Reader.skip fun row _ row' =>
      row'.tokens = row.tokens.tail ∧ row'.nextId = row.nextId :=
  fun _ => ⟨⟨Nat.le_refl _, Nat.le_refl _⟩, fun _ => ⟨rfl, rfl⟩⟩

theorem freshId :
    Reads Reader.freshId fun row id row' =>
      id = row.nextId ∧ row'.tokens = row.tokens ∧ row'.nextId = row.nextId + 1 :=
  fun _ => ⟨⟨Nat.le_succ _, Nat.le_refl _⟩, fun _ => ⟨rfl, rfl, rfl⟩⟩

theorem expect (p : Token → Bool) (cause : SyntaxFault) :
    Reads (Reader.expect p cause) fun row t row' =>
      p t = true ∧ row.tokens = t :: row'.tokens ∧ row'.nextId = row.nextId := by
  rintro ⟨_ | ⟨t, ts⟩, id, cs⟩
  · exact .refl _
  · cases hp : p t with
    | true => simp [Reader.expect, hp, Row.Grown.mk]
    | false => simp [Reader.expect, hp, Row.Grown.refl]

theorem symbol (s : Symbol) (place : Place) :
    Reads (Reader.symbol s place) fun row t row' =>
      t.kind = .symbol s ∧ row.tokens = t :: row'.tokens ∧ row'.nextId = row.nextId :=
  (expect _ _).mono fun _ _ _ ⟨ht, h⟩ => ⟨by simpa [Token.isSymbol] using ht, h⟩

theorem name (what : Named) :
    Reads (Reader.name what) fun row t row' =>
      t.kind = .identifier ∧ row.tokens = t :: row'.tokens ∧ row'.nextId = row.nextId :=
  (expect _ _).mono fun _ _ _ ⟨ht, h⟩ => ⟨by simpa [Token.isIdentifier] using ht, h⟩

theorem ifAccept {p : Token → Bool} {f : Option Token → Reader α}
    {R : Token → Row → α → Row → Prop} (hx : Reads (f none) P)
    (hf : ∀ t, p t = true → Reads (f (some t)) (R t)) :
    Reads (Reader.accept? p >>= f) fun row a row' =>
      ((∀ t ∈ row.tokens.head?, p t = false) ∧ P row a row') ∨
        ∃ t next, p t = true ∧ row.tokens = t :: next.tokens ∧ next.nextId = row.nextId ∧
          R t next a row' := by
  rintro ⟨_ | ⟨t, ts⟩, id, cs⟩
  · have h := hx ⟨[], id, cs⟩
    simp only [Bind.bind, EStateM.bind, Reader.accept?]
    rcases hrow : f none ⟨[], id, cs⟩ with ⟨a, row'⟩ | ⟨c, row'⟩ <;> rw [hrow] at h
    · exact ⟨h.1, fun hc => .inl ⟨by simp, h.2 hc⟩⟩
    · exact h
  · cases hp : p t with
    | true =>
      have h := hf t hp ⟨ts, id, cs⟩
      simp only [Bind.bind, EStateM.bind, Reader.accept?, hp, if_true]
      rcases hrow : f (some t) ⟨ts, id, cs⟩ with ⟨a, row'⟩ | ⟨c, row'⟩ <;> rw [hrow] at h
      · exact ⟨⟨h.1.nextId, h.1.complaints⟩, fun hc => .inr ⟨t, _, hp, rfl, rfl, h.2 hc⟩⟩
      · exact ⟨h.nextId, h.complaints⟩
    | false =>
      have h := hx ⟨t :: ts, id, cs⟩
      simp only [Bind.bind, EStateM.bind, Reader.accept?, hp, Bool.false_eq_true, if_false]
      rcases hrow : f none ⟨t :: ts, id, cs⟩ with ⟨a, row'⟩ | ⟨c, row'⟩ <;> rw [hrow] at h
      · exact ⟨h.1, fun hc => .inl ⟨by simpa using hp, h.2 hc⟩⟩
      · exact h

/-- A choice by the token in front, which is left there. -/
theorem ifPeek {f : Option Token → Reader α} {R : Token → Row → α → Row → Prop}
    (hx : Reads (f none) P) (hf : ∀ t, Reads (f (some t)) (R t)) :
    Reads (Reader.peek? >>= f) fun row a row' =>
      (row.tokens = [] ∧ P row a row') ∨
        ∃ t, row.tokens = t :: row.tokens.tail ∧ R t row a row' := by
  have h (t? : Option Token) : Reads (f t?) fun row a row' =>
      t?.elim (P row a row') fun t => R t row a row' := by
    cases t? with
    | none => exact hx
    | some t => exact hf t
  refine (peek?.bind h).mono ?_
  rintro row a row' ⟨_ | t, next, ⟨ht, rfl⟩, h'⟩
  · exact .inl ⟨by simpa using ht.symm, h'⟩
  · obtain ⟨ts, hts⟩ := List.head?_eq_some_iff.1 ht.symm
    exact .inr ⟨t, by simp [hts], h'⟩

theorem ifTest {r : Reader Bool} {b : Row → Bool} {x y : Reader α}
    (hr : ∀ row, r row = .ok (b row) row) (hx : Reads x P) (hy : Reads y Q) :
    Reads (do if ← r then x else y) fun row a row' =>
      if b row then P row a row' else Q row a row' := by
  intro row
  simp only [Bind.bind, EStateM.bind, hr]
  cases b row with
  | true => exact hx row
  | false => exact hy row

theorem complainIf {c : Prop} [Decidable c] {cause : SyntaxFault} {x : Reader α} (hx : Reads x P) :
    Reads (do
      if c then
        Reader.complain cause (← Reader.peek?)
      x) fun row a row' => ¬ c ∧ P row a row' := by
  by_cases hc : c
  · simp only [if_pos hc]
    refine (peek?.bind fun t? => (complain cause t?).bind fun _ => hx).mono ?_
    rintro row a row' ⟨t?, mid, -, _, mid', h, -⟩
    exact h.elim
  · simp only [if_neg hc]
    exact hx.mono fun _ _ _ h => ⟨hc, h⟩

/-- A failure that is recovered from is complained of, so a run without a complaint had none. -/
theorem recovering {r : Reader α} (h : Reads r P) :
    Reads (Lox.recovering r) fun row a? row' => ∃ a, a? = some a ∧ P row a row' := by
  intro row
  have hr := h row
  simp only [Lox.recovering]
  rcases hrow : r row with ⟨a, row'⟩ | ⟨c, row'⟩ <;> rw [hrow] at hr
  · exact ⟨hr.1, fun hc => ⟨a, rfl, hr.2 hc⟩⟩
  · refine ⟨⟨hr.nextId, by simpa using Nat.le_succ_of_le hr.complaints⟩, fun hc => ?_⟩
    have := hr.complaints
    simp only [List.length_cons] at hc
    omega

end Reads

end Lox
