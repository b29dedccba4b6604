import Lox.Grammar

/-!
# What a reader accepts

`Accepts r ts rest Q` says that in front of the tokens `ts ++ rest` the reader takes just `ts`,
complains of nothing, and gives an answer that meets `Q`. The rules follow a reader along the
tokens: each says what is left to accept after one step.
-/

namespace Lox

def Accepts {α : Type} (r : Reader α) (ts rest : List Token) (Q : α → Prop) : Prop :=
  ∀ id cs, ∃ a id', r ⟨ts ++ rest, id, cs⟩ = .ok a ⟨rest, id', cs⟩ ∧ Q a

namespace Accepts

variable {α β : Type} {ts rest : List Token} {P : β → Prop} {Q : α → Prop}

theorem pure {a : α} (h : Q a) : Accepts (pure a) [] rest Q :=
  fun id _ => ⟨a, id, rfl, h⟩

/-- One reader after the other, each on its own tokens. -/
theorem bind {x : Reader β} {f : β → Reader α} {us vs : List Token}
    (hx : Accepts x us (vs ++ rest) P) (hf : ∀ a, P a → Accepts (f a) vs rest Q) :
    Accepts (x >>= f) (us ++ vs) rest Q := by
  intro id cs
  obtain ⟨a, id', hr, ha⟩ := hx id cs
  obtain ⟨b, id'', hr', hb⟩ := hf a ha id' cs
  refine ⟨b, id'', ?_, hb⟩
  simp only [Bind.bind, EStateM.bind, List.append_assoc, hr, hr']

theorem bind_last {x : Reader β} {f : β → Reader α} (hx : Accepts x ts rest P)
    (hf : ∀ a, P a → Accepts (f a) [] rest Q) : Accepts (x >>= f) ts rest Q := by
  have h : Accepts (x >>= f) (ts ++ []) rest Q := hx.bind hf
  rwa [List.append_nil] at h

theorem bind_nothing {x : Reader β} {f : β → Reader α} (hx : Accepts x [] (ts ++ rest) P)
    (hf : ∀ a, P a → Accepts (f a) ts rest Q) : Accepts (x >>= f) ts rest Q :=
  hx.bind hf

theorem bind_token {x : Reader β} {f : β → Reader α} {t : Token}
    (hx : Accepts x [t] (ts ++ rest) P) (hf : ∀ a, P a → Accepts (f a) ts rest Q) :
    Accepts (x >>= f) (t :: ts) rest Q :=
  hx.bind hf

theorem map {x : Reader β} {f : β → α} (hx : Accepts x ts rest P) (hf : ∀ a, P a → Q (f a)) :
    Accepts (f <$> x) ts rest Q := by
  intro id cs
  obtain ⟨a, id', hr, ha⟩ := hx id cs
  exact ⟨f a, id', by simp only [Functor.map, EStateM.map, hr], hf a ha⟩

theorem take {p : Token → Bool} {f : Option Token → Reader α} {t : Token} (ht : p t = true)
    (h : Accepts (f (some t)) ts rest Q) : Accepts (Reader.accept? p >>= f) (t :: ts) rest Q := by
  intro id cs
  obtain ⟨a, id', hr, ha⟩ := h id cs
  refine ⟨a, id', ?_, ha⟩
  simpa [Bind.bind, EStateM.bind, Reader.accept?, ht] using hr

theorem leave {p : Token → Bool} {f : Option Token → Reader α}
    (hp : ∀ t ∈ (ts ++ rest).head?, p t = false) (h : Accepts (f none) ts rest Q) :
    Accepts (Reader.accept? p >>= f) ts rest Q := by
  intro id cs
  obtain ⟨a, id', hr, ha⟩ := h id cs
  refine ⟨a, id', ?_, ha⟩
  rcases htok : ts ++ rest with _ | ⟨t, us⟩ <;> rw [htok] at hr hp
  · simpa [Bind.bind, EStateM.bind, Reader.accept?] using hr
  · simpa [Bind.bind, EStateM.bind, Reader.accept?, hp t rfl] using hr

theorem expect {p : Token → Bool} {cause : SyntaxFault} {f : Token → Reader α} {t : Token}
    (ht : p t = true) (h : Accepts (f t) ts rest Q) :
    Accepts (Reader.expect p cause >>= f) (t :: ts) rest Q := by
  intro id cs
  obtain ⟨a, id', hr, ha⟩ := h id cs
  refine ⟨a, id', ?_, ha⟩
  simpa [Bind.bind, EStateM.bind, Reader.expect, ht] using hr

theorem symbol {s : Symbol} {place : Place} {f : Token → Reader α} {t : Token}
    (ht : t.kind = .symbol s) (h : Accepts (f t) ts rest Q) :
    Accepts (Reader.symbol s place >>= f) (t :: ts) rest Q :=
  expect (by simpa [Token.isSymbol] using ht) h

theorem name {what : Named} {f : Token → Reader α} {t : Token} (ht : t.kind = .identifier)
    (h : Accepts (f t) ts rest Q) : Accepts (Reader.name what >>= f) (t :: ts) rest Q :=
  expect (by simpa [Token.isIdentifier] using ht) h

theorem peek {f : Option Token → Reader α} {t : Token}
    (h : Accepts (f (some t)) (t :: ts) rest Q) : Accepts (Reader.peek? >>= f) (t :: ts) rest Q :=
  h

theorem skip {f : Unit → Reader α} {t : Token} (h : Accepts (f ()) ts rest Q) :
    Accepts (Reader.skip >>= f) (t :: ts) rest Q :=
  h

theorem freshId {f : NodeId → Reader α} (h : ∀ id, Accepts (f id) ts rest Q) :
    Accepts (Reader.freshId >>= f) ts rest Q :=
  fun id cs => h id (id + 1) cs

/-- A test on the tokens ahead. -/
theorem test {r : Reader Bool} {ahead : Row → Bool} {b : Bool} {x y : Reader α}
    (hr : ∀ row, r row = .ok (ahead row) row) (hb : ∀ id cs, ahead ⟨ts ++ rest, id, cs⟩ = b)
    (h : Accepts (if b then x else y) ts rest Q) : Accepts (do if ← r then x else y) ts rest Q := by
  intro id cs
  obtain ⟨a, id', hrun, ha⟩ := h id cs
  refine ⟨a, id', ?_, ha⟩
  simpa only [Bind.bind, EStateM.bind, hr, hb] using hrun

theorem complainIf {c : Prop} [Decidable c] {cause : SyntaxFault} {x : Reader α} (hc : ¬ c)
    (h : Accepts x ts rest Q) :
    Accepts (do
      if c then
        Reader.complain cause (← Reader.peek?)
      x) ts rest Q := by
  simpa only [if_neg hc] using h

theorem recovering {r : Reader α} (h : Accepts r ts rest Q) :
    Accepts (Lox.recovering r) ts rest fun a? => ∃ a, a? = some a ∧ Q a := by
  intro id cs
  obtain ⟨a, id', hr, ha⟩ := h id cs
  exact ⟨some a, id', by simp only [Lox.recovering, hr], a, rfl, ha⟩

end Accepts

end Lox
