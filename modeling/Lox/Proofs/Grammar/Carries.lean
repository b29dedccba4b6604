import Lox.Grammar.Statement
import Lox.Proofs.Tree.Shift

/-!
# Readers on longer rows

A reader looks at the token in front and at no other, so in front of more tokens it does the same,
as long as it does not come to the end of its row. `Carries σ o most taken r r' f` says that what
`r` does in a row of at most `most` tokens, `r'` does in the row of a setting `σ`: further down,
with other tokens behind, and after other complaints. A reader that is open may have looked behind
the last token it took, and carries over only if it left some.

A bound that suffices for a row may be too small for the longer one, so `r'` may be the same rule
with another bound.
-/

namespace Lox

/-- A complaint so many lines further down. -/
def Complaint.down (k : Nat) (c : Complaint) : Complaint :=
  { c with token? := c.token?.map (·.down k) }

/-- Where a row is read again: further down, with some tokens behind it and some complaints made
before. -/
structure Setting extends Shift where
  behind : List Token
  before : List Complaint

namespace Row

/-- The row in a setting. -/
def into (row : Row) (σ : Setting) : Row where
  tokens := row.tokens.map (·.down σ.lines) ++ σ.behind
  nextId := row.nextId + σ.ids
  complaints := row.complaints.map (·.down σ.lines) ++ σ.before

/-- Nothing was complained of at the end of the row. -/
def Inside (row : Row) : Prop :=
  ∀ c ∈ row.complaints, c.token? ≠ none

/-- Tokens are only taken from the front and complaints only noted. -/
structure Onward (row row' : Row) : Prop where
  tokens : row'.tokens <:+ row.tokens
  complaints : row.complaints <:+ row'.complaints

variable {row row' row'' : Row} {σ : Setting}

theorem Onward.refl (row : Row) : row.Onward row :=
  ⟨List.suffix_refl _, List.suffix_refl _⟩

theorem Onward.trans (h : row.Onward row') (h' : row'.Onward row'') : row.Onward row'' :=
  ⟨h'.tokens.trans h.tokens, h.complaints.trans h'.complaints⟩

theorem Onward.inside (h : row.Onward row') (hin : row'.Inside) : row.Inside :=
  fun c hc => hin c (h.complaints.subset hc)

/-- Where tokens are left, there were some. -/
theorem Onward.ne_nil (h : row.Onward row') (hne : row'.tokens ≠ []) : row.tokens ≠ [] :=
  fun hnil => hne (List.suffix_nil.1 (hnil ▸ h.tokens))

/-- What is in front in a setting, unless the row was over. -/
theorem head?_into (h : row.tokens ≠ []) :
    (row.into σ).tokens.head? = row.tokens.head?.map (·.down σ.lines) := by
  obtain ⟨t, ts, hts⟩ := List.exists_cons_of_ne_nil h
  simp [into, hts]

/-- A test of the token in front, unless the row was over. -/
theorem any_head?_into {p : Token → Bool} (hp : ∀ t, p (t.down σ.lines) = p t)
    (h : row.tokens ≠ []) : (row.into σ).tokens.head?.any p = row.tokens.head?.any p := by
  rw [head?_into h, Option.any_map]
  exact congrArg (Option.any · _) (funext hp)

end Row

namespace Reader

variable {α β : Type} {x : Reader α} {f : α → Reader β} {row row' : Row}

theorem bind_eq_ok {b : β} (h : (x >>= f) row = .ok b row') :
    ∃ a mid, x row = .ok a mid ∧ f a mid = .ok b row' := by
  simp only [Bind.bind, EStateM.bind] at h
  split at h
  · exact ⟨_, _, ‹_›, h⟩
  · cases h

theorem bind_eq_error {c : Complaint} (h : (x >>= f) row = .error c row') :
    x row = .error c row' ∨ ∃ a mid, x row = .ok a mid ∧ f a mid = .error c row' := by
  simp only [Bind.bind, EStateM.bind] at h
  split at h
  · exact .inr ⟨_, _, ‹_›, h⟩
  · rename_i c' mid hx
    cases h
    exact .inl hx

theorem bind_of_ok {a : α} (h : x row = .ok a row') : (x >>= f) row = f a row' := by
  simp only [Bind.bind, EStateM.bind, h]

theorem bind_of_error {c : Complaint} (h : x row = .error c row') :
    (x >>= f) row = .error c row' := by
  simp only [Bind.bind, EStateM.bind, h]

end Reader

/-- In a row a reader only goes on, and if it fails, then at the token in front. -/
structure Advances {α : Type} (r : Reader α) (row : Row) : Prop where
  ok {mid : Row} {a : α} : r row = .ok a mid → row.Onward mid
  error {mid : Row} {c : Complaint} :
    r row = .error c mid → row.Onward mid ∧ c.token? = mid.tokens.head?

/-- What `r` does in a row, `r'` does in the setting. If the row has at most `most` tokens, `r`
takes `taken` of them at least. -/
structure CarriesAt {α β : Type} (σ : Setting) (isOpen : Bool) (most taken : Nat) (r : Reader α)
    (r' : Reader β) (f : α → β) (row : Row) : Prop where
  advances : Advances r row
  ok {mid : Row} {a : α} : r row = .ok a mid → row.tokens.length ≤ most → mid.Inside →
    mid.tokens.length + taken ≤ row.tokens.length ∧
      ((isOpen = true → mid.tokens ≠ []) → r' (row.into σ) = .ok (f a) (mid.into σ))
  error {mid : Row} {c : Complaint} : r row = .error c mid → row.tokens.length ≤ most →
    mid.Inside → mid.tokens ≠ [] → r' (row.into σ) = .error (c.down σ.lines) (mid.into σ)

/-- What `r` does in any row, `r'` does in the setting. -/
def Carries {α β : Type} (σ : Setting) (isOpen : Bool) (most taken : Nat) (r : Reader α)
    (r' : Reader β) (f : α → β) : Prop :=
  ∀ row, CarriesAt σ isOpen most taken r r' f row

theorem resumeAfter_suffix : ∀ (last : Token) (ts : List Token), resumeAfter last ts <:+ ts
  | _, [] => List.suffix_refl _
  | last, t :: ts => by
    unfold resumeAfter
    split
    · exact List.suffix_refl _
    · exact (resumeAfter_suffix t ts).trans (List.suffix_cons t ts)

theorem synchronize_suffix : ∀ ts : List Token, synchronize ts <:+ ts
  | [] => List.suffix_refl _
  | t :: ts => (resumeAfter_suffix t ts).trans (List.suffix_cons t ts)

theorem length_synchronize_lt {ts : List Token} (h : ts ≠ []) :
    (synchronize ts).length < ts.length := by
  obtain ⟨t, ts, rfl⟩ := List.exists_cons_of_ne_nil h
  exact Nat.lt_succ_of_le (resumeAfter_suffix t ts).length_le

/-- The last token, if there is one, is a semicolon. -/
def Terminated (ts : List Token) : Prop :=
  ∀ t ∈ ts.getLast?, t.isSymbol .semicolon = true

theorem Terminated.of_suffix {ts us : List Token} (h : Terminated ts) (hus : us <:+ ts) :
    Terminated us := by
  obtain ⟨vs, rfl⟩ := hus
  intro t ht
  refine h t ?_
  rw [List.getLast?_append, Option.mem_def.1 ht]
  rfl

/-- Where there is a next statement, it is the next one also on a longer row. Where there is none,
but a semicolon comes last, the next one starts with what is behind. -/
theorem resumeAfter_append (k : Nat) (us : List Token) : ∀ (last : Token) (ts : List Token),
    (resumeAfter last ts = [] → Terminated (last :: ts)) →
      resumeAfter (last.down k) (ts.map (·.down k) ++ us) =
        (resumeAfter last ts).map (·.down k) ++ us
  | last, [], h => by
    have hlast : (last.down k).isSymbol .semicolon = true := h rfl last rfl
    cases us with
    | nil => rfl
    | cons u us => simp [resumeAfter, hlast]
  | last, t :: ts, h => by
    have hstop : ((last.down k).isSymbol .semicolon || (t.down k).startsStatement) =
        (last.isSymbol .semicolon || t.startsStatement) := rfl
    rw [List.map_cons, List.cons_append]
    unfold resumeAfter at h ⊢
    rw [hstop]
    split at h <;> rename_i hlast
    · rw [if_pos hlast, if_pos hlast]
      rfl
    · rw [if_neg hlast, if_neg hlast]
      exact resumeAfter_append k us t ts fun hnil => (h hnil).of_suffix (List.suffix_cons _ _)

theorem synchronize_append (k : Nat) (us : List Token) {ts : List Token} (hne : ts ≠ [])
    (h : synchronize ts = [] → Terminated ts) :
    synchronize (ts.map (·.down k) ++ us) = (synchronize ts).map (·.down k) ++ us := by
  obtain ⟨t, ts, rfl⟩ := List.exists_cons_of_ne_nil hne
  exact resumeAfter_append k us t ts h

section Rules

variable {σ : Setting} {o o' : Bool} {most most' taken more : Nat} {α α' β β' : Type}
  {r x : Reader α} {r' x' : Reader α'} {s : Reader β} {s' : Reader β'} {g : α → α'} {k : β → β'}
  {row row' : Row}

namespace Advances

theorem pure (a : α) (row : Row) : Advances (pure a) row where
  ok h := by
    cases h
    exact .refl _
  error h := by cases h

theorem fail (cause : SyntaxFault) (row : Row) : Advances (Reader.fail cause : Reader α) row where
  ok h := by cases h
  error h := by
    cases h
    exact ⟨.refl _, rfl⟩

theorem bind {f : α → Reader β} (hx : Advances x row) (hf : ∀ a row, Advances (f a) row) :
    Advances (x >>= f) row where
  ok h := by
    obtain ⟨a, mid, h, h'⟩ := Reader.bind_eq_ok h
    exact (hx.ok h).trans ((hf a mid).ok h')
  error h := by
    rcases Reader.bind_eq_error h with h | ⟨a, mid, h, h'⟩
    · exact hx.error h
    · obtain ⟨hon, hhead⟩ := (hf a mid).error h'
      exact ⟨(hx.ok h).trans hon, hhead⟩

end Advances

namespace CarriesAt

theorem weaken (h : CarriesAt σ o most more r r' g row) (hle : taken ≤ more) :
    CarriesAt σ o most taken r r' g row :=
  { h with
    ok := fun hr hm hin => by
      obtain ⟨hlen, hrun⟩ := h.ok hr hm hin
      exact ⟨by omega, hrun⟩ }

theorem opened (h : CarriesAt σ o most taken r r' g row) :
    CarriesAt σ true most taken r r' g row :=
  { h with
    ok := fun hr hm hin => by
      obtain ⟨hlen, hrun⟩ := h.ok hr hm hin
      exact ⟨hlen, fun hne => hrun fun _ => hne rfl⟩ }

/-- At the end of a row nothing can be left and nothing taken. -/
theorem ended {s : Reader α} {s' : Reader α'} (h : CarriesAt σ o most taken s s' g row)
    (hr : r row = s row) (hrow : row.tokens = []) (ho : o = true ∨ 0 < taken) :
    CarriesAt σ o most taken r r' g row where
  advances := ⟨fun h' => h.advances.ok (hr ▸ h'), fun h' => h.advances.error (hr ▸ h')⟩
  ok h' hm hin := by
    have hlen := (h.ok (hr ▸ h') hm hin).1
    have hon := h.advances.ok (hr ▸ h')
    refine ⟨hlen, fun hne => ?_⟩
    rcases ho with ho | hpos
    · exact absurd hrow (hon.ne_nil (hne ho))
    · rw [hrow, List.length_nil] at hlen
      omega
  error h' _ _ hne := absurd hrow ((h.advances.error (hr ▸ h')).1.ne_nil hne)

/-- After one step of a reader, another goes on in a row that is shorter by `taken`. -/
theorem step {s : Reader α} {s' : Reader α'} (h : CarriesAt σ o most' more s s' g row')
    (hr : r row = s row') (hr' : row'.Inside → r' (row.into σ) = s' (row'.into σ))
    (hlen : row'.tokens.length + taken = row.tokens.length) (hon : row.Onward row')
    (hmost : most ≤ most' + taken) : CarriesAt σ o most (more + taken) r r' g row := by
  refine ⟨⟨fun h' => ?_, fun h' => ?_⟩, fun h' hm hin => ?_, fun h' hm hin hne => ?_⟩
  all_goals rw [hr] at h'
  · exact hon.trans (h.advances.ok h')
  · exact ⟨hon.trans (h.advances.error h').1, (h.advances.error h').2⟩
  · obtain ⟨hlen', hrun⟩ := h.ok h' (by omega) hin
    exact ⟨by omega, fun hne => (hr' ((h.advances.ok h').inside hin)).trans (hrun hne)⟩
  · exact (hr' ((h.advances.error h').1.inside hin)).trans (h.error h' (by omega) hin hne)

/-- A step that takes nothing. -/
theorem stay {s : Reader α} {s' : Reader α'} (h : CarriesAt σ o most more s s' g row')
    (hr : r row = s row') (hr' : row'.Inside → r' (row.into σ) = s' (row'.into σ))
    (htokens : row'.tokens = row.tokens) (hcs : row.complaints <:+ row'.complaints) :
    CarriesAt σ o most more r r' g row := by
  have hstep : CarriesAt σ o most (more + 0) r r' g row :=
    h.step hr hr' (congrArg _ htokens) ⟨htokens ▸ List.suffix_refl _, hcs⟩ (Nat.le_refl _)
  exact hstep

/-- One reader after the other. Where the first one is open, the second one takes or leaves a
token. -/
theorem bind {f : α → Reader β} {f' : α' → Reader β'}
    (hx : CarriesAt σ o' most taken x x' g row)
    (hf : ∀ a, Carries σ o (most - taken) more (f a) (f' (g a)) k)
    (ho : o' = true → o = true ∨ 0 < more) :
    CarriesAt σ o most (taken + more) (x >>= f) (x' >>= f') k row where
  advances := hx.advances.bind fun a row => (hf a row).advances
  ok h hm hin := by
    obtain ⟨a, mid, h, h'⟩ := Reader.bind_eq_ok h
    have hon := (hf a mid).advances.ok h'
    obtain ⟨hlen, hrun⟩ := hx.ok h hm (hon.inside hin)
    obtain ⟨hlen', hrun'⟩ := (hf a mid).ok h' (by omega) hin
    refine ⟨by omega, fun hne => ?_⟩
    have hmid : o' = true → mid.tokens ≠ [] := by
      intro h
      rcases ho h with ho | hpos
      · exact hon.ne_nil (hne ho)
      · exact List.length_pos_iff.1 (by omega)
    rw [Reader.bind_of_ok (hrun hmid)]
    exact hrun' hne
  error h hm hin hne := by
    rcases Reader.bind_eq_error h with h | ⟨a, mid, h, h'⟩
    · exact Reader.bind_of_error (hx.error h hm hin hne)
    · have hon := ((hf a mid).advances.error h').1
      obtain ⟨hlen, hrun⟩ := hx.ok h hm (hon.inside hin)
      rw [Reader.bind_of_ok (hrun fun _ => hon.ne_nil hne)]
      exact (hf a mid).error h' (by omega) hin hne

end CarriesAt

namespace Carries

theorem pure {a : α} {a' : α'} (ha : g a = a') : Carries σ o most 0 (pure a) (pure a') g :=
  fun row =>
  { advances := .pure a row
    ok := fun h _ _ => by
      cases h
      exact ⟨Nat.le_refl _, fun _ => ha ▸ rfl⟩
    error := fun h => by cases h }

theorem fail (cause : SyntaxFault) :
    Carries σ o most taken (Reader.fail cause) (Reader.fail cause) g := fun row =>
  { advances := .fail cause row
    ok := fun h => by cases h
    error := fun h _ _ hne => by
      cases h
      unfold Reader.fail
      rw [Row.head?_into hne]
      rfl }

theorem fail_empty (cause : SyntaxFault) (hmost : most = 0) :
    Carries σ o most taken (Reader.fail cause) r' g := fun row =>
  { advances := .fail cause row
    ok := fun h => by cases h
    error := fun h hm _ hne => by
      cases h
      exact absurd (List.length_eq_zero_iff.1 (by omega)) hne }

theorem weaken (h : Carries σ o most more r r' g) (hle : taken ≤ more) :
    Carries σ o most taken r r' g :=
  fun row => (h row).weaken hle

theorem opened (h : Carries σ o most taken r r' g) : Carries σ true most taken r r' g :=
  fun row => (h row).opened

theorem shorter (h : Carries σ o most' taken r r' g) (hle : most ≤ most') :
    Carries σ o most taken r r' g := fun row =>
  { h row with
    ok := fun hr hm => (h row).ok hr (Nat.le_trans hm hle)
    error := fun hr hm => (h row).error hr (Nat.le_trans hm hle) }

/-- Rows that are empty have no end to come to. -/
theorem empty (h : ∀ row, Advances r row) (hmost : most = 0) :
    Carries σ true most 0 r r' g := fun row =>
  { advances := h row
    ok := fun hr hm _ => by
      have hon := (h row).ok hr
      exact ⟨hon.tokens.length_le, fun hne => absurd (List.length_eq_zero_iff.1 (by omega))
        (hon.ne_nil (hne rfl))⟩
    error := fun hr hm _ hne =>
      absurd (List.length_eq_zero_iff.1 (by omega)) (((h row).error hr).1.ne_nil hne) }

/-- One reader after the other, of which the second one leaves a token. -/
theorem bind {f : α → Reader β} {f' : α' → Reader β'} (hx : Carries σ o most taken x x' g)
    (hf : ∀ a, Carries σ true (most - taken) 0 (f a) (f' (g a)) k) :
    Carries σ true most 0 (x >>= f) (x' >>= f') k :=
  fun row => ((hx row).bind hf fun _ => .inl rfl).weaken (Nat.zero_le _)

/-- One reader after the other, of which the first one does not look behind what it takes. -/
theorem bind_first {f : α → Reader β} {f' : α' → Reader β'} (hx : Carries σ false most 1 x x' g)
    (hf : ∀ a, Carries σ o (most - 1) 0 (f a) (f' (g a)) k) :
    Carries σ o most 1 (x >>= f) (x' >>= f') k :=
  fun row => (hx row).bind hf nofun

/-- One reader after the other, of which the second one takes a token. -/
theorem bind_last {f : α → Reader β} {f' : α' → Reader β'} (hx : Carries σ o' most taken x x' g)
    (hf : ∀ a, Carries σ o (most - taken) 1 (f a) (f' (g a)) k) :
    Carries σ o most 1 (x >>= f) (x' >>= f') k :=
  fun row => ((hx row).bind hf fun _ => .inr Nat.one_pos).weaken (Nat.le_add_left _ _)

theorem map {h : α → β} {h' : α' → β'} (hx : Carries σ o most taken x x' g)
    (hk : ∀ a, k (h a) = h' (g a)) : Carries σ o most taken (h <$> x) (h' <$> x') k := by
  have hbind : Carries σ o most (taken + 0) (x >>= fun a => Pure.pure (h a))
      (x' >>= fun a => Pure.pure (h' a)) k :=
    fun row => (hx row).bind (fun a => .pure (hk a)) .inl
  simpa only [bind_pure_comp, Nat.add_zero] using hbind

theorem map_some (hx : Carries σ o most taken x x' g) :
    Carries σ o most taken (some <$> x) (some <$> x') (Option.map g) :=
  hx.map fun _ => rfl

theorem expect {p : Token → Bool} (hp : ∀ t, p (t.down σ.lines) = p t) (cause : SyntaxFault) :
    Carries σ false most 1 (Reader.expect p cause) (Reader.expect p cause) (·.down σ.lines) := by
  rintro ⟨_ | ⟨t, ts⟩, id, cs⟩
  · refine ⟨⟨nofun, fun h => ?_⟩, nofun, fun h _ _ hne => ?_⟩ <;> cases h
    · exact ⟨.refl _, rfl⟩
    · exact absurd rfl hne
  · cases hpt : p t with
    | true =>
      have hrow (us : List Token) (id : NodeId) (cs : List Complaint) (t : Token)
          (ht : p t = true) :
          Reader.expect p cause ⟨t :: us, id, cs⟩ = .ok t ⟨us, id, cs⟩ := by
        simp only [Reader.expect, ht, if_true]
      refine ⟨⟨fun h => ?_, fun h => ?_⟩, fun h _ _ => ?_, fun h => ?_⟩
      all_goals rw [hrow ts id cs t hpt] at h; cases h
      · exact ⟨List.suffix_cons _ _, List.suffix_refl _⟩
      · exact ⟨Nat.le_refl _, fun _ => hrow _ _ _ _ ((hp t).trans hpt)⟩
    | false =>
      have hrow (us : List Token) (id : NodeId) (cs : List Complaint) (t : Token)
          (ht : p t = false) :
          Reader.expect p cause ⟨t :: us, id, cs⟩ = .error ⟨cause, some t⟩ ⟨t :: us, id, cs⟩ := by
        simp only [Reader.expect, ht, Bool.false_eq_true, if_false]
      refine ⟨⟨fun h => ?_, fun h => ?_⟩, fun h _ _ => ?_, fun h _ _ _ => ?_⟩
      all_goals rw [hrow ts id cs t hpt] at h; cases h
      · exact ⟨.refl _, rfl⟩
      · exact hrow _ _ _ _ ((hp t).trans hpt)

theorem symbol (s : Symbol) (place : Place) :
    Carries σ false most 1 (Reader.symbol s place) (Reader.symbol s place) (·.down σ.lines) :=
  expect (fun _ => rfl) _

theorem name (what : Named) :
    Carries σ false most 1 (Reader.name what) (Reader.name what) (·.down σ.lines) :=
  expect (fun _ => rfl) _

theorem freshId : Carries σ false most 0 Reader.freshId Reader.freshId (· + σ.ids) := fun row =>
  { advances := ⟨fun h => by cases h; exact ⟨List.suffix_refl _, List.suffix_refl _⟩, nofun⟩
    ok := fun h _ _ => by
      cases h
      refine ⟨Nat.le_refl _, fun _ => ?_⟩
      simp only [Reader.freshId, Row.into, Nat.add_right_comm]
    error := nofun }

theorem complain (cause : SyntaxFault) (t : Token) :
    Carries σ false most 0 (Reader.complain cause (some t))
      (Reader.complain cause (some (t.down σ.lines))) id := fun row =>
  { advances := ⟨fun h => by cases h; exact ⟨List.suffix_refl _, List.suffix_cons _ _⟩, nofun⟩
    ok := fun h _ _ => by
      cases h
      exact ⟨Nat.le_refl _, fun _ => rfl⟩
    error := nofun }

/-- A complaint about the token in front, made or not. -/
theorem complainIf {c : Prop} [Decidable c] {cause : SyntaxFault}
    (h : Carries σ o most taken x x' g) :
    Carries σ o most taken
      (do
        if c then
          Reader.complain cause (← Reader.peek?)
        x)
      (do
        if c then
          Reader.complain cause (← Reader.peek?)
        x') g := by
  by_cases hc : c
  · simp only [if_pos hc]
    intro row
    refine (h { row with complaints := ⟨cause, row.tokens.head?⟩ :: row.complaints }).stay rfl
      (fun hin => ?_) rfl (List.suffix_cons _ _)
    have hne : row.tokens ≠ [] := by
      intro hnil
      exact hin _ List.mem_cons_self (by rw [hnil]; rfl)
    have hhead : (row.into σ).tokens.head? = _ := Row.head?_into hne
    simp only [Bind.bind, EStateM.bind, Reader.peek?, Reader.complain, hhead]
    rfl
  · simp only [if_neg hc]
    exact h

theorem ifAccept {p : Token → Bool} {f : Option Token → Reader β} {f' : Option Token → Reader β'}
    (hp : ∀ t, p (t.down σ.lines) = p t) (hnone : Carries σ o most taken (f none) (f' none) k)
    (hsome : ∀ t, Carries σ o (most - 1) 0 (f (some t)) (f' (some (t.down σ.lines))) k)
    (htaken : taken ≤ 1)
    (hend : (o = true ∨ 0 < taken) ∨ ∀ t ∈ σ.behind.head?, p t = false) :
    Carries σ o most taken (Reader.accept? p >>= f) (Reader.accept? p >>= f') k := by
  have htake (t : Token) (us : List Token) (id : NodeId) (cs : List Complaint) (ht : p t = true)
      {γ : Type} (f : Option Token → Reader γ) :
      (Reader.accept? p >>= f) ⟨t :: us, id, cs⟩ = f (some t) ⟨us, id, cs⟩ := by
    simp only [Bind.bind, EStateM.bind, Reader.accept?, ht, if_true]
  have hleave (ts : List Token) (id : NodeId) (cs : List Complaint)
      (ht : ∀ t ∈ ts.head?, p t = false) {γ : Type} (f : Option Token → Reader γ) :
      (Reader.accept? p >>= f) ⟨ts, id, cs⟩ = f none ⟨ts, id, cs⟩ := by
    cases ts with
    | nil => rfl
    | cons t us =>
      simp only [Bind.bind, EStateM.bind, Reader.accept?, ht t rfl, Bool.false_eq_true, if_false]
  rintro ⟨_ | ⟨t, ts⟩, id, cs⟩
  · rcases hend with ho | hbehind
    · exact (hnone _).ended rfl rfl ho
    · exact (hnone _).stay rfl (fun _ => hleave _ _ _ hbehind f') rfl (List.suffix_refl _)
  · cases hpt : p t with
    | true =>
      have hstep : CarriesAt σ o most (0 + 1) (Reader.accept? p >>= f)
          (Reader.accept? p >>= f') k ⟨t :: ts, id, cs⟩ :=
        (hsome t ⟨ts, id, cs⟩).step (htake t ts id cs hpt f)
          (fun _ => htake _ _ _ _ ((hp t).trans hpt) f') rfl
          ⟨List.suffix_cons _ _, List.suffix_refl _⟩ (by omega)
      exact hstep.weaken htaken
    | false =>
      refine (hnone _).stay (hleave _ _ _ (by rintro _ ⟨⟩; exact hpt) f)
        (fun _ => hleave _ _ _ ?_ f') rfl (List.suffix_refl _)
      rintro _ ⟨⟩
      exact (hp t).trans hpt

/-- A choice by the token in front, which is left there. -/
theorem ifPeek {f : Option Token → Reader β} {f' : Option Token → Reader β'} {s' : Reader β'}
    (hnone : Carries σ o most taken (f none) s' k)
    (hsome : ∀ t row, row.tokens = t :: row.tokens.tail →
      CarriesAt σ o most taken (f (some t)) (f' (some (t.down σ.lines))) k row)
    (ho : o = true ∨ 0 < taken) :
    Carries σ o most taken (Reader.peek? >>= f) (Reader.peek? >>= f') k := by
  rintro ⟨_ | ⟨t, ts⟩, id, cs⟩
  · exact (hnone _).ended rfl rfl ho
  · exact (hsome t _ rfl).stay rfl (fun _ => rfl) rfl (List.suffix_refl _)

theorem skip {f : Unit → Reader β} {f' : Unit → Reader β'} {t : Token}
    (hrow : row.tokens = t :: row.tokens.tail) (h : Carries σ o (most - 1) 0 (f ()) (f' ()) k)
    (htaken : taken ≤ 1) :
    CarriesAt σ o most taken (Reader.skip >>= f) (Reader.skip >>= f') k row := by
  have hstep : CarriesAt σ o most (0 + 1) (Reader.skip >>= f) (Reader.skip >>= f') k row := by
    refine (h { row with tokens := row.tokens.tail }).step rfl (fun _ => ?_) ?_
      ⟨List.tail_suffix _, List.suffix_refl _⟩ (by omega)
    · have htail : (row.into σ).tokens.tail =
          row.tokens.tail.map (·.down σ.lines) ++ σ.behind := by
        simp only [Row.into]
        rw [hrow]
        rfl
      simp only [Bind.bind, EStateM.bind, Reader.skip, htail]
      rfl
    · rw [hrow]
      rfl
  exact hstep.weaken htaken

/-- A test of the token in front. -/
theorem ifTest {test : Reader Bool} {b : Row → Bool} (hr : ∀ row, test row = .ok (b row) row)
    (hb : ∀ row, row.tokens ≠ [] → b (row.into σ) = b row)
    (hx : Carries σ true most taken x x' g) (hy : Carries σ true most taken r r' g) :
    Carries σ true most taken (do if ← test then x else r) (do if ← test then x' else r') g := by
  intro row
  have hrun {γ : Type} (x r : Reader γ) (row : Row) :
      (do if ← test then x else r) row = if b row then x row else r row := by
    simp only [Bind.bind, EStateM.bind, hr]
    cases b row <;> rfl
  have h : CarriesAt σ true most taken (if b row then x else r) (if b row then x' else r') g
      row := by
    cases b row with
    | true => exact hx row
    | false => exact hy row
  by_cases hrow : row.tokens = []
  · refine h.ended ?_ hrow (.inl rfl)
    rw [hrun]
    cases b row <;> rfl
  · refine h.stay ?_ (fun _ => ?_) rfl (List.suffix_refl _)
    · rw [hrun]
      cases b row <;> rfl
    · rw [hrun, hb row hrow]
      cases b row <;> rfl

/-- After a failure both go on with the next statement, if there is one. -/
theorem recovering (h : Carries σ o most taken r r' g) (htaken : taken ≤ 1) :
    Carries σ true most taken (Lox.recovering r) (Lox.recovering r') (Option.map g) := by
  intro row
  have hr := h row
  cases hrun : r row with
  | ok a mid =>
    have hrec : Lox.recovering r row = .ok (some a) mid := by simp only [Lox.recovering, hrun]
    refine ⟨⟨fun h' => ?_, fun h' => ?_⟩, fun h' hm hin => ?_, fun h' => ?_⟩
    all_goals rw [hrec] at h'; cases h'
    · exact hr.advances.ok hrun
    · obtain ⟨hlen, hrun'⟩ := hr.ok hrun hm hin
      refine ⟨hlen, fun hne => ?_⟩
      simp only [Lox.recovering, hrun' fun _ => hne rfl, Option.map_some]
  | error c mid =>
    have hrec : Lox.recovering r row = .ok none
        { mid with tokens := synchronize mid.tokens, complaints := c :: mid.complaints } := by
      simp only [Lox.recovering, hrun]
    obtain ⟨hon, hhead⟩ := hr.advances.error hrun
    refine ⟨⟨fun h' => ?_, fun h' => ?_⟩, fun h' hm hin => ?_, fun h' => ?_⟩
    all_goals rw [hrec] at h'; cases h'
    · exact ⟨(synchronize_suffix _).trans hon.tokens,
        hon.complaints.trans (List.suffix_cons _ _)⟩
    · have hmid : mid.tokens ≠ [] := by
        intro hnil
        exact hin c List.mem_cons_self (by rw [hhead, hnil]; rfl)
      have hlt := length_synchronize_lt hmid
      have hlen := hon.tokens.length_le
      refine ⟨by dsimp only; omega, fun hne => ?_⟩
      have hin' : mid.Inside := fun c hc => hin c (List.mem_cons_of_mem _ hc)
      have hsync : synchronize (mid.into σ).tokens =
          (synchronize mid.tokens).map (·.down σ.lines) ++ σ.behind :=
        synchronize_append σ.lines σ.behind hmid fun hnil => absurd hnil (hne rfl)
      simp only [Lox.recovering, hr.error hrun hm hin' hmid, hsync]
      rfl

end Carries

end Rules

end Lox
