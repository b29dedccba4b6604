import Lox.Proofs.Grammar.Carries
import Lox.Proofs.Grammar.Relaxed

/-!
# Readers that stop at once

A reader looks at one token only, and it fails at that token as soon as no sentence goes on with
it. `Predicts ρ follow most r L` says this of a reader `r` and a language `L`, whatever language
`K` with `follow K` comes behind:

* where `r` succeeds, it took a word of `L`, and the words of `L * K` that go on like the row are
  that word before one of `K`;
* where `r` fails, what it took is the beginning of a word of `L`, but no word of `L * K` goes on
  like the row.

So whatever is read one after the other fails where the row leaves the language of the whole. After
a fault that was recovered from (`ρ` says where one may have been) nothing more is said.
-/

namespace Lox

open Computability
open Relaxed

instance : Nonempty Token :=
  ⟨⟨.eof, "", 1⟩⟩

instance : Nonempty Expr :=
  ⟨.literal .nil⟩

instance : Nonempty Stmt :=
  ⟨.block []⟩

/-- A fault of which a reader complains without stopping. -/
def SyntaxFault.isSoft : SyntaxFault → Bool
  | invalidTarget | tooManyParameters | tooManyArguments => true
  | symbolMissing _ _ | nameMissing _ | expressionMissing | endMissing => false

namespace Row

/-- Only soft faults are complained of between two rows. -/
def Softly (row row' : Row) : Prop :=
  ∃ noted, row'.complaints = noted ++ row.complaints ∧ ∀ c ∈ noted, c.cause.isSoft = true

variable {row row' row'' : Row}

theorem Softly.of_eq (h : row'.complaints = row.complaints) : row.Softly row' :=
  ⟨[], h, List.forall_mem_nil _⟩

theorem Softly.trans (h : row.Softly row') (h' : row'.Softly row'') : row.Softly row'' := by
  obtain ⟨noted, hcs, hsoft⟩ := h
  obtain ⟨noted', hcs', hsoft'⟩ := h'
  exact ⟨noted' ++ noted, by rw [hcs', hcs, List.append_assoc],
    List.forall_mem_append.2 ⟨hsoft', hsoft⟩⟩

end Row

/-- The row that a reader leaves. -/
def rowOf {α : Type} : EStateM.Result Complaint Row α → Row
  | .ok _ row => row
  | .error _ row => row

/-- In any row a reader goes forward. -/
def GoesForward {α : Type} (r : Reader α) : Prop :=
  ∀ row : Row, row.Onward (rowOf (r row))

/-- Where a fault may have been recovered from. -/
inductive Recovery where
  | never | inBraces | anywhere
  deriving DecidableEq, Repr

/-- The rows in which a fault may have been recovered from. -/
def Recovery.Allows : Recovery → List Token → Prop
  | never, _ => False
  | inBraces, ts => ∃ t ∈ ts, t.isSymbol .leftBrace = true
  | anywhere, _ => True

theorem Recovery.Allows.append {ρ : Recovery} {ts : List Token} (h : ρ.Allows ts)
    (us : List Token) : ρ.Allows (us ++ ts) := by
  cases ρ with
  | never => exact h
  | inBraces =>
    obtain ⟨t, ht, hbrace⟩ := h
    exact ⟨t, List.mem_append_right _ ht, hbrace⟩
  | anywhere => trivial

/-- The tokens `us` begin a word of a language that goes on otherwise than `ts`. -/
structure Stuck (follow : Language Token → Prop) (L : Language Token) (us ts : List Token) :
    Prop where
  viable : ∃ v, us ++ v ∈ L
  stuck : ∀ K, follow K → ∀ y, y.head? = ts.head? → us ++ y ∉ L * K

/-- What comes of reading a row of a language. -/
inductive Predicted {α : Type} (ρ : Recovery) (follow : Language Token → Prop)
    (L : Language Token) (row : Row) : EStateM.Result Complaint Row α → Prop where
  | read {a : α} {mid : Row} (w : List Token) (hw : w ∈ L) (htokens : row.tokens = w ++ mid.tokens)
      (hsoft : row.Softly mid) (hnext : ∀ K, follow K → ∀ y, y.head? = mid.tokens.head? →
        w ++ y ∈ L * K → y ∈ K) : Predicted ρ follow L row (.ok a mid)
  | failed {c : Complaint} {mid : Row} (us : List Token) (hc : c.cause.isSoft = false)
      (htoken : c.token? = mid.tokens.head?) (htokens : row.tokens = us ++ mid.tokens)
      (hsoft : row.Softly mid) (hstuck : Stuck follow L us mid.tokens) :
      Predicted ρ follow L row (.error c mid)
  | recovered {result : EStateM.Result Complaint Row α} {c : Complaint} {mid : Row}
      (us : List Token) (hρ : ρ.Allows row.tokens) (hc : c.cause.isSoft = false)
      (htoken : c.token? = mid.tokens.head?) (htokens : row.tokens = us ++ mid.tokens)
      (hsoft : row.Softly mid) (hstuck : Stuck follow L us mid.tokens)
      (hnoted : c :: mid.complaints <:+ (rowOf result).complaints) : Predicted ρ follow L row result

/-- In rows of at most `most` tokens, `r` reads a word of `L` or stops where none goes on. -/
structure Predicts {α : Type} (ρ : Recovery) (follow : Language Token → Prop) (most : Nat)
    (r : Reader α) (L : Language Token) : Prop where
  forward : GoesForward r
  outcome : ∀ row, row.tokens.length ≤ most → Predicted ρ follow L row (r row)

theorem head?_append_congr {w y z : List Token} (h : y.head? = z.head?) :
    (w ++ y).head? = (w ++ z).head? := by
  rw [List.head?_append, List.head?_append, h]

theorem Reader.accept?_bind_cons {β : Type} {p : Token → Bool} {f : Option Token → Reader β}
    (t : Token) (ts : List Token) (id : NodeId) (cs : List Complaint) :
    (Reader.accept? p >>= f) ⟨t :: ts, id, cs⟩ =
      if p t then f (some t) ⟨ts, id, cs⟩ else f none ⟨t :: ts, id, cs⟩ := by
  simp only [Bind.bind, EStateM.bind, Reader.accept?]
  cases p t <;> rfl

section Rules

variable {α β : Type} {ρ : Recovery} {follow follow' : Language Token → Prop} {most : Nat}
  {L L' : Language Token} {row mid : Row} {x r : Reader α} {f : α → Reader β}
  {result : EStateM.Result Complaint Row α}

namespace GoesForward

theorem pure (a : α) : GoesForward (Pure.pure a : Reader α) :=
  fun row => .refl row

theorem bind (hx : GoesForward x) (hf : ∀ a, GoesForward (f a)) :
    GoesForward (x >>= f) := by
  intro row
  have h := hx row
  simp only [Bind.bind, EStateM.bind]
  cases hrun : x row with
  | ok a mid =>
    rw [hrun] at h
    exact h.trans (hf a mid)
  | error c mid =>
    rw [hrun] at h
    exact h

end GoesForward

namespace Predicted

/-- A language that agrees with a smaller one on what goes on like the row. -/
theorem widen (h : Predicted ρ follow' L' row result) (hsub : ∀ w ∈ L', w ∈ L)
    (hfollow : ∀ K, follow K → follow' K)
    (hhead : ∀ K, follow K → ∀ y, y.head? = row.tokens.head? → y ∈ L * K → y ∈ L' * K) :
    Predicted ρ follow L row result := by
  have hstuck : ∀ {us ts}, row.tokens = us ++ ts → Stuck follow' L' us ts →
      Stuck follow L us ts := by
    rintro us ts htokens ⟨⟨v, hv⟩, hstuck⟩
    refine ⟨⟨v, hsub _ hv⟩, fun K hK y hy hmem => ?_⟩
    refine hstuck K (hfollow K hK) y hy (hhead K hK _ ?_ hmem)
    rw [htokens]
    exact head?_append_congr hy
  cases h with
  | read w hw htokens hsoft hnext =>
    refine .read w (hsub w hw) htokens hsoft fun K hK y hy hmem => ?_
    refine hnext K (hfollow K hK) y hy (hhead K hK _ ?_ hmem)
    rw [htokens]
    exact head?_append_congr hy
  | failed us hc htoken htokens hsoft h =>
    exact .failed us hc htoken htokens hsoft (hstuck htokens h)
  | recovered us hρ hc htoken htokens hsoft h hnoted =>
    exact .recovered us hρ hc htoken htokens hsoft (hstuck htokens h) hnoted

/-- A language has a word if there is an outcome. -/
theorem nonempty (h : Predicted ρ follow L row result) : ∃ w, w ∈ L := by
  cases h with
  | read w hw => exact ⟨w, hw⟩
  | failed _ _ _ _ _ hstuck => exact ⟨_, hstuck.viable.choose_spec⟩
  | recovered _ _ _ _ _ _ hstuck => exact ⟨_, hstuck.viable.choose_spec⟩

end Predicted

/-- What is stuck behind a word of one language is stuck in the product. -/
theorem Stuck.behind {w us ts : List Token} (hw : w ∈ L') (hstuck : Stuck follow L us ts)
    (hnext : ∀ K, follow K → ∀ y, y.head? = ts.head? → w ++ (us ++ y) ∈ L' * (L * K) →
      us ++ y ∈ L * K) : Stuck follow (L' * L) (w ++ us) ts where
  viable := by
    obtain ⟨v, hv⟩ := hstuck.viable
    exact ⟨v, List.append_assoc w us v ▸ append_mem hw hv⟩
  stuck K hK y hy hmem := by
    rw [List.append_assoc, mul_assoc] at hmem
    exact hstuck.stuck K hK y hy (hnext K hK y hy hmem)

/-- What is stuck in one language is stuck in a product with another behind it. -/
theorem Stuck.before {us ts : List Token} (hstuck : Stuck follow' L' us ts)
    (hL : ∃ w, w ∈ L) (hfollow : ∀ K, follow K → follow' (L * K)) :
    Stuck follow (L' * L) us ts where
  viable := by
    obtain ⟨v, hv⟩ := hstuck.viable
    obtain ⟨w, hw⟩ := hL
    exact ⟨v ++ w, List.append_assoc us v w ▸ append_mem hv hw⟩
  stuck K hK y hy hmem := hstuck.stuck _ (hfollow K hK) y hy (mul_assoc L' L K ▸ hmem)

namespace Predicts

variable {ρ' : Recovery} {less : Nat}

theorem nonempty (h : Predicts ρ follow most r L) : ∃ w, w ∈ L :=
  (h.outcome ⟨[], 0, []⟩ (Nat.zero_le _)).nonempty

theorem mono (h : Predicts ρ follow' most r L) (hfollow : ∀ K, follow K → follow' K) :
    Predicts ρ follow most r L where
  forward := h.forward
  outcome row hrow := (h.outcome row hrow).widen (fun _ hw => hw) hfollow fun _ _ _ _ hy => hy

theorem shorter (h : Predicts ρ follow most r L) (hle : less ≤ most) :
    Predicts ρ follow less r L where
  forward := h.forward
  outcome row hrow := h.outcome row (Nat.le_trans hrow hle)

/-- One reader after the other, of which the first one takes `taken` tokens at least. -/
theorem bind_at [Nonempty α] {taken : Nat} (hx : Predicts ρ follow' most x L')
    (hlen : ∀ w ∈ L', taken ≤ w.length)
    (hf : ∀ a, Predicts ρ' follow (most - taken) (f a) L)
    (hfollow : ∀ K, follow K → follow' (L * K))
    (hρ : ∀ w ts, w ∈ L' → ρ'.Allows ts → ρ.Allows (w ++ ts)) :
    Predicts ρ follow most (x >>= f) (L' * L) where
  forward := hx.forward.bind fun a => (hf a).forward
  outcome row hrow := by
    have hL : ∃ w, w ∈ L := (hf (Classical.arbitrary α)).nonempty
    have h := hx.outcome row hrow
    cases hrun : x row with
    | error c mid =>
      rw [hrun] at h
      rw [Reader.bind_of_error hrun]
      cases h with
      | failed us hc htoken htokens hsoft hstuck =>
        exact .failed us hc htoken htokens hsoft (hstuck.before hL hfollow)
      | recovered us hρ hc htoken htokens hsoft hstuck hnoted =>
        exact .recovered us hρ hc htoken htokens hsoft (hstuck.before hL hfollow) hnoted
    | ok a mid =>
      rw [hrun] at h
      rw [Reader.bind_of_ok hrun]
      cases h with
      | recovered us hρ hc htoken htokens hsoft hstuck hnoted =>
        exact .recovered us hρ hc htoken htokens hsoft (hstuck.before hL hfollow)
          (hnoted.trans ((hf a).forward mid).complaints)
      | read w hw htokens hsoft hnext =>
        have hmid : mid.tokens.length ≤ most - taken := by
          have := hlen w hw
          rw [htokens, List.length_append] at hrow
          omega
        -- The word of the first reader leaves what goes on behind it to the second one.
        have hbehind : ∀ {us ts}, mid.tokens = us ++ ts → ∀ K, follow K → ∀ y,
            y.head? = ts.head? → w ++ (us ++ y) ∈ L' * (L * K) → us ++ y ∈ L * K := by
          intro us ts htokens K hK y hy
          refine hnext _ (hfollow K hK) _ ?_
          rw [htokens]
          exact head?_append_congr hy
        have h' := (hf a).outcome mid hmid
        generalize f a mid = result at h'
        cases h' with
        | read w' hw' htokens' hsoft' hnext' =>
          refine .read (w ++ w') (append_mem hw hw') (by rw [htokens, htokens', List.append_assoc])
            (hsoft.trans hsoft') fun K hK y hy hmem => ?_
          rw [List.append_assoc, mul_assoc] at hmem
          exact hnext' K hK y hy (hbehind htokens' K hK y hy hmem)
        | failed us hc htoken htokens' hsoft' hstuck =>
          exact .failed (w ++ us) hc htoken (by rw [htokens, htokens', List.append_assoc])
            (hsoft.trans hsoft') (hstuck.behind hw (hbehind htokens'))
        | recovered us hρ' hc htoken htokens' hsoft' hstuck hnoted =>
          exact .recovered (w ++ us) (htokens ▸ hρ _ _ hw hρ') hc htoken
            (by rw [htokens, htokens', List.append_assoc]) (hsoft.trans hsoft')
            (hstuck.behind hw (hbehind htokens')) hnoted

theorem bind [Nonempty α] (hx : Predicts ρ follow' most x L')
    (hf : ∀ a, Predicts ρ follow most (f a) L) (hfollow : ∀ K, follow K → follow' (L * K)) :
    Predicts ρ follow most (x >>= f) (L' * L) :=
  hx.bind_at (fun _ _ => Nat.zero_le _) hf hfollow fun _ _ _ h => h.append _

theorem pure (a : α) : Predicts ρ follow most (Pure.pure a) 1 where
  forward := .pure a
  outcome row _ := .read [] rfl rfl (.of_eq rfl) fun K _ y _ hmem => by simpa using hmem

theorem map (h : α → β) (hx : Predicts ρ follow most x L) : Predicts ρ follow most (h <$> x) L where
  forward row := by
    have hrow := hx.forward row
    simp only [Functor.map, EStateM.map]
    cases hrun : x row <;> rwa [hrun] at hrow
  outcome row hrow := by
    have hout := hx.outcome row hrow
    simp only [Functor.map, EStateM.map]
    generalize x row = result at hout
    cases hout with
    | read w hw htokens hsoft hnext => exact .read w hw htokens hsoft hnext
    | failed us hc htoken htokens hsoft hstuck => exact .failed us hc htoken htokens hsoft hstuck
    | recovered us hρ hc htoken htokens hsoft hstuck hnoted =>
      refine .recovered us hρ hc htoken htokens hsoft hstuck ?_
      cases result <;> exact hnoted

/-- A reader that is followed by a result of its own. -/
theorem bind_pure (h : α → β) (hx : Predicts ρ follow most x L) :
    Predicts ρ follow most (x >>= fun a => Pure.pure (h a)) L := by
  rw [bind_pure_comp]
  exact hx.map h

/-- A reader that takes nothing and only notes soft complaints. -/
theorem bind_idle {a : Row → α} {after : Row → Row} (hx : ∀ row, x row = .ok (a row) (after row))
    (htokens : ∀ row, (after row).tokens = row.tokens) (hsoft : ∀ row : Row, row.Softly (after row))
    (hf : ∀ a, Predicts ρ follow most (f a) L) : Predicts ρ follow most (x >>= f) L where
  forward row := by
    rw [Reader.bind_of_ok (hx row)]
    refine .trans ⟨?_, ?_⟩ ((hf _).forward (after row))
    · rw [htokens]
    · obtain ⟨noted, hcs, -⟩ := hsoft row
      exact ⟨noted, hcs.symm⟩
  outcome row hrow := by
    rw [Reader.bind_of_ok (hx row)]
    have hout := (hf (a row)).outcome (after row) (by rwa [htokens])
    generalize f (a row) (after row) = result at hout
    cases hout with
    | read w hw h hsoft' hnext =>
      exact .read w hw (htokens row ▸ h) ((hsoft row).trans hsoft') hnext
    | failed us hc htoken h hsoft' hstuck =>
      exact .failed us hc htoken (htokens row ▸ h) ((hsoft row).trans hsoft') hstuck
    | recovered us hρ hc htoken h hsoft' hstuck hnoted =>
      rw [htokens] at h hρ
      exact .recovered us hρ hc htoken h ((hsoft row).trans hsoft') hstuck hnoted

/-- At the end of a row nothing is read. -/
theorem nothing (a : α) (hL : [] ∈ L) : Predicts ρ follow 0 (Pure.pure a) L where
  forward := .pure a
  outcome row hrow := by
    have hnil : row.tokens = [] := List.length_eq_zero_iff.1 (Nat.le_zero.1 hrow)
    refine .read [] hL rfl (.of_eq rfl) fun K _ y hy hmem => ?_
    obtain rfl : y = [] := by simpa [hnil] using hy
    obtain ⟨ts, us, -, hus, heq⟩ := mem_mul.1 hmem
    rw [(List.append_eq_nil_iff.1 heq.symm).2] at hus
    exact hus

/-- At the end of a row a language without the empty word goes on with nothing. -/
theorem fail_nothing (cause : SyntaxFault) (hc : cause.isSoft = false) (hL : ∃ w, w ∈ L)
    (hnil : [] ∉ L) : Predicts ρ follow 0 (Reader.fail cause : Reader α) L where
  forward _ := .refl _
  outcome row hrow := by
    have hrow : row.tokens = [] := List.length_eq_zero_iff.1 (Nat.le_zero.1 hrow)
    refine .failed [] hc rfl rfl (.of_eq rfl) ⟨hL, fun K _ y hy hmem => ?_⟩
    obtain rfl : y = [] := by simpa [hrow] using hy
    obtain ⟨ts, us, hts, -, heq⟩ := mem_mul.1 hmem
    exact hnil ((List.append_eq_nil_iff.1 heq.symm).1 ▸ hts)

/-- At the end of a row a language goes on like a smaller one. -/
theorem widen_nothing (h : Predicts ρ follow 0 r L') (hsub : ∀ w ∈ L', w ∈ L)
    (hnil : [] ∉ L) : Predicts ρ follow 0 r L where
  forward := h.forward
  outcome row hrow := by
    refine (h.outcome row hrow).widen hsub (fun _ hK => hK) fun K _ y hy hmem => ?_
    have hrow : row.tokens = [] := List.length_eq_zero_iff.1 (Nat.le_zero.1 hrow)
    obtain rfl : y = [] := by simpa [hrow] using hy
    obtain ⟨ts, us, hts, -, heq⟩ := mem_mul.1 hmem
    exact absurd ((List.append_eq_nil_iff.1 heq.symm).1 ▸ hts) hnil

theorem freshId_bind {f : NodeId → Reader β} (hf : ∀ id, Predicts ρ follow most (f id) L) :
    Predicts ρ follow most (Reader.freshId >>= f) L :=
  bind_idle (fun _ => rfl) (fun _ => rfl) (fun _ => .of_eq rfl) hf

theorem complain_bind {cause : SyntaxFault} {t? : Option Token} {f : Unit → Reader β}
    (hc : cause.isSoft = true) (hf : Predicts ρ follow most (f ()) L) :
    Predicts ρ follow most (Reader.complain cause t? >>= f) L :=
  bind_idle (fun _ => rfl) (fun _ => rfl)
    (fun _ => ⟨[⟨cause, t?⟩], rfl, List.forall_mem_singleton.2 hc⟩) fun _ => hf

/-- A complaint about the token in front, made or not. -/
theorem complainIf {c : Prop} [Decidable c] {cause : SyntaxFault} (hc : cause.isSoft = true)
    (h : Predicts ρ follow most r L) :
    Predicts ρ follow most
      (do
        if c then
          Reader.complain cause (← Reader.peek?)
        r) L := by
  by_cases hcond : c
  · simp only [if_pos hcond]
    exact bind_idle (fun _ => rfl) (fun _ => rfl) (fun _ => .of_eq rfl) fun _ => complain_bind hc h
  · simp only [if_neg hcond]
    exact h

section Token

variable {p : Token → Bool}

theorem expect (cause : SyntaxFault) (hc : cause.isSoft = false) (hp : ∃ t, p t = true) :
    Predicts ρ follow most (Reader.expect p cause) (token p) where
  forward := by
    rintro ⟨_ | ⟨t, ts⟩, id, cs⟩
    · exact .refl _
    · simp only [Reader.expect]
      split
      · exact ⟨List.suffix_cons t ts, List.suffix_refl cs⟩
      · exact .refl _
  outcome := by
    have hstuck : ∀ ts : List Token, (∀ t ∈ ts.head?, p t = false) →
        Stuck follow (token p) [] ts := by
      refine fun ts hts => ⟨?_, fun K _ y hy hmem => ?_⟩
      · obtain ⟨t, ht⟩ := hp
        exact ⟨[t], token_mem ht⟩
      · obtain ⟨t, v, ht, -, rfl⟩ := mem_token_mul.1 hmem
        rw [hts t hy.symm] at ht
        cases ht
    rintro ⟨_ | ⟨t, ts⟩, id, cs⟩ -
    · exact .failed [] hc rfl rfl (.of_eq rfl) (hstuck [] fun _ h => by cases h)
    · simp only [Reader.expect]
      split
      · rename_i ht
        refine .read [t] (token_mem ht) rfl (.of_eq rfl) fun K _ y _ hmem => ?_
        obtain ⟨_, v, -, hv, heq⟩ := mem_token_mul.1 hmem
        cases heq
        exact hv
      · rename_i ht
        refine .failed [] hc rfl rfl (.of_eq rfl) (hstuck _ ?_)
        rintro _ ⟨⟩
        exact eq_false_of_ne_true ht

theorem symbol (s : Symbol) (place : Place) :
    Predicts ρ follow most (Reader.symbol s place) (Relaxed.symbol s) :=
  expect _ rfl ⟨⟨.symbol s, "", 1⟩, isSymbol_iff.2 rfl⟩

theorem name (what : Named) :
    Predicts ρ follow most (Reader.name what) (token (·.isIdentifier)) :=
  expect _ rfl ⟨⟨.identifier, "", 1⟩, rfl⟩

theorem length_token : ∀ w ∈ token p, 1 ≤ w.length := by
  rintro _ ⟨t, -, rfl⟩
  exact Nat.le_refl _

/-- A token that is taken before other tokens are read. -/
theorem bind_token [Nonempty α] (hx : Predicts ρ (fun _ => True) most x (token p))
    (hf : ∀ a, Predicts ρ follow (most - 1) (f a) L) :
    Predicts ρ follow most (x >>= f) (token p * L) :=
  hx.bind_at length_token hf (fun _ _ => trivial) fun _ _ _ h => h.append _

/-- A brace that is taken before other tokens are read. -/
theorem bind_brace (place : Place) {f : Token → Reader β}
    (hf : ∀ a, Predicts .anywhere follow (most - 1) (f a) L) :
    Predicts .inBraces follow most (Reader.symbol .leftBrace place >>= f)
      (Relaxed.symbol .leftBrace * L) := by
  have hx : Predicts .inBraces (fun _ => True) most (Reader.symbol .leftBrace place)
      (Relaxed.symbol .leftBrace) := symbol .leftBrace place
  refine hx.bind_at length_token hf (fun _ _ => trivial) ?_
  rintro _ ts ⟨t, ht, rfl⟩ -
  exact ⟨t, List.mem_cons_self, ht⟩

end Token

section Choice

variable {p : Token → Bool} {L₁ L₂ : Language Token}

/-- A choice by whether a token can be taken. Where one that could be taken may also stand behind
what is read without it, taking it leaves as much open. -/
theorem ifAccept_at {f : Option Token → Reader β} (hp : ∃ t, p t = true)
    (hsome : ∀ t, Predicts ρ' follow (most - 1) (f (some t)) L₁)
    (hnone : Predicts ρ follow most (f none) L₂)
    (htake : ∀ K, follow K → ∀ t v, p t = true → t :: v ∈ L₂ * K → v ∈ L₁ * K)
    (hρ : ∀ t ts, p t = true → ρ'.Allows ts → ρ.Allows (t :: ts)) :
    Predicts ρ follow most (Reader.accept? p >>= f) (token p * L₁ + L₂) := by
  have hleave : ∀ row : Row, row.tokens.length ≤ most → (∀ t ∈ row.tokens.head?, p t = false) →
      Predicted ρ follow (token p * L₁ + L₂) row (f none row) := by
    intro row hrow hhead
    refine (hnone.outcome row hrow).widen (fun _ => .inr) (fun _ h => h) fun K _ y hy hmem => ?_
    rw [add_mul, mul_assoc] at hmem
    rcases hmem with hmem | hmem
    · obtain ⟨t, v, ht, -, rfl⟩ := mem_token_mul.1 hmem
      rw [hhead t hy.symm] at ht
      cases ht
    · exact hmem
  constructor
  · rintro ⟨_ | ⟨t, ts⟩, id, cs⟩
    · exact hnone.forward _
    · rw [Reader.accept?_bind_cons]
      split
      · exact .trans ⟨List.suffix_cons t ts, List.suffix_refl cs⟩ ((hsome t).forward _)
      · exact hnone.forward _
  · rintro ⟨_ | ⟨t, ts⟩, id, cs⟩ hrow
    · exact hleave _ hrow fun _ h => by cases h
    · rw [Reader.accept?_bind_cons]
      split
      · rename_i ht
        have hbind : Predicts ρ follow most
            (Reader.expect p .expressionMissing >>= fun t => f (some t)) (token p * L₁) := by
          have hexpect : Predicts ρ (fun _ => True) most (Reader.expect p .expressionMissing)
              (token p) := expect _ rfl hp
          refine hexpect.bind_at length_token hsome (fun _ _ => trivial) ?_
          rintro _ ts ⟨t, ht, rfl⟩ hρ'
          exact hρ t ts ht hρ'
        have hout := hbind.outcome ⟨t :: ts, id, cs⟩ hrow
        simp only [Bind.bind, EStateM.bind, Reader.expect, ht, if_true] at hout
        refine hout.widen (fun _ => .inl) (fun _ h => h) fun K hK y hy hmem => ?_
        rw [add_mul] at hmem
        rcases hmem with hmem | hmem
        · exact hmem
        · obtain ⟨v, rfl⟩ : ∃ v, y = t :: v := List.head?_eq_some_iff.1 hy
          rw [mul_assoc]
          exact cons_mem ht (htake K hK t v ht hmem)
      · rename_i ht
        refine hleave _ hrow ?_
        rintro _ ⟨⟩
        exact eq_false_of_ne_true ht

theorem ifAccept {f : Option Token → Reader β} (hp : ∃ t, p t = true)
    (hsome : ∀ t, Predicts ρ follow (most - 1) (f (some t)) L₁)
    (hnone : Predicts ρ follow most (f none) L₂)
    (htake : ∀ K, follow K → ∀ t v, p t = true → t :: v ∈ L₂ * K → v ∈ L₁ * K) :
    Predicts ρ follow most (Reader.accept? p >>= f) (token p * L₁ + L₂) :=
  ifAccept_at hp hsome hnone htake fun t _ _ h => h.append [t]

/-- A choice by a test of the token in front, which holds of all that may stand behind and of
nothing that is read. -/
theorem ifTest {test : Reader Bool} {b : Option Token → Bool} {a : α}
    (htest : ∀ row, test row = .ok (b row.tokens.head?) row) (hr : Predicts ρ follow most r L)
    (hL : ∀ w ∈ L, w ≠ [] → b w.head? = false)
    (hfollow : ∀ K, follow' K → follow K ∧ ∀ y ∈ K, b y.head? = true) :
    Predicts ρ follow' most (do if ← test then Pure.pure a else r) (L + 1) := by
  have hrun : ∀ row : Row, (do if ← test then Pure.pure a else r) row =
      if b row.tokens.head? then .ok a row else r row := by
    intro row
    simp only [Bind.bind, EStateM.bind, htest]
    cases b row.tokens.head? <;> rfl
  constructor
  · intro row
    rw [hrun]
    split
    · exact .refl row
    · exact hr.forward row
  · intro row hrow
    rw [hrun]
    split
    · rename_i hover
      refine .read [] (.inr rfl) rfl (.of_eq rfl) fun K _ y hy hmem => ?_
      rw [add_mul, one_mul] at hmem
      rcases hmem with hmem | hmem
      · obtain ⟨w, v, hw, hv, rfl⟩ := mem_mul.1 hmem
        cases w with
        | nil => exact hv
        | cons t w =>
          have hno := hL _ hw (List.cons_ne_nil t w)
          rw [List.head?_cons] at hno
          rw [← hy, List.cons_append, List.head?_cons, hno] at hover
          cases hover
      · exact hmem
    · rename_i hover
      refine (hr.outcome row hrow).widen (fun _ => .inl) (fun K hK => (hfollow K hK).1) ?_
      intro K hK y hy hmem
      rw [add_mul, one_mul] at hmem
      rcases hmem with hmem | hmem
      · exact hmem
      · exact absurd (hy ▸ (hfollow K hK).2 y hmem) hover

end Choice

/-- A fault that is recovered from. -/
theorem recovering (h : Predicts ρ follow most r L) :
    Predicts .anywhere follow most (Lox.recovering r) L where
  forward row := by
    have hrow := h.forward row
    unfold Lox.recovering
    cases hrun : r row with
    | ok a mid => rwa [hrun] at hrow
    | error c mid =>
      rw [hrun] at hrow
      exact hrow.trans ⟨synchronize_suffix _, List.suffix_cons _ _⟩
  outcome row hrow := by
    have hout := h.outcome row hrow
    unfold Lox.recovering
    cases hrun : r row with
    | ok a mid =>
      rw [hrun] at hout
      cases hout with
      | read w hw htokens hsoft hnext => exact .read w hw htokens hsoft hnext
      | recovered us _ hc htoken htokens hsoft hstuck hnoted =>
        exact .recovered us trivial hc htoken htokens hsoft hstuck hnoted
    | error c mid =>
      rw [hrun] at hout
      cases hout with
      | failed us hc htoken htokens hsoft hstuck =>
        exact .recovered us trivial hc htoken htokens hsoft hstuck (List.suffix_refl _)
      | recovered us _ hc htoken htokens hsoft hstuck hnoted =>
        exact .recovered us trivial hc htoken htokens hsoft hstuck
          (hnoted.trans (List.suffix_cons _ _))

end Predicts

end Rules

end Lox
