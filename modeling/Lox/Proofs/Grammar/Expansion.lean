import Lox.Proofs.Grammar.Apart
import Lox.Proofs.Grammar.StatementUnlined
import Lox.Proofs.Grammar.Unique
import Mathlib.Data.List.TakeWhile

/-!
# Counted loops written out

A `for` may be written out as a `while` in blocks (`Scaffold.expand`): the increment in a block
behind the body, the first clause in a block around the loop. Both spell the same tree
(`Scaffold.expand_statement`), also in place of one another anywhere in a program, unless an `else`
follows (`Program.expanded`).
-/

namespace Lox.Sentence

open Grammar

/-- The tokens of a `for` with the given clauses. -/
def forTokens (keyword opening semicolon closing : Token) (is cs ns ss : List Token) :
    List Token :=
  keyword :: opening :: is ++ cs ++ semicolon :: ns ++ closing :: ss

/-- The tokens that a `for` is written out with. -/
structure Scaffold where
  outerLeft : Token
  keyword : Token
  opening : Token
  truth : Token
  closing : Token
  innerLeft : Token
  semicolon : Token
  innerRight : Token
  outerRight : Token
  outerLeft_kind : outerLeft.kind = .symbol .leftBrace
  keyword_kind : keyword.kind = .keyword .whileKw
  opening_kind : opening.kind = .symbol .leftParen
  truth_kind : truth.kind = .keyword .trueKw
  closing_kind : closing.kind = .symbol .rightParen
  innerLeft_kind : innerLeft.kind = .symbol .leftBrace
  semicolon_kind : semicolon.kind = .symbol .semicolon
  innerRight_kind : innerRight.kind = .symbol .rightBrace
  outerRight_kind : outerRight.kind = .symbol .rightBrace

namespace Scaffold

variable (g : Scaffold)

/-- The body, in a block with the increment if there is one. -/
def round (ns ss : List Token) : List Token :=
  if ns = [] then ss else g.innerLeft :: ss ++ ns ++ [g.semicolon, g.innerRight]

/-- The loop, with `true` for a condition that is absent. -/
def loop (cs ns ss : List Token) : List Token :=
  g.keyword :: g.opening :: (if cs = [] then [g.truth] else cs) ++ g.closing :: g.round ns ss

/-- A `for` with the given clauses written out. A first clause of one token is a semicolon, and is
left out. -/
def expand (is cs ns ss : List Token) : List Token :=
  if is.length = 1 then g.loop cs ns ss
  else g.outerLeft :: is ++ g.loop cs ns ss ++ [g.outerRight]

end Scaffold

/-- A statement that may stand where another one does: it is open only if that one is. -/
def Phrase.Fits : Phrase → Phrase → Prop
  | .statement isOpen, .statement wasOpen => isOpen = true → wasOpen = true
  | phrase, place => phrase = place

theorem Phrase.Fits.declaration {phrase : Phrase} (h : phrase.Fits .declaration) :
    phrase = .declaration := by
  cases phrase with
  | declaration => rfl
  | statement => exact h

theorem Phrase.Fits.statement {phrase : Phrase} {wasOpen : Bool}
    (h : phrase.Fits (.statement wasOpen)) :
    ∃ isOpen, phrase = .statement isOpen ∧ (isOpen = true → wasOpen = true) := by
  cases phrase with
  | declaration => cases h
  | statement isOpen => exact ⟨isOpen, rfl, h⟩

/-! ## What an expansion spells -/

section Spell

variable {is cs ns ss : List Token} {initial : Option Stmt} {condition increment : Option Expr}
  {body : Stmt} {isOpen : Bool} (g : Scaffold)

theorem Optional.ne_nil {ts : List Token} {e : Expr} (h : Expression .assignment ts e) :
    ts ≠ [] := by
  obtain ⟨t, us, rfl, -⟩ := h.first
  exact List.cons_ne_nil t us

theorem Scaffold.round_statement (hn : Optional ns increment)
    (hb : Statement (.statement isOpen) ss body) : ∃ stillOpen, (stillOpen = true → isOpen = true) ∧
      Statement (.statement stillOpen) (g.round ns ss)
        (increment.elim body fun i => .block [body, .expression i]) := by
  unfold round
  cases hn with
  | none => exact ⟨isOpen, id, hb⟩
  | @some ns i h =>
    have hlast : Statement .declaration (ns ++ [g.semicolon]) (.expression i) :=
      .statement (.expression ⟨g.semicolon, h, g.semicolon_kind⟩)
    have hblock := Statement.block [(ss, body), (ns ++ [g.semicolon], .expression i)] g.innerLeft
      g.innerRight g.innerLeft_kind (by simpa using ⟨.statement hb, hlast⟩) g.innerRight_kind
    rw [if_neg (Optional.ne_nil h)]
    exact ⟨false, nofun, by simpa using hblock⟩

theorem Scaffold.loop_statement (hc : Optional cs condition) (hn : Optional ns increment)
    (hb : Statement (.statement isOpen) ss body) :
    ∃ stillOpen, (stillOpen = true → isOpen = true) ∧
      Statement (.statement stillOpen) (g.loop cs ns ss)
        (loopOf none condition increment body) := by
  obtain ⟨stillOpen, hopen, hround⟩ := g.round_statement hn hb
  refine ⟨stillOpen, hopen, ?_⟩
  unfold loop
  cases hc with
  | none =>
    have htruth : Expression .primary [g.truth] (.literal (.bool true)) :=
      .literal g.truth (g.truth_kind ▸ .true)
    exact .loop g.keyword g.opening g.closing g.keyword_kind g.opening_kind
      (.operand (by decide) htruth.of_primary) g.closing_kind hround
  | some h =>
    rw [if_neg (Optional.ne_nil h)]
    exact .loop g.keyword g.opening g.closing g.keyword_kind g.opening_kind h g.closing_kind hround

/-- A `for` written out spells the tree of the `for`. -/
theorem Scaffold.expand_statement (hi : ForInitial is initial) (hc : Optional cs condition)
    (hn : Optional ns increment) (hb : Statement (.statement isOpen) ss body) :
    ∃ stillOpen, (stillOpen = true → isOpen = true) ∧
      Statement (.statement stillOpen) (g.expand is cs ns ss)
        (loopOf initial condition increment body) := by
  obtain ⟨stillOpen, hopen, hloop⟩ := g.loop_statement hc hn hb
  have hbraces {s : Stmt} (hs : Statement .declaration is s) (hlen : is.length ≠ 1) :
      Statement (.statement false) (g.expand is cs ns ss)
        (loopOf (some s) condition increment body) := by
    have hblock := Statement.block
      [(is, s), (g.loop cs ns ss, loopOf none condition increment body)] g.outerLeft g.outerRight
      g.outerLeft_kind (by simpa using ⟨hs, .statement hloop⟩) g.outerRight_kind
    rw [expand, if_neg hlen]
    simpa [loopOf] using hblock
  cases hi with
  | none semicolon hs => exact ⟨stillOpen, hopen, hloop⟩
  | var h => exact ⟨false, nofun, hbraces (.var h) (by cases h <;> simp)⟩
  | expression h =>
    refine ⟨false, nofun, hbraces (.statement (.expression h)) ?_⟩
    obtain ⟨semicolon, h, -⟩ := h
    simpa using Optional.ne_nil h

end Spell

/-! ## In place of a `for` -/

/-- The two rows in place of one another: a sentence in which the first one starts is one with the
second one too, with the same tree. -/
def Replaces (w w' : List Token) (phrase : Phrase) (ts : List Token) (s : Stmt) : Prop :=
  ∀ pre rest, ts ++ rest = pre ++ w → pre.length < ts.length →
    (phrase ≠ .statement false → NoElse rest) →
    ∃ phrase' ts', phrase'.Fits phrase ∧ Statement phrase' ts' s ∧ ts' ++ rest = pre ++ w'

section Replace

variable {keyword : Token} {w w' pre rest : List Token}

theorem behind_of_length_le {ts : List Token} (heq : ts ++ rest = pre ++ w)
    (hlen : ts.length ≤ pre.length) : ∃ pre', pre = ts ++ pre' ∧ rest = pre' ++ w := by
  rcases List.append_eq_append_iff.1 heq with ⟨pre', hpre, hrest⟩ | ⟨others, hts, hrest⟩
  · exact ⟨pre', hpre, hrest⟩
  · obtain rfl : others = [] := by
      rw [hts, List.length_append] at hlen
      exact List.length_eq_zero_iff.1 (by omega)
    exact ⟨[], by rw [hts, List.append_nil, List.append_nil], hrest.symm⟩

/-- One of some declarations is the one in which the row starts. -/
theorem replace_parts {parts : List (List Token × Stmt)}
    (hparts : ∀ d ∈ parts, Statement .declaration d.1 d.2)
    (hall : ∀ d ∈ parts, Replaces w w' .declaration d.1 d.2) (hrest : NoElse rest)
    (heq : parts.flatMap (·.1) ++ rest = pre ++ w)
    (hlt : pre.length < (parts.flatMap (·.1)).length) :
    ∃ parts' : List (List Token × Stmt), (∀ d ∈ parts', Statement .declaration d.1 d.2) ∧
      parts'.map (·.2) = parts.map (·.2) ∧ parts'.flatMap (·.1) ++ rest = pre ++ w' := by
  induction parts generalizing pre with
  | nil => simp at hlt
  | cons d parts ih =>
    obtain ⟨hd, hparts⟩ := List.forall_mem_cons.1 hparts
    obtain ⟨hdw, hall⟩ := List.forall_mem_cons.1 hall
    rw [List.flatMap_cons, List.append_assoc] at heq
    rw [List.flatMap_cons, List.length_append] at hlt
    by_cases hin : pre.length < d.1.length
    · obtain ⟨phrase, ts, hfits, hts, htoks⟩ := hdw pre _ heq hin fun _ => hrest.behind hparts
      obtain rfl := hfits.declaration
      refine ⟨(ts, d.2) :: parts, List.forall_mem_cons.2 ⟨hts, hparts⟩, rfl, ?_⟩
      rw [List.flatMap_cons, List.append_assoc, htoks]
    · obtain ⟨pre', rfl, hback⟩ := behind_of_length_le heq (Nat.le_of_not_lt hin)
      obtain ⟨parts', hparts', htrees, htoks⟩ := ih hparts hall hback
        (by rw [List.length_append] at hlt; omega)
      refine ⟨d :: parts', List.forall_mem_cons.2 ⟨hd, hparts'⟩, by simp [htrees], ?_⟩
      rw [List.flatMap_cons, List.append_assoc, htoks, List.append_assoc]

variable (hk : keyword.kind = .keyword .forKw)

include hk

/-- No `for` starts in a row without one. -/
theorem not_inside {ts : List Token} (h : NoFor ts) (heq : ts ++ rest = pre ++ keyword :: w)
    (hlt : pre.length < ts.length) : False := by
  obtain ⟨pre', rfl, -⟩ := after_noFor ts hk h heq
  rw [List.length_append] at hlt
  omega

/-- Where a `for` starts in a row, it starts behind a front without one. -/
theorem inside_back {ts : List Token} (front back : List Token) (hts : ts = front ++ back)
    (h : NoFor front) (heq : ts ++ rest = pre ++ keyword :: w) (hlt : pre.length < ts.length) :
    ∃ pre', pre = front ++ pre' ∧ back ++ rest = pre' ++ keyword :: w ∧
      pre'.length < back.length := by
  rw [hts, List.append_assoc] at heq
  obtain ⟨pre', rfl, hback⟩ := after_noFor front hk h heq
  rw [hts, List.length_append, List.length_append] at hlt
  exact ⟨pre', rfl, hback, by omega⟩

/-- The same in the last statement behind such a front. -/
theorem replace_last {ts last : List Token} {isOpen : Bool} {s : Stmt} (front : List Token)
    (hts : ts = front ++ last) (h : NoFor front)
    (hlast : Replaces (keyword :: w) w' (.statement isOpen) last s)
    (heq : ts ++ rest = pre ++ keyword :: w) (hlt : pre.length < ts.length)
    (helse : isOpen = true → NoElse rest) :
    ∃ stillOpen last', (stillOpen = true → isOpen = true) ∧
      Statement (.statement stillOpen) last' s ∧ front ++ last' ++ rest = pre ++ w' := by
  obtain ⟨pre', rfl, hback, hlt'⟩ := inside_back hk front last hts h heq hlt
  have helse' (hne : Phrase.statement isOpen ≠ .statement false) : NoElse rest :=
    helse (Bool.eq_true_of_not_eq_false fun hclosed => hne (congrArg _ hclosed))
  obtain ⟨phrase, last', hfits, hnew, htoks⟩ := hlast pre' rest hback hlt' helse'
  obtain ⟨stillOpen, rfl, hopen⟩ := hfits.statement
  exact ⟨stillOpen, last', hopen, hnew, by rw [List.append_assoc, htoks, List.append_assoc]⟩

/-- The same in a block behind such a front. -/
theorem replace_block {ts : List Token} (front : List Token)
    {parts : List (List Token × Stmt)} {right : Token}
    (hts : ts = front ++ (parts.flatMap (·.1) ++ [right])) (h : NoFor front)
    (hparts : ∀ d ∈ parts, Statement .declaration d.1 d.2)
    (hall : ∀ d ∈ parts, Replaces (keyword :: w) w' .declaration d.1 d.2)
    (hr : right.kind = .symbol .rightBrace) (heq : ts ++ rest = pre ++ keyword :: w)
    (hlt : pre.length < ts.length) :
    ∃ parts' : List (List Token × Stmt), (∀ d ∈ parts', Statement .declaration d.1 d.2) ∧
      parts'.map (·.2) = parts.map (·.2) ∧
      front ++ (parts'.flatMap (·.1) ++ [right]) ++ rest = pre ++ w' := by
  obtain ⟨pre', rfl, hback, hlt⟩ := inside_back hk front _ hts h heq hlt
  have hrest : NoElse (right :: rest) := by
    rintro t ⟨⟩
    simp [hr]
  rw [List.append_assoc] at hback
  have hin : pre'.length < (parts.flatMap (·.1)).length := by
    rw [List.length_append, List.length_singleton] at hlt
    refine Nat.lt_of_le_of_ne (by omega) fun hlen => ?_
    obtain ⟨rfl, -⟩ := List.cons.inj (List.append_inj hback hlen.symm).2
    simp [hk] at hr
  obtain ⟨parts', hparts', htrees, htoks⟩ := replace_parts hparts hall hrest hback hin
  refine ⟨parts', hparts', htrees, ?_⟩
  rw [List.append_assoc, List.append_assoc, List.append_assoc, ← htoks]
  rfl

/-- What may stand in place of every statement at the front of a row may do so in every sentence. -/
theorem Statement.replace
    (hfront : ∀ isOpen ts s rest, Statement (.statement isOpen) ts s →
      (isOpen = true → NoElse rest) → ts ++ rest = keyword :: w →
      ∃ stillOpen ts', (stillOpen = true → isOpen = true) ∧
        Statement (.statement stillOpen) ts' s ∧ ts' ++ rest = w')
    {phrase : Phrase} {ts : List Token} {s : Stmt} (h : Statement phrase ts s) :
    Replaces (keyword :: w) w' phrase ts s := by
  induction h with
  | @function inner params body fn name opening closing left right hf hn ho hp hs hlen hc hl hb hr
      ih =>
    intro pre rest heq hlt _
    have hinner : NoFor inner := hs.noFor (by
      simpa [noFor_singleton] using fun p h => by simp [hp p h])
    obtain ⟨parts, hparts, htrees, htoks⟩ := replace_block hk
      (fn :: name :: opening :: inner ++ [closing, left]) (by simp)
      (by simp [noFor_cons, noFor_append, NoFor.nil, hinner, hf, hn, ho, hc, hl]) hb ih hr heq hlt
    have hnew := Statement.function params parts fn name opening closing left right hf hn ho hp hs
      hlen hc hl hparts hr
    rw [htrees] at hnew
    exact ⟨.declaration, _, rfl, hnew, by simpa using htoks⟩
  | var h => exact fun _ _ heq hlt _ => (not_inside hk h.noFor heq hlt).elim
  | statement _ ih =>
    intro pre rest heq hlt helse
    obtain ⟨phrase, ts, hfits, hts, htoks⟩ := ih pre rest heq hlt fun _ => helse nofun
    obtain ⟨isOpen, rfl, -⟩ := hfits.statement
    exact ⟨.declaration, ts, rfl, .statement hts, htoks⟩
  | expression h => exact fun _ _ heq hlt _ => (not_inside hk h.noFor heq hlt).elim
  | print keyword semicolon hp h hs =>
    refine fun _ _ heq hlt _ => (not_inside hk ?_ heq hlt).elim
    simp [noFor_cons, noFor_append, NoFor.nil, h.noFor, hp, hs]
  | block body left right hl hb hr ih =>
    intro pre rest heq hlt _
    obtain ⟨parts, hparts, htrees, htoks⟩ := replace_block hk [left] (by simp)
      (noFor_singleton.2 (by simp [hl])) hb ih hr heq hlt
    have hnew := Statement.block parts left right hl hparts hr
    rw [htrees] at hnew
    exact ⟨.statement false, _, id, hnew, by simpa using htoks⟩
  | exit keyword semicolon hp h hs =>
    refine fun _ _ heq hlt _ => (not_inside hk ?_ heq hlt).elim
    simp [noFor_cons, noFor_append, NoFor.nil, h.noFor, hp, hs]
  | @loop isOpen cs ts c body keyword opening closing hw ho h hc hb ih =>
    intro pre rest heq hlt helse
    obtain ⟨stillOpen, ts', hopen, hts', htoks⟩ := replace_last hk
      (keyword :: opening :: cs ++ [closing]) (by simp)
      (by simp [noFor_cons, noFor_append, NoFor.nil, h.noFor, hw, ho, hc]) ih heq hlt
      fun hopen => helse (by simp [hopen])
    exact ⟨.statement stillOpen, _, hopen, .loop keyword opening closing hw ho h hc hts',
      by simpa using htoks⟩
  | @counted isOpen is cs ns ts initial condition increment body first opening semicolon closing hf
      ho hi h hs hn hc hb ih =>
    intro pre rest heq hlt helse
    rcases pre with _ | ⟨t, pre⟩
    · obtain ⟨stillOpen, ts', hopen, hts', htoks⟩ := hfront _ _ _ _
        (.counted first opening semicolon closing hf ho hi h hs hn hc hb)
        (fun hopen => helse (by simp [hopen])) heq
      exact ⟨.statement stillOpen, ts', hopen, hts', htoks⟩
    · obtain ⟨rfl, heq⟩ := List.cons.inj heq
      obtain ⟨stillOpen, ts', hopen, hts', htoks⟩ := replace_last hk
        (opening :: is ++ cs ++ semicolon :: ns ++ [closing]) rfl
        (by simp [noFor_cons, noFor_append, NoFor.nil, hi.noFor, h.noFor, hn.noFor, ho, hs, hc])
        ih (by simpa using heq) (by simpa using hlt) fun hopen => helse (by simp [hopen])
      exact ⟨.statement stillOpen, _, hopen,
        .counted first opening semicolon closing hf ho hi h hs hn hc hts', by simpa using htoks⟩
  | @ifThen isOpen cs ts c onTrue keyword opening closing hi ho h hc ht ih =>
    intro pre rest heq hlt helse
    obtain ⟨stillOpen, ts', -, hts', htoks⟩ := replace_last hk
      (keyword :: opening :: cs ++ [closing]) (by simp)
      (by simp [noFor_cons, noFor_append, NoFor.nil, h.noFor, hi, ho, hc]) ih heq hlt
      fun _ => helse (by simp)
    exact ⟨.statement true, _, id, .ifThen keyword opening closing hi ho h hc hts',
      by simpa using htoks⟩
  | @ifElse isOpen cs ts es c onTrue onFalse keyword opening closing otherwise hi ho h hc ht he hf
      iht ihf =>
    intro pre rest heq hlt helse
    obtain ⟨pre', rfl, hback, hlt'⟩ := inside_back hk
      (keyword :: opening :: cs ++ [closing]) (ts ++ otherwise :: es) (by simp)
      (by simp [noFor_cons, noFor_append, NoFor.nil, h.noFor, hi, ho, hc]) heq hlt
    rw [List.append_assoc] at hback
    by_cases hin : pre'.length < ts.length
    · obtain ⟨phrase, ts', hfits, hts', htoks⟩ := iht pre' _ hback hin fun hne => absurd rfl hne
      obtain ⟨stillOpen, rfl, hopen⟩ := hfits.statement
      obtain rfl : stillOpen = false := Bool.eq_false_iff.2 fun h => nomatch hopen h
      exact ⟨.statement isOpen, _, id,
        .ifElse keyword opening closing otherwise hi ho h hc hts' he hf, by simpa using htoks⟩
    · obtain ⟨pre'', rfl, hlast⟩ := behind_of_length_le hback (Nat.le_of_not_lt hin)
      have hlt : pre''.length < (otherwise :: es).length := by
        rw [List.length_append, List.length_append] at hlt'
        omega
      obtain ⟨stillOpen, es', hopen, hes', htoks⟩ := replace_last hk [otherwise] rfl
        (noFor_singleton.2 (by simp [he])) ihf hlast hlt fun hopen => helse (by simp [hopen])
      exact ⟨.statement stillOpen, _, hopen,
        .ifElse keyword opening closing otherwise hi ho h hc ht he hes', by simpa using htoks⟩

theorem Program.replace
    (hfront : ∀ isOpen ts s rest, Statement (.statement isOpen) ts s →
      (isOpen = true → NoElse rest) → ts ++ rest = keyword :: w →
      ∃ stillOpen ts', (stillOpen = true → isOpen = true) ∧
        Statement (.statement stillOpen) ts' s ∧ ts' ++ rest = w')
    {program : List Stmt} (h : Program (pre ++ keyword :: w) program) :
    Program (pre ++ w') program := by
  obtain ⟨parts, hparts, htoks, rfl⟩ := h
  have hend : NoElse [] := nofun
  obtain ⟨parts', hparts', htrees, htoks'⟩ := replace_parts hparts
    (fun d hd => (hparts d hd).replace hk hfront) hend (by simpa using htoks.symm)
    (by rw [← htoks]; simp)
  exact ⟨parts', hparts', by simpa using htoks'.symm, htrees.symm⟩

end Replace

/-- Of the statements only a `for` starts with the keyword. -/
theorem Statement.counted_of_for {isOpen : Bool} {ts : List Token} {s : Stmt}
    (h : Statement (.statement isOpen) ts s) (hk : ∃ t ∈ ts.head?, t.kind = .keyword .forKw) :
    ∃ is cs ns ss initial condition increment body, ∃ keyword opening semicolon closing : Token,
      ts = forTokens keyword opening semicolon closing is cs ns ss ∧
      s = loopOf initial condition increment body ∧ ForInitial is initial ∧
      Optional cs condition ∧ semicolon.kind = .symbol .semicolon ∧ Optional ns increment ∧
      closing.kind = .symbol .rightParen ∧ Statement (.statement isOpen) ss body := by
  obtain ⟨first, hfirst, hk⟩ := hk
  cases h with
  | expression h =>
    obtain ⟨t, us, rfl, -⟩ := h.first
    cases hfirst
    exact absurd hk (h.noFor _ List.mem_cons_self)
  | counted keyword opening semicolon closing _ ho hi h hs hn hc hb =>
    exact ⟨_, _, _, _, _, _, _, _, keyword, opening, semicolon, closing, rfl, rfl, hi, h, hs, hn,
      hc, hb⟩
  | print keyword _ h | block _ keyword _ h | exit keyword _ h | loop keyword _ _ h
  | ifThen keyword _ _ h | ifElse keyword _ _ _ h =>
    obtain rfl : keyword = first := by simpa using hfirst
    simp [h] at hk

section For

variable {is cs ns ss pre post : List Token} {initial : Option Stmt}
  {condition increment : Option Expr} {body : Stmt} {isOpen : Bool}
  {keyword opening semicolon closing : Token}
  (hk : keyword.kind = .keyword .forKw) (hi : ForInitial is initial) (hc : Optional cs condition)
  (hs : semicolon.kind = .symbol .semicolon) (hn : Optional ns increment)
  (hp : closing.kind = .symbol .rightParen) (hb : Statement (.statement isOpen) ss body)

include hk hi hc hs hn hp hb

/-- In a program a `for` may be written out, unless an `else` follows. -/
theorem Program.expanded (g : Scaffold) (hpost : NoElse post) {program : List Stmt}
    (h : Program (pre ++ forTokens keyword opening semicolon closing is cs ns ss ++ post) program) :
    Program (pre ++ g.expand is cs ns ss ++ post) program := by
  rw [List.append_assoc] at h ⊢
  refine Program.replace hk (fun wasOpen ts s rest hts hrest heq => ?_) h
  have hfirst : ∃ t ∈ ts.head?, t.kind = .keyword .forKw := by
    obtain ⟨t, us, rfl, -⟩ := hts.first
    exact ⟨t, rfl, (List.cons.inj heq).1 ▸ hk⟩
  obtain ⟨is', cs', ns', ss', initial', condition', increment', body', keyword', opening',
    semicolon', closing', rfl, rfl, hi', hc', hs', hn', hp', hb'⟩ := hts.counted_of_for hfirst
  have hclauses := (List.cons.inj (List.cons.inj heq).2).2
  obtain ⟨⟨rfl, rfl⟩, ⟨rfl, rfl⟩, ⟨rfl, rfl⟩, rfl, rfl, rfl⟩ := counted_unique hi hi' hc hc' hs hs'
    hn hn' hp hp' hb hb' (fun _ => hpost) hrest (by simpa using hclauses.symm)
  obtain ⟨stillOpen, hopen, hspell⟩ := g.expand_statement hi hc hn hb'
  exact ⟨stillOpen, _, hopen, hspell, rfl⟩

/-- A `for` spells its tree alone. -/
theorem Program.counted (ho : opening.kind = .symbol .leftParen) :
    Program (forTokens keyword opening semicolon closing is cs ns ss)
      [loopOf initial condition increment body] :=
  ⟨[(_, _)], List.forall_mem_singleton.2
    (.statement (.counted keyword opening semicolon closing hk ho hi hc hs hn hp hb)),
    by simp [forTokens], rfl⟩

end For

/-- The second row of tokens may stand for the first one: alone, and wherever no `else` follows in
a program that is read. -/
structure SpellsAs (ws ws' : List Token) : Prop where
  alone : ∀ ts us firstId otherId, beforeEnd ts = ws →
    (beforeEnd us).map (·.unlined) = ws'.map (·.unlined) →
    ∃ p q, (parseProgram firstId ts).result = .ok p ∧ (parseProgram otherId us).result = .ok q ∧
      Stmt.SameText p q
  inside : ∀ pre post ts us firstId otherId p, NoElse post → beforeEnd ts = pre ++ ws ++ post →
    (beforeEnd us).map (·.unlined) = (pre ++ ws' ++ post).map (·.unlined) →
    (parseProgram firstId ts).result = .ok p →
    ∃ q, (parseProgram otherId us).result = .ok q ∧ Stmt.SameText p q

/-- A sentence is read on any lines. -/
theorem Program.read {ws us : List Token} {tree : List Stmt} (h : Program ws tree)
    (hus : (beforeEnd us).map (·.unlined) = ws.map (·.unlined)) (firstId : NodeId) :
    ∃ q, (parseProgram firstId us).result = .ok q ∧
      Stmt.unlinedAll (Stmt.unnumberedAll q) = Stmt.unlinedAll tree := by
  have hnoEof : ∀ t ∈ ws, t.isEof = false := by
    intro t ht
    obtain ⟨u, hu, heq⟩ := List.mem_map.1 (hus ▸ List.mem_map_of_mem ht : t.unlined ∈ _)
    have hsame : u.unlined.isEof = t.unlined.isEof := congrArg Token.isEof heq
    have hisEof : u.isEof = t.isEof := hsame
    simpa [hisEof] using List.mem_takeWhile_imp hu
  have hbefore := beforeEnd_eq_self hnoEof
  obtain ⟨p, hp, rfl⟩ := @parseProgram_complete firstId ws tree (hbefore.symm ▸ h)
  obtain ⟨q, hq, hqp⟩ := run_ok_unlined program_unlines (hbefore.symm ▸ hus) hp
  refine ⟨q, hq, ?_⟩
  rw [Stmt.unlinedAll_unnumberedAll, hqp, Stmt.unlinedAll_unnumberedAll]

theorem SpellsAs.of_programs {ws ws' : List Token} {tree : List Stmt} (h : Program ws tree)
    (hall : ∀ pre post program, NoElse post → Program (pre ++ ws ++ post) program →
      Program (pre ++ ws' ++ post) program) : SpellsAs ws ws' where
  alone ts us firstId otherId hts hus := by
    have h' := hall [] [] tree nofun (by simpa using h)
    obtain ⟨p, hp, hptree⟩ := @parseProgram_complete firstId ts tree (hts.symm ▸ h)
    obtain ⟨q, hq, hqtree⟩ := h'.read (by simpa using hus) otherId
    exact ⟨p, q, hp, hq, Stmt.sameText_iff.2 (by rw [hptree, hqtree])⟩
  inside pre post ts us firstId otherId p hpost hts hus hp := by
    have h' := hall pre post _ hpost (hts ▸ (parseProgram_sound hp).1)
    obtain ⟨q, hq, hqtree⟩ := h'.read hus otherId
    exact ⟨q, hq, Stmt.sameText_iff.2 hqtree.symm⟩

end Lox.Sentence
