import Lox.Proofs.Decimal.Faithful
import Lox.Proofs.Grammar.Meaningful
import Lox.Proofs.Grammar.WholeExpression
import Lox.Proofs.Tree.Form
import Lox.Proofs.Tree.Unlined

/-!
# Printed expressions are read in one way

An expression of a source text has tokens where they may stand, and they are spelled as their kinds
are (`Expr.Spelled`). So the head of a printed node and the number of parts after it tell which kind
of node it is (`Expr.shape?_form`): `-` has one operand or two, `group` and `call` may be names as
well, but then they are words of their own. A word is a name or a literal, and if it is no string
and finite, the text tells which one (`Literal.eq_of_text`). So expressions that are printed alike
are the same but for the numbers of their references and the lines of their tokens
(`Grammar.bracketed_unambiguous`).
-/

namespace Lox

/-- A literal that can be told from all else that is printed: a string can look like anything. -/
def Literal.isPlain : Literal → Bool
  | .number x => x.isFinite
  | .string _ => false
  | .bool _ => true
  | .nil => true

mutual

/-- The literals in an expression. -/
def Expr.literals : Expr → List Literal
  | .literal value => [value]
  | .grouping inner => inner.literals
  | .unary _ operand => operand.literals
  | .binary left _ right => left.literals ++ right.literals
  | .logical left _ right => left.literals ++ right.literals
  | .read _ _ => []
  | .assign _ _ value => value.literals
  | .call callee _ arguments => callee.literals ++ literalsOfAll arguments

def Expr.literalsOfAll : List Expr → List Literal
  | [] => []
  | e :: es => e.literals ++ literalsOfAll es

end

def Expr.Plain (e : Expr) : Prop :=
  ∀ value ∈ e.literals, value.isPlain = true

/-- The text of the token is a lexeme of its kind. -/
def Token.Spelled (t : Token) : Prop :=
  Lexeme t.lexeme.toList (.token t.kind)

def Token.SpelledAs (t : Token) (kinds : List Token.Kind) : Prop :=
  t.Spelled ∧ t.kind ∈ kinds

def unaryOperators : List Symbol :=
  [.bang, .minus]

def logicalOperators : List Keyword :=
  [.orKw, .andKw]

mutual

/-- All tokens are spelled as their kinds are, and stand where they may. -/
def Expr.Spelled : Expr → Prop
  | .literal _ => True
  | .grouping inner => inner.Spelled
  | .unary operator operand =>
    operator.SpelledAs (unaryOperators.map .symbol) ∧ operand.Spelled
  | .binary left operator right =>
    left.Spelled ∧ operator.SpelledAs (binaryOperators.map .symbol) ∧ right.Spelled
  | .logical left operator right =>
    left.Spelled ∧ operator.SpelledAs (logicalOperators.map .keyword) ∧ right.Spelled
  | .read _ name => name.SpelledAs [.identifier]
  | .assign _ name value => name.SpelledAs [.identifier] ∧ value.Spelled
  | .call callee paren arguments =>
    callee.Spelled ∧ paren.SpelledAs [.symbol .rightParen] ∧ SpelledAll arguments

def Expr.SpelledAll : List Expr → Prop
  | [] => True
  | e :: es => e.Spelled ∧ SpelledAll es

end

theorem Expr.spelledAll_iff (es : List Expr) : Expr.SpelledAll es ↔ ∀ e ∈ es, e.Spelled := by
  induction es with
  | nil => simp [Expr.SpelledAll]
  | cons e es ih => simp [Expr.SpelledAll, ih]

mutual

theorem Expr.spelled_unnumbered : ∀ e : Expr, e.unnumbered.Spelled ↔ e.Spelled
  | .literal _ | .read _ _ => Iff.rfl
  | .grouping inner => Expr.spelled_unnumbered inner
  | .unary _ operand | .assign _ _ operand =>
    and_congr_right fun _ => Expr.spelled_unnumbered operand
  | .binary left _ right | .logical left _ right =>
    and_congr (Expr.spelled_unnumbered left)
      (and_congr_right fun _ => Expr.spelled_unnumbered right)
  | .call callee _ arguments =>
    and_congr (Expr.spelled_unnumbered callee)
      (and_congr_right fun _ => Expr.spelledAll_unnumbered arguments)

theorem Expr.spelledAll_unnumbered : ∀ es : List Expr,
    Expr.SpelledAll (Expr.unnumberedAll es) ↔ Expr.SpelledAll es
  | [] => Iff.rfl
  | e :: es => and_congr (Expr.spelled_unnumbered e) (Expr.spelledAll_unnumbered es)

end

/-! ## Tokens -/

namespace Token

variable {t u : Token} {kinds : List Token.Kind}

/-- Tokens with one text have one kind. -/
theorem Spelled.unlined_eq (ht : t.Spelled) (hu : u.Spelled)
    (h : t.lexeme.toList = u.lexeme.toList) : t.unlined = u.unlined := by
  have hkind : t.kind = u.kind := by
    unfold Spelled at ht hu
    rw [h] at ht
    exact Reading.token.inj (ht.unique hu)
  unfold unlined
  rw [hkind, String.toList_inj.1 h]

theorem SpelledAs.unlined_eq (ht : t.SpelledAs kinds) (hu : u.SpelledAs kinds)
    (h : t.lexeme.toList = u.lexeme.toList) : t.unlined = u.unlined :=
  ht.1.unlined_eq hu.1 h

theorem SpelledAs.symbol {ss : List Symbol} (h : t.SpelledAs (ss.map .symbol)) :
    ∃ s ∈ ss, t.lexeme.toList = s.spelling.toList := by
  obtain ⟨hspelled, hkind⟩ := h
  obtain ⟨s, hs, hkind⟩ := List.mem_map.1 hkind
  unfold Spelled at hspelled
  rw [← hkind] at hspelled
  generalize t.lexeme.toList = w at hspelled
  cases hspelled
  exact ⟨s, hs, rfl⟩

theorem SpelledAs.unlined_eq_of_symbol {s : Symbol} (ht : t.SpelledAs [.symbol s])
    (hu : u.SpelledAs [.symbol s]) : t.unlined = u.unlined := by
  have hsymbol {v : Token} (hv : v.SpelledAs [.symbol s]) :
      v.lexeme.toList = s.spelling.toList := by
    obtain ⟨s', hs', hv⟩ := SpelledAs.symbol (show v.SpelledAs ([s].map .symbol) from hv)
    rw [hv, List.mem_singleton.1 hs']
  exact ht.unlined_eq hu ((hsymbol ht).trans (hsymbol hu).symm)

theorem SpelledAs.keyword {ks : List Keyword} (h : t.SpelledAs (ks.map .keyword)) :
    ∃ k ∈ ks, t.lexeme.toList = k.spelling.toList := by
  obtain ⟨hspelled, hkind⟩ := h
  obtain ⟨k, hk, hkind⟩ := List.mem_map.1 hkind
  unfold Spelled at hspelled
  rw [← hkind] at hspelled
  generalize t.lexeme.toList = w at hspelled
  cases hspelled
  exact ⟨k, hk, rfl⟩

/-- A name is a word, and none that is reserved. -/
theorem SpelledAs.identifier (h : t.SpelledAs [.identifier]) :
    (∃ c word, t.lexeme.toList = c :: word ∧ (c.isAlpha ∨ c = '_') ∧
      ∀ d ∈ word, d.isAlpha ∨ d.isDigit ∨ d = '_') ∧
    ∀ k : Keyword, t.lexeme.toList ≠ k.spelling.toList := by
  obtain ⟨hspelled, hkind⟩ := h
  unfold Spelled at hspelled
  rw [List.mem_singleton.1 hkind] at hspelled
  generalize t.lexeme.toList = w at hspelled
  cases hspelled with
  | identifier hc hword hname => exact ⟨⟨_, _, rfl, hc, hword⟩, fun k he => hname k he.symm⟩

end Token

namespace Form

/-- Letters, digits and the signs of names and numbers make words. -/
theorem solid_of_chars {w : List Char} (hne : w ≠ [])
    (h : ∀ c ∈ w, c.isAlpha ∨ c.isDigit ∨ c = '_' ∨ c = '.' ∨ c = '-') : Solid w := by
  refine ⟨hne, fun c hc => ?_⟩
  have := h c hc
  refine ⟨?_, ?_, ?_⟩ <;> rintro rfl <;> revert this <;> decide

end Form

theorem Keyword.solid_spelling (k : Keyword) : Form.Solid k.spelling.toList := by
  obtain ⟨c, word, he, hc, hword⟩ := k.isWord
  rw [he]
  refine Form.solid_of_chars (List.cons_ne_nil _ _) (List.forall_mem_cons.2 ⟨?_, fun d hd => ?_⟩)
  · have : c.isAlpha = true ∨ c = '_' := by simpa [Reading.isWordStart] using hc
    exact this.imp_right fun hc => .inr (.inl hc)
  · have : (d.isAlpha = true ∨ d = '_') ∨ d.isDigit = true := by
      simpa [Reading.isWordChar, Reading.isWordStart] using hword d hd
    rcases this with (hd | hd) | hd
    · exact .inl hd
    · exact .inr (.inr (.inl hd))
    · exact .inr (.inl hd)

theorem Token.SpelledAs.solid_symbol {t : Token} {ss : List Symbol}
    (h : t.SpelledAs (ss.map .symbol)) (hss : ∀ s ∈ ss, Form.Solid s.spelling.toList) :
    Form.Solid t.lexeme.toList := by
  obtain ⟨s, hs, he⟩ := h.symbol
  exact he ▸ hss s hs

theorem Token.SpelledAs.solid_identifier {t : Token} (h : t.SpelledAs [.identifier]) :
    Form.Solid t.lexeme.toList := by
  obtain ⟨⟨c, word, he, hc, hword⟩, -⟩ := h.identifier
  rw [he]
  refine Form.solid_of_chars (List.cons_ne_nil _ _) (List.forall_mem_cons.2 ⟨?_, fun d hd => ?_⟩)
  · exact hc.imp_right fun hc => .inr (.inl hc)
  · exact (hword d hd).imp_right fun hd => hd.imp_right .inl

/-! ## Literals -/

namespace Literal

variable {value value' : Literal}

theorem chars_number {x : Float} (h : x.isFinite = true) :
    (number x).text.toList ≠ [] ∧
      ∀ c ∈ (number x).text.toList, c.isDigit = true ∨ c = '.' ∨ c = '-' :=
  @Decimal.Format.chars_text numberFormat x rfl rfl h

/-- A literal that is no number is spelled as a reserved word. -/
theorem text_keyword (h : value.isPlain = true) (hn : ∀ x, value ≠ number x) :
    ∃ k : Keyword, value.text.toList = k.spelling.toList := by
  cases value with
  | number x => exact absurd rfl (hn x)
  | string s => cases h
  | bool b =>
    cases b
    · exact ⟨.falseKw, rfl⟩
    · exact ⟨.trueKw, rfl⟩
  | nil => exact ⟨.nilKw, rfl⟩

theorem solid_text (h : value.isPlain = true) : Form.Solid value.text.toList := by
  by_cases hn : ∃ x, value = number x
  · obtain ⟨x, rfl⟩ := hn
    obtain ⟨hne, hchars⟩ := chars_number h
    exact Form.solid_of_chars hne fun c hc => .inr ((hchars c hc).imp_right .inr)
  · obtain ⟨k, hk⟩ := text_keyword h (not_exists.1 hn)
    exact hk ▸ k.solid_spelling

/-- No word starts as a number does. -/
theorem number_ne_word {x : Float} (h : x.isFinite = true) {c : Char} {word : List Char}
    (hc : c.isAlpha ∨ c = '_') : (number x).text.toList ≠ c :: word := by
  intro he
  have hstart : Reading.isWordStart c = true := by simpa [Reading.isWordStart] using hc
  rcases (chars_number h).2 c (he ▸ List.mem_cons_self) with hdigit | rfl | rfl
  · rw [Reading.isDigit_eq_false hstart] at hdigit
    cases hdigit
  · cases hstart
  · cases hstart

/-- The text of a literal tells which one it is. -/
theorem eq_of_text (h : value.isPlain = true) (h' : value'.isPlain = true)
    (he : value.text = value'.text) : value = value' := by
  have hnumber {x : Float} {v : Literal} (hx : x.isFinite = true) (hv : v.isPlain = true)
      (hn : ∀ y, v ≠ number y) : (number x).text ≠ v.text := by
    obtain ⟨k, hk⟩ := text_keyword hv hn
    obtain ⟨c, word, hword, hc, -⟩ := k.isWord
    intro hx'
    have hstart : c.isAlpha = true ∨ c = '_' := by simpa [Reading.isWordStart] using hc
    exact number_ne_word hx hstart (by rw [hx', hk, hword])
  cases value with
  | number x =>
    cases value' with
    | number y =>
      exact congrArg number (Decimal.Format.text_injective rfl rfl rfl h h' he)
    | _ => exact absurd he (hnumber h h' (by rintro _ ⟨⟩))
  | string s => cases h
  | bool b =>
    cases value' with
    | number y => exact absurd he.symm (hnumber h' h (by rintro _ ⟨⟩))
    | string s => cases h'
    | bool b' => cases b <;> cases b' <;> first | rfl | exact absurd he (by decide)
    | nil => cases b <;> exact absurd he (by decide)
  | nil =>
    cases value' with
    | number y => exact absurd he.symm (hnumber h' h (by rintro _ ⟨⟩))
    | string s => cases h'
    | bool b => cases b <;> exact absurd he (by decide)
    | nil => rfl

/-- A literal is not printed as a name is. -/
theorem text_ne_name {name : Token} (h : value.isPlain = true)
    (hname : name.SpelledAs [.identifier]) : value.text.toList ≠ name.lexeme.toList := by
  obtain ⟨⟨c, word, hw, hc, -⟩, hreserved⟩ := hname.identifier
  by_cases hn : ∃ x, value = number x
  · obtain ⟨x, rfl⟩ := hn
    rw [hw]
    exact number_ne_word h hc
  · obtain ⟨k, hk⟩ := text_keyword h (not_exists.1 hn)
    rw [hk]
    exact fun he => hreserved k he.symm

end Literal

/-! ## Forms of expressions -/

/-- The kinds of expressions that are printed in brackets. -/
inductive Shape where
  | grouping | unary | binary | logical | assign | call
  deriving DecidableEq

def Expr.shape? : Expr → Option Shape
  | .literal _ => none
  | .grouping _ => some .grouping
  | .unary _ _ => some .unary
  | .binary _ _ _ => some .binary
  | .logical _ _ _ => some .logical
  | .read _ _ => none
  | .assign _ _ _ => some .assign
  | .call _ _ _ => some .call

/-- What a head with so many parts after it is the form of. -/
def Form.shape? : Form → Option Shape
  | .word _ => none
  | .node head parts =>
    if head = "group".toList then some .grouping
    else if head = "call".toList then some .call
    else if head = "=".toList then some .assign
    else if head = "or".toList ∨ head = "and".toList then some .logical
    else if parts.length = 1 then some .unary
    else some .binary

theorem Expr.shape?_form {e : Expr} (h : e.Spelled) : e.form.shape? = e.shape? := by
  cases e with
  | literal value => rfl
  | grouping inner => rfl
  | unary operator operand =>
    obtain ⟨s, hs, he⟩ := h.1.symbol
    simp only [form, he]
    fin_cases hs <;> rfl
  | binary left operator right =>
    obtain ⟨s, hs, he⟩ := h.2.1.symbol
    simp only [form, he]
    fin_cases hs <;> rfl
  | logical left operator right =>
    obtain ⟨k, hk, he⟩ := h.2.1.keyword
    simp only [form, he]
    fin_cases hk <;> rfl
  | read id name => rfl
  | assign id name value => rfl
  | call callee paren arguments => rfl

theorem solid_of_mem_unaryOperators {s : Symbol} (hs : s ∈ unaryOperators) :
    Form.Solid s.spelling.toList := by
  fin_cases hs <;> simp [Form.Solid, Symbol.spelling]

theorem solid_of_mem_binaryOperators {s : Symbol} (hs : s ∈ binaryOperators) :
    Form.Solid s.spelling.toList := by
  fin_cases hs <;> simp [Form.Solid, Symbol.spelling]

mutual

theorem Expr.clean_form : ∀ e : Expr, e.Spelled → e.Plain → e.form.Clean
  | .literal value, _, hp => Literal.solid_text (hp value (List.mem_singleton_self _))
  | .grouping inner, h, hp => ⟨by simp [Form.Solid], inner.clean_form h hp, trivial⟩
  | .unary operator operand, h, hp =>
    ⟨h.1.solid_symbol fun _ => solid_of_mem_unaryOperators, operand.clean_form h.2 hp, trivial⟩
  | .binary left operator right, ⟨hl, ho, hr⟩, hp => by
    obtain ⟨hpl, hpr⟩ := List.forall_mem_append.1 hp
    exact ⟨ho.solid_symbol fun _ => solid_of_mem_binaryOperators, left.clean_form hl hpl,
      right.clean_form hr hpr, trivial⟩
  | .logical left operator right, ⟨hl, ho, hr⟩, hp => by
    obtain ⟨hpl, hpr⟩ := List.forall_mem_append.1 hp
    obtain ⟨k, -, hk⟩ := ho.keyword
    exact ⟨hk ▸ k.solid_spelling, left.clean_form hl hpl, right.clean_form hr hpr, trivial⟩
  | .read _ name, h, _ => h.solid_identifier
  | .assign _ name value, ⟨hn, hv⟩, hp =>
    ⟨by simp [Form.Solid], hn.solid_identifier, value.clean_form hv hp, trivial⟩
  | .call callee paren arguments, ⟨hf, _, ha⟩, hp => by
    obtain ⟨hpf, hpa⟩ := List.forall_mem_append.1 hp
    exact ⟨by simp [Form.Solid], callee.clean_form hf hpf, Expr.cleanAll_formAll arguments ha hpa⟩

theorem Expr.cleanAll_formAll : ∀ es : List Expr, Expr.SpelledAll es →
    (∀ value ∈ Expr.literalsOfAll es, value.isPlain = true) → Form.CleanAll (Expr.formAll es)
  | [], _, _ => trivial
  | e :: es, ⟨he, hes⟩, hp => by
    obtain ⟨hpe, hpes⟩ := List.forall_mem_append.1 hp
    exact ⟨e.clean_form he hpe, Expr.cleanAll_formAll es hes hpes⟩

end

theorem Expr.shape?_eq {e e' : Expr} (h : e.Spelled) (h' : e'.Spelled) (he : e.form = e'.form) :
    e.shape? = e'.shape? := by
  rw [← Expr.shape?_form h, he, Expr.shape?_form h']

mutual

/-- Expressions of one form are the same but for numbers and lines. -/
theorem Expr.eq_of_form : ∀ e e' : Expr, e.Spelled → e'.Spelled → e.Plain → e'.Plain →
    e.form = e'.form → e.unlined.unnumbered = e'.unlined.unnumbered
  | .literal value, e', h, h', hp, hp', he => by
    have hshape := Expr.shape?_eq h h' he
    cases e' <;> cases hshape
    case literal value' =>
      have htext := Form.word.inj he
      have hvalue := Literal.eq_of_text (hp value (List.mem_singleton_self _))
        (hp' value' (List.mem_singleton_self _)) (String.toList_inj.1 htext)
      rw [hvalue]
    case read id name =>
      exact absurd (Form.word.inj he)
        (Literal.text_ne_name (hp value (List.mem_singleton_self _)) h')
  | .grouping inner, e', h, h', hp, hp', he => by
    have hshape := Expr.shape?_eq h h' he
    cases e' <;> cases hshape
    case grouping inner' =>
      obtain ⟨-, hparts⟩ := Form.node.inj he
      have hinner := inner.eq_of_form inner' h h' hp hp' (List.cons.inj hparts).1
      simp only [unlined, unnumbered, hinner]
  | .unary operator operand, e', h, h', hp, hp', he => by
    have hshape := Expr.shape?_eq h h' he
    cases e' <;> cases hshape
    case unary operator' operand' =>
      obtain ⟨hhead, hparts⟩ := Form.node.inj he
      have hoperator := h.1.unlined_eq h'.1 hhead
      have hoperand := operand.eq_of_form operand' h.2 h'.2 hp hp' (List.cons.inj hparts).1
      simp only [unlined, unnumbered, hoperator, hoperand]
  | .binary left operator right, e', h, h', hp, hp', he
  | .logical left operator right, e', h, h', hp, hp', he => by
    have hshape := Expr.shape?_eq h h' he
    cases e' <;> cases hshape
    case _ left' operator' right' =>
      obtain ⟨hhead, hparts⟩ := Form.node.inj he
      obtain ⟨hl, hr⟩ := List.cons.inj hparts
      have hpl := List.forall_mem_append.1 hp
      have hpr := List.forall_mem_append.1 hp'
      have hoperator := h.2.1.unlined_eq h'.2.1 hhead
      have hleft := left.eq_of_form left' h.1 h'.1 hpl.1 hpr.1 hl
      have hright := right.eq_of_form right' h.2.2 h'.2.2 hpl.2 hpr.2 (List.cons.inj hr).1
      simp only [unlined, unnumbered, hoperator, hleft, hright]
  | .read id name, e', h, h', hp, hp', he => by
    have hshape := Expr.shape?_eq h h' he
    cases e' <;> cases hshape
    case literal value' =>
      exact absurd (Form.word.inj he).symm
        (Literal.text_ne_name (hp' value' (List.mem_singleton_self _)) h)
    case read id' name' =>
      have hname := Token.SpelledAs.unlined_eq h h' (Form.word.inj he)
      simp only [unlined, unnumbered, hname]
  | .assign id name value, e', h, h', hp, hp', he => by
    have hshape := Expr.shape?_eq h h' he
    cases e' <;> cases hshape
    case assign id' name' value' =>
      obtain ⟨-, hparts⟩ := Form.node.inj he
      obtain ⟨hn, hv⟩ := List.cons.inj hparts
      have hname := h.1.unlined_eq h'.1 (Form.word.inj hn)
      have hvalue := value.eq_of_form value' h.2 h'.2 hp hp' (List.cons.inj hv).1
      simp only [unlined, unnumbered, hname, hvalue]
  | .call callee paren arguments, e', h, h', hp, hp', he => by
    have hshape := Expr.shape?_eq h h' he
    cases e' <;> cases hshape
    case call callee' paren' arguments' =>
      obtain ⟨-, hparts⟩ := Form.node.inj he
      obtain ⟨hf, ha⟩ := List.cons.inj hparts
      have hpf := List.forall_mem_append.1 hp
      have hpf' := List.forall_mem_append.1 hp'
      have hparen := h.2.1.unlined_eq_of_symbol h'.2.1
      have hcallee := callee.eq_of_form callee' h.1 h'.1 hpf.1 hpf'.1 hf
      have harguments := Expr.eqAll_of_form arguments arguments' h.2.2 h'.2.2 hpf.2 hpf'.2 ha
      simp only [unlined, unnumbered, hparen, hcallee, harguments]

theorem Expr.eqAll_of_form : ∀ es es' : List Expr, Expr.SpelledAll es → Expr.SpelledAll es' →
    (∀ value ∈ Expr.literalsOfAll es, value.isPlain = true) →
    (∀ value ∈ Expr.literalsOfAll es', value.isPlain = true) →
    Expr.formAll es = Expr.formAll es' →
    Expr.unnumberedAll (Expr.unlinedAll es) = Expr.unnumberedAll (Expr.unlinedAll es')
  | [], [], _, _, _, _, _ => rfl
  | [], _ :: _, _, _, _, _, he => by cases he
  | _ :: _, [], _, _, _, _, he => by cases he
  | e :: es, e' :: es', h, h', hp, hp', he => by
    obtain ⟨hhead, htail⟩ := List.cons.inj he
    have hpe := List.forall_mem_append.1 hp
    have hpe' := List.forall_mem_append.1 hp'
    have hfirst := e.eq_of_form e' h.1 h'.1 hpe.1 hpe'.1 hhead
    have hrest := Expr.eqAll_of_form es es' h.2 h'.2 hpe.2 hpe'.2 htail
    simp only [unlinedAll, unnumberedAll, hfirst, hrest]

end

/-! ## Expressions of a source text -/

namespace Sentence

variable {ts : List Token}

theorem node_spelled {rank : Rank} {a b : Expr} {op : Token} (hop : op.Spelled)
    (ho : op.kind ∈ rank.operators) (ha : a.Spelled) (hb : b.Spelled) :
    (rank.node a op b).Spelled := by
  cases rank with
  | or | and =>
    refine ⟨ha, ⟨hop, ?_⟩, hb⟩
    simp only [Rank.operators, List.mem_singleton] at ho
    simp [ho, logicalOperators]
  | equality | comparison | term | factor =>
    refine ⟨ha, ⟨hop, ?_⟩, hb⟩
    simp only [Rank.operators, List.mem_cons, List.not_mem_nil, or_false] at ho
    simp only [binaryOperators, List.map_cons, List.map_nil, List.mem_cons, List.not_mem_nil]
    grind
  | _ => cases ho

theorem Expression.spelled {rank : Rank} {e : Expr} (h : Expression rank ts e)
    (hts : ∀ t ∈ ts, t.Spelled) : e.Spelled := by
  induction h with
  | assign name equals hn _ _ ih =>
    exact ⟨⟨hts name (by simp), by simp [hn]⟩, ih (by grind)⟩
  | operand _ _ ih => exact ih hts
  | operator op ho _ _ ihl ihr =>
    exact node_spelled (hts op (by simp)) ho (ihl (by grind)) (ihr (by grind))
  | unary op ho _ ih =>
    exact ⟨⟨hts op (by simp), by simpa [unaryOperators] using ho⟩, ih (by grind)⟩
  | call arguments opening closing _ _ _ hs _ hc ihf iha =>
    refine ⟨ihf (by grind), ⟨hts closing (by simp), by simp [hc]⟩,
      (Expr.spelledAll_iff _).2 fun e he => ?_⟩
    obtain ⟨a, ha, rfl⟩ := List.mem_map.1 he
    refine iha a ha fun t ht => hts t ?_
    have := hs.subset a.1 (List.mem_map_of_mem ha) ht
    simp [this]
  | literal t _ => trivial
  | name t ht => exact ⟨hts t (by simp), by simp [ht]⟩
  | grouping opening closing _ _ _ ih => exact ih (by grind)

end Sentence

namespace Grammar

variable {firstId firstId' : NodeId} {source source' : String} {e e' : Expr}

theorem spelled_beforeEnd (source : String) : ∀ t ∈ beforeEnd (tokens source), t.Spelled := by
  intro t ht
  have hne : t.kind ≠ .eof := by simpa [Token.isEof] using List.mem_takeWhile_imp ht
  obtain ⟨item, hitem, htoken⟩ :=
    List.mem_filterMap.1 ((List.takeWhile_sublist _).subset ht)
  cases item with
  | error fault => cases htoken
  | token u =>
    cases htoken
    exact (lexes_ofPieces 1 source.toList).lexeme t hitem hne

theorem parseExpression_spelled
    (h : (parseExpression firstId (tokens source)).result = .ok e) : e.Spelled :=
  e.spelled_unnumbered.1 ((parseExpression_sound h).spelled (spelled_beforeEnd source))

/-- Expressions that are printed alike have one tree, wherever their tokens and their references
stand. -/
theorem bracketed_unambiguous
    (h : (parseExpression firstId (tokens source)).result = .ok e)
    (h' : (parseExpression firstId' (tokens source')).result = .ok e')
    (hp : e.Plain) (hp' : e'.Plain) (hprint : e.bracketed = e'.bracketed) :
    e.unlined.unnumbered = e'.unlined.unnumbered := by
  have hs := parseExpression_spelled h
  have hs' := parseExpression_spelled h'
  have htext : e.form.text = e'.form.text := by rw [e.text_form, e'.text_form, hprint]
  have hform := Form.text_injective (e.clean_form hs hp) (e'.clean_form hs' hp') htext
  exact e.eq_of_form e' hs hs' hp hp' hform

/-- One expression on one line and on two, with a function of the name that brackets have. -/
theorem bracketed_unambiguous_lines :
    ∃ e e', (parseExpression 0 (tokens "a = group(-1.50, 2) < (nil)")).result = .ok e ∧
      (parseExpression 7 (tokens "a = group(- 1.5, 02.0)\n  < (nil)")).result = .ok e' ∧
      e.bracketed = "(= a (< (call group (- 1.5) 2.0) (group nil)))" ∧
      e'.bracketed = e.bracketed ∧ e.unlined.unnumbered = e'.unlined.unnumbered := by
  have hread (r : Except (List SyntaxError) Expr) (text : String)
      (h : r.toOption.any (fun e => e.bracketed == text ∧ e.literals.all (·.isPlain)) = true) :
      ∃ e, r = .ok e ∧ e.bracketed = text ∧ e.Plain := by
    cases r with
    | error errors => cases h
    | ok e =>
      have h : e.bracketed = text ∧ ∀ value ∈ e.literals, value.isPlain = true := by
        simpa [Except.toOption] using h
      exact ⟨e, rfl, h⟩
  obtain ⟨e, he, htext, hp⟩ := hread
    (parseExpression 0 (tokens "a = group(-1.50, 2) < (nil)")).result
    "(= a (< (call group (- 1.5) 2.0) (group nil)))" (by decide +kernel)
  obtain ⟨e', he', htext', hp'⟩ := hread
    (parseExpression 7 (tokens "a = group(- 1.5, 02.0)\n  < (nil)")).result
    "(= a (< (call group (- 1.5) 2.0) (group nil)))" (by decide +kernel)
  exact ⟨e, e', he, he', htext, htext'.trans htext.symm,
    bracketed_unambiguous he he' hp hp' (htext.trans htext'.symm)⟩

end Grammar

end Lox
