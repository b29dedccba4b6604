import Lox.Proofs.Decimal.Numeral
import Lox.Token.Piece

/-!
# Lexemes

`Lexeme w r` says that the text `w` is a lexeme of the language, and `r` what it is read as. What
`Reading.ahead` finds at the front of a text is the longest lexeme there (`longest_of_ahead`); where
it finds a fault, no lexeme stands there (`fault_of_ahead`, `not_lexeme_of_ahead`).
-/

namespace Lox

open Reading

/-- Digits, with a fraction or without. -/
inductive Numeral : List Char → Prop where
  | whole {c : Char} {digits : List Char} (hwhole : ∀ d ∈ c :: digits, d.isDigit) :
      Numeral (c :: digits)
  | decimal {c : Char} {digits places : List Char} (hwhole : ∀ d ∈ c :: digits, d.isDigit)
      (hplaces : ∀ d ∈ places, d.isDigit) (hne : places ≠ []) :
      Numeral (c :: digits ++ '.' :: places)

/-- The lexemes of the language and what they are read as. A numeral is read as `float?` reads it,
and a word is a name unless the whole of it is reserved. -/
inductive Lexeme : List Char → Reading → Prop where
  | blank {c : Char} (hc : c ∈ [' ', '\t', '\r', '\n']) : Lexeme [c] .blank
  | comment {body : List Char} (hbody : '\n' ∉ body) : Lexeme ('/' :: '/' :: body) .blank
  | string {contents : List Char} (hcontents : '"' ∉ contents) :
      Lexeme ('"' :: (contents ++ ['"'])) (.token (.string (String.ofList contents)))
  | number {text : List Char} {value : Float} (h : Numeral text)
      (hvalue : Decimal.float? (String.ofList text) = some value) :
      Lexeme text (.token (.number value))
  | keyword (k : Keyword) : Lexeme k.spelling.toList (.token (.keyword k))
  | identifier {c : Char} {word : List Char} (hc : c.isAlpha ∨ c = '_')
      (hword : ∀ d ∈ word, d.isAlpha ∨ d.isDigit ∨ d = '_')
      (hname : ∀ k : Keyword, k.spelling.toList ≠ c :: word) :
      Lexeme (c :: word) (.token .identifier)
  | symbol (s : Symbol) : Lexeme s.spelling.toList (.token (.symbol s))

/-- Every numeral is read as some double. -/
theorem Numeral.isSome_float? {text : List Char} (h : Numeral text) :
    (Decimal.float? (String.ofList text)).isSome = true := by
  cases h with
  | whole hwhole => rw [Decimal.float?_digits (List.cons_ne_nil _ _) hwhole, Option.isSome_some]
  | decimal hwhole hplaces =>
    rw [Decimal.float?_fraction (List.cons_ne_nil _ _) hwhole hplaces, Option.isSome_some]

/-- The longest lexeme at the front of a text. -/
structure Longest (text w : List Char) (r : Reading) : Prop where
  lexeme : Lexeme w r
  front : w <+: text
  longest : ∀ w' r', Lexeme w' r' → w' <+: text → w'.length ≤ w.length

/-! ## Spellings -/

theorem Symbol.ofSpelling?_spelling (s : Symbol) :
    Symbol.ofSpelling? s.spelling.toList = some s := by
  cases s <;> decide

theorem Keyword.ofSpelling?_spelling (k : Keyword) :
    Keyword.ofSpelling? k.spelling.toList = some k := by
  cases k <;> decide

theorem Symbol.spelling_of_ofSpelling? {text : List Char} {s : Symbol}
    (h : Symbol.ofSpelling? text = some s) : s.spelling.toList = text := by
  simpa using List.find?_some h

theorem Keyword.spelling_of_ofSpelling? {word : List Char} {k : Keyword}
    (h : Keyword.ofSpelling? word = some k) : k.spelling.toList = word := by
  simpa using List.find?_some h

/-- A symbol is one character long, or two of which the second is `=`. -/
theorem Symbol.spelling_cases (s : Symbol) :
    ∃ c, s.spelling.toList = [c] ∨ s.spelling.toList = [c, '='] ∧ c ≠ '/' := by
  cases s <;> simp [Symbol.spelling]

/-- No symbol starts as a lexeme of another kind does, but for the comments. -/
theorem Symbol.front_ne (s : Symbol) : ∀ c ∈ s.spelling.toList.head?,
    isBlank c = false ∧ c ≠ '"' ∧ c.isDigit = false ∧ isWordStart c = false := by
  intro c hc
  cases s <;> cases hc <;> decide

/-- Reserved words are words. -/
theorem Keyword.isWord (k : Keyword) : ∃ c word, k.spelling.toList = c :: word ∧
    isWordStart c = true ∧ ∀ d ∈ word, isWordChar d = true := by
  cases k <;>
    simp [Keyword.spelling, isWordStart, isWordChar, Char.isAlpha, Char.isUpper, Char.isLower]

theorem Symbol.ne_nil (s : Symbol) : s.spelling.toList ≠ [] := by
  obtain ⟨c, h | ⟨h, -⟩⟩ := s.spelling_cases <;> simp [h]

theorem Lexeme.ne_nil {w : List Char} {r : Reading} (h : Lexeme w r) : w ≠ [] := by
  cases h with
  | keyword k =>
    obtain ⟨c, word, hk, -⟩ := k.isWord
    simp [hk]
  | symbol s => exact s.ne_nil
  | number h => cases h <;> simp
  | _ => simp

/-! ## What is ahead, by the first character -/

namespace Reading

variable {c : Char} {cs : List Char}

theorem mem_blanks : c ∈ [' ', '\t', '\r', '\n'] ↔ isBlank c = true := by
  simp [isBlank, or_assoc]

theorem ahead_blank (h : isBlank c = true) : ahead c cs = (.blank, 0) :=
  if_pos h

theorem ahead_comment : ahead '/' ('/' :: cs) = (.blank, (cs.takeWhile (· ≠ '\n')).length + 1) := by
  simp [ahead, isBlank]

theorem ahead_quote : ahead '"' cs = string cs := by
  simp [ahead, isBlank]

theorem ahead_digit (h : c.isDigit = true) :
    ahead c cs = (.token (number c cs).1, (number c cs).2) := by
  have hne : ∀ d : Char, d.isDigit = false → c ≠ d := by
    rintro d hd rfl
    exact absurd (h.symm.trans hd) (by decide)
  have hblank : isBlank c = false := by
    simp [isBlank, hne ' ' rfl, hne '\t' rfl, hne '\r' rfl, hne '\n' rfl]
  simp [ahead, hblank, hne '/' rfl, hne '"' rfl, h]

theorem isDigit_eq_false (h : isWordStart c = true) : c.isDigit = false := by
  have hdigit : '9'.val.toNat = 57 := rfl
  have hupper : 'A'.val.toNat = 65 := rfl
  have hlower : 'a'.val.toNat = 97 := rfl
  have hscore : '_'.isDigit = false := rfl
  simp only [isWordStart, Char.isAlpha, Char.isUpper, Char.isLower, Bool.or_eq_true,
    Bool.and_eq_true, decide_eq_true_eq, ge_iff_le, UInt32.le_iff_toNat_le] at h
  rcases h with h | rfl
  · simp only [Char.isDigit, Bool.and_eq_false_iff, decide_eq_false_iff_not, ge_iff_le,
      UInt32.le_iff_toNat_le]
    omega
  · exact hscore

theorem ahead_word (h : isWordStart c = true) :
    ahead c cs = (.token (wordKind (c :: cs.takeWhile isWordChar)),
      (cs.takeWhile isWordChar).length) := by
  have hne : ∀ d : Char, isWordStart d = false → c ≠ d := by
    rintro d hd rfl
    exact absurd (h.symm.trans hd) (by decide)
  have hblank : isBlank c = false := by
    simp [isBlank, hne ' ' rfl, hne '\t' rfl, hne '\r' rfl, hne '\n' rfl]
  simp [ahead, hblank, hne '/' rfl, hne '"' rfl, isDigit_eq_false h, h]

/-- Where no other lexeme can start, a symbol may. -/
theorem ahead_symbol (hblank : isBlank c = false) (hcomment : ¬ (c = '/' ∧ cs.head? = some '/'))
    (hquote : c ≠ '"') (hdigit : c.isDigit = false) (hword : isWordStart c = false) :
    ahead c cs = (symbol? c cs).elim (.fault (.unexpectedCharacter c), 0)
      fun sn => (.token (.symbol sn.1), sn.2) := by
  simp only [ahead, hblank, hcomment, hquote, hdigit, hword, if_false, Bool.false_eq_true]
  cases symbol? c cs <;> rfl

end Reading

/-! ## The longest lexeme -/

/-- What is found ahead takes in a lexeme `c :: w`, and reads it as `r` unless it goes further. -/
def Reading.TakesIn (c : Char) (cs w : List Char) (r : Reading) : Prop :=
  (∀ cause, (ahead c cs).1 ≠ .fault cause) ∧ w.length ≤ (ahead c cs).2 ∧
    ((ahead c cs).2 = w.length → (ahead c cs).1 = r)

section TakesIn

variable {c : Char} {w digits places : List Char} {value : Float} (rest : List Char)

theorem takesIn_comment (hw : '\n' ∉ w) : TakesIn '/' ('/' :: w ++ rest) ('/' :: w) .blank := by
  have htake : (w ++ rest).takeWhile (· ≠ '\n') = w ++ rest.takeWhile (· ≠ '\n') :=
    List.takeWhile_append_of_pos fun d hd => decide_eq_true (ne_of_mem_of_not_mem hd hw)
  unfold TakesIn
  rw [List.cons_append, ahead_comment, htake]
  exact ⟨nofun, by simp, fun _ => rfl⟩

theorem takesIn_string (hw : '"' ∉ w) : TakesIn '"' (w ++ ['"'] ++ rest) (w ++ ['"'])
    (.token (.string (String.ofList w))) := by
  have htake : (w ++ ['"'] ++ rest).takeWhile (· ≠ '"') = w ++ [] := by
    rw [List.append_assoc]
    exact List.takeWhile_append_of_pos fun d hd => decide_eq_true (ne_of_mem_of_not_mem hd hw)
  unfold TakesIn
  rw [ahead_quote, string, htake, List.append_nil, if_pos (by simp)]
  exact ⟨nofun, by simp, fun _ => rfl⟩

theorem takesIn_whole (hdigits : ∀ d ∈ c :: digits, d.isDigit = true)
    (hvalue : Decimal.float? (String.ofList (c :: digits)) = some value) :
    TakesIn c (digits ++ rest) digits (.token (.number value)) := by
  obtain ⟨hc, hds⟩ := List.forall_mem_cons.1 hdigits
  have htake : (digits ++ rest).takeWhile Char.isDigit = digits ++ rest.takeWhile Char.isDigit :=
    List.takeWhile_append_of_pos hds
  rw [Decimal.float?_digits (List.cons_ne_nil c digits) hdigits] at hvalue
  unfold TakesIn
  rw [ahead_digit hc, number, htake]
  refine ⟨nofun, by simp [Nat.add_assoc], fun hlength => ?_⟩
  simp only [List.length_append] at hlength
  have hrest : rest.takeWhile Char.isDigit = [] := List.length_eq_zero_iff.1 (by omega)
  split at hlength
  · rename_i hplaces
    rw [hplaces, hrest, List.append_nil, Option.some.inj hvalue]
  · omega

theorem takesIn_decimal (hdigits : ∀ d ∈ c :: digits, d.isDigit = true)
    (hplaces : ∀ d ∈ places, d.isDigit = true) (hne : places ≠ [])
    (hvalue : Decimal.float? (String.ofList (c :: digits ++ '.' :: places)) = some value) :
    TakesIn c (digits ++ '.' :: places ++ rest) (digits ++ '.' :: places)
      (.token (.number value)) := by
  obtain ⟨hc, hds⟩ := List.forall_mem_cons.1 hdigits
  have htake : (digits ++ '.' :: places ++ rest).takeWhile Char.isDigit = digits ++ [] := by
    rw [List.append_assoc]
    exact List.takeWhile_append_of_pos hds
  have hdrop :
      (digits ++ '.' :: places ++ rest).dropWhile Char.isDigit = '.' :: (places ++ rest) := by
    rw [List.append_assoc]
    exact List.dropWhile_append_of_pos hds
  have hfraction : fraction ('.' :: (places ++ rest)) = places ++ rest.takeWhile Char.isDigit :=
    List.takeWhile_append_of_pos hplaces
  rw [Decimal.float?_fraction (List.cons_ne_nil c digits) hdigits hplaces] at hvalue
  unfold TakesIn
  rw [ahead_digit hc, number, htake, hdrop, hfraction, if_neg (by simp [hne])]
  refine ⟨nofun, by simp, fun hlength => ?_⟩
  simp only [List.length_append, List.length_cons, List.append_nil] at hlength ⊢
  have hrest : rest.takeWhile Char.isDigit = [] := List.length_eq_zero_iff.1 (by omega)
  rw [hrest, List.append_nil, Option.some.inj hvalue]

theorem takesIn_word (hc : isWordStart c = true) (hw : ∀ d ∈ w, isWordChar d = true) :
    TakesIn c (w ++ rest) w (.token (wordKind (c :: w))) := by
  have htake : (w ++ rest).takeWhile isWordChar = w ++ rest.takeWhile isWordChar :=
    List.takeWhile_append_of_pos hw
  unfold TakesIn
  rw [ahead_word hc, htake]
  refine ⟨nofun, by simp, fun hlength => ?_⟩
  simp only [List.length_append] at hlength
  have hrest : rest.takeWhile isWordChar = [] := List.length_eq_zero_iff.1 (by omega)
  rw [hrest, List.append_nil]

theorem takesIn_symbol {s : Symbol} (h : s.spelling.toList = c :: w) :
    TakesIn c (w ++ rest) w (.token (.symbol s)) := by
  have hself := s.ofSpelling?_spelling
  obtain ⟨hblank, hquote, hdigit, hword⟩ := s.front_ne c (by simp [h])
  rw [h] at hself
  obtain ⟨d, hd | ⟨hd, hslash⟩⟩ := s.spelling_cases
  · obtain ⟨rfl, rfl⟩ := List.cons.inj (h.symm.trans hd)
    by_cases hcomment : c = '/' ∧ rest.head? = some '/'
    · obtain ⟨rfl, hrest⟩ := hcomment
      obtain ⟨tail, rfl⟩ := List.head?_eq_some_iff.1 hrest
      have hahead : ahead '/' ([] ++ '/' :: tail) = (.blank, _) := ahead_comment
      unfold TakesIn
      rw [hahead]
      exact ⟨nofun, Nat.zero_le _, nofun⟩
    · unfold TakesIn
      rw [List.nil_append, ahead_symbol hblank hcomment hquote hdigit hword, symbol?, hself]
      cases rest.head?.bind fun d => Symbol.ofSpelling? [c, d] with
      | none => exact ⟨nofun, Nat.le_refl _, fun _ => rfl⟩
      | some s' => exact ⟨nofun, Nat.zero_le _, nofun⟩
  · obtain ⟨rfl, rfl⟩ := List.cons.inj (h.symm.trans hd)
    unfold TakesIn
    rw [ahead_symbol hblank (fun hc => hslash hc.1) hquote hdigit hword, symbol?]
    simp only [List.cons_append, List.head?_cons, Option.bind_some, hself]
    exact ⟨nofun, Nat.le_refl _, fun _ => rfl⟩

theorem Keyword.wordKind_spelling (k : Keyword) : wordKind k.spelling.toList = .keyword k := by
  rw [wordKind, k.ofSpelling?_spelling]

theorem wordKind_eq_identifier (h : ∀ k : Keyword, k.spelling.toList ≠ w) :
    wordKind w = .identifier := by
  unfold wordKind
  cases hk : Keyword.ofSpelling? w with
  | none => rfl
  | some k => exact absurd (Keyword.spelling_of_ofSpelling? hk) (h k)

/-- Whatever lexeme stands at the front of a text is taken in. -/
theorem Lexeme.takesIn {r : Reading} (h : Lexeme (c :: w) r) : TakesIn c (w ++ rest) w r := by
  generalize hcw : c :: w = text at h
  cases h with
  | blank hc =>
    cases hcw
    unfold TakesIn
    rw [ahead_blank (mem_blanks.1 hc)]
    exact ⟨nofun, Nat.le_refl _, fun _ => rfl⟩
  | comment hbody =>
    cases hcw
    exact takesIn_comment rest hbody
  | string hcontents =>
    cases hcw
    exact takesIn_string rest hcontents
  | number h hvalue =>
    cases h with
    | whole hwhole =>
      cases hcw
      exact takesIn_whole rest hwhole hvalue
    | decimal hwhole hplaces hne =>
      cases hcw
      exact takesIn_decimal rest hwhole hplaces hne hvalue
  | keyword k =>
    obtain ⟨d, word, hk, hd, hword⟩ := k.isWord
    obtain ⟨rfl, rfl⟩ := List.cons.inj (hcw.trans hk)
    rw [← k.wordKind_spelling, hk]
    exact takesIn_word rest hd hword
  | identifier hc hword hname =>
    cases hcw
    rw [← wordKind_eq_identifier hname]
    refine takesIn_word rest (by simpa [isWordStart] using hc) fun d hd => ?_
    rcases hword d hd with h | h | h <;> simp [isWordChar, isWordStart, h]
  | symbol s => exact takesIn_symbol rest hcw.symm

end TakesIn

section Ahead

variable {c : Char} {cs : List Char}

theorem take_takeWhile (p : Char → Bool) (cs : List Char) :
    cs.take (cs.takeWhile p).length = cs.takeWhile p :=
  (List.prefix_iff_eq_take.1 (List.takeWhile_prefix p)).symm

theorem of_mem_takeWhile {p : Char → Bool} : ∀ d ∈ cs.takeWhile p, p d = true :=
  List.all_eq_true.1 List.all_takeWhile

theorem of_dropWhile {p : Char → Bool} {tail : List Char} (h : cs.dropWhile p = c :: tail) :
    p c = false := by
  have hhead := List.head?_dropWhile_not p cs
  rwa [h] at hhead

theorem take_takeWhile_add (p : Char → Bool) (cs : List Char) (k : Nat) :
    cs.take ((cs.takeWhile p).length + k) = cs.takeWhile p ++ (cs.dropWhile p).take k := by
  have h : (cs.takeWhile p ++ cs.dropWhile p).take ((cs.takeWhile p).length + k) =
      cs.takeWhile p ++ (cs.dropWhile p).take k := List.take_length_add_append k
  rwa [List.takeWhile_append_dropWhile] at h

theorem lexeme_comment (cs : List Char) :
    Lexeme ('/' :: ('/' :: cs).take ((cs.takeWhile (· ≠ '\n')).length + 1)) .blank := by
  rw [List.take_succ_cons, take_takeWhile]
  exact .comment fun h => by simpa using of_mem_takeWhile _ h

theorem lexeme_string (h : ∀ cause, (string cs).1 ≠ .fault cause) :
    Lexeme ('"' :: cs.take (string cs).2) (string cs).1 := by
  unfold string at h ⊢
  dsimp only at h ⊢
  split at h
  · rename_i hlt
    rw [if_pos hlt]
    rw [take_takeWhile_add]
    cases hrest : cs.dropWhile (· ≠ '"') with
    | nil =>
      have hall := List.takeWhile_append_dropWhile (p := (· ≠ '"')) (l := cs)
      rw [hrest, List.append_nil] at hall
      rw [hall] at hlt
      exact absurd hlt (Nat.lt_irrefl _)
    | cons d tail =>
      have hd : d = '"' := by simpa using of_dropWhile hrest
      subst hd
      exact .string fun hmem => by simpa using of_mem_takeWhile _ hmem
  · exact absurd rfl (h _)

theorem dropWhile_of_fraction (h : fraction cs ≠ []) : ∃ ds, cs = '.' :: ds := by
  unfold fraction at h
  split at h
  · exact ⟨_, rfl⟩
  · exact absurd rfl h

theorem lexeme_number (hc : c.isDigit = true) :
    Lexeme (c :: cs.take (number c cs).2) (.token (number c cs).1) := by
  have hwhole : ∀ d ∈ c :: cs.takeWhile Char.isDigit, d.isDigit = true :=
    List.forall_mem_cons.2 ⟨hc, of_mem_takeWhile⟩
  unfold number
  dsimp only
  split
  · rename_i hnone
    rw [hnone, Nat.add_zero, take_takeWhile]
    exact .number (.whole hwhole) (Decimal.float?_digits (List.cons_ne_nil _ _) hwhole)
  · rename_i hne
    obtain ⟨ds, hds⟩ := dropWhile_of_fraction hne
    rw [take_takeWhile_add, hds, List.take_succ_cons]
    rw [hds] at hne
    have hplaces : fraction ('.' :: ds) = ds.takeWhile Char.isDigit := rfl
    rw [hplaces] at hne ⊢
    rw [take_takeWhile]
    have hdigits : ∀ d ∈ ds.takeWhile Char.isDigit, d.isDigit = true := of_mem_takeWhile
    have hnumeral := Numeral.decimal hwhole hdigits hne
    have hvalue := Decimal.float?_fraction (List.cons_ne_nil c _) hwhole hdigits
    rw [List.cons_append] at hnumeral hvalue
    exact .number hnumeral hvalue

theorem lexeme_word (hc : isWordStart c = true) :
    Lexeme (c :: cs.take (cs.takeWhile isWordChar).length)
      (.token (wordKind (c :: cs.takeWhile isWordChar))) := by
  rw [take_takeWhile]
  unfold wordKind
  cases hk : Keyword.ofSpelling? (c :: cs.takeWhile isWordChar) with
  | some k =>
    rw [← Keyword.spelling_of_ofSpelling? hk]
    exact .keyword k
  | none =>
    refine .identifier (by simpa [isWordStart] using hc) (fun d hd => ?_) fun k hspelling => ?_
    · have hword := of_mem_takeWhile d hd
      simp only [isWordChar, isWordStart, Bool.or_eq_true, decide_eq_true_eq] at hword
      tauto
    · rw [← hspelling, k.ofSpelling?_spelling] at hk
      cases hk

theorem lexeme_symbol {s : Symbol} {n : Nat} (h : symbol? c cs = some (s, n)) :
    Lexeme (c :: cs.take n) (.token (.symbol s)) := by
  unfold symbol? at h
  split at h
  · rename_i s' hs'
    cases h
    obtain ⟨d, hd, hs'⟩ := Option.bind_eq_some_iff.1 hs'
    obtain ⟨tail, rfl⟩ := List.head?_eq_some_iff.1 hd
    rw [List.take_succ_cons, List.take_zero, ← Symbol.spelling_of_ofSpelling? hs']
    exact .symbol s
  · obtain ⟨s', hs', heq⟩ := Option.map_eq_some_iff.1 h
    cases heq
    rw [List.take_zero, ← Symbol.spelling_of_ofSpelling? hs']
    exact .symbol s

/-- What is found ahead is a lexeme, unless it is a fault. -/
theorem lexeme_of_ahead (h : ∀ cause, (ahead c cs).1 ≠ .fault cause) :
    Lexeme (c :: cs.take (ahead c cs).2) (ahead c cs).1 := by
  by_cases hblank : isBlank c = true
  · rw [ahead_blank hblank]
    exact .blank (mem_blanks.2 hblank)
  by_cases hcomment : c = '/' ∧ cs.head? = some '/'
  · obtain ⟨rfl, hcs⟩ := hcomment
    obtain ⟨tail, rfl⟩ := List.head?_eq_some_iff.1 hcs
    rw [ahead_comment]
    exact lexeme_comment tail
  by_cases hquote : c = '"'
  · subst hquote
    rw [ahead_quote] at h ⊢
    exact lexeme_string h
  by_cases hdigit : c.isDigit = true
  · rw [ahead_digit hdigit]
    exact lexeme_number hdigit
  by_cases hword : isWordStart c = true
  · rw [ahead_word hword]
    exact lexeme_word hword
  simp only [Bool.not_eq_true] at hblank hdigit hword
  rw [ahead_symbol hblank hcomment hquote hdigit hword] at h ⊢
  cases hs : symbol? c cs with
  | none =>
    rw [hs] at h
    exact absurd rfl (h _)
  | some sn => exact lexeme_symbol hs

/-- Without a lexeme at the front, an open quote is at fault with all that follows, and any other
character on its own. -/
theorem fault_of_ahead {cause : LexicalFault} (h : (ahead c cs).1 = .fault cause) :
    cause = .unterminatedString ∧ c = '"' ∧ (ahead c cs).2 = cs.length ∨
      cause = .unexpectedCharacter c ∧ c ≠ '"' ∧ (ahead c cs).2 = 0 := by
  unfold ahead at h ⊢
  split at h
  · cases h
  split at h
  · cases h
  split at h
  · rename_i hblank hcomment hquote
    unfold string at h ⊢
    dsimp only at h ⊢
    split at h
    · cases h
    · rename_i hopen
      cases h
      simp only [if_neg hblank, if_neg hcomment, if_pos hquote, if_neg hopen]
      exact .inl ⟨trivial, hquote, trivial⟩
  split at h
  · cases h
  split at h
  · cases h
  · rename_i hblank hcomment hquote hdigit hword
    split at h
    · cases h
    · cases h
      rename_i hsymbol
      simp only [if_neg hblank, if_neg hcomment, if_neg hquote, if_neg hdigit, if_neg hword]
      exact .inr ⟨trivial, hquote, trivial⟩

theorem number_le (c : Char) (cs : List Char) : (number c cs).2 ≤ cs.length := by
  have hsplit := congrArg List.length
    (List.takeWhile_append_dropWhile (p := Char.isDigit) (l := cs))
  rw [List.length_append] at hsplit
  unfold number
  dsimp only
  split
  · omega
  · rename_i hne
    obtain ⟨ds, hds⟩ := dropWhile_of_fraction hne
    rw [hds] at hsplit ⊢
    have hplaces : (fraction ('.' :: ds)).length ≤ ds.length :=
      (List.takeWhile_prefix Char.isDigit).length_le
    rw [List.length_cons] at hsplit
    omega

theorem symbol?_le {s : Symbol} {n : Nat} (h : symbol? c cs = some (s, n)) : n ≤ cs.length := by
  unfold symbol? at h
  split at h
  · rename_i hs
    cases h
    obtain ⟨d, hd, -⟩ := Option.bind_eq_some_iff.1 hs
    obtain ⟨tail, rfl⟩ := List.head?_eq_some_iff.1 hd
    simp
  · obtain ⟨s', -, heq⟩ := Option.map_eq_some_iff.1 h
    cases heq
    exact Nat.zero_le _

theorem ahead_le : (ahead c cs).2 ≤ cs.length := by
  unfold ahead
  split
  · exact Nat.zero_le _
  split
  · exact (List.takeWhile_prefix _).length_le
  split
  · unfold string
    dsimp only
    split
    · assumption
    · exact Nat.le_refl _
  split
  · exact number_le c cs
  split
  · exact (List.takeWhile_prefix _).length_le
  split
  · exact symbol?_le ‹_›
  · exact Nat.zero_le _

/-- A text has only one reading as a lexeme. -/
theorem Lexeme.unique {w : List Char} {r r' : Reading} (h : Lexeme w r) (h' : Lexeme w r') :
    r = r' := by
  obtain ⟨c, cs, rfl⟩ := List.exists_cons_of_ne_nil h.ne_nil
  have htakes := h.takesIn []
  have htakes' := h'.takesIn []
  rw [List.append_nil] at htakes htakes'
  have hlength := Nat.le_antisymm ahead_le htakes.2.1
  exact (htakes.2.2 hlength).symm.trans (htakes'.2.2 hlength)

theorem Longest.unique {text w w' : List Char} {r r' : Reading} (h : Longest text w r)
    (h' : Longest text w' r') : w = w' ∧ r = r' := by
  have hlength := Nat.le_antisymm (h'.longest w r h.lexeme h.front)
    (h.longest w' r' h'.lexeme h'.front)
  have hw : w = w' := (List.prefix_of_prefix_length_le h.front h'.front
    (Nat.le_of_eq hlength)).eq_of_length hlength
  subst hw
  exact ⟨rfl, h.lexeme.unique h'.lexeme⟩

/-- A lexeme at the front of a text is found ahead, or a longer one. -/
theorem Lexeme.le_ahead {w : List Char} {r : Reading} (h : Lexeme w r) (hw : w <+: c :: cs) :
    (∀ cause, (ahead c cs).1 ≠ .fault cause) ∧ w.length ≤ (ahead c cs).2 + 1 := by
  obtain ⟨d, v, rfl⟩ := List.exists_cons_of_ne_nil h.ne_nil
  obtain ⟨rfl, rest, rfl⟩ := List.cons_prefix_cons.1 hw
  obtain ⟨hfault, hlength, -⟩ := h.takesIn rest
  exact ⟨hfault, Nat.succ_le_succ hlength⟩

/-- What is found ahead is the longest lexeme. -/
theorem longest_of_ahead (h : ∀ cause, (ahead c cs).1 ≠ .fault cause) :
    Longest (c :: cs) (c :: cs.take (ahead c cs).2) (ahead c cs).1 where
  lexeme := lexeme_of_ahead h
  front := List.cons_prefix_cons.2 ⟨rfl, List.take_prefix _ _⟩
  longest w r hw hfront := by
    have hlength := (hw.le_ahead hfront).2
    rwa [List.length_cons, List.length_take_of_le ahead_le]

theorem not_lexeme_of_ahead {cause : LexicalFault} (h : (ahead c cs).1 = .fault cause)
    {w : List Char} {r : Reading} (hw : Lexeme w r) : ¬ w <+: c :: cs :=
  fun hfront => (hw.le_ahead hfront).1 cause h

end Ahead

end Lox
