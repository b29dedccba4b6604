import Lox.Proofs.Token.Tiles
import Lox.Proofs.Tree.Shift

/-!
# Source texts joined by a newline

No lexeme goes past a newline but a string, so a text and another on the next line have the items of
both, those of the other so many lines further down (`scan_lines`). Only a string that the first
text leaves open would swallow the second. Any other blank stops a lexeme as well, but for a comment
(`ahead_append_blank`).
-/

namespace Lox

open Reading

/-! ## What is ahead of a blank -/

section Ahead

variable {b c : Char} (cs rest : List Char)

theorem takeWhile_append_stop {p : Char → Bool} (hp : p b = false) :
    (cs ++ b :: rest).takeWhile p = cs.takeWhile p := by
  induction cs with
  | nil => simp [hp]
  | cons d cs ih => simp only [List.cons_append, List.takeWhile_cons, ih]

theorem dropWhile_append_stop {p : Char → Bool} (hp : p b = false) :
    (cs ++ b :: rest).dropWhile p = cs.dropWhile p ++ b :: rest := by
  induction cs with
  | nil => simp [hp]
  | cons d cs ih =>
    simp only [List.cons_append, List.dropWhile_cons, ih]
    split <;> rfl

/-- A blank goes on with no lexeme but a string or a comment. -/
theorem stops_of_isBlank (hb : isBlank b = true) :
    b.isDigit = false ∧ isWordChar b = false ∧ b ∉ ['.', '=', '/'] := by
  simp only [isBlank, Bool.or_eq_true, decide_eq_true_eq] at hb
  rcases hb with ((rfl | rfl) | rfl) | rfl <;> decide

theorem fraction_eq_nil {d : Char} (h : d ≠ '.') : fraction (d :: cs) = [] := by
  unfold fraction
  split
  · exact absurd (List.cons.inj ‹_›).1 h
  · rfl

theorem fraction_append_blank (hb : isBlank b = true) :
    fraction (cs ++ b :: rest) = fraction cs := by
  obtain ⟨hdigit, -, hpoint⟩ := stops_of_isBlank hb
  rcases cs with _ | ⟨d, cs⟩
  · exact fraction_eq_nil rest (List.ne_of_not_mem_cons hpoint)
  · by_cases hd : d = '.'
    · subst hd
      exact takeWhile_append_stop cs rest hdigit
    · rw [List.cons_append, fraction_eq_nil _ hd, fraction_eq_nil _ hd]

theorem number_append_blank (hb : isBlank b = true) :
    number c (cs ++ b :: rest) = number c cs := by
  have hdigit := (stops_of_isBlank hb).1
  unfold number
  rw [takeWhile_append_stop cs rest hdigit, dropWhile_append_stop cs rest hdigit,
    fraction_append_blank _ rest hb]

theorem symbol?_append_blank (hb : isBlank b = true) :
    symbol? c (cs ++ b :: rest) = symbol? c cs := by
  cases cs with
  | nil =>
    have hnone : Symbol.ofSpelling? [c, b] = none := by
      cases hs : Symbol.ofSpelling? [c, b] with
      | none => rfl
      | some s =>
        have hspelling := Symbol.spelling_of_ofSpelling? hs
        have hequal : b ≠ '=' := by
          rintro rfl
          exact (stops_of_isBlank hb).2.2 (by simp)
        obtain ⟨d, hd | ⟨hd, -⟩⟩ := s.spelling_cases <;> simp [hspelling, hequal] at hd
    unfold symbol?
    simp only [List.nil_append, List.head?_cons, Option.bind_some, hnone, List.head?_nil,
      Option.bind_none]
  | cons d cs => rfl

theorem string_append (h : (string cs).1 ≠ .fault .unterminatedString) :
    string (cs ++ rest) = string cs := by
  have hclosed : (cs.takeWhile (· ≠ '"')).length < cs.length := by
    by_contra hopen
    unfold string at h
    rw [if_neg hopen] at h
    exact h rfl
  have htake : (cs ++ rest).takeWhile (· ≠ '"') = cs.takeWhile (· ≠ '"') := by
    rw [List.takeWhile_append, if_neg (Nat.ne_of_lt hclosed)]
  have hclosed' : (cs.takeWhile (· ≠ '"')).length < (cs ++ rest).length :=
    Nat.lt_of_lt_of_le hclosed (by simp)
  unfold string
  rw [htake, if_pos hclosed', if_pos hclosed]

theorem head?_append_blank (hb : isBlank b = true) :
    (cs ++ b :: rest).head? = some '/' ↔ cs.head? = some '/' := by
  cases cs with
  | nil =>
    have hslash : b ≠ '/' := by
      rintro rfl
      exact (stops_of_isBlank hb).2.2 (by simp)
    simp [hslash]
  | cons d cs => simp

/-- A blank after a text does not change what is ahead in it, unless that is an open string, or a
comment, which only a newline ends. -/
theorem ahead_append_blank (hb : isBlank b = true)
    (h : (ahead c cs).1 ≠ .fault .unterminatedString)
    (hline : b = '\n' ∨ ¬ (c = '/' ∧ cs.head? = some '/')) :
    ahead c (cs ++ b :: rest) = ahead c cs := by
  by_cases hblank : isBlank c = true
  · rw [ahead_blank hblank, ahead_blank hblank]
  by_cases hcomment : c = '/' ∧ cs.head? = some '/'
  · obtain rfl : b = '\n' := hline.resolve_right (not_not_intro hcomment)
    obtain ⟨rfl, hcs⟩ := hcomment
    obtain ⟨tail, rfl⟩ := List.head?_eq_some_iff.1 hcs
    rw [List.cons_append, ahead_comment, ahead_comment, takeWhile_append_stop tail rest rfl]
  have hcomment' : ¬ (c = '/' ∧ (cs ++ b :: rest).head? = some '/') := by
    rwa [head?_append_blank cs rest hb]
  by_cases hquote : c = '"'
  · subst hquote
    rw [ahead_quote] at h
    rw [ahead_quote, ahead_quote, string_append cs _ h]
  by_cases hdigit : c.isDigit = true
  · rw [ahead_digit hdigit, ahead_digit hdigit, number_append_blank cs rest hb]
  by_cases hword : isWordStart c = true
  · rw [ahead_word hword, ahead_word hword,
      takeWhile_append_stop cs rest (stops_of_isBlank hb).2.1]
  simp only [Bool.not_eq_true] at hblank hdigit hword
  rw [ahead_symbol hblank hcomment hquote hdigit hword,
    ahead_symbol hblank hcomment' hquote hdigit hword, symbol?_append_blank cs rest hb]

end Ahead

/-! ## The pieces of joined texts -/

/-- No string is left open. -/
def Closed (ps : List Piece) : Prop :=
  ∀ p ∈ ps, p.reading ≠ .fault .unterminatedString

theorem pieces_append_newline (rest : List Char) : ∀ text : List Char, Closed (pieces text) →
    pieces (text ++ '\n' :: rest) = pieces text ++ ⟨['\n'], .blank⟩ :: pieces rest
  | [], _ => by
    have hblank : isBlank '\n' = true := rfl
    rw [List.nil_append, pieces_cons, ahead_blank hblank, pieces, List.take_zero, List.drop_zero,
      List.nil_append]
  | c :: cs, h => by
    rw [pieces_cons] at h
    obtain ⟨hfirst, hothers⟩ := List.forall_mem_cons.1 h
    rw [List.cons_append, pieces_cons, ahead_append_blank cs rest rfl hfirst (.inl rfl),
      pieces_cons, List.take_append_of_le_length ahead_le, List.drop_append_of_le_length ahead_le,
      pieces_append_newline rest _ hothers]
    rfl
termination_by text => text.length
decreasing_by simp only [List.length_drop, List.length_cons]; omega

/-- The pieces put together are the text. -/
theorem flatMap_pieces : ∀ text : List Char, (pieces text).flatMap (·.text) = text
  | [] => by rw [pieces, List.flatMap_nil]
  | c :: cs => by
    rw [pieces_cons, List.flatMap_cons, flatMap_pieces, List.cons_append, List.take_append_drop]
termination_by text => text.length
decreasing_by simp only [List.length_drop, List.length_cons]; omega

/-! ## The items of joined texts -/

namespace Scanned

/-- The same item so many lines further down. -/
def down (k : Nat) : Scanned → Scanned
  | token t => token (t.down k)
  | error e => error { e with line := e.line + k }

end Scanned

/-- The item of a piece that ends on the given line. -/
def Piece.item? (p : Piece) (line : Nat) : Option Scanned :=
  match p.reading with
  | .blank => none
  | .token kind => some (.token ⟨kind, String.ofList p.text, line⟩)
  | .fault cause => some (.error ⟨cause, line⟩)

theorem Piece.item?_down (p : Piece) (line k : Nat) :
    p.item? (line + k) = (p.item? line).map (Scanned.down k) := by
  unfold item?
  cases p.reading <;> rfl

namespace Scanned

theorem ofPieces_cons (line : Nat) (p : Piece) (ps : List Piece) : ofPieces line (p :: ps) =
    (p.item? (line + p.text.count '\n')).toList ++ ofPieces (line + p.text.count '\n') ps := by
  rw [ofPieces, Piece.item?]
  cases p.reading <;> rfl

theorem ofPieces_ne_nil : ∀ (line : Nat) (ps : List Piece), ofPieces line ps ≠ []
  | _, [] => List.cons_ne_nil _ _
  | line, p :: ps => by
    rw [ofPieces_cons]
    exact List.append_ne_nil_of_right_ne_nil _ (ofPieces_ne_nil _ ps)

/-- The items of some pieces and others after them; the end token comes once. -/
theorem ofPieces_append (qs : List Piece) : ∀ (line : Nat) (ps : List Piece),
    ofPieces line (ps ++ qs) = (ofPieces line ps).dropLast ++
      ofPieces (line + (ps.flatMap (·.text)).count '\n') qs
  | _, [] => rfl
  | line, p :: ps => by
    rw [List.cons_append, ofPieces_cons, ofPieces_append qs _ ps, ofPieces_cons,
      List.dropLast_append_of_ne_nil (ofPieces_ne_nil _ ps), List.append_assoc, List.flatMap_cons,
      List.count_append, ← Nat.add_assoc]

theorem ofPieces_down (k : Nat) : ∀ (line : Nat) (ps : List Piece),
    ofPieces (line + k) ps = (ofPieces line ps).map (down k)
  | _, [] => rfl
  | line, p :: ps => by
    rw [ofPieces_cons, Nat.add_right_comm, p.item?_down, ofPieces_down k _ ps, ofPieces_cons,
      List.map_append, Option.toList_map]

theorem item?_mem_ofPieces {p : Piece} : ∀ (line : Nat) (ps : List Piece), p ∈ ps →
    ∃ line', ∀ item ∈ p.item? line', item ∈ ofPieces line ps
  | line, q :: ps, hp => by
    rw [ofPieces_cons]
    rcases List.mem_cons.1 hp with rfl | hp
    · exact ⟨_, fun item h => List.mem_append_left _ (Option.mem_toList.2 h)⟩
    · obtain ⟨line', h⟩ := item?_mem_ofPieces (line + q.text.count '\n') ps hp
      exact ⟨line', fun item hitem => List.mem_append_right _ (h item hitem)⟩

end Scanned

/-- How many lines further down a text stands that is on the line after another. -/
def linesOf (source : String) : Nat :=
  1 + source.toList.count '\n'

/-- The end token comes last, and only there. -/
theorem scan_ends (source : String) : ∃ items,
    scan source = items ++ [.token ⟨.eof, "", linesOf source⟩] ∧
      ∀ t, Scanned.token t ∈ items → t.kind ≠ .eof := by
  obtain ⟨segments, gap, h⟩ := tiling_ofPieces 1 source.toList
  refine ⟨segments.map Segment.item, h.ends, fun t ht => ?_⟩
  obtain ⟨g, hg, hitem⟩ := List.mem_map.1 ht
  obtain ⟨before, after, hsplit⟩ := List.append_of_mem hg
  have hfits := (h.fits before g after hsplit).2.2
  rw [hitem] at hfits
  exact hfits.1

/-- The tokens that count are all but the end token. -/
theorem beforeEnd_tokens {source : String} {items : List Scanned} {t : Token}
    (h : scan source = items ++ [.token t]) (ht : t.kind = .eof)
    (hitems : ∀ t, Scanned.token t ∈ items → t.kind ≠ .eof) :
    Grammar.beforeEnd (tokens source) = items.filterMap Scanned.token? := by
  have hall : ∀ u ∈ items.filterMap Scanned.token?, (! u.isEof) = true := by
    intro u hu
    obtain ⟨item, hitem, hu⟩ := List.mem_filterMap.1 hu
    cases item with
    | token v =>
      cases hu
      simpa [Token.isEof] using hitems u hitem
    | error e => cases hu
  unfold Grammar.beforeEnd tokens
  rw [h, List.filterMap_append, List.takeWhile_append_of_pos hall]
  simp [Scanned.token?, Token.isEof, ht]

section Joined

variable {a : String} (b : String)
  (ha : ∀ e ∈ lexicalErrors a, e.cause ≠ .unterminatedString)

include ha

omit b in
theorem closed_pieces : Closed (pieces a.toList) := by
  intro p hp hreading
  obtain ⟨line, h⟩ := Scanned.item?_mem_ofPieces 1 _ hp
  have hmem := h (.error ⟨.unterminatedString, line⟩) (by simp [Piece.item?, hreading])
  exact ha _ (List.mem_filterMap.2 ⟨_, hmem, rfl⟩) rfl

/-- A text and another on the next line have the items of both. -/
theorem scan_append : scan (a ++ "\n" ++ b) =
    (scan a).dropLast ++ (scan b).map (Scanned.down (linesOf a)) := by
  have htext : (a ++ "\n" ++ b).toList = a.toList ++ '\n' :: b.toList := by
    simp
  have hlines : 1 + a.toList.count '\n' + ['\n'].count '\n' = 1 + linesOf a := by
    simp [linesOf, Nat.add_comm]
  unfold scan
  rw [htext, pieces_append_newline b.toList a.toList (closed_pieces ha), Scanned.ofPieces_append,
    flatMap_pieces, ← Scanned.ofPieces_down, Scanned.ofPieces_cons, hlines]
  rfl

theorem beforeEnd_append : Grammar.beforeEnd (tokens (a ++ "\n" ++ b)) =
    Grammar.beforeEnd (tokens a) ++
      (Grammar.beforeEnd (tokens b)).map (Token.down (linesOf a)) := by
  obtain ⟨as, has, has'⟩ := scan_ends a
  obtain ⟨bs, hbs, hbs'⟩ := scan_ends b
  have hall := scan_append b ha
  rw [has, hbs, List.dropLast_concat, List.map_append, ← List.append_assoc] at hall
  have hdown : (bs.map (Scanned.down (linesOf a))).filterMap Scanned.token? =
      (bs.filterMap Scanned.token?).map (Token.down (linesOf a)) := by
    rw [List.filterMap_map, List.map_filterMap]
    exact congrArg (List.filterMap · _) (funext fun item => by cases item <;> rfl)
  have hkinds : ∀ t, Scanned.token t ∈ as ++ bs.map (Scanned.down (linesOf a)) →
      t.kind ≠ .eof := by
    intro t ht
    rcases List.mem_append.1 ht with ht | ht
    · exact has' t ht
    · obtain ⟨item, hitem, heq⟩ := List.mem_map.1 ht
      cases item with
      | token u =>
        cases heq
        exact hbs' u hitem
      | error e => cases heq
  rw [beforeEnd_tokens has rfl has', beforeEnd_tokens hbs rfl hbs',
    beforeEnd_tokens hall rfl hkinds, List.filterMap_append, hdown]

theorem lexicalErrors_append : lexicalErrors (a ++ "\n" ++ b) = lexicalErrors a ++
    (lexicalErrors b).map fun e => { e with line := e.line + linesOf a } := by
  obtain ⟨as, has, -⟩ := scan_ends a
  have hdown : ((scan b).map (Scanned.down (linesOf a))).filterMap Scanned.error? =
      ((scan b).filterMap Scanned.error?).map fun e => { e with line := e.line + linesOf a } := by
    rw [List.filterMap_map, List.map_filterMap]
    exact congrArg (List.filterMap · _) (funext fun item => by cases item <;> rfl)
  unfold lexicalErrors
  rw [scan_append b ha, List.filterMap_append, hdown, has, List.dropLast_concat,
    List.filterMap_append]
  simp [Scanned.error?]

end Joined

/-- A text and another on the next line: the items of the first one without its end token, and
behind them those of the second one, further down by the lines of the first. -/
theorem scan_lines (a b : String)
    (ha : ∀ e ∈ lexicalErrors a, e.cause.message ≠ "Unterminated string.") :
    ∃ items last, scan a = items ++ [.token last] ∧ last.kind = .eof ∧
      (∀ t, Scanned.token t ∈ items → t.kind ≠ .eof) ∧
      scan (a ++ "\n" ++ b) =
        items ++ (scan b).map (Scanned.down (1 + a.toList.count '\n')) := by
  have hclosed : ∀ e ∈ lexicalErrors a, e.cause ≠ .unterminatedString := by
    intro e he hcause
    exact ha e he (congrArg LexicalFault.message hcause)
  obtain ⟨items, hends, hitems⟩ := scan_ends a
  refine ⟨items, _, hends, rfl, hitems, ?_⟩
  rw [scan_append b hclosed, hends, List.dropLast_concat]
  rfl

/-- A string over two lines and a number with a point behind it, and on the next line a string that
is left open. -/
theorem scan_lines_point :
    let a := "\"x\ny\" 1."
    let b := "5 \""
    (∀ e ∈ lexicalErrors a, e.cause.message ≠ "Unterminated string.") ∧
      ∃ items last, scan a = items ++ [.token last] ∧ last.kind = .eof ∧
        (∀ t, Scanned.token t ∈ items → t.kind ≠ .eof) ∧
        scan (a ++ "\n" ++ b) =
          items ++ (scan b).map (Scanned.down (1 + a.toList.count '\n')) := by
  intro a b
  have ha : ∀ e ∈ lexicalErrors a, e.cause.message ≠ "Unterminated string." := by decide +kernel
  exact ⟨ha, scan_lines a b ha⟩

end Lox
