import Lox.Proofs.Token.Lines
import Lox.Proofs.Tree.Unlined

/-!
# Source texts laid out anew

The lexemes of a text may be written again with other blanks and comments between them, as long as
a blank stands behind each (`Relaid`). A blank stops every token (`pieces_token`), and what stands
between two tokens is cut into blanks and comments only (`Filler.pieces_append`), so the text has
the same tokens as before, on other lines (`Relaid.scan`).
-/

namespace Lox

open Reading

/-- Blanks and comments, each comment with the newline that ends it. -/
inductive Filler : List Char → Prop where
  | nil : Filler []
  | blank {c : Char} {text : List Char} (hc : c ∈ [' ', '\t', '\r', '\n']) (h : Filler text) :
      Filler (c :: text)
  | comment {body text : List Char} (hbody : '\n' ∉ body) (h : Filler text) :
      Filler ('/' :: '/' :: body ++ '\n' :: text)

/-- What may stand between two lexemes: a blank, and any filler after it. -/
inductive Separator : List Char → Prop where
  | mk {c : Char} {text : List Char} (hc : c ∈ [' ', '\t', '\r', '\n']) (h : Filler text) :
      Separator (c :: text)

/-- Words in order, with a separator between every two, and maybe one behind the last. -/
inductive Relaid : List (List Char) → List Char → Prop where
  | nil : Relaid [] []
  | last (w : List Char) : Relaid [w] w
  | more {ws : List (List Char)} {sep text : List Char} (w : List Char) (hsep : Separator sep)
      (h : Relaid ws text) : Relaid (w :: ws) (w ++ sep ++ text)

/-! ## Pieces -/

section Pieces

variable {c : Char} {w text rest : List Char} {kind : Token.Kind} {r : Reading}

/-- A lexeme that is all the text is one piece. -/
theorem pieces_lexeme (h : Lexeme w r) : pieces w = [⟨w, r⟩] := by
  obtain ⟨c, cs, rfl⟩ := List.exists_cons_of_ne_nil h.ne_nil
  obtain ⟨-, hle, hread⟩ := h.takesIn []
  rw [List.append_nil] at hle hread
  have hlength : (ahead c cs).2 = cs.length := Nat.le_antisymm ahead_le hle
  rw [pieces_cons, hread hlength, hlength, List.take_length, List.drop_length, pieces]

/-- A token goes no further than to a blank. -/
theorem pieces_token (h : Lexeme w (.token kind)) (hc : isBlank c = true) :
    pieces (w ++ c :: rest) = ⟨w, .token kind⟩ :: pieces (c :: rest) := by
  obtain ⟨d, cs, rfl⟩ := List.exists_cons_of_ne_nil h.ne_nil
  obtain ⟨-, hle, hread⟩ := h.takesIn []
  rw [List.append_nil] at hle hread
  have hlength : (ahead d cs).2 = cs.length := Nat.le_antisymm ahead_le hle
  have hkind := hread hlength
  have hahead : ahead d (cs ++ c :: rest) = ahead d cs := by
    refine ahead_append_blank cs rest hc (by rw [hkind]; nofun) (.inr ?_)
    rintro ⟨rfl, hcs⟩
    obtain ⟨tail, rfl⟩ := List.head?_eq_some_iff.1 hcs
    rw [ahead_comment] at hkind
    cases hkind
  rw [List.cons_append, pieces_cons, hahead, hkind, hlength, List.take_left, List.drop_left]

/-- Filler is cut into blanks and comments, whatever follows it. -/
theorem Filler.pieces_append (h : Filler text) : ∃ ps : List Piece,
    (∀ p ∈ ps, p.reading = .blank) ∧ ∀ rest, pieces (text ++ rest) = ps ++ pieces rest := by
  induction h with
  | nil => exact ⟨[], nofun, fun _ => rfl⟩
  | @blank c text hc _ ih =>
    obtain ⟨ps, hps, hpieces⟩ := ih
    refine ⟨⟨[c], .blank⟩ :: ps, List.forall_mem_cons.2 ⟨rfl, hps⟩, fun rest => ?_⟩
    rw [List.cons_append, pieces_cons, ahead_blank (mem_blanks.1 hc), List.take_zero,
      List.drop_zero, hpieces, List.cons_append]
  | @comment body text hbody _ ih =>
    obtain ⟨ps, hps, hpieces⟩ := ih
    have hclosed : Closed (pieces ('/' :: '/' :: body)) := by
      rw [pieces_lexeme (.comment hbody)]
      simp [Closed]
    refine ⟨⟨'/' :: '/' :: body, .blank⟩ :: ⟨['\n'], .blank⟩ :: ps,
      List.forall_mem_cons.2 ⟨rfl, List.forall_mem_cons.2 ⟨rfl, hps⟩⟩, fun rest => ?_⟩
    have htext : '/' :: '/' :: body ++ '\n' :: text ++ rest =
        ('/' :: '/' :: body) ++ '\n' :: (text ++ rest) := List.append_assoc _ _ _
    rw [htext, pieces_append_newline _ _ hclosed, pieces_lexeme (.comment hbody), hpieces]
    rfl

end Pieces

/-! ## Tokens without lines -/

/-- The same item on no line. -/
def Scanned.unlined : Scanned → Scanned
  | token t => token t.unlined
  | error e => error { e with line := 0 }

theorem Piece.item?_unlined (p : Piece) (line : Nat) :
    (p.item? line).map Scanned.unlined = p.item? 0 := by
  unfold item?
  cases p.reading <;> rfl

/-- Without lines, the items of some pieces do not depend on what stands between them. -/
theorem Scanned.ofPieces_unlined : ∀ (line : Nat) (ps : List Piece),
    (ofPieces line ps).map unlined = ps.filterMap (·.item? 0) ++ [.token ⟨.eof, "", 0⟩]
  | _, [] => rfl
  | line, p :: ps => by
    rw [ofPieces_cons, List.map_append, ofPieces_unlined _ ps, ← Option.toList_map,
      p.item?_unlined, List.filterMap_cons]
    cases p.item? 0 <;> rfl

theorem Piece.item?_blank {p : Piece} (h : p.reading = .blank) (line : Nat) :
    p.item? line = none := by
  rw [item?, h]

theorem Scanned.token?_unlined (item : Scanned) :
    item.unlined.token? = item.token?.map (·.unlined) := by
  cases item <;> rfl

theorem Scanned.error?_unlined (item : Scanned) :
    item.unlined.error? = item.error?.map ({ · with line := 0 }) := by
  cases item <;> rfl

section Unlined

variable {source text : String}

theorem scan_unlined (source : String) : (scan source).map Scanned.unlined =
    (pieces source.toList).filterMap (·.item? 0) ++ [.token ⟨.eof, "", 0⟩] :=
  Scanned.ofPieces_unlined 1 _

theorem tokens_unlined (h : (scan text).map Scanned.unlined = (scan source).map Scanned.unlined) :
    (tokens text).map (·.unlined) = (tokens source).map (·.unlined) := by
  have hmap (s : String) : (tokens s).map (·.unlined) =
      ((scan s).map Scanned.unlined).filterMap Scanned.token? := by
    rw [tokens, List.map_filterMap, List.filterMap_map]
    exact congrArg (List.filterMap · _) (funext fun item => item.token?_unlined.symm)
  rw [hmap, hmap, h]

theorem lexicalErrors_unlined
    (h : (scan text).map Scanned.unlined = (scan source).map Scanned.unlined)
    (hsource : lexicalErrors source = []) : lexicalErrors text = [] := by
  have hmap (s : String) : (lexicalErrors s).map ({ · with line := 0 }) =
      ((scan s).map Scanned.unlined).filterMap Scanned.error? := by
    rw [lexicalErrors, List.map_filterMap, List.filterMap_map]
    exact congrArg (List.filterMap · _) (funext fun item => item.error?_unlined.symm)
  have hboth := hmap text
  rw [h, ← hmap, hsource] at hboth
  exact List.map_eq_nil_iff.1 hboth

end Unlined

/-! ## The words of a text -/

/-- The pieces of a text that are no blanks and no comments. -/
def words (text : List Char) : List Piece :=
  (pieces text).filter (·.reading ≠ .blank)

theorem filterMap_item?_words (text : List Char) :
    (words text).filterMap (·.item? 0) = (pieces text).filterMap (·.item? 0) := by
  rw [words, List.filterMap_filter]
  refine List.filterMap_congr fun p _ => ?_
  by_cases h : p.reading = .blank
  · simp [h, p.item?_blank h]
  · simp [h]

/-- A piece without a fault is a lexeme. -/
theorem lexeme_of_mem_pieces {p : Piece} : ∀ text : List Char, p ∈ pieces text →
    (∀ cause, p.reading ≠ .fault cause) → Lexeme p.text p.reading
  | [], hp, _ => by
    rw [pieces] at hp
    cases hp
  | c :: cs, hp, hfault => by
    rw [pieces_cons] at hp
    rcases List.mem_cons.1 hp with rfl | hp
    · exact lexeme_of_ahead hfault
    · exact lexeme_of_mem_pieces _ hp hfault
termination_by text => text.length
decreasing_by simp only [List.length_drop, List.length_cons]; omega

/-- The words of a text without a fault are tokens. -/
theorem token_of_mem_words {source : String} {p : Piece} (h : lexicalErrors source = [])
    (hp : p ∈ words source.toList) : ∃ kind, p.reading = .token kind ∧ Lexeme p.text p.reading := by
  obtain ⟨hp, hblank⟩ := List.mem_filter.1 hp
  have hfault : ∀ cause, p.reading ≠ .fault cause := by
    intro cause hcause
    obtain ⟨line, hmem⟩ := Scanned.item?_mem_ofPieces 1 _ hp
    have herror := hmem (.error ⟨cause, line⟩) (by simp [Piece.item?, hcause])
    have hmem : ⟨cause, line⟩ ∈ lexicalErrors source := List.mem_filterMap.2 ⟨_, herror, rfl⟩
    rw [h] at hmem
    cases hmem
  cases hr : p.reading with
  | blank => simp [hr] at hblank
  | token kind => exact ⟨kind, rfl, hr ▸ lexeme_of_mem_pieces _ hp hfault⟩
  | fault cause => exact absurd hr (hfault cause)

/-- The lexemes of the tokens of a text are its words. -/
theorem lexemes_eq_words {source : String} (h : lexicalErrors source = []) :
    (Grammar.beforeEnd (tokens source)).map (·.lexeme.toList) =
      (words source.toList).map (·.text) := by
  obtain ⟨items, hends, hitems⟩ := scan_ends source
  have hscan := scan_unlined source
  rw [hends, List.map_append, ← filterMap_item?_words] at hscan
  have hunlined : items.map Scanned.unlined = (words source.toList).filterMap (·.item? 0) :=
    (List.append_inj' hscan rfl).1
  have hlexemes : items.filterMap (fun item => item.token?.map (·.lexeme.toList)) =
      (items.map Scanned.unlined).filterMap fun item => item.token?.map (·.lexeme.toList) := by
    rw [List.filterMap_map]
    exact congrArg (List.filterMap · _) (funext fun item => by cases item <;> rfl)
  rw [beforeEnd_tokens hends rfl hitems, List.map_filterMap, hlexemes, hunlined,
    List.filterMap_filterMap]
  refine List.filterMap_eq_map_iff_forall_eq_some.2 fun p hp => ?_
  obtain ⟨kind, hkind, -⟩ := token_of_mem_words h hp
  simp [Piece.item?, hkind, Scanned.token?]

/-- Words that are laid out anew are read as they were. -/
theorem Relaid.words {ws : List (List Char)} {text : List Char} (h : Relaid ws text) :
    ∀ ps : List Piece, ps.map (·.text) = ws →
      (∀ p ∈ ps, ∃ kind, p.reading = .token kind ∧ Lexeme p.text p.reading) →
      (pieces text).filterMap (·.item? 0) = ps.filterMap (·.item? 0) := by
  induction h with
  | nil =>
    intro ps hps _
    rw [List.map_eq_nil_iff.1 hps, pieces]
  | last w =>
    intro ps hps htokens
    obtain ⟨p, rfl, rfl⟩ := List.map_eq_singleton_iff.1 hps
    obtain ⟨-, -, hlexeme⟩ := htokens p (List.mem_singleton_self p)
    rw [pieces_lexeme hlexeme]
  | @more ws sep text w hsep _ ih =>
    intro ps hps htokens
    obtain ⟨p, ps, rfl, rfl, hrest⟩ := List.map_eq_cons_iff.1 hps
    obtain ⟨hp, htokens⟩ := List.forall_mem_cons.1 htokens
    obtain ⟨kind, hkind, hlexeme⟩ := hp
    rw [hkind] at hlexeme
    obtain ⟨hc, hfiller⟩ := hsep
    rename_i c filler
    obtain ⟨blanks, hblanks, hpieces⟩ := hfiller.pieces_append
    have hnone : blanks.filterMap (·.item? 0) = [] :=
      List.filterMap_eq_nil_iff.2 fun q hq => q.item?_blank (hblanks q hq) 0
    have hp : p = ⟨p.text, .token kind⟩ := by rw [← hkind]
    have hall : pieces (p.text ++ c :: filler ++ text) =
        p :: ⟨[c], .blank⟩ :: (blanks ++ pieces text) := by
      rw [List.append_assoc, List.cons_append, pieces_token hlexeme (mem_blanks.1 hc),
        pieces_cons, ahead_blank (mem_blanks.1 hc), List.take_zero, List.drop_zero, hpieces, ← hp]
    have hmiddle : (⟨[c], .blank⟩ :: (blanks ++ pieces text)).filterMap (·.item? 0) =
        ps.filterMap (·.item? 0) := by
      rw [List.filterMap_cons_none rfl, List.filterMap_append, hnone, List.nil_append,
        ih ps hrest htokens]
    rw [hall, List.filterMap_cons, hmiddle, List.filterMap_cons]

/-- A text without a fault whose lexemes are laid out anew has the items of the text before, on
other lines. -/
theorem Relaid.scan {source text : String} (hsource : lexicalErrors source = [])
    (h : Relaid ((Grammar.beforeEnd (tokens source)).map (·.lexeme.toList)) text.toList) :
    (Lox.scan text).map Scanned.unlined = (Lox.scan source).map Scanned.unlined := by
  rw [lexemes_eq_words hsource] at h
  rw [scan_unlined, scan_unlined, h.words _ rfl fun p hp => token_of_mem_words hsource hp,
    filterMap_item?_words]

end Lox
