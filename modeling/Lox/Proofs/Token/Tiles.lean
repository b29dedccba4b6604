import Lox.Proofs.Token.Longest

/-!
# What each call of a scanner consumes

A `Cursor` is a scanner at work: a call of `Cursor.next?` passes over blanks and comments and gives
the next item, and the end token once. The calls give the items of `scan`, and then nothing. Every
call consumes a segment of the text: what it passes over, and the slice that its item stands for.
The segments are the text from end to end, and lines count the newlines consumed (`scan_tiles`).
-/

namespace Lox

open Reading

/-- The text that a scanner has still to read, the line it has come to, and whether it has given the
end token. -/
structure Cursor where
  rest : List Char
  line : Nat
  ended : Bool

namespace Cursor

def start (source : String) : Cursor :=
  ⟨source.toList, 1, false⟩

/-- The next item of a text that starts on the given line, and where the scanner is after it. -/
def advance (line : Nat) : List Char → Scanned × Cursor
  | [] => (.token ⟨.eof, "", line⟩, ⟨[], line, true⟩)
  | c :: cs =>
    let (reading, n) := Reading.ahead c cs
    let slice := c :: cs.take n
    let line := line + slice.count '\n'
    match reading with
    | .blank => advance line (cs.drop n)
    | .token kind => (.token ⟨kind, String.ofList slice, line⟩, ⟨cs.drop n, line, false⟩)
    | .fault cause => (.error ⟨cause, line⟩, ⟨cs.drop n, line, false⟩)
termination_by text => text.length
decreasing_by simp only [List.length_drop, List.length_cons]; omega

/-- One call: an item, unless the end was reached before. -/
def next? (c : Cursor) : Option (Scanned × Cursor) :=
  if c.ended then none else some (advance c.line c.rest)

/-- What so many calls give. -/
def calls : Nat → Cursor → List (Option Scanned)
  | 0, _ => []
  | k + 1, c =>
    match c.next? with
    | none => none :: calls k c
    | some (item, c) => some item :: calls k c

/-- The scanner after so many calls. -/
def after : Nat → Cursor → Cursor
  | 0, c => c
  | k + 1, c =>
    match c.next? with
    | none => c
    | some (_, c) => after k c

end Cursor

/-- Blanks and comments, one after the other. -/
inductive Gap : List Char → Prop where
  | nil : Gap []
  | cons {w text : List Char} (hw : Lexeme w .blank) (h : Gap text) : Gap (w ++ text)

/-- What one call consumes: what is passed over, and the slice that the item stands for. -/
structure Segment where
  gap : List Char
  slice : List Char
  item : Scanned

namespace Segment

def text (g : Segment) : List Char :=
  g.gap ++ g.slice

/-- The item goes with its slice, which ends on the given line and has `rest` after it. -/
def Fits (g : Segment) (line : Nat) (rest : List Char) : Prop :=
  Gap g.gap ∧ g.slice ≠ [] ∧
    match g.item with
    | .token t => t.kind ≠ .eof ∧ t.lexeme = String.ofList g.slice ∧ t.line = line
    | .error e => e.line = line ∧
        (e.cause = .unterminatedString ∧ g.slice.head? = some '"' ∧ rest = [] ∨
          ∃ c, e.cause = .unexpectedCharacter c ∧ g.slice = [c])

end Segment

/-- The segments that a text is consumed in, and what is passed over at its end. -/
structure Tiling (line : Nat) (text : List Char) (items : List Scanned) (segments : List Segment)
    (gap : List Char) : Prop where
  /-- Nothing is left out and nothing is consumed twice. -/
  tiles : text = segments.flatMap Segment.text ++ gap
  passed : Gap gap
  ends : items = segments.map (·.item) ++ [.token ⟨.eof, "", line + text.count '\n'⟩]
  /-- An item ends on the line that the newlines so far make. -/
  fits : ∀ before g after, segments = before ++ g :: after →
    g.Fits (line + (before.flatMap Segment.text ++ g.text).count '\n')
      (after.flatMap Segment.text ++ gap)
  /-- Each call consumes one segment. -/
  consumed : ∀ before after, segments = before ++ after →
    ((⟨text, line, false⟩ : Cursor).after before.length).rest = after.flatMap Segment.text ++ gap

/-! ## One call -/

section Call

variable {line : Nat} {c : Char} {cs text : List Char}

theorem Lexeme.kind_ne_eof {w : List Char} {kind : Token.Kind} (h : Lexeme w (.token kind)) :
    kind ≠ .eof := by
  cases h <;> nofun

theorem Cursor.advance_cons (line : Nat) (c : Char) (cs : List Char) :
    advance line (c :: cs) =
      let slice := c :: cs.take (ahead c cs).2
      let rest := cs.drop (ahead c cs).2
      let line := line + slice.count '\n'
      match (ahead c cs).1 with
      | .blank => advance line rest
      | .token kind => (.token ⟨kind, String.ofList slice, line⟩, ⟨rest, line, false⟩)
      | .fault cause => (.error ⟨cause, line⟩, ⟨rest, line, false⟩) := by
  rw [advance]

/-- The segment of a slice with nothing before it. -/
theorem fits_fault {cause : LexicalFault} (h : (ahead c cs).1 = .fault cause) (line : Nat) :
    (Segment.mk [] (c :: cs.take (ahead c cs).2) (.error ⟨cause, line⟩)).Fits line
      (cs.drop (ahead c cs).2) := by
  refine ⟨.nil, List.cons_ne_nil _ _, rfl, ?_⟩
  rcases fault_of_ahead h with ⟨rfl, rfl, hn⟩ | ⟨rfl, -, hn⟩
  · exact .inl ⟨rfl, rfl, by rw [hn, List.drop_length]⟩
  · exact .inr ⟨c, rfl, by rw [hn, List.take_zero]⟩

/-- What is passed over before a segment is part of it. -/
theorem Segment.Fits.skip {g : Segment} {rest w : List Char} (hw : Lexeme w .blank)
    (h : g.Fits line rest) : { g with gap := w ++ g.gap }.Fits line rest :=
  ⟨.cons hw h.1, h.2⟩

/-- One call consumes one segment, or what is left of the text is passed over. -/
theorem advance_cases (line : Nat) : ∀ text : List Char,
    (Gap text ∧
      Scanned.ofPieces line (pieces text) = [.token ⟨.eof, "", line + text.count '\n'⟩] ∧
      Cursor.advance line text = (.token ⟨.eof, "", line + text.count '\n'⟩,
        ⟨[], line + text.count '\n', true⟩)) ∨
    ∃ (g : Segment) (rest : List Char), text = g.text ++ rest ∧
      g.Fits (line + g.text.count '\n') rest ∧
      Scanned.ofPieces line (pieces text) =
        g.item :: Scanned.ofPieces (line + g.text.count '\n') (pieces rest) ∧
      Cursor.advance line text = (g.item, ⟨rest, line + g.text.count '\n', false⟩)
  | [] => by
    rw [pieces, Cursor.advance]
    exact .inl ⟨.nil, rfl, rfl⟩
  | c :: cs => by
    have hsplit : c :: cs = (c :: cs.take (ahead c cs).2) ++ cs.drop (ahead c cs).2 := by
      rw [List.cons_append, List.take_append_drop]
    rw [pieces_cons, Cursor.advance_cons, Scanned.ofPieces]
    dsimp only
    cases hr : (ahead c cs).1 with
    | blank =>
      have hw : Lexeme (c :: cs.take (ahead c cs).2) .blank := by
        rw [← hr]
        exact lexeme_of_ahead (by simp [hr])
      have hrest := advance_cases (line + (c :: cs.take (ahead c cs).2).count '\n')
        (cs.drop (ahead c cs).2)
      generalize c :: cs.take (ahead c cs).2 = w at hsplit hw hrest ⊢
      generalize cs.drop (ahead c cs).2 = tail at hsplit hrest ⊢
      dsimp only
      rcases hrest with ⟨hgap, hitems, hnext⟩ | ⟨g, rest, rfl, hfits, hitems, hnext⟩
      · rw [hsplit, List.count_append, ← Nat.add_assoc]
        exact .inl ⟨.cons hw hgap, hitems, hnext⟩
      · refine .inr ⟨{ g with gap := w ++ g.gap }, rest, ?_, ?_, ?_, ?_⟩
        · rw [hsplit]
          simp only [Segment.text, List.append_assoc]
        all_goals
          have hcount : ({ g with gap := w ++ g.gap } : Segment).text.count '\n' =
              w.count '\n' + g.text.count '\n' := by
            simp only [Segment.text, List.append_assoc, List.count_append]
          rw [hcount, ← Nat.add_assoc]
        · exact hfits.skip hw
        · exact hitems
        · exact hnext
    | token kind =>
      have hw : Lexeme (c :: cs.take (ahead c cs).2) (.token kind) := by
        rw [← hr]
        exact lexeme_of_ahead (by simp [hr])
      refine .inr ⟨⟨[], c :: cs.take (ahead c cs).2, .token _⟩, cs.drop (ahead c cs).2, hsplit,
        ⟨.nil, List.cons_ne_nil _ _, hw.kind_ne_eof, rfl, rfl⟩, rfl, rfl⟩
    | fault cause =>
      exact .inr ⟨⟨[], c :: cs.take (ahead c cs).2, .error _⟩, cs.drop (ahead c cs).2, hsplit,
        fits_fault hr _, rfl, rfl⟩
termination_by text => text.length
decreasing_by simp only [List.length_drop, List.length_cons]; omega

end Call

/-! ## All calls -/

section Calls

variable {line : Nat} {text gap : List Char} {items : List Scanned} {segments : List Segment}

theorem Tiling.single (h : Gap gap) :
    Tiling line gap [.token ⟨.eof, "", line + gap.count '\n'⟩] [] gap where
  tiles := rfl
  passed := h
  ends := rfl
  fits before g after h := by simp at h
  consumed before after h := by
    obtain ⟨rfl, rfl⟩ := List.append_eq_nil_iff.1 h.symm
    rfl

theorem Tiling.cons {g : Segment} {rest : List Char}
    (hfits : g.Fits (line + g.text.count '\n') rest)
    (hnext : Cursor.advance line (g.text ++ rest) =
      (g.item, ⟨rest, line + g.text.count '\n', false⟩))
    (h : Tiling (line + g.text.count '\n') rest items segments gap) :
    Tiling line (g.text ++ rest) (g.item :: items) (g :: segments) gap where
  tiles := by rw [List.flatMap_cons, List.append_assoc, ← h.tiles]
  passed := h.passed
  ends := by rw [h.ends, List.count_append, Nat.add_assoc]; rfl
  fits before g' after hsplit := by
    rcases List.cons_eq_append_iff.1 hsplit with ⟨rfl, heq⟩ | ⟨before', rfl, heq⟩
    · cases heq
      rw [← h.tiles]
      exact hfits
    · have hrest := h.fits before' g' after heq
      rwa [List.flatMap_cons, List.append_assoc, List.count_append, ← Nat.add_assoc]
  consumed before after hsplit := by
    rcases List.cons_eq_append_iff.1 hsplit with ⟨rfl, rfl⟩ | ⟨before', rfl, heq⟩
    · rw [List.flatMap_cons, List.append_assoc, ← h.tiles]
      rfl
    · rw [← h.consumed before' after heq, List.length_cons, Cursor.after, Cursor.next?]
      simp only [Bool.false_eq_true, if_false, hnext]

/-- The items of a text tile it. -/
theorem tiling_ofPieces (line : Nat) (text : List Char) :
    ∃ segments gap, Tiling line text (Scanned.ofPieces line (pieces text)) segments gap := by
  rcases advance_cases line text with ⟨hgap, hitems, -⟩ | ⟨g, rest, htext, hfits, hitems, hnext⟩
  · rw [hitems]
    exact ⟨[], text, .single hgap⟩
  · have hshorter : rest.length < text.length := by
      have := List.length_pos_iff.2 hfits.2.1
      simp only [htext, Segment.text, List.length_append]
      omega
    obtain ⟨segments, gap, h⟩ := tiling_ofPieces (line + g.text.count '\n') rest
    rw [hitems, htext]
    rw [htext] at hnext
    exact ⟨g :: segments, gap, .cons hfits hnext h⟩
termination_by text.length

theorem calls_of_ended : ∀ (k : Nat) {c : Cursor}, c.ended = true →
    c.calls k = List.replicate k none
  | 0, _, _ => rfl
  | k + 1, c, h => by
    rw [Cursor.calls, Cursor.next?, if_pos h, List.replicate_succ, ← calls_of_ended k h]

/-- The calls give the items one by one, and nothing after them. -/
theorem calls_eq : ∀ (k line : Nat) (text : List Char), Cursor.calls k ⟨text, line, false⟩ =
    ((Scanned.ofPieces line (pieces text)).map some ++ List.replicate k none).take k
  | 0, _, _ => by rw [List.take_zero, Cursor.calls]
  | k + 1, line, text => by
    -- One call leaves the last of the empty answers out of reach of the others.
    have hlast (l : List (Option Scanned)) :
        (l ++ List.replicate (k + 1) none).take k = (l ++ List.replicate k none).take k := by
      rw [List.take_append, List.take_append, List.take_replicate, List.take_replicate,
        Nat.min_eq_left (by omega), Nat.min_eq_left (by omega)]
    rw [Cursor.calls, Cursor.next?]
    simp only [Bool.false_eq_true, if_false]
    rcases advance_cases line text with ⟨-, hitems, hnext⟩ | ⟨g, rest, rfl, -, hitems, hnext⟩
    · rw [hnext, hitems, List.map_cons, List.cons_append, List.take_succ_cons, hlast,
        calls_of_ended k rfl]
      simp
    · rw [hnext, hitems, List.map_cons, List.cons_append, List.take_succ_cons, hlast, calls_eq k]

end Calls

/-- The calls of a scanner tile its text, with the lines of a text of so many newlines, and give the
items of `scan` and nothing after them. -/
theorem scan_tiles (source : String) :
    (∃ segments gap, Tiling 1 source.toList (scan source) segments gap) ∧
      ∀ k, (Cursor.start source).calls k =
        ((scan source).map some ++ List.replicate k none).take k :=
  ⟨tiling_ofPieces 1 source.toList, fun k => calls_eq k 1 source.toList⟩

end Lox
