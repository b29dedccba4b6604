import Lox.Tree.Printer

/-!
# Bracketed forms are read in one way

What is written in brackets, with the words in it left as they are (`Form`): a word, or a head and
some parts after it. Nothing marks where a part ends but the blank or the bracket behind it, and
words have neither in them. So two forms at the front of one text are the same form, with the same
text behind it (`Form.text_append_inj`).

Every expression is printed as a form (`Expr.text_form`).
-/

namespace Lox

inductive Form where
  | word (text : List Char)
  | node (head : List Char) (parts : List Form)

namespace Form

mutual

def text : Form → List Char
  | word text => text
  | node head parts => '(' :: head ++ textAll parts ++ [')']

/-- Each part after a blank. -/
def textAll : List Form → List Char
  | [] => []
  | f :: fs => ' ' :: f.text ++ textAll fs

end

/-- A word has neither blanks nor brackets in it. -/
def Solid (w : List Char) : Prop :=
  w ≠ [] ∧ ∀ c ∈ w, c ≠ ' ' ∧ c ≠ '(' ∧ c ≠ ')'

mutual

/-- All words of the form are solid. -/
def Clean : Form → Prop
  | word text => Solid text
  | node head parts => Solid head ∧ CleanAll parts

def CleanAll : List Form → Prop
  | [] => True
  | f :: fs => f.Clean ∧ CleanAll fs

end

/-- A text before which a word or a form ends. -/
def Stops (rest : List Char) : Prop :=
  ∀ c ∈ rest.head?, c = ' ' ∨ c = ')'

variable {w w' rest rest' : List Char}

theorem stops_nil : Stops [] :=
  nofun

theorem stops_blank (rest : List Char) : Stops (' ' :: rest) :=
  fun _ hc => .inl (Option.some.inj hc).symm

theorem stops_bracket (rest : List Char) : Stops (')' :: rest) :=
  fun _ hc => .inr (Option.some.inj hc).symm

theorem takeWhile_of_solid (hw : Solid w) (hrest : Stops rest) :
    (w ++ rest).takeWhile (fun c => c ≠ ' ' ∧ c ≠ ')') = w := by
  have hall : ∀ c ∈ w, decide (c ≠ ' ' ∧ c ≠ ')') = true := fun c hc =>
    decide_eq_true ⟨(hw.2 c hc).1, (hw.2 c hc).2.2⟩
  rw [List.takeWhile_append_of_pos hall]
  cases rest with
  | nil => rw [List.takeWhile_nil, List.append_nil]
  | cons c rest =>
    have hstop : decide (c ≠ ' ' ∧ c ≠ ')') = false := by
      rcases hrest c rfl with rfl | rfl <;> rfl
    rw [List.takeWhile_cons_of_neg (by rw [hstop]; nofun), List.append_nil]

theorem solid_append_inj (hw : Solid w) (hw' : Solid w') (hrest : Stops rest)
    (hrest' : Stops rest') (h : w ++ rest = w' ++ rest') : w = w' ∧ rest = rest' := by
  have hword := congrArg (List.takeWhile (fun c => c ≠ ' ' ∧ c ≠ ')')) h
  rw [takeWhile_of_solid hw hrest, takeWhile_of_solid hw' hrest'] at hword
  subst hword
  exact ⟨rfl, List.append_cancel_left h⟩

theorem stops_textAll (fs : List Form) (rest : List Char) : Stops (textAll fs ++ ')' :: rest) := by
  cases fs with
  | nil => exact stops_bracket rest
  | cons f fs => exact stops_blank _

/-- A word does not start as a node does. -/
theorem solid_ne_bracket (hw : Solid w) : w ++ rest ≠ '(' :: rest' := by
  obtain ⟨hne, hchars⟩ := hw
  cases w with
  | nil => exact absurd rfl hne
  | cons c w =>
    intro h
    exact (hchars c List.mem_cons_self).2.1 (List.cons.inj h).1

theorem text_node_append (head : List Char) (parts : List Form) (rest : List Char) :
    (node head parts).text ++ rest = '(' :: (head ++ (textAll parts ++ ')' :: rest)) := by
  simp [text]

theorem textAll_cons_append (f : Form) (fs : List Form) (rest : List Char) :
    textAll (f :: fs) ++ rest = ' ' :: (f.text ++ (textAll fs ++ rest)) := by
  simp [textAll]

mutual

/-- A form at the front of a text is the only one there. -/
theorem text_append_inj : ∀ (f g : Form) {rest rest' : List Char}, f.Clean → g.Clean →
    Stops rest → Stops rest' → f.text ++ rest = g.text ++ rest' → f = g ∧ rest = rest'
  | word w, word w', rest, rest', hf, hg, hrest, hrest', h => by
    obtain ⟨rfl, hr⟩ := solid_append_inj hf hg hrest hrest' h
    exact ⟨rfl, hr⟩
  | word w, node head parts, rest, rest', hf, hg, hrest, hrest', h => by
    rw [text_node_append] at h
    exact absurd h (solid_ne_bracket hf)
  | node head parts, word w, rest, rest', hf, hg, hrest, hrest', h => by
    rw [text_node_append] at h
    exact absurd h.symm (solid_ne_bracket hg)
  | node head parts, node head' parts', rest, rest', hf, hg, hrest, hrest', h => by
    rw [text_node_append, text_node_append] at h
    obtain ⟨rfl, hparts⟩ := solid_append_inj hf.1 hg.1 (stops_textAll parts rest)
      (stops_textAll parts' rest') (List.cons.inj h).2
    obtain ⟨rfl, hr⟩ := textAll_append_inj parts parts' hf.2 hg.2 hparts
    exact ⟨rfl, hr⟩

theorem textAll_append_inj : ∀ (fs gs : List Form) {rest rest' : List Char}, CleanAll fs →
    CleanAll gs → textAll fs ++ ')' :: rest = textAll gs ++ ')' :: rest' → fs = gs ∧ rest = rest'
  | [], [], _, _, _, _, h => ⟨rfl, (List.cons.inj h).2⟩
  | [], g :: gs, _, _, _, _, h => by cases (List.cons.inj h).1
  | f :: fs, [], _, _, _, _, h => by cases (List.cons.inj h).1
  | f :: fs, g :: gs, rest, rest', hfs, hgs, h => by
    rw [textAll_cons_append, textAll_cons_append] at h
    obtain ⟨rfl, hparts⟩ := text_append_inj f g hfs.1 hgs.1 (stops_textAll fs rest)
      (stops_textAll gs rest') (List.cons.inj h).2
    obtain ⟨rfl, hr⟩ := textAll_append_inj fs gs hfs.2 hgs.2 hparts
    exact ⟨rfl, hr⟩

end

theorem text_injective {f g : Form} (hf : f.Clean) (hg : g.Clean) (h : f.text = g.text) :
    f = g := by
  refine (text_append_inj f g hf hg stops_nil stops_nil ?_).1
  rw [h]

end Form

mutual

/-- What is printed of an expression, with its words apart. -/
def Expr.form : Expr → Form
  | .literal value => .word value.text.toList
  | .grouping inner => .node "group".toList [inner.form]
  | .unary operator operand => .node operator.lexeme.toList [operand.form]
  | .binary left operator right => .node operator.lexeme.toList [left.form, right.form]
  | .logical left operator right => .node operator.lexeme.toList [left.form, right.form]
  | .read _ name => .word name.lexeme.toList
  | .assign _ name value => .node "=".toList [.word name.lexeme.toList, value.form]
  | .call callee _ arguments => .node "call".toList (callee.form :: formAll arguments)

def Expr.formAll : List Expr → List Form
  | [] => []
  | e :: es => e.form :: formAll es

end

mutual

theorem Expr.text_form : ∀ e : Expr, e.form.text = e.bracketed.toList
  | .literal _ | .read _ _ => rfl
  | .grouping e | .unary _ e | .assign _ _ e => by
    simp [Expr.form, Form.text, Form.textAll, Expr.bracketed, e.text_form]
  | .binary left _ right | .logical left _ right => by
    simp [Expr.form, Form.text, Form.textAll, Expr.bracketed, left.text_form, right.text_form]
  | .call callee _ arguments => by
    simp [Expr.form, Form.text, Form.textAll, Expr.bracketed, callee.text_form,
      Expr.textAll_formAll arguments]

theorem Expr.textAll_formAll : ∀ es : List Expr,
    Form.textAll (Expr.formAll es) = (Expr.bracketedAll es).toList
  | [] => rfl
  | e :: es => by
    simp [Expr.formAll, Form.textAll, Expr.bracketedAll, e.text_form, Expr.textAll_formAll es]

end

end Lox
