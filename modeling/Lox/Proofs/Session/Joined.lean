import Lox.Proofs.Eval.Declared
import Lox.Proofs.Grammar.Joined
import Lox.Proofs.Grammar.Tokens
import Lox.Proofs.Session.Marked
import Lox.Proofs.Session.Reached
import Lox.Proofs.Token.Lines

/-!
# Sources one behind the other

A source that runs without an error, and another one behind it, may as well be one source
(`Session.run_joined`). Its tokens, its tree and its references are those of both, the global names
that the first one declares being those that it has bound when the second one is looked at; and the
second one runs in the state that the first one leaves, with its own tokens further down. Which
tokens are its own is told by the marked run.
-/

namespace Lox

/-- How a program ends with marks, by itself, and behind a source of `k` lines: there an error at a
token of the program is `k` lines further down, and an error at a token of a function from before
where it was. -/
inductive Session.Ends (program : List Stmt) (before : Scopes) (k : Nat) :
    Option Diagnostic → Option Diagnostic → Option Diagnostic → Prop where
  | success : Ends program before k none none none
  | own (message : String) {t : Token} (h : t ∈ Stmt.tokensOfAll program) :
    Ends program before k (some (.runtime message (t.reline (Line.mark true))))
      (some (.runtime message t)) (some (.runtime message (t.down k)))
  | kept (message : String) {t : Token} (h : before.Stores t) :
    Ends program before k (some (.runtime message (t.reline (Line.mark false))))
      (some (.runtime message t)) (some (.runtime message t))
  | sink (message : String) :
    Ends program before k (some (.sink message)) (some (.sink message)) (some (.sink message))

theorem Token.unmark_own (k : Nat) (t : Token) :
    (t.reline (Line.mark true)).reline (Line.unmark k) = t.down k :=
  congrArg (Token.reline · t) (Line.unmark_own k)

theorem Token.unmark_kept (k : Nat) (t : Token) :
    (t.reline (Line.mark false)).reline (Line.unmark k) = t :=
  congrArg (Token.reline · t) (Line.unmark_kept k)

theorem Report.FailsAt.ends {program : List Stmt} {before : Scopes} {r : Report}
    (h : r.FailsAt (Token.Marked program before)) (k : Nat) :
    Session.Ends program before k r.runtime (r.reline (Line.unmark 0)).runtime
      (r.reline (Line.unmark k)).runtime := by
  cases h with
  | success => exact .success
  | fault cause ht =>
    simp only [Report.reline, Option.map_some, Diagnostic.reline]
    cases ht with
    | own ht =>
      rw [Token.unmark_own, Token.unmark_own]
      exact .own cause.message ht
    | kept ht =>
      rw [Token.unmark_kept, Token.unmark_kept]
      exact .kept cause.message ht
  | sink cause => exact .sink cause.message

theorem Report.eq_clean {r : Report} (h : r.diagnostics = []) : r = {} := by
  obtain ⟨lexical, grammar, binding, runtime⟩ := r
  simp only [Report.diagnostics, List.append_eq_nil_iff, Option.toList_eq_nil_iff] at h
  obtain ⟨⟨⟨rfl, rfl⟩, rfl⟩, rfl⟩ := h
  rfl

section Program

variable {n : Nat} {p : List Stmt} {s s' : State} {next : NodeId}

theorem executeProgram_append (n : Nat) (p q : List Stmt) :
    executeProgram n (p ++ q) = executeProgram n p >>= fun _ => executeProgram n q := by
  induction p with
  | nil => rfl
  | cons s p ih =>
    simp only [List.cons_append, executeProgram, ih, bind_assoc]

/-- A program behind one that comes to its end runs in the state that this one leaves. -/
theorem Session.runProgram_append (h : executeProgram n p s = .ok () s') (q : List Stmt) :
    runProgram n (p ++ q) next s = runProgram n q next s' := by
  unfold runProgram interpret
  rw [executeProgram_append]
  simp only [Bind.bind, EStateM.bind, h]

/-- A run without an error is one of a program that came to its end. -/
theorem Session.runProgram_clean (h : (runProgram n p next s).report? = some {}) :
    ∃ s', executeProgram n p s = .ok () s' ∧ runProgram n p next s = ⟨some {}, ⟨s', next⟩⟩ := by
  unfold runProgram interpret at h ⊢
  rcases hrun : executeProgram n p s with ⟨⟨⟩, s'⟩ | ⟨_ | _, s'⟩ <;> simp only [hrun] at h ⊢
  · cases hflush : s'.sink.flushFails <;> simp [hflush] at h ⊢
  · cases hflush : s'.sink.flushFails <;> simp [hflush] at h
  · cases h

end Program

namespace Session

variable {S S' : Session} {a b : String} {p q : List Stmt}

/-- Two sources that are accepted one after the other are accepted as one. -/
theorem Accepts.append (ha : S.Accepts a p) (hb : S'.Accepts b q)
    (hnext : S'.nextId = S.nextAfter a)
    (hnames : ∀ x, x ∈ S'.state.globalNames ↔ x ∈ declaredNames p ∨ x ∈ S.state.globalNames) :
    S.Accepts (a ++ "\n" ++ b) (p ++ Stmt.shiftAll ⟨linesOf a, 0⟩ q) ∧
      S.nextAfter (a ++ "\n" ++ b) = S'.nextAfter b := by
  have hclosed : ∀ e ∈ lexicalErrors a, e.cause ≠ .unterminatedString := by simp [ha.lexical]
  have hq := hb.grammar
  rw [hnext] at hq
  obtain ⟨hgrammar, hid⟩ := Grammar.parseProgram_append ha.grammar hq (beforeEnd_append b hclosed)
  refine ⟨⟨?_, hgrammar, ?_⟩, hid.trans ?_⟩
  · simp [lexicalErrors_append b hclosed, ha.lexical, hb.lexical]
  · simp [violations_append p _ hnames, violations_shift, ha.binding, hb.binding]
  · unfold nextAfter at hnext ⊢
    rw [hnext]

/-- References that are numbered on do not change what was recorded before. -/
theorem ready_mirrors (hS : S.Sound) (ha : S.Accepts a p) (hb : S'.Accepts b q)
    (hnext : S'.nextId = S.nextAfter a) (k extra : Nat) :
    (S.ready p).Mirrors (.below (S.nextAfter a) extra)
      (S.ready (p ++ Stmt.shiftAll ⟨k, 0⟩ q)) :=
  { State.Mirrors.of_below (s := S.ready p) (hS.functions.mono ha.numbers.le) with
    distances := fun id hid => by
      have hrefs : Numbers S'.nextId (S'.nextAfter b) ((references q).map (·.id)) :=
        Distances.numbers_references hb.numbers
      have hnew : id ∉ (references q).map (·.id) := fun hmem =>
        Nat.not_lt_of_le (hrefs.bounds id hmem).1 (hnext ▸ hid)
      simp only [ready]
      rw [references_append, Distances.record_append, Distances.record_shift,
        Distances.get?_record_of_notMem hnew] }

variable {n₁ n₂ n : Nat} {s : State}

/-- The first of two programs leaves the state in which the second one runs by itself. -/
theorem executeProgram_joined (hS : S.Sound) (hp : S.Accepts a p)
    (hrun : executeProgram n₁ p (S.ready p) = .ok () s)
    (hq : (⟨s, S.nextAfter a⟩ : Session).Accepts b q) (hn₁ : n₁ ≤ n) (k : Nat) :
    executeProgram n p (S.ready (p ++ Stmt.shiftAll ⟨k, 0⟩ q)) =
      .ok () (ready ⟨s, S.nextAfter a⟩ q) := by
  obtain ⟨extra, rfl⟩ := Nat.exists_eq_add_of_le hn₁
  have htracked := executeProgram_tracks_below n₁ extra hp.within _ _
    (ready_mirrors hS hp hq rfl k extra)
  have hdistances := (executeProgram_keeps n₁ p (S.ready p)).distances
  have hdistances' := (executeProgram_keeps (n₁ + extra) p
    (S.ready (p ++ Stmt.shiftAll ⟨k, 0⟩ q))).distances
  rw [hrun] at htracked hdistances
  generalize executeProgram (n₁ + extra) p (S.ready (p ++ Stmt.shiftAll ⟨k, 0⟩ q)) = xs at *
  cases htracked with
  | @ok _ s' _ _ hs =>
    have hd : s'.distances = s.distances.record (references q) := by
      simp only [stateOf, ready] at hdistances hdistances'
      rw [hdistances', hdistances, references_append, Distances.record_append,
        Distances.record_shift]
    have heq := hs.eq_of_below
    rw [hd] at heq
    exact congrArg (EStateM.Result.ok ()) heq

/-- So both sources in one do what the second program does in that state, further down. -/
theorem run_append (hS : S.Sound) (hp : S.Accepts a p)
    (hrun : executeProgram n₁ p (S.ready p) = .ok () s)
    (hq : (⟨s, S.nextAfter a⟩ : Session).Accepts b q) (hn₁ : n₁ ≤ n) :
    S.run n (a ++ "\n" ++ b) = runProgram n (Stmt.shiftAll ⟨linesOf a, 0⟩ q)
      (nextAfter ⟨s, S.nextAfter a⟩ b) (ready ⟨s, S.nextAfter a⟩ q) := by
  have hnames : ∀ x, x ∈ s.globalNames ↔ x ∈ declaredNames p ∨ x ∈ S.state.globalNames :=
    mem_globalNames_of_ok (s := S.ready p) hp.proper hS.current hS.globals hrun
  obtain ⟨haccepts, hnext⟩ := hp.append hq rfl hnames
  rw [haccepts.run_eq hS.distances, hnext,
    runProgram_append (executeProgram_joined hS hp hrun hq hn₁ (linesOf a))]

/-- A source that is accepted runs as with marks, without them. -/
theorem Accepts.run_marked (h : S.Accepts b q) (hS : S.Sound) (n : Nat) :
    S.run n b =
      (runMarked n q (S.nextAfter b) (S.ready q)).reline (Line.unmark 0) := by
  have hsame : Stmt.shiftAll ⟨0, 0⟩ q = q := Stmt.shiftAll_none q
  rw [h.run_eq hS.distances, ← runProgram_marked (k := 0) (Nat.le_refl n) (.inl rfl), hsame]

/-- A source that ends without an error, and a source behind it that is not refused, do the same as
both in one with a newline between them. Both ways the second source runs as it does with marks:
what is printed, the state and the message of an error are the same, and only its own tokens, in an
error as in the functions it leaves, are further down by the lines of the first one. -/
theorem run_joined {report : Report} (hS : S.Reached) (ha : (S.run n₁ a).report? = some {})
    (hb : ((S.run n₁ a).session.run n₂ b).report? = some report)
    (hstatic : report.hadError = false) (hn₁ : n₁ ≤ n) (hn₂ : n₂ ≤ n) :
    let first := (S.run n₁ a).session
    let second := first.run n₂ b
    let joined := S.run n (a ++ "\n" ++ b)
    ∃ q, first.Accepts b q ∧ (∀ t ∈ Stmt.tokensOfAll q, t ∈ tokens b) ∧
      let marked := runMarked n₂ q (first.nextAfter b) (first.ready q)
      second = marked.reline (Line.unmark 0) ∧ joined = marked.reline (Line.unmark (linesOf a)) ∧
      ∃ noted report', marked.report? = some noted ∧ joined.report? = some report' ∧
        report'.hadError = false ∧
        Ends q first.state.scopes (linesOf a) noted.runtime report.runtime report'.runtime := by
  intro first second joined
  have hsound := hS.sound
  obtain ⟨p, hp⟩ := accepts_of_report hsound.distances ha rfl
  have hsound' : first.Sound := hp.sound hsound n₁
  obtain ⟨q, hq⟩ := accepts_of_report hsound'.distances hb hstatic
  rw [hp.run_eq hsound.distances] at ha
  obtain ⟨s, hrun, hfirst⟩ := runProgram_clean ha
  rw [← hp.run_eq hsound.distances] at hfirst
  have hsession : first = ⟨s, S.nextAfter a⟩ := congrArg Run.session hfirst
  have hsecond := hq.run_marked hsound' n₂
  -- what the marked run reports, the second one reports without the marks
  have hreport := congrArg Run.report? hsecond
  rw [hb] at hreport
  obtain ⟨noted, hnoted, rfl⟩ := Option.map_eq_some_iff.1 hreport.symm
  have hends : n₂ = n ∨ (runMarked n₂ q (first.nextAfter b) (first.ready q)).report? ≠ none :=
    .inr (by simp [hnoted])
  have hjoined : joined = (runMarked n₂ q (first.nextAfter b) (first.ready q)).reline
      (Line.unmark (linesOf a)) := by
    rw [← runProgram_marked hn₂ hends]
    simp only [hsession] at hq ⊢
    exact run_append hsound hp hrun hq hn₁
  have hfails := runMarked_failsAt hnoted
  refine ⟨q, hq, fun t ht => Grammar.parseProgram_tokens hq.grammar ht, hsecond, hjoined, noted,
    noted.reline (Line.unmark (linesOf a)), hnoted, ?_, ?_, hfails.ends _⟩
  · rw [hjoined]
    exact congrArg (Option.map _) hnoted
  · cases hfails <;> rfl

/-- The first source ends in a comment, and the error of the second one is at a token that the
function of the first one has too, on the same line. -/
theorem run_joined_comment :
    let S := Session.initial Float.ofNat .unbounded
    let a := "fun f(x) \x7b return x; \x7d // f"
    let b := "var f = f; print x;"
    let first := (S.run 9 a).session
    let second := first.run 9 b
    let joined := S.run 9 (a ++ "\n" ++ b)
    (S.run 9 a).report? = some {} ∧
      second.report?.map (·.diagnostics.map (·.text)) =
        some ["Undefined variable 'x'.\n[line 1]"] ∧
      joined.report?.map (·.diagnostics.map (·.text)) =
        some ["Undefined variable 'x'.\n[line 2]"] ∧
      ∃ q report noted report', first.Accepts b q ∧ second.report? = some report ∧
        (runMarked 9 q (first.nextAfter b) (first.ready q)).report? = some noted ∧
        joined.report? = some report' ∧
        Ends q first.state.scopes (linesOf a) noted.runtime report.runtime report'.runtime := by
  intro S a b first second joined
  have hclean : (S.run 9 a).report?.map (·.diagnostics.isEmpty) = some true := by decide +kernel
  have hstatic : second.report?.map (·.hadError) = some false := by decide +kernel
  obtain ⟨r, hr, hempty⟩ := Option.map_eq_some_iff.1 hclean
  obtain ⟨report, hb, hstatic⟩ := Option.map_eq_some_iff.1 hstatic
  have ha : (S.run 9 a).report? = some {} := Report.eq_clean (List.isEmpty_iff.1 hempty) ▸ hr
  obtain ⟨q, hq, -, -, -, noted, report', hnoted, hreport', -, hends⟩ :=
    run_joined (.initial Float.ofNat .unbounded) ha hb hstatic (Nat.le_refl 9) (Nat.le_refl 9)
  exact ⟨ha, by decide +kernel, by decide +kernel, q, report, noted, report', hq, hb, hnoted,
    hreport', hends⟩

end Session

end Lox
