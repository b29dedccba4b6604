import Lox.Proofs.Lexical.Session

/-!
# Refused sources

A source with a fault in its text leaves the state of its session as it was
(`Session.Follows.refused`). So a session goes along with the same state of lexical scoping whether
such a source was run or not, and what is seen of every other source is the same either way
(`Session.refused_inert`).
-/

namespace Lox

/-- What is seen of a source that a session ran: the report on it and what is printed by then. -/
structure Entry where
  source : Nat × String
  report? : Option Report
  sink : Sink

def Entry.refused (e : Entry) : Bool :=
  e.report?.any (·.hadError)

/-- The report on a program that ran, by why it stopped. -/
def Report.ofStop? : Option Stop → Option Report
  | none => some {}
  | some (.error e) => some { runtime := e.diagnostic }
  | some .outOfFuel => none

theorem Report.any_ofStop? : ∀ stop? : Option Stop, (ofStop? stop?).any (·.hadError) = false
  | none => rfl
  | some (.error _) => rfl
  | some .outOfFuel => rfl

namespace Session

def log (S : Session) : List (Nat × String) → List Entry
  | [] => []
  | source :: sources =>
    let run := S.run source.1 source.2
    ⟨source, run.report?, run.session.state.sink⟩ :: run.session.log sources

theorem log_cons (S : Session) (n : Nat) (source : String) (sources : List (Nat × String)) :
    S.log ((n, source) :: sources) =
      ⟨(n, source), (S.run n source).report?, (S.run n source).session.state.sink⟩ ::
        (S.run n source).session.log sources :=
  rfl

theorem runProgram_report? (n : Nat) (program : List Stmt) (next : NodeId) (s : State) :
    (runProgram n program next s).report? = Report.ofStop? (stop? (interpret n program s)) := by
  unfold runProgram
  split <;> rename_i h <;> rw [h] <;> rfl

namespace Follows

variable {S S' : Session} {r : Lexical.State} {n : Nat} {source : String}

/-- A refused source is one without a program, and it changes nothing. -/
theorem refused (h : S.Follows r) (he : (S.run n source).report?.any (·.hadError) = true) :
    Lexical.program? r.globalNames source = none ∧
      (S.run n source).session.state = S.state ∧
      ∀ report ∈ (S.run n source).report?, report.runtime = none := by
  rcases h.run_cases n source with ⟨hnone, report, -, hruntime, hrun⟩ | ⟨program, s', -, -, -, hrun⟩
  · rw [hrun]
    exact ⟨hnone, rfl, by rintro _ ⟨⟩; exact hruntime⟩
  · rw [hrun, runProgram_report?, Report.any_ofStop?] at he
    cases he

theorem not_refused {program : List Stmt} (h : S.Follows r)
    (hp : Lexical.program? r.globalNames source = some program) :
    (S.run n source).report? = Report.ofStop? (stop? (Lexical.interpret n program r)) := by
  rcases h.run_cases n source with ⟨hnone, -⟩ | ⟨program', s', hparse, hs, hsome, hrun⟩
  · rw [hnone] at hp
    cases hp
  · rw [hsome] at hp
    cases hp
    rw [hrun, runProgram_report?, (h.interpret (Nat.le_refl _) hparse hs n).1]

/-- Two sessions that go along with the same state see the same of the sources that are not
refused, and only these have to be run. -/
theorem log_filter : ∀ {S S' : Session} {r : Lexical.State} (sources : List (Nat × String)),
    S.Follows r → S'.Follows r →
    S'.log (((S.log sources).filter (! ·.refused)).map (·.source)) =
      (S.log sources).filter (! ·.refused)
  | _, _, _, [], _, _ => rfl
  | S, S', r, (n, source) :: sources, h, h' => by
    have hrun := h.run n source
    rw [log_cons]
    cases he : (S.run n source).report?.any (·.hadError) with
    | true =>
      -- Nothing changed, so the other session still goes along.
      have hsame : r.run n source = r := by
        unfold Lexical.State.run
        rw [(h.refused he).1]
      rw [hsame] at hrun
      rw [List.filter_cons_of_neg (by simp [Entry.refused, he])]
      exact log_filter sources hrun h'
    | false =>
      have hrun' := h'.run n source
      have hreport : (S'.run n source).report? = (S.run n source).report? := by
        rcases h.run_cases n source with ⟨-, report, herror, -, hrun⟩ | ⟨_, _, -, -, hp, -⟩
        · rw [hrun] at he
          exact absurd herror (by simpa using he)
        · rw [h.not_refused hp, h'.not_refused hp]
      rw [List.filter_cons_of_pos (by simp [Entry.refused, he]), List.map_cons, log_cons, hreport,
        hrun.sink, hrun'.sink]
      exact congrArg _ (log_filter sources hrun hrun')

end Follows

/-- A source that is refused has the exit status of a fault in its text and leaves everything as it
was, and a session without its refused sources sees the same of all others. -/
theorem refused_inert (clock : Nat → Float) (sink : Sink) (sources : List (Nat × String)) :
    let S := (Session.initial clock sink).after sources
    let log := (Session.initial clock sink).log sources
    (∀ n source report, (S.run n source).report? = some report → report.hadError = true →
      (S.run n source).session.state = S.state ∧ report.runtime = none ∧
        report.exitCode? = some 65) ∧
    (Session.initial clock sink).log ((log.filter (! ·.refused)).map (·.source)) =
      log.filter (! ·.refused) := by
  have h := Session.follows_initial clock sink
  refine ⟨fun n source report hreport he => ?_, Follows.log_filter sources h h⟩
  obtain ⟨-, hstate, hruntime⟩ := (h.after sources).refused (by rw [hreport]; exact he)
  exact ⟨hstate, hruntime report hreport, by rw [Report.exitCode?, he]; rfl⟩

/-- A `return` at the top level, behind a function whose references are recorded and forgotten
again, between sources that run. -/
theorem refused_inert_return :
    let source := "fun g(y) \x7b return y; \x7d return;"
    let sources :=
      [(9, "fun f(x) \x7b return x; \x7d print f(nil);"), (9, source), (9, "print f(nil);")]
    let S := (Session.initial Float.ofNat .unbounded).after sources
    let log := (Session.initial Float.ofNat .unbounded).log sources
    S.state.distances.size = 1 ∧ (S.run 9 source).report?.map (·.binding.length) = some 1 ∧
      (∃ report, (S.run 9 source).report? = some report ∧ report.hadError = true ∧
        (S.run 9 source).session.state = S.state ∧ report.runtime = none ∧
          report.exitCode? = some 65) ∧
      log.map (·.refused) = [false, true, false] ∧
      (Session.initial Float.ofNat .unbounded).log ((log.filter (! ·.refused)).map (·.source)) =
        log.filter (! ·.refused) := by
  intro source sources S log
  have he : (S.run 9 source).report?.any (·.hadError) = true := by decide +kernel
  obtain ⟨report, hreport, he⟩ := (Option.any_eq_true _ _).1 he
  obtain ⟨hinert, hlog⟩ := refused_inert Float.ofNat .unbounded sources
  exact ⟨by decide +kernel, by decide +kernel,
    ⟨report, hreport, he, hinert 9 source report hreport he⟩, by decide +kernel, hlog⟩

end Session

end Lox
