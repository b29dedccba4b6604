import Lox.Proofs.Eval.Kept
import Lox.Proofs.Eval.Tracks

/-!
# Runs with marks

A run of a program meets tokens of the program and tokens of the functions that were there before,
and these may well be the same on the same line. Marks tell them apart: in the marked run
(`Session.runMarked`) the lines of the program's own tokens are odd and those of the others even
(`Line.mark`). No step looks at a line, so wherever the program stands, its run is the marked one
without the marks, with what was marked as its own so many lines further down
(`Session.runProgram_marked`).
-/

namespace Lox

namespace Line

/-- A line with a mark that tells whether it is one of the program's own. -/
def mark (own : Bool) (line : Nat) : Nat :=
  2 * line + own.toNat

/-- The line without its mark, and `k` lines further down if it is one of the program's own. -/
def unmark (k line : Nat) : Nat :=
  line / 2 + line % 2 * k

theorem unmark_own (k : Nat) : unmark k ∘ mark true = (· + k) := by
  funext line
  have hdiv : (2 * line + 1) / 2 = line := by omega
  have hmod : (2 * line + 1) % 2 = 1 := by omega
  simp only [Function.comp, unmark, mark, Bool.toNat_true, hdiv, hmod, Nat.one_mul]

theorem unmark_kept (k : Nat) : unmark k ∘ mark false = id := by
  funext line
  have hdiv : 2 * line / 2 = line := by omega
  have hmod : 2 * line % 2 = 0 := by omega
  simp only [Function.comp, unmark, mark, Bool.toNat_false, Nat.add_zero, hdiv, hmod, Nat.zero_mul,
    id]

end Line

/-! ## Runs on other lines -/

section Reline

variable (φ : Nat → Nat)

def Diagnostic.reline : Diagnostic → Diagnostic
  | lexical message line => lexical message (φ line)
  | grammar message token => grammar message (token.reline φ)
  | binding message token => binding message (token.reline φ)
  | runtime message token => runtime message (token.reline φ)
  | sink message => sink message

def Report.reline (r : Report) : Report where
  lexical := r.lexical.map (·.reline φ)
  grammar := r.grammar.map (·.reline φ)
  binding := r.binding.map (·.reline φ)
  runtime := r.runtime.map (·.reline φ)

def Session.reline (S : Session) : Session :=
  { S with state := S.state.reline φ }

def Run.reline (r : Run) : Run :=
  ⟨r.report?.map (·.reline φ), r.session.reline φ⟩

end Reline

/-- What comes of a program that runs, with a token that meets `P` if it fails at one. -/
inductive Report.FailsAt (P : Token → Prop) : Report → Prop where
  | success : FailsAt P {}
  | fault (cause : RuntimeFault) {t : Token} (h : P t) :
    FailsAt P { runtime := some (.runtime cause.message t) }
  | sink (cause : SinkFault) : FailsAt P { runtime := some (.sink cause.message) }

namespace Session

section Mirrors

variable {m : Mirror} {n : Nat} {program : List Stmt} {s s' : State} (next : NodeId)

/-- A run on other lines is the run with all that is left and reported on other lines, unless it
was allowed more steps and the run needed them. -/
theorem runProgram_reline (h : Stmt.WithinAll m.tokens m.known program) (hs : s.Mirrors m s')
    (hd : s'.distances = s.distances)
    (hends : m.extra = 0 ∨ (runProgram n program next s).report? ≠ none) :
    runProgram (n + m.extra) (Stmt.relineAll m.line program) next s' =
      (runProgram n program next s).reline m.line := by
  have htracks := interpret_tracks n h s s' hs
  have hkept := (interpret_keeps n program s).distances
  have hkept' :=
    (interpret_keeps (n + m.extra) (Stmt.relineAll m.line program) s').distances
  have hsame : ∀ {t t' : State}, t.Mirrors m t' → t.distances = s.distances →
      t'.distances = s'.distances → t' = t.reline m.line := by
    intro t t' ht hdt hdt'
    have heq := ht.eq_reline
    rwa [hdt', hd, ← hdt] at heq
  unfold runProgram at hends ⊢
  generalize interpret n program s = xs at *
  generalize interpret (n + m.extra) (Stmt.relineAll m.line program) s' = ys at *
  cases htracks with
  | ok ht _ =>
    cases hsame ht hkept hkept'
    rfl
  | error ht he =>
    cases hsame ht hkept hkept'
    cases he <;> rfl
  | spent hextra => exact absurd rfl (hends.resolve_left hextra)

/-- A program fails at a token that there is. -/
theorem runProgram_failsAt (h : Stmt.WithinAll m.tokens m.known program) (hs : s.Mirrors m s')
    {report : Report} (hreport : (runProgram n program next s).report? = some report) :
    report.FailsAt m.tokens := by
  have htracks := interpret_tracks n h s s' hs
  unfold runProgram at hreport
  generalize interpret n program s = xs at htracks hreport
  generalize interpret (n + m.extra) (Stmt.relineAll m.line program) s' = ys at htracks
  cases htracks with
  | ok _ _ =>
    cases hreport
    exact .success
  | error _ he =>
    cases he with
    | fault cause ht =>
      cases hreport
      exact .fault cause ht
    | sink cause =>
      cases hreport
      exact .sink cause
    | outOfFuel => cases hreport
  | spent _ => cases hreport

end Mirrors

end Session

/-! ## Marks -/

/-- The tokens of the functions that are bound. -/
def Scopes.Stores (s : Scopes) (t : Token) : Prop :=
  ∃ scope x i f parent,
    (s.bindings scope).get? x = some (.callable (.closure i f parent)) ∧ t ∈ f.tokens

/-- A token of a program with the mark of its own, or one of a function that was there before with
the other mark. -/
inductive Token.Marked (program : List Stmt) (before : Scopes) : Token → Prop where
  | own {t : Token} (h : t ∈ Stmt.tokensOfAll program) :
    Marked program before (t.reline (Line.mark true))
  | kept {t : Token} (h : before.Stores t) : Marked program before (t.reline (Line.mark false))

/-- The marks of a program's run are taken away, and its own tokens put `k` lines further down. -/
def Mirror.marked (program : List Stmt) (before : Scopes) (k extra : Nat) : Mirror where
  line := Line.unmark k
  tokens := Token.Marked program before
  known _ := True
  extra := extra

namespace Session

/-- The run of a program in which its tokens and those of the functions from before are marked. -/
def runMarked (fuel : Nat) (program : List Stmt) (nextId : NodeId) (state : State) : Run :=
  runProgram fuel (Stmt.relineAll (Line.mark true) program) nextId
    (state.reline (Line.mark false))

variable (program : List Stmt) (s : State) (k extra : Nat)

theorem withinAll_marked : Stmt.WithinAll (Mirror.marked program s.scopes k extra).tokens
    (Mirror.marked program s.scopes k extra).known (Stmt.relineAll (Line.mark true) program) := by
  rw [Stmt.withinAll_reline]
  exact (Stmt.withinAll_iff program).2 ⟨fun _ ht => .own ht, fun _ _ => trivial⟩

theorem mirrors_marked :
    (s.reline (Line.mark false)).Mirrors (.marked program s.scopes k extra) s where
  within := by
    intro scope x v hv
    simp only [State.reline, Scopes.bindings_reline, Bindings.get?_reline,
      Option.map_eq_some_iff] at hv
    obtain ⟨w, hw, rfl⟩ := hv
    cases w with
    | callable f =>
      cases f with
      | clock i => trivial
      | closure i f parent =>
        have hwithin : Function.Within
            (fun t => Token.Marked program s.scopes (t.reline (Line.mark false)))
            (fun _ => True) f :=
          Function.within_iff.2 ⟨fun t ht => .kept ⟨scope, x, i, f, parent, hw, ht⟩,
            fun _ _ => trivial⟩
        exact cast (Stmt.within_reline _ (.function f.name f.params f.body)).symm hwithin
    | _ => trivial
  scopes := by
    have hlines := Line.unmark_kept k
    simp only [State.reline, Scopes.reline_reline]
    exact (hlines ▸ s.scopes.reline_id).symm
  current := rfl
  distances _ _ := rfl
  sink := rfl
  nextFunction := rfl
  clock := rfl
  ticks := rfl

variable {program s k} {n n' : Nat} {next : NodeId}

/-- Further down a program runs as it does with marks. -/
theorem runProgram_marked (hn : n ≤ n')
    (hends : n = n' ∨ (runMarked n program next s).report? ≠ none) :
    runProgram n' (Stmt.shiftAll ⟨k, 0⟩ program) next s =
      (runMarked n program next s).reline (Line.unmark k) := by
  obtain ⟨extra, rfl⟩ := Nat.exists_eq_add_of_le hn
  have hrun := runProgram_reline (n := n) next (withinAll_marked program s k extra)
    (mirrors_marked program s k extra) rfl (hends.imp_left Nat.left_eq_add.1)
  have hlines : Stmt.relineAll (Mirror.marked program s.scopes k extra).line
      (Stmt.relineAll (Line.mark true) program) = Stmt.shiftAll ⟨k, 0⟩ program := by
    rw [Stmt.relineAll_relineAll, ← Stmt.relineAll_add, ← Line.unmark_own]
    rfl
  rwa [hlines] at hrun

/-- The marked run fails at a token with a mark, if it fails at one. -/
theorem runMarked_failsAt {report : Report}
    (h : (runMarked n program next s).report? = some report) :
    report.FailsAt (Token.Marked program s.scopes) :=
  runProgram_failsAt next (withinAll_marked program s 0 0) (mirrors_marked program s 0 0) h

end Session

end Lox
