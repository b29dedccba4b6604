import Mathlib.Logic.Relation
import Lox.Proofs.Machine.Rooted
import Lox.Proofs.Machine.Simulates
import Lox.Proofs.Session.Reached

/-!
# The points of a session

A session comes to a point between two sources or to one inside a run, where the machine is after
some of its steps (`Point`). The points between sources are the sessions that are reached by running
sources to their ends (`Session.reached_iff`). At all of them the scopes that are referred to lie in
the global one, and no scope is ever put elsewhere (`Session.scopes_rooted`).
-/

namespace Lox

open Relation (ReflTransGen)

inductive Point where
  | idle (S : Session)
  /-- Inside the run of a program, with the number that the session goes on with. -/
  | running (m : Machine) (nextId : NodeId)

namespace Point

/-- Between two sources there is nothing to do. -/
def machine : Point → Machine
  | idle S => .start [] S.state
  | running m _ => m

def scopes (p : Point) : Scopes :=
  p.machine.state.scopes

inductive Next : Point → Point → Prop where
  | refuse {S : Session} {source : String} (n : Nat) (h : ∀ program, ¬ S.Accepts source program) :
    Next (idle S) (idle (S.run n source).session)
  | start {S : Session} {source : String} {program : List Stmt} (h : S.Accepts source program) :
    Next (idle S) (running (.start program (S.ready program)) (S.nextAfter source))
  | step {m m' : Machine} {nextId : NodeId} (h : m.step? = some m') :
    Next (running m nextId) (running m' nextId)
  | finish {m : Machine} {nextId : NodeId} (h : m.step? = none) :
    Next (running m nextId) (idle ⟨m.state, nextId⟩)
  | takeOutput {S : Session} : Next (idle S) (idle S.takeOutput.2)

abbrev Reaches : Point → Point → Prop :=
  ReflTransGen Next

/-- The points of sessions from their beginning. -/
def Reached (p : Point) : Prop :=
  ∃ clock sink, Reaches (idle (.initial clock sink)) p

theorem reaches_running {m m' : Machine} {nextId : NodeId} (h : m.Reaches m') :
    Reaches (running m nextId) (running m' nextId) := by
  obtain ⟨n, h⟩ := h
  induction h with
  | refl m => exact .refl
  | head hstep _ ih => exact .head (.step hstep) ih

end Point

theorem Machine.state_ended (r : EStateM.Result Stop State Unit) :
    (Machine.ended r).state = stateOf r := by
  cases r <;> rfl

namespace Session

variable {S : Session} {source : String} {program : List Stmt} {n : Nat} {report : Report}

/-- There is a report on a program that ran to an end. -/
theorem report?_runProgram (n : Nat) (program : List Stmt) (next : NodeId) (s : State) :
    (∃ report, (runProgram n program next s).report? = some report) ↔
      ∀ s', executeProgram n program s ≠ .error .outOfFuel s' := by
  unfold runProgram interpret
  rcases executeProgram n program s with ⟨⟨⟩, s'⟩ | ⟨e | _, s'⟩
  · cases hflush : s'.sink.flushFails <;> simp [hflush]
  · cases hflush : s'.sink.flushFails <;> simp [hflush]
  · simp

/-- A run that comes to an end goes through points, as the machine does. -/
theorem Accepts.reaches (h : S.Accepts source program)
    (hd : S.state.distances.Below S.nextId)
    (hreport : (S.run n source).report? = some report) :
    Point.Reaches (.idle S) (.idle (S.run n source).session) := by
  rw [h.run_eq hd] at hreport ⊢
  have hends := (report?_runProgram n program _ _).1 ⟨report, hreport⟩
  obtain ⟨hm, hhalt⟩ := Machine.stops_iff.2 ⟨n, hends, rfl⟩
  rw [runProgram_session, stateOf_interpret]
  refine .head (.start h) (.trans (Point.reaches_running hm) (.single ?_))
  rw [← Machine.state_ended]
  exact .finish hhalt

theorem Reached.point (h : S.Reached) : (Point.idle S).Reached := by
  induction h with
  | initial clock sink => exact ⟨clock, sink, .refl⟩
  | @run S n source report hS hreport ih =>
    obtain ⟨clock, sink, hp⟩ := ih
    have hd := hS.sound.distances
    rcases run_cases hd n source with ⟨program, h, -⟩ | ⟨h, -⟩
    · exact ⟨clock, sink, hp.trans (h.reaches hd hreport)⟩
    · exact ⟨clock, sink, hp.tail (.refuse n h)⟩
  | takeOutput hS ih =>
    obtain ⟨clock, sink, hp⟩ := ih
    exact ⟨clock, sink, hp.tail .takeOutput⟩

end Session

namespace Point

variable {p p' : Point}

/-- A point of sessions that are reached: one of them, or one of a program that it accepts. -/
def Belongs : Point → Prop
  | idle S => S.Reached
  | running m nextId => ∃ (S : Session) (source : String) (program : List Stmt), S.Reached ∧
      S.Accepts source program ∧ nextId = S.nextAfter source ∧
      (Machine.start program (S.ready program)).Reaches m

theorem Belongs.next (h : p.Belongs) (hp : p.Next p') : p'.Belongs := by
  cases hp with
  | @refuse S source n hrefused =>
    have hS : S.Reached := h
    rcases Session.run_cases hS.sound.distances n source with ⟨program, ha, -⟩ | ⟨-, _, -, -, hrun⟩
    · exact absurd ha (hrefused program)
    · exact hS.run (congrArg Run.report? hrun)
  | start ha => exact ⟨_, _, _, h, ha, rfl, .refl _⟩
  | step hstep =>
    obtain ⟨S, source, program, hS, ha, hnext, hm⟩ := h
    exact ⟨S, source, program, hS, ha, hnext, hm.trans (.one hstep)⟩
  | finish hhalt =>
    obtain ⟨S, source, program, hS, ha, rfl, hm⟩ := h
    obtain ⟨n, hends, rfl⟩ := Machine.stops_iff.1 ⟨hm, hhalt⟩
    obtain ⟨report, hreport⟩ :=
      (Session.report?_runProgram n program (S.nextAfter source) _).2 hends
    rw [← ha.run_eq hS.sound.distances] at hreport
    have hlast : (S.run n source).session =
        ⟨(Machine.ended (executeProgram n program (S.ready program))).state,
          S.nextAfter source⟩ := by
      rw [ha.run_eq hS.sound.distances, Session.runProgram_session, stateOf_interpret,
        Machine.state_ended]
    exact hlast ▸ hS.run hreport
  | takeOutput => exact Session.Reached.takeOutput h

theorem Reached.belongs (h : p.Reached) : p.Belongs := by
  obtain ⟨clock, sink, h⟩ := h
  induction h with
  | refl => exact .initial clock sink
  | tail _ hnext ih => exact ih.next hnext

end Point

/-- The sessions that are reached are the points between sources. -/
theorem Session.reached_iff {S : Session} : S.Reached ↔ (Point.idle S).Reached :=
  ⟨Session.Reached.point, Point.Reached.belongs⟩

/-! ## Scopes -/

theorem State.rooted_initial (clock : Nat → Float) (sink : Sink) :
    (State.initial clock sink).Rooted := by
  have hsize : (Scopes.empty.add none).2.size = 1 := Scopes.size_add
  have hroot : (Scopes.empty.add none).2.Rooted := by
    refine ⟨hsize ▸ Nat.one_pos, Scopes.parent?_add_self, fun i hi hne => ?_⟩
    rw [hsize, Nat.lt_one_iff] at hi
    exact absurd hi hne
  have hscopes : (State.initial clock sink).scopes.Rooted := hroot.define
  exact ⟨hscopes, hscopes.globals, State.holds_initial (Value.below_of_scope? rfl) clock sink⟩

theorem Machine.rooted_start {s : State} (hs : s.Rooted) (program : List Stmt) :
    (Machine.start program s).Rooted :=
  ⟨hs, Control.below_of_empty rfl, List.forall_mem_nil _⟩

namespace Point

variable {p p' : Point}

/-- From one point to the next no scope is lost or put elsewhere, and the scopes that are referred
to exist. -/
theorem Next.after (h : p.Next p') (hp : p.Belongs) (hm : p.machine.Rooted) :
    Machine.After p.machine.state p'.machine := by
  have hsame {s t : State} (hs : s.Rooted) (program : List Stmt) (hscopes : t.scopes = s.scopes)
      (hcurrent : t.current = s.current) : Machine.After s (.start program t) := by
    have hlater := State.Later.of_same hs hscopes hcurrent
    exact ⟨Machine.rooted_start hlater.rooted program, hlater.scopes⟩
  cases h with
  | @refuse S source n hrefused =>
    have hS : S.Reached := hp
    rcases Session.run_cases hS.sound.distances n source with ⟨program, ha, -⟩ | ⟨-, _, -, -, hrun⟩
    · exact absurd ha (hrefused program)
    · rw [hrun]
      exact hsame hm.state [] rfl rfl
  | @start S source program ha => exact hsame hm.state program rfl rfl
  | step hstep => exact hm.step? hstep
  | finish _ => exact hsame hm.state [] rfl rfl
  | takeOutput => exact hsame hm.state [] rfl rfl

theorem Reaches.after (h : p.Reaches p') (hp : p.Belongs) (hm : p.machine.Rooted) :
    p'.Belongs ∧ Machine.After p.machine.state p'.machine := by
  induction h with
  | refl => exact ⟨hp, hm, .refl _⟩
  | tail _ hnext ih =>
    obtain ⟨hb, hafter⟩ := ih
    have hlast := hnext.after hb hafter.rooted
    exact ⟨hb.next hnext, hlast.rooted, hafter.scopes.trans hlast.scopes⟩

theorem Reached.rooted (h : p.Reached) : p.machine.Rooted := by
  obtain ⟨clock, sink, h⟩ := h
  have hstart := Machine.rooted_start (State.rooted_initial clock sink) []
  exact (Reaches.after h (.initial clock sink) hstart).2.rooted

end Point

/-- The sessions that are reached are the points between sources. At any point, also inside a run,
all scopes that are current, wait to be so or are kept by a function are among the scopes there are,
and from each of those the links lead to the globals, where the chain ends; no scope but the globals
has no parent. Whatever happens later, each scope stays where it is. -/
theorem Session.scopes_rooted :
    (∀ S : Session, S.Reached ↔ (Point.idle S).Reached) ∧
    ∀ p : Point, p.Reached →
      (∀ i, p.machine.Refers i → i < p.scopes.size) ∧
      (∀ i < p.scopes.size, ∃ d, p.scopes.ancestor? i d = some State.globals ∧
        (p.scopes.chain i).length = d + 1 ∧ ∀ k, (p.scopes.chain i)[k]? = p.scopes.ancestor? i k) ∧
      (∀ i < p.scopes.size, p.scopes.parent? i = none ↔ i = State.globals) ∧
      ∀ p', p.Reaches p' → ∀ i < p.scopes.size,
        i < p'.scopes.size ∧ p'.scopes.parent? i = p.scopes.parent? i := by
  refine ⟨fun S => Session.reached_iff, fun p hp => ?_⟩
  have hm := hp.rooted
  have hrooted := hm.state.scopes
  refine ⟨fun i hi => hm.lt_size hi, fun i hi => ?_, fun i hi => ?_, fun p' hp' i hi => ?_⟩
  · obtain ⟨d, hd, hlength⟩ := hrooted.length_chain hi
    exact ⟨d, hd, hlength, fun k => Scopes.getElem?_chain hrooted.acyclic k i⟩
  · exact hrooted.parent?_eq_none_iff hi
  · have hafter := (Point.Reaches.after hp' hp.belongs hm).2
    exact ⟨Nat.lt_of_lt_of_le hi hafter.scopes.size, hafter.scopes.parent? i hi⟩

/-- A function is made in a scope, and called when that scope is current no longer. -/
theorem Session.scopes_rooted_closure :
    ∃ p p' : Point, p.Reached ∧ p.Reaches p' ∧ p.machine.Refers 1 ∧
      p'.machine.state.current = 2 ∧ p'.machine.stack.filterMap (·.caller?) = [0] ∧
      2 < p'.scopes.size ∧ (∃ d, p'.scopes.ancestor? 2 d = some State.globals) ∧
      (p'.scopes.parent? 2 = none ↔ 2 = State.globals) ∧
      p'.scopes.parent? 1 = p.scopes.parent? 1 := by
  let source :=
    "fun f() \x7b var x = 1; fun g() \x7b print x; \x7d return g; \x7d var h = f(); h();"
  let S := Session.initial Float.ofNat .unbounded
  have he : (S.run 20 source).report?.any (! ·.hadError) = true := by decide +kernel
  obtain ⟨report, hreport, he⟩ := (Option.any_eq_true _ _).1 he
  obtain ⟨program, ha⟩ := Session.accepts_of_report (Session.Sound.initial _ _).distances hreport
    (by simpa using he)
  have hpoints : ((Grammar.parseProgram S.nextId (tokens source)).result.toOption.bind
      fun program => ((Machine.start program (S.ready program)).after? 20).bind fun m =>
        (m.after? 25).map fun m' =>
          (m.state.current, m'.state.current, m'.stack.filterMap (·.caller?))) =
      some (1, 2, [0]) := by decide +kernel
  rw [ha.grammar] at hpoints
  obtain ⟨_, ⟨⟩, hpoints⟩ := Option.bind_eq_some_iff.1 hpoints
  obtain ⟨m, hm, hpoints⟩ := Option.bind_eq_some_iff.1 hpoints
  obtain ⟨m', hm', hpoints⟩ := Option.map_eq_some_iff.1 hpoints
  obtain ⟨hone, htwo, hcaller⟩ : m.state.current = 1 ∧ m'.state.current = 2 ∧
      m'.stack.filterMap (·.caller?) = [0] := by simpa using hpoints
  have hp : Point.Reaches (.idle S) (.running m (S.nextAfter source)) :=
    .head (.start ha) (Point.reaches_running (.of_after? hm))
  have hlater :
      Point.Reaches (.running m (S.nextAfter source)) (.running m' (S.nextAfter source)) :=
    Point.reaches_running (.of_after? hm')
  have hreached : Point.Reached (.running m (S.nextAfter source)) := ⟨_, _, hp⟩
  have hreached' : Point.Reached (.running m' (S.nextAfter source)) := ⟨_, _, hp.trans hlater⟩
  have hrefers : m.Refers 1 := hone ▸ .current
  have hrefers' : m'.Refers 2 := htwo ▸ .current
  obtain ⟨hlt, -, -, hstays⟩ := Session.scopes_rooted.2 _ hreached
  obtain ⟨hlt', hchain, hroot, -⟩ := Session.scopes_rooted.2 _ hreached'
  obtain ⟨d, hd, -⟩ := hchain 2 (hlt' 2 hrefers')
  exact ⟨_, _, hreached, hlater, hrefers, htwo, hcaller, hlt' 2 hrefers', ⟨d, hd⟩,
    hroot 2 (hlt' 2 hrefers'), (hstays _ hlater 1 (hlt 1 hrefers)).2⟩

end Lox
