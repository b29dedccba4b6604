import Lox.Proofs.Lexical.Places

/-!
# Writes that land

Where a distance is recorded for an assignment, the scope that many steps out binds the name when
the value is written (`Write.Lands`), with one exception: an assignment in the initializer of the
very variable that it is to. That variable is declared and not bound yet, so the write fails
(`Write.Misses`). Either holds at the place of a single write (`writes_meet`), and so of every write
in every session (`Session.writes_settled`).
-/

namespace Lox

open Lexical

/-- If a distance is recorded for the assignment, there are that many scopes around the current one,
the last of them binds the name, and the variable gets the value. -/
def Write.Lands (w : Write) : Prop :=
  ∀ distance, w.state.distances.get? w.id = some distance →
    ∃ holder, w.state.scopes.ancestor? w.state.current distance = some holder ∧
      w.state.scopes.binds holder w.name.lexeme = true ∧
      Eval.assign w.id w.name w.value w.state = .ok () { w.state with
        scopes := w.state.scopes.define holder w.name.lexeme w.value }

/-- If a distance is recorded for the assignment, it leads to the current scope, which does not bind
the name, and the assignment fails. -/
def Write.Misses (w : Write) : Prop :=
  ∀ distance, w.state.distances.get? w.id = some distance →
    distance = 0 ∧ w.state.scopes.binds w.state.current w.name.lexeme = false ∧
      Eval.assign w.id w.name w.value w.state =
        Eval.fault (.undefinedVariable w.name.lexeme) w.name w.state

/-- A write lands, or it stands in the initializer of its own variable and misses. -/
def Write.Settled (w : Write) : Prop :=
  (w.own? ≠ some w.name.lexeme → w.Lands) ∧ (w.own? = some w.name.lexeme → w.Misses)

/-- Puts down the writes. -/
def writes : Probe Write :=
  ⟨fun _ => [], fun _ => [], fun _ => [], fun w => [w]⟩

/-- An assignment whose reference is resolved. -/
theorem writes_meet (known : Known) : writes.Meets known Write.Settled where
  statement _ := List.forall_mem_nil _
  line _ := List.forall_mem_nil _
  read _ _ _ _ := List.forall_mem_nil _
  write {w cur names own? site? env s id name} v hs hf hk hsite := by
    obtain ⟨⟨rfl, r, hm⟩, hunset⟩ := hs
    have hid := hm.distances id _ hk
    refine List.forall_mem_singleton.2 ⟨fun hown distance hd => ?_, fun hown distance hd => ?_⟩
    · obtain ⟨holder, _, ha, -, -, -, hb⟩ := hm.local_slot hf (hid.symm.trans hd)
      have hb := hb fun hsome => hown (hsite _ hsome)
      refine ⟨holder, ha, hb, ?_⟩
      simp only [Eval.assign, State.holder?_of_distance hd ha, hb, if_true]
    · obtain ⟨rfl, hb⟩ := hunset _ hown distance (hid.symm.trans hd)
      refine ⟨rfl, hb, ?_⟩
      simp only [Eval.assign, State.holder?_of_distance hd rfl, hb, Bool.false_eq_true, if_false]

/-- Every assignment with a recorded distance, in any run of any session, finds as many scopes
around it and its name bound in the last of them, unless it stands in the initializer of that very
variable; in that case it always fails. -/
theorem Session.writes_settled (clock : Nat → Float) (sink : Sink) (sources : List (Nat × String))
    (n : Nat) (source : String) :
    let S := (Session.initial clock sink).after sources
    (Traced.run writes n source S).1 = S.run n source ∧
      ∀ write ∈ (Traced.run writes n source S).2,
        (write.own? ≠ some write.name.lexeme → write.Lands) ∧
          (write.own? = some write.name.lexeme → write.Misses) :=
  ⟨Traced.run_fst writes n source _,
    ((Session.follows_initial clock sink).after sources).entries writes_meet n source⟩

/-- A write whose recorded distance leads to the current scope does not land where that scope does
not bind the name. -/
theorem Write.not_lands {w : Write} (hd : w.state.distances.get? w.id = some 0)
    (hb : w.state.scopes.binds w.state.current w.name.lexeme = false) : ¬ w.Lands := fun h => by
  obtain ⟨holder, ha, hbinds, -⟩ := h 0 hd
  obtain rfl : w.state.current = holder := Option.some.inj ha
  exact Bool.false_ne_true (hb.symm.trans hbinds)

/-- The assignment in `{ var a = a = nil; }` leads to the scope of `a`, which does not bind it. -/
theorem Session.write_missed :
    let source := "\x7b var a = a = nil; \x7d"
    let S := Session.initial Float.ofNat .unbounded
    ∃ report, (S.run 9 source).report? = some report ∧ report.hadError = false ∧
      report.runtime.map (·.message) = some "Undefined variable 'a'." ∧
      ∃ write ∈ (Traced.run writes 9 source S).2,
        write.state.distances.get? write.id = some 0 ∧
          write.state.scopes.binds write.state.current write.name.lexeme = false ∧
          ¬ write.Lands := by
  intro source S
  have hreport : (S.run 9 source).report?.map
      (fun report => (report.hadError, report.runtime.map (·.message))) =
        some (false, some "Undefined variable 'a'.") := by decide +kernel
  have hwrites : (Traced.run writes 9 source S).2.map
      (fun write => (write.state.distances.get? write.id,
        write.state.scopes.binds write.state.current write.name.lexeme)) = [(some 0, false)] := by
    decide +kernel
  obtain ⟨report, hreport, h⟩ := Option.map_eq_some_iff.1 hreport
  obtain ⟨write, hwrites, h'⟩ := List.map_eq_singleton_iff.1 hwrites
  obtain ⟨hok, hmessage⟩ := Prod.mk.inj h
  obtain ⟨hd, hb⟩ := Prod.mk.inj h'
  exact ⟨report, hreport, hok, hmessage, write, hwrites ▸ List.mem_singleton_self write, hd, hb,
    Write.not_lands hd hb⟩

end Lox
