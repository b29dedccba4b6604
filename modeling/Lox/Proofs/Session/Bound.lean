import Lox.Proofs.Lexical.Places

/-!
# Reads are bound

Where a distance is recorded for a reference, the scope that many steps out binds the name whenever
the reference is read (`Visit.Bound`). The frame of the place says so for a single read
(`reads_meet`), and so it is for every read in every session (`Session.reads_bound`).
-/

namespace Lox

open Lexical

/-- If a distance is recorded for the reference, there are that many scopes around the current one,
the last of them binds the name, and the read gives a value. -/
def Visit.Bound (v : Visit) : Prop :=
  ∀ distance, v.state.distances.get? v.id = some distance →
    ∃ holder value, v.state.scopes.ancestor? v.state.current distance = some holder ∧
      v.state.scopes.binds holder v.name.lexeme = true ∧
      Eval.read v.id v.name v.state = .ok value v.state

/-- A reference that is resolved and not in the initializer of its own variable is bound. -/
theorem reads_meet (known : Known) : reads.Meets known Visit.Bound where
  statement _ := List.forall_mem_nil _
  line _ := List.forall_mem_nil _
  read {w cur names own? site? env s id name} hs hf hk hsite := by
    obtain ⟨⟨rfl, r, hm⟩, -⟩ := hs
    refine List.forall_mem_singleton.2 fun distance hd => ?_
    have hid := hm.distances id _ hk
    obtain ⟨holder, _, ha, -, -, -, hb⟩ := hm.local_slot hf (hid.symm.trans hd)
    have hb := hb hsite
    obtain ⟨value, hvalue⟩ := Option.isSome_iff_exists.1 hb
    refine ⟨holder, value, ha, hb, ?_⟩
    simp only [Eval.read, State.valueOf?_eq (State.holder?_of_distance hd ha), hvalue]
  write _ _ _ _ _ := List.forall_mem_nil _

/-- Every read of a reference with a recorded distance, in any run of any session, finds as many
scopes around it and its name bound in the last of them. -/
theorem Session.reads_bound (clock : Nat → Float) (sink : Sink) (sources : List (Nat × String))
    (n : Nat) (source : String) :
    let S := (Session.initial clock sink).after sources
    (Traced.run reads n source S).1 = S.run n source ∧
      ∀ visit ∈ (Traced.run reads n source S).2, visit.Bound :=
  ⟨Traced.run_fst reads n source _,
    ((Session.follows_initial clock sink).after sources).entries reads_meet n source⟩

/-- A function that an earlier run left reads a variable of the block it was declared in. -/
theorem Session.reads_bound_closure :
    let S := (Session.initial Float.ofNat .unbounded).after
      [(9, "var f; \x7b var a = nil; fun g() \x7b print a; \x7d f = g; \x7d")]
    let visits := (Traced.run reads 9 "f();" S).2
    visits.map (fun visit => visit.state.distances.get? visit.id) = [none, some 1] ∧
      ∀ visit ∈ visits, visit.Bound :=
  ⟨by decide +kernel, (Session.reads_bound Float.ofNat .unbounded [_] 9 "f();").2⟩

end Lox
