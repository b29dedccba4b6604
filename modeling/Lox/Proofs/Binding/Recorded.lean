import Lox.Session
import Lox.Proofs.Binding.Accepted
import Lox.Proofs.Tree.Numbers

/-!
# Recorded distances

The references of a program carry the numbers of its tree (`references_perm_ids`). When these are
new, recording them keeps every older distance (`Distances.get?_record_of_notMem`), gives each
reference its own (`Distances.get?_record`), and forgetting them again gives back the distances as
they were (`Distances.forget_record`).
-/

namespace Lox

namespace Distances

variable {d : Distances} {id other : NodeId} {n : Nat}

theorem lookup_filter_ne {entries : List (NodeId × Nat)} (h : other ≠ id) :
    (entries.filter (·.1 ≠ id)).lookup other = entries.lookup other := by
  induction entries with
  | nil => rfl
  | cons e entries ih =>
    obtain ⟨i, n⟩ := e
    by_cases hi : i = id
    · subst hi
      have hne : (other == i) = false := by simpa using h
      rw [List.lookup_cons, hne, List.filter_cons_of_neg (by simp)]
      exact ih
    · simp only [List.lookup_cons, List.filter_cons, ne_eq, hi, not_false_eq_true, decide_true,
        if_true, ih]

@[simp] theorem get?_insert_self : (d.insert id n).get? id = some n := by
  simp [insert, get?]

theorem get?_insert_ne (h : other ≠ id) : (d.insert id n).get? other = d.get? other := by
  have hne : (other == id) = false := by simpa using h
  simp only [insert, get?, erase, List.lookup_cons, hne]
  exact lookup_filter_ne h

def note (d : Distances) (r : Reference) : Distances :=
  r.distance?.elim d (d.insert r.id)

theorem record_cons (r : Reference) (rs : List Reference) :
    d.record (r :: rs) = (d.note r).record rs :=
  rfl

theorem get?_note_ne {r : Reference} (h : other ≠ r.id) : (d.note r).get? other = d.get? other := by
  unfold note
  cases r.distance? with
  | none => rfl
  | some n => exact get?_insert_ne h

theorem get?_record_of_notMem :
    ∀ {rs : List Reference} {d : Distances}, id ∉ rs.map (·.id) →
      (d.record rs).get? id = d.get? id
  | [], _, _ => rfl
  | r :: rs, d, h => by
    simp only [List.map_cons, List.mem_cons, not_or] at h
    rw [record_cons, get?_record_of_notMem h.2, get?_note_ne h.1]

/-- References that are new and distinct are recorded with their own distances. -/
theorem get?_record :
    ∀ {rs : List Reference} {d : Distances}, (rs.map (·.id)).Nodup →
      (∀ r ∈ rs, d.get? r.id = none) → ∀ r ∈ rs, (d.record rs).get? r.id = r.distance?
  | [], _, _, _ => by simp
  | r :: rs, d, hnodup, hnew => by
    obtain ⟨hr, hnodup⟩ := List.nodup_cons.1 hnodup
    obtain ⟨hnone, hnew⟩ := List.forall_mem_cons.1 hnew
    refine List.forall_mem_cons.2 ⟨?_, get?_record hnodup fun r' hr' => ?_⟩
    · rw [record_cons, get?_record_of_notMem hr]
      unfold note
      cases r.distance? with
      | none => exact hnone
      | some n => simp
    · have hne : r'.id ≠ r.id := fun h => hr (List.mem_map.2 ⟨r', hr', h⟩)
      exact (get?_note_ne hne).trans (hnew r' hr')

/-- Whether forgetting some references keeps an entry. -/
def keeps (rs : List Reference) (entry : NodeId × Nat) : Bool :=
  rs.all fun r => r.distance?.isNone || entry.1 ≠ r.id

theorem forget_entries :
    ∀ (rs : List Reference) (d : Distances), (d.forget rs).entries = d.entries.filter (keeps rs)
  | [], d => (List.filter_eq_self.2 fun _ _ => rfl).symm
  | r :: rs, d => by
    have hstep : d.forget (r :: rs) = (r.distance?.elim d fun _ => d.erase r.id).forget rs := rfl
    rw [hstep, forget_entries rs]
    cases hr : r.distance? with
    | none => exact List.filter_congr fun e _ => by simp [keeps, hr]
    | some n =>
      simp only [Option.elim_some, erase, List.filter_filter]
      exact List.filter_congr fun e _ => by simp [keeps, hr, Bool.and_comm]

/-- What recording adds, forgetting the same references leaves out. -/
theorem filter_record {rs : List Reference} :
    ∀ (noted : List Reference) (d : Distances), (∀ r ∈ noted, r ∈ rs) →
      (d.record noted).entries.filter (keeps rs) = d.entries.filter (keeps rs)
  | [], _, _ => rfl
  | r :: noted, d, h => by
    obtain ⟨hr, h⟩ := List.forall_mem_cons.1 h
    rw [record_cons, filter_record noted _ h, note]
    cases hn : r.distance? with
    | none => rfl
    | some n =>
      have hdrop : ∀ e : NodeId × Nat, e.1 = r.id → keeps rs e = false := fun e he => by
        simp only [keeps, List.all_eq_false]
        exact ⟨r, hr, by simp [hn, he]⟩
      simp only [Option.elim_some, insert, erase, List.filter_cons, hdrop (r.id, n) rfl,
        Bool.false_eq_true, if_false, List.filter_filter]
      refine List.filter_congr fun e _ => ?_
      by_cases he : e.1 = r.id
      · simp [hdrop e he]
      · simp [he]

/-- References that are new are forgotten without a trace. -/
theorem forget_record {rs : List Reference} (h : ∀ r ∈ rs, ∀ e ∈ d.entries, e.1 ≠ r.id) :
    (d.record rs).forget rs = d := by
  have hentries : ((d.record rs).forget rs).entries = d.entries := by
    rw [forget_entries, filter_record rs d fun r hr => hr]
    refine List.filter_eq_self.2 fun e he => ?_
    simp only [keeps, List.all_eq_true]
    exact fun r hr => by simp [h r hr e he]
  cases d
  exact congrArg Distances.mk hentries

end Distances

mutual

/-- The references of an expression carry its numbers. -/
theorem Expr.references_perm_ids (names : Names) :
    ∀ e : Expr, ((e.references names).map (·.id)).Perm e.ids
  | .literal _ => .nil
  | .grouping inner => Expr.references_perm_ids names inner
  | .unary _ operand => Expr.references_perm_ids names operand
  | .binary left _ right | .logical left _ right => by
    rw [Expr.references, List.map_append]
    exact (Expr.references_perm_ids names left).append (Expr.references_perm_ids names right)
  | .read _ _ => .refl _
  | .assign id _ value => by
    rw [Expr.references, List.map_append]
    exact List.perm_append_comm.trans ((Expr.references_perm_ids names value).cons id)
  | .call callee _ arguments => by
    rw [Expr.references, List.map_append]
    exact (Expr.references_perm_ids names callee).append
      (Expr.referencesOfAll_perm_ids names arguments)

theorem Expr.referencesOfAll_perm_ids (names : Names) :
    ∀ es : List Expr, ((Expr.referencesOfAll names es).map (·.id)).Perm (Expr.idsOfAll es)
  | [] => .nil
  | e :: es => by
    rw [Expr.referencesOfAll, List.map_append]
    exact (Expr.references_perm_ids names e).append (Expr.referencesOfAll_perm_ids names es)

end

theorem Expr.referencesOfOption_perm_ids (names : Names) (e? : Option Expr) :
    ((Expr.referencesOfOption names e?).map (·.id)).Perm (Expr.idsOfOption e?) := by
  cases e? with
  | none => exact .nil
  | some e => exact Expr.references_perm_ids names e

mutual

theorem Stmt.references_perm_ids (names : Names) :
    ∀ s : Stmt, ((s.references names).map (·.id)).Perm s.ids
  | .expression value => Expr.references_perm_ids names value
  | .print value => Expr.references_perm_ids names value
  | .var _ initial => Expr.referencesOfOption_perm_ids _ initial
  | .block body => Stmt.referencesOfAll_perm_ids _ body
  | .branch condition onTrue none => by
    rw [Stmt.references, List.map_append]
    exact (Expr.references_perm_ids names condition).append (Stmt.references_perm_ids names onTrue)
  | .branch condition onTrue (some onFalse) => by
    rw [Stmt.references, List.map_append, List.map_append]
    exact ((Expr.references_perm_ids names condition).append
      (Stmt.references_perm_ids names onTrue)).append (Stmt.references_perm_ids names onFalse)
  | .loop condition body => by
    rw [Stmt.references, List.map_append]
    exact (Expr.references_perm_ids names condition).append (Stmt.references_perm_ids names body)
  | .function _ _ body => Stmt.referencesOfAll_perm_ids _ body
  | .exit _ value => Expr.referencesOfOption_perm_ids names value

theorem Stmt.referencesOfAll_perm_ids (names : Names) :
    ∀ ss : List Stmt, ((Stmt.referencesOfAll names ss).map (·.id)).Perm (Stmt.idsOfAll ss)
  | [] => .nil
  | s :: ss => by
    rw [Stmt.referencesOfAll, List.map_append]
    exact (Stmt.references_perm_ids names s).append (Stmt.referencesOfAll_perm_ids _ ss)

end

namespace Distances

/-- Every distance is that of a number below a bound. -/
def Below (d : Distances) (next : NodeId) : Prop :=
  ∀ e ∈ d.entries, e.1 < next

/-- What is recorded of the references with a number below a bound. -/
def known (d : Distances) (next : NodeId) : Known :=
  fun i distance? => i < next ∧ d.get? i = distance?

variable {d : Distances} {id first next : NodeId} {rs : List Reference}

theorem Below.get?_eq_none (h : d.Below first) (hid : first ≤ id) : d.get? id = none := by
  refine List.lookup_eq_none_iff.2 fun e he => bne_iff_ne.2 ?_
  exact (Nat.ne_of_lt (Nat.lt_of_lt_of_le (h e he) hid)).symm

theorem Below.note {r : Reference} (h : d.Below next) (hr : r.id < next) :
    (d.note r).Below next := by
  unfold Distances.note
  cases r.distance? with
  | none => exact h
  | some n =>
    refine List.forall_mem_cons.2 ⟨hr, fun e he => h e ?_⟩
    exact (List.mem_filter.1 he).1

theorem Below.record : ∀ {rs : List Reference} {d : Distances}, d.Below next →
    (∀ r ∈ rs, r.id < next) → (d.record rs).Below next
  | [], _, h, _ => h
  | r :: rs, d, h, hr => by
    obtain ⟨hr, hrs⟩ := List.forall_mem_cons.1 hr
    exact Below.record (d := d.note r) (h.note hr) hrs

theorem Below.mono (h : d.Below first) (hle : first ≤ next) : d.Below next :=
  fun e he => Nat.lt_of_lt_of_le (h e he) hle

section Program

variable {program : List Stmt} (hd : d.Below first)
  (hids : Numbers first next (Stmt.idsOfAll program))

include hids

theorem numbers_references : Numbers first next ((references program).map (·.id)) :=
  hids.perm (Stmt.referencesOfAll_perm_ids [] program).symm

theorem known_kept {last : NodeId} (hlast : last ≤ first) :
    (d.known last).Kept ((d.record (references program)).known next) := by
  have hrefs := numbers_references hids
  rintro id distance? ⟨hid, hget⟩
  have hfirst : id < first := Nat.lt_of_lt_of_le hid hlast
  refine ⟨Nat.lt_of_lt_of_le hfirst hrefs.le, hget ▸ get?_record_of_notMem fun h => ?_⟩
  exact Nat.not_lt_of_le (hrefs.bounds id h).1 hfirst

include hd

/-- The references of a program that is numbered on are recorded with their distances. -/
theorem known_record : ((d.record (references program)).known next).Holds (references program) := by
  have hrefs := numbers_references hids
  intro r hr
  refine ⟨(hrefs.bounds _ (List.mem_map_of_mem hr)).2, get?_record hrefs.nodup ?_ r hr⟩
  exact fun r hr => hd.get?_eq_none (hrefs.bounds _ (List.mem_map_of_mem hr)).1

theorem below_record : (d.record (references program)).Below next :=
  (hd.mono hids.le).record fun _ hr =>
    ((numbers_references hids).bounds _ (List.mem_map_of_mem hr)).2

/-- A program that is refused leaves no distance behind. -/
theorem forget_record_program :
    (d.record (references program)).forget (references program) = d := by
  refine forget_record fun r hr e he => ?_
  have hfirst := ((numbers_references hids).bounds _ (List.mem_map_of_mem hr)).1
  exact Nat.ne_of_lt (Nat.lt_of_lt_of_le (hd e he) hfirst)

end Program

end Distances

end Lox
