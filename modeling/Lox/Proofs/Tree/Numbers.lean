import Lox.Tree

/-!
# The numbers in a tree

`Numbers first next ids` says that some numbers are distinct and were given out from `first` on,
up to but not including `next`. Numbers given out one after the other can be put together.
-/

namespace Lox

theorem Expr.idsOfAll_eq_flatMap (es : List Expr) : Expr.idsOfAll es = es.flatMap (·.ids) := by
  induction es with
  | nil => rfl
  | cons e es ih => simp [Expr.idsOfAll, ih]

structure Numbers (first next : Nat) (ids : List Nat) : Prop where
  le : first ≤ next
  nodup : ids.Nodup
  bounds : ∀ i ∈ ids, first ≤ i ∧ i < next

namespace Numbers

variable {first middle next : Nat} {ids others : List Nat}

theorem nil (h : first ≤ next) : Numbers first next [] :=
  ⟨h, List.nodup_nil, by simp⟩

theorem single (i : Nat) : Numbers i (i + 1) [i] :=
  ⟨Nat.le_succ i, by simp, by simp⟩

theorem append (h : Numbers first middle ids) (h' : Numbers middle next others) :
    Numbers first next (ids ++ others) := by
  have hle := h.le
  have hle' := h'.le
  refine ⟨by omega, List.nodup_append.2 ⟨h.nodup, h'.nodup, ?_⟩, ?_⟩
  · rintro i hi j hj rfl
    have := h.bounds i hi
    have := h'.bounds i hj
    omega
  · intro i hi
    rcases List.mem_append.1 hi with hi | hi
    · have := h.bounds i hi
      omega
    · have := h'.bounds i hi
      omega

theorem perm (h : Numbers first next ids) (hp : ids.Perm others) : Numbers first next others :=
  ⟨h.le, hp.nodup_iff.1 h.nodup, fun i hi => h.bounds i (hp.mem_iff.2 hi)⟩

/-- The number that comes last may be listed first. -/
theorem cons_last (h : Numbers first next ids) : Numbers first (next + 1) (next :: ids) := by
  have hle := h.le
  refine ⟨by omega, List.nodup_cons.2 ⟨fun hi => ?_, h.nodup⟩, ?_⟩
  · have := h.bounds next hi
    omega
  · intro i hi
    rcases List.mem_cons.1 hi with rfl | hi
    · omega
    · have := h.bounds i hi
      omega

/-- Earlier numbers may go unused. -/
theorem of_le (h : Numbers middle next ids) (hle : first ≤ middle) : Numbers first next ids :=
  ⟨Nat.le_trans hle h.le, h.nodup, fun i hi => ⟨Nat.le_trans hle (h.bounds i hi).1,
    (h.bounds i hi).2⟩⟩

end Numbers

end Lox
