import Lox.Eval.State
import Lox.Proofs.Scope.Chain

/-!
# Reading and writing variables

A variable is looked for in the nearest scope of a chain that binds its name, or in the scope a
given number of steps outwards and nowhere else. Either way a read and a write come to the same slot
(`Scopes.slot?`), the name in one scope, or to none. A write changes that slot and nothing else, so
every read that comes to the slot gives the new value and every other read what it gave before
(`reads_agree_with_writes`). The evaluator reads and writes in these ways (`Eval.read_eq`,
`Eval.assign_eq`).
-/

namespace Lox

namespace Scopes

/-- The scope whose slot a name stands for: the one `distance?` steps outwards, or the nearest one
if no distance is given. -/
def slot? (s : Scopes) (e : ScopeId) (distance? : Option Nat) (x : String) : Option ScopeId :=
  match distance? with
  | some d => s.holderAt? e d x
  | none => s.holder? e x

def value? (s : Scopes) (e : ScopeId) (distance? : Option Nat) (x : String) : Option Value :=
  match distance? with
  | some d => s.findAt? e d x
  | none => s.find? e x

def put? (s : Scopes) (e : ScopeId) (distance? : Option Nat) (x : String) (v : Value) :
    Option Scopes :=
  match distance? with
  | some d => s.assignAt? e d x v
  | none => s.assign? e x v

/-- The same scopes, but for one name of one scope and its value. -/
structure SetAt (s : Scopes) (i : ScopeId) (x : String) (v : Value) (t : Scopes) : Prop where
  size : t.size = s.size
  parent? : ∀ j, t.parent? j = s.parent? j
  get? : ∀ j y, (t.bindings j).get? y = if j = i ∧ y = x then some v else (s.bindings j).get? y

variable {s t : Scopes} {e i : ScopeId} {distance? : Option Nat} {x y : String} {u v : Value}

theorem lt_size_of_binds (h : s.binds i x = true) : i < s.size := by
  refine Nat.lt_of_not_le fun hle => ?_
  have hnone : s.all[i]? = none := Array.getElem?_eq_none hle
  simp [binds, bindings, hnone, Bindings.binds, Bindings.get?] at h

theorem value?_eq : s.value? e distance? x =
    (s.slot? e distance? x).bind fun i => (s.bindings i).get? x := by
  cases distance? <;> rfl

theorem put?_eq : s.put? e distance? x v =
    (s.slot? e distance? x).map fun i => s.define i x v := by
  cases distance? <;> rfl

theorem binds_of_slot? (h : s.slot? e distance? x = some i) : s.binds i x = true := by
  cases distance? with
  | none => exact List.find?_some (p := (s.binds · x)) h
  | some d => exact (holderAt?_eq_some_iff.1 h).2

/-- A slot that is found has a value. -/
theorem value?_eq_some_of_slot? (h : s.slot? e distance? x = some i) :
    ∃ u, s.value? e distance? x = some u := by
  rw [value?_eq, h]
  exact Option.isSome_iff_exists.1 (binds_of_slot? h)

theorem slot?_of_value? (h : s.value? e distance? x = some u) :
    ∃ i, s.slot? e distance? x = some i := by
  rw [value?_eq] at h
  obtain ⟨i, hi, -⟩ := Option.bind_eq_some_iff.1 h
  exact ⟨i, hi⟩

/-- The nearest scope is the one at its own distance. -/
theorem slot?_of_nearest (h : s.Acyclic) {d : Nat} (hn : s.Nearest e x d i) :
    s.slot? e (some d) x = s.slot? e none x :=
  (holderAt?_eq_some_iff.2 ⟨hn.ancestor?, hn.binds⟩).trans
    ((holder?_eq_some_iff h).2 ⟨d, hn⟩).symm

theorem setAt_define (h : s.binds i x = true) : s.SetAt i x v (s.define i x v) where
  size := size_define
  parent? _ := parent?_define
  get? _ _ := get?_define (lt_size_of_binds h)

namespace SetAt

variable (h : s.SetAt i x v t) (hb : s.binds i x = true)

include h hb

/-- A name that was bound stays so, and no other one is. -/
theorem binds (j : ScopeId) (y : String) : t.binds j y = s.binds j y := by
  by_cases hj : j = i ∧ y = x
  · obtain ⟨rfl, rfl⟩ := hj
    rw [hb, binds_iff, h.get?, if_pos ⟨rfl, rfl⟩]
    exact Option.some_ne_none v
  · simp only [Scopes.binds, Bindings.binds, h.get?, if_neg hj]

theorem slot? (e : ScopeId) (distance? : Option Nat) (y : String) :
    t.slot? e distance? y = s.slot? e distance? y := by
  cases distance? with
  | none => simp only [Scopes.slot?, Scopes.holder?, chain_congr h.parent? h.size, h.binds hb]
  | some d => simp only [Scopes.slot?, Scopes.holderAt?, ancestor?_congr h.parent?, h.binds hb]

/-- What a read gives afterwards: the new value at the slot that was set, and elsewhere what it
gave before. -/
theorem value? (e : ScopeId) (distance? : Option Nat) (y : String) : t.value? e distance? y =
    if s.slot? e distance? y = some i ∧ y = x then some v else s.value? e distance? y := by
  rw [value?_eq, value?_eq, h.slot? hb]
  cases hj : s.slot? e distance? y with
  | none => simp
  | some j => simp [h.get?]

end SetAt

end Scopes

/-- What goes on with the scopes and may fail at a token. -/
abbrev Access := EStateM RuntimeError Scopes

namespace Access

open Scopes

def undefined {α : Type} (name : Token) : Access α :=
  throw (.fault (.undefinedVariable name.lexeme) name)

def read (e : ScopeId) (distance? : Option Nat) (name : Token) : Access Value := fun s =>
  match s.value? e distance? name.lexeme with
  | some v => .ok v s
  | none => undefined name s

def write (e : ScopeId) (distance? : Option Nat) (name : Token) (v : Value) : Access Unit :=
  fun s =>
    match s.put? e distance? name.lexeme v with
    | some t => .ok () t
    | none => undefined name s

variable {s t : Scopes} {e i : ScopeId} {distance? : Option Nat} {name : Token} {u v : Value}
  {error : RuntimeError}

theorem read_eq_ok : read e distance? name s = .ok u t ↔
    s.value? e distance? name.lexeme = some u ∧ t = s := by
  unfold read
  cases s.value? e distance? name.lexeme with
  | none => exact ⟨nofun, nofun⟩
  | some v =>
    constructor
    · rintro ⟨⟩
      exact ⟨rfl, rfl⟩
    · rintro ⟨⟨⟩, rfl⟩
      rfl

theorem write_eq_ok : write e distance? name v s = .ok () t ↔
    ∃ i, s.slot? e distance? name.lexeme = some i ∧ t = s.define i name.lexeme v := by
  unfold write
  rw [put?_eq]
  cases s.slot? e distance? name.lexeme with
  | none => exact ⟨nofun, nofun⟩
  | some i =>
    constructor
    · rintro ⟨⟩
      exact ⟨i, rfl, rfl⟩
    · rintro ⟨_, ⟨⟩, rfl⟩
      rfl

theorem of_read_error (h : read e distance? name s = .error error t) :
    error = .fault (.undefinedVariable name.lexeme) name ∧ t = s := by
  unfold read at h
  split at h
  · cases h
  · cases h
    exact ⟨rfl, rfl⟩

theorem of_write_error (h : write e distance? name v s = .error error t) :
    error = .fault (.undefinedVariable name.lexeme) name ∧ t = s := by
  unfold write at h
  split at h
  · cases h
  · cases h
    exact ⟨rfl, rfl⟩

/-- There is a slot to write to exactly where there is a value to read. -/
theorem write_ok_iff_read_ok : (∃ t, write e distance? name v s = .ok () t) ↔
    ∃ u, read e distance? name s = .ok u s := by
  constructor
  · rintro ⟨t, h⟩
    obtain ⟨i, hi, -⟩ := write_eq_ok.1 h
    obtain ⟨u, hu⟩ := value?_eq_some_of_slot? hi
    exact ⟨u, read_eq_ok.2 ⟨hu, rfl⟩⟩
  · rintro ⟨u, h⟩
    obtain ⟨i, hi⟩ := slot?_of_value? (read_eq_ok.1 h).1
    exact ⟨_, write_eq_ok.2 ⟨i, hi, rfl⟩⟩

/-- A write comes to a slot exactly where a read does: without a distance to the nearest scope of
the chain that binds the name, with one to the scope that many steps out if it binds it. It changes
that slot and no other. Afterwards every read that comes to the slot, from whatever scope, gives the
new value, and every other one gives what it gave before. The distance of the nearest scope makes no
difference. What fails says so at the token and leaves all scopes as they were. -/
theorem reads_agree_with_writes (s : Scopes) (h : s.Acyclic) (e : ScopeId) (name : Token)
    (v : Value) :
    (∀ distance?,
      ((∃ t, write e distance? name v s = .ok () t) ↔ ∃ u, read e distance? name s = .ok u s) ∧
      (∀ t, write e distance? name v s = .ok () t →
        ∃ i, s.slot? e distance? name.lexeme = some i ∧ s.SetAt i name.lexeme v t ∧
          ∀ e' distance?' name' u, read e' distance?' name' t = .ok u t ↔
            if s.slot? e' distance?' name'.lexeme = some i ∧ name'.lexeme = name.lexeme then u = v
            else read e' distance?' name' s = .ok u s) ∧
      ∀ error t,
        read e distance? name s = .error error t ∨ write e distance? name v s = .error error t →
          ∃ cause, error = .fault cause name ∧
            cause.message = "Undefined variable '" ++ name.lexeme ++ "'." ∧ t = s) ∧
    (∀ i, s.slot? e none name.lexeme = some i ↔ ∃ d, s.Nearest e name.lexeme d i) ∧
    (∀ d i, s.slot? e (some d) name.lexeme = some i ↔
      s.ancestor? e d = some i ∧ s.binds i name.lexeme = true) ∧
    ((∃ u, read e none name s = .ok u s) ↔
      ∃ d i, s.ancestor? e d = some i ∧ s.binds i name.lexeme = true) ∧
    ∀ d i, s.Nearest e name.lexeme d i →
      read e (some d) name s = read e none name s ∧
        write e (some d) name v s = write e none name v s := by
  refine ⟨fun distance? => ⟨write_ok_iff_read_ok, fun t ht => ?_, fun error t hfail => ?_⟩,
    fun i => holder?_eq_some_iff h, fun d i => holderAt?_eq_some_iff, ?_, fun d i hn => ?_⟩
  · obtain ⟨i, hi, rfl⟩ := write_eq_ok.1 ht
    have hb := binds_of_slot? hi
    have hset : s.SetAt i name.lexeme v (s.define i name.lexeme v) := setAt_define hb
    refine ⟨i, hi, hset, fun e' distance?' name' u => ?_⟩
    rw [read_eq_ok, read_eq_ok, hset.value? hb]
    split
    · simp [eq_comm]
    · simp
  · have hcause := hfail.elim of_read_error of_write_error
    exact ⟨_, hcause.1, rfl, hcause.2⟩
  · constructor
    · rintro ⟨u, hu⟩
      obtain ⟨i, hi⟩ := slot?_of_value? (read_eq_ok.1 hu).1
      obtain ⟨d, hn⟩ := (holder?_eq_some_iff h).1 hi
      exact ⟨d, i, hn.ancestor?, hn.binds⟩
    · rintro ⟨d, i, ha, hb⟩
      obtain ⟨k, j, hn⟩ := exists_nearest h ha hb
      have hslot : s.slot? e none name.lexeme = some j := (holder?_eq_some_iff h).2 ⟨k, hn⟩
      obtain ⟨u, hu⟩ := value?_eq_some_of_slot? hslot
      exact ⟨u, read_eq_ok.2 ⟨hu, rfl⟩⟩
  · have hslot := slot?_of_nearest h hn
    unfold read write
    rw [value?_eq, value?_eq, put?_eq, put?_eq, hslot]
    exact ⟨rfl, rfl⟩

/-- The globals bind `x`, and two scopes lie in them: what is written from the one is read from the
other. -/
theorem reads_agree_with_writes_siblings :
    let s := ((((empty.add none).2.define 0 "x" .nil).add (some 0)).2.add (some 0)).2
    let x : Token := ⟨.identifier, "x", 1⟩
    s.Acyclic ∧ ∃ t, write 1 none x (.bool true) s = .ok () t ∧
      read 2 none x t = .ok (.bool true) t ∧ read 2 (some 1) x t = .ok (.bool true) t := by
  intro s x
  have hs : s.Acyclic := by
    refine Aged.acyclic (((aged_empty.add (by simp)).define.add ?_).add ?_) <;>
    · rintro _ ⟨⟩
      simp
  have h := reads_agree_with_writes s hs 1 x (.bool true)
  have hfound : ∃ d i, s.ancestor? 1 d = some i ∧ s.binds i x.lexeme = true :=
    ⟨1, 0, rfl, by decide⟩
  obtain ⟨t, ht⟩ := (h.1 none).1.2 (h.2.2.2.1.2 hfound)
  obtain ⟨i, hi, -, hreads⟩ := (h.1 none).2.1 t ht
  have hslot : s.slot? 1 none x.lexeme = some 0 := by decide +kernel
  obtain rfl : 0 = i := Option.some.inj (hslot.symm.trans hi)
  exact ⟨hs, t, ht, (hreads 2 none x _).2 (by rw [if_pos ⟨by decide +kernel, rfl⟩]),
    (hreads 2 (some 1) x _).2 (by rw [if_pos ⟨by decide +kernel, rfl⟩])⟩

end Access

namespace Eval

/-- Goes on with the scopes of a state. -/
def onScopes {α : Type} (x : Access α) : Eval α := fun s =>
  match x s.scopes with
  | .ok a scopes => .ok a { s with scopes }
  | .error error scopes => .error (.error error) { s with scopes }

end Eval

/-- A reference that has a distance is looked for from the current scope on, and any other one from
the globals. -/
def State.home (s : State) (id : NodeId) : ScopeId :=
  match s.distances.get? id with
  | some _ => s.current
  | none => State.globals

theorem State.holder?_eq (s : State) (id : NodeId) (x : String) :
    s.holder? id x = s.scopes.slot? (s.home id) (s.distances.get? id) x := by
  unfold State.holder? State.home
  cases s.distances.get? id <;> rfl

theorem Eval.read_eq (id : NodeId) (name : Token) (s : State) : Eval.read id name s =
    onScopes (Access.read (s.home id) (s.distances.get? id) name) s := by
  unfold Eval.read onScopes Access.read
  rw [Scopes.value?_eq, State.valueOf?, s.holder?_eq]
  cases (s.scopes.slot? (s.home id) (s.distances.get? id) name.lexeme).bind fun i =>
    (s.scopes.bindings i).get? name.lexeme <;> rfl

theorem Eval.assign_eq (id : NodeId) (name : Token) (v : Value) (s : State) :
    Eval.assign id name v s =
      onScopes (Access.write (s.home id) (s.distances.get? id) name v) s := by
  unfold Eval.assign onScopes Access.write
  rw [Scopes.put?_eq, s.holder?_eq]
  cases s.scopes.slot? (s.home id) (s.distances.get? id) name.lexeme <;> rfl

end Lox
