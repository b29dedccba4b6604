import Lox.Proofs.Lexical.Simulates

/-!
# Variables and scopes keep step

At a place that a frame describes, a reference with the right distance finds the variable at the
location of its name, or the global name (`Matches.reference`). Declarations and new scopes lead
from one frame to the next.
-/

namespace Lox

namespace Scopes

variable {s : Scopes} {i holder : ScopeId} {x : String} {distance : Nat}

theorem holder?_of_root (h : s.parent? i = none) (x : String) :
    s.holder? i x = if s.binds i x then some i else none := by
  unfold holder?
  rw [chain_of_root h, List.find?_singleton]

theorem holderAt?_eq (h : s.ancestor? i distance = some holder) :
    s.holderAt? i distance x = if s.binds holder x then some holder else none := by
  simp [holderAt?, h, Option.filter]

end Scopes

theorem State.valueOf?_eq {s : State} {id : NodeId} {x : String} {scope : ScopeId}
    (h : s.holder? id x = if s.scopes.binds scope x then some scope else none) :
    s.valueOf? id x = (s.scopes.bindings scope).get? x := by
  unfold State.valueOf?
  rw [h]
  split
  · rfl
  · rename_i hb
    exact (by simpa [Scopes.binds, Bindings.binds] using hb :
      (s.scopes.bindings scope).get? x = none).symm

namespace Eval

def defineIn (scope : ScopeId) (x : String) (v : Value) : Eval Unit :=
  modify fun s => { s with scopes := s.scopes.define scope x v }

def bindIn (scope : ScopeId) : List (String × Value) → Eval Unit
  | [] => return ()
  | (x, v) :: bindings => do
    defineIn scope x v
    bindIn scope bindings

theorem bindIn_eq (scope : ScopeId) : ∀ (bindings : List (String × Value)) (s : State),
    bindIn scope bindings s = .ok () { s with
      scopes := bindings.foldl (fun scopes b => scopes.define scope b.1 b.2) s.scopes }
  | [], _ => rfl
  | _ :: bindings, _ => bindIn_eq scope bindings _

/-- A new scope is added empty, and then its names are bound. -/
theorem newScope_eq (parent? : Option ScopeId) (bindings : List (String × Value)) (s : State) :
    newScope parent? bindings s =
      ((fun _ => s.scopes.size) <$> bindIn s.scopes.size bindings)
        { s with scopes := (s.scopes.add parent?).2 } := by
  simp only [Functor.map, EStateM.map, bindIn_eq]
  rfl

end Eval

namespace Lexical

variable {α α' β β' : Type} {known : Known} {o : Option ScopeId} {base w : World}
  {cur scope : ScopeId} {names : Names} {own? : Option String} {env : Env} {id : NodeId}
  {x : String} {name : Token}

/-- The scope that a reference leads to holds the value of its name, and a value that is put there
is put where the name stands. -/
theorem Matches.reference {s : Lox.State} {r : State} (h : Matches known w s r)
    (hf : w.Frame names own? s.current env) (hk : known id (names.distance? x)) : ∃ holder,
    s.holder? id x = (if s.scopes.binds holder x then some holder else none) ∧
    AgreesOption known w (r.valueOf? env x) ((s.scopes.bindings holder).get? x) ∧
    ∀ v v', Agrees known w v v' →
      Matches known w { s with scopes := s.scopes.define holder x v' } (r.put env x v) := by
  have hd := h.distances id _ hk
  unfold State.holder? State.valueOf? State.put
  rw [hd]
  cases hx : names.distance? x with
  | none =>
    rw [hf.globals x hx]
    exact ⟨_, Scopes.holder?_of_root h.parent?_globals x, h.globals x,
      fun v v' hv => h.defineGlobal hv⟩
  | some distance =>
    obtain ⟨holder, l, ha, hl, hs, hv, -⟩ := h.local_slot hf hx
    rw [hl]
    exact ⟨holder, Scopes.holderAt?_eq ha, hv,
      fun v v' hv => h.fill hs (fun _ h => h) (fun _ h => .inr h) hv⟩

theorem Matches.fresh_push {s : Lox.State} {r : State} (h : Matches known w s r)
    (parent? : Option ScopeId) :
    (w.push parent?).Fresh w.parents.length ([] :: names) := by
  intro x hx
  obtain ⟨l, hl⟩ := List.mem_iff_getElem?.1 hx
  exact absurd (h.slot l _ x hl).2.1 (Nat.lt_irrefl _)

theorem Matches.fresh_globals {s : Lox.State} {r : State} (h : Matches known w s r) :
    w.Fresh Lox.State.globals names := by
  intro x hx
  obtain ⟨l, hl⟩ := List.mem_iff_getElem?.1 hx
  exact absurd rfl (h.slot l _ x hl).1

namespace Simulates

theorem read (hf : w.Frame names own? cur env) (hk : known id (names.distance? name.lexeme)) :
    Simulates known o base w cur (Lox.Eval.read id name) (Eval.read env name)
      fun w' v v' => Agrees known w' v' v := by
  intro hb s r hm hc
  subst hc
  obtain ⟨holder, hh, hv, -⟩ := hm.reference hf hk
  simp only [Lox.Eval.read, Eval.read, Lox.State.valueOf?_eq hh]
  rcases hv.none_or_some with ⟨hr, hs⟩ | ⟨v, v', hr, hs, hv⟩
  · rw [hr, hs]
    exact .error hm rfl
  · rw [hr, hs]
    exact .ok (.refl w) hb hm rfl hv

theorem assign {v : Value} {v' : Lox.Value} (hf : w.Frame names own? cur env)
    (hk : known id (names.distance? name.lexeme)) (hv : Agrees known w v v') :
    Simulates known o base w cur (Lox.Eval.assign id name v') (Eval.assign env name v)
      fun _ _ _ => True := by
  intro hb s r hm hc
  subst hc
  obtain ⟨holder, hh, hval, hput⟩ := hm.reference hf hk
  simp only [Lox.Eval.assign, Eval.assign, hh, Scopes.binds, Bindings.binds]
  rcases hval.none_or_some with ⟨hr, hs⟩ | ⟨_, _, hr, hs, -⟩
  · simp only [hr, hs]
    exact .error hm rfl
  · simp only [hr, hs]
    exact .ok (.refl w) hb (hput v v' hv) rfl trivial

theorem here {k : ScopeId → Lox.Eval α} {y : Eval β} {post : World → α → β → Prop}
    (h : Simulates known o base w cur (k cur) y post) :
    Simulates known o base w cur (Lox.Eval.here >>= k) y post := by
  intro hb s r hm hc
  subst hc
  exact h hb s r hm rfl

/-- A new location for a name of a scope, which makes no difference to the scopes. -/
theorem allocate {x : Lox.Eval α} {k : Location → Eval β} {post : World → α → β → Prop}
    {y : String} (ho : o = some scope ∨ base.parents.length ≤ scope)
    (hg : scope ≠ Lox.State.globals) (hlt : scope < w.parents.length)
    (hnew : (scope, y) ∉ w.slots)
    (h : Simulates known o base (w.grow scope y) cur x (k w.slots.length) post) :
    Simulates known o base w cur x (Eval.allocate >>= k) post := by
  intro hb s r hm hc
  have hrel := h (World.extends_grow hb ho y) s _ (hm.grow hg hlt hnew) hc
  have hk : (Eval.allocate >>= k) r =
      k w.slots.length { r with nextLocation := r.nextLocation + 1 } := by
    rw [← hm.nextLocation]
    rfl
  rw [hk]
  generalize x s = xs at hrel ⊢
  generalize k w.slots.length { r with nextLocation := r.nextLocation + 1 } = ys at hrel ⊢
  cases hrel with
  | ok le ext hm hc hp => exact .ok ((w.le_grow scope y).trans le) ext hm hc hp
  | error hm hc => exact .error hm hc

theorem define {l : Nat} {v : Value} {v' : Lox.Value}
    (hl : w.slots[l]? = some (cur, name.lexeme)) (hv : Agrees known (w.define l) v v') :
    Simulates known o base w cur (Lox.Eval.define name v') (Eval.fill l v)
      fun w' _ _ => w' = w.define l := by
  intro hb s r hm hc
  subst hc
  have hext := World.extends_define o w l
  exact .ok hext.le (hb.trans hext) (hm.fill hl hext.le.ready (fun _ h => h) hv) rfl rfl

theorem defineGlobal {v : Value} {v' : Lox.Value} (hv : Agrees known w v v') :
    Simulates known o base w Lox.State.globals (Lox.Eval.define name v')
      (Eval.defineGlobal name v) fun _ _ _ => True := by
  intro hb s r hm hc
  have hm' := hm.defineGlobal (x := name.lexeme) hv
  rw [← hc] at hm'
  exact .ok (.refl w) hb hm' hc trivial

theorem newClosure (f : Function) (env : Env) :
    Simulates known o base w cur (Lox.Eval.newClosure f cur) (Eval.newClosure f.unnumbered env)
      fun w' v v' => w' = w ∧ ∃ i, v = .callable (.closure i f cur) ∧
        v' = .closure i f.unnumbered env := by
  intro hb s r hm hc
  have hm' : Matches known w { s with nextFunction := s.nextFunction + 1 }
      { r with nextFunction := r.nextFunction + 1 } :=
    { hm with nextFunction := congrArg (· + 1) hm.nextFunction }
  exact .ok (.refl w) hb hm' hc ⟨rfl, s.nextFunction, rfl, by rw [← hm.nextFunction]⟩

theorem defineIn {l : Nat} {y : String} {v : Value} {v' : Lox.Value}
    (hl : w.slots[l]? = some (scope, y)) (hv : Agrees known (w.define l) v v') :
    Simulates known o base w cur (Lox.Eval.defineIn scope y v') (Eval.fill l v)
      fun w' _ _ => w' = w.define l := by
  intro hb s r hm hc
  have hext := World.extends_define o w l
  exact .ok hext.le (hb.trans hext) (hm.fill hl hext.le.ready (fun _ h => h) hv) hc rfl

/-- Names are bound one after the other in a new scope, each with a location of its own. -/
theorem bindIn {inner : ScopeId} (hi : base.parents.length ≤ inner) :
    ∀ {params : List String} {vs : List Value} {vs' : List Lox.Value} {earlier : List String}
      {w : World} {env : Env}, AgreesAll known w vs vs' → params.length = vs.length →
      params.Nodup → (∀ x ∈ params, x ∉ earlier) → w.Frame (earlier :: names) none inner env →
      w.Fresh inner (earlier :: names) →
      Simulates known o base w cur (Lox.Eval.bindIn inner (params.zip vs'))
        (Eval.extend env (params.zip vs))
        fun w' _ env' => w'.Frame ((params.reverse ++ earlier) :: names) none inner env' ∧
          w'.Fresh inner ((params.reverse ++ earlier) :: names)
  | [], _, _, _, _, _, _, _, _, _, hf, hfresh => .pure ⟨hf, hfresh⟩
  | x :: params, _, _, earlier, w, env, .cons hv hvs, hlen, hnodup, hnew, hf, hfresh => by
    obtain ⟨hx, hnodup⟩ := List.nodup_cons.1 hnodup
    obtain ⟨hxe, hnew⟩ := List.forall_mem_cons.1 hnew
    have hgrow := w.le_grow inner x
    have hself : (w.grow inner x).slots[w.slots.length]? = some (inner, x) := by simp [World.grow]
    refine .allocate (.inr hi) (hf.ne_globals) hf.lt (hfresh.notMem hxe) ?_
    have hdefine := (World.extends_define none (w.grow inner x) w.slots.length).le
    refine .bind (defineIn hself (hv.mono (hgrow.trans hdefine) fun _ _ h => h)) ?_
    rintro _ _ _ hle rfl
    have hnew' : ∀ y ∈ params, y ∉ x :: earlier := by
      intro y hy
      simp only [List.mem_cons, not_or]
      exact ⟨fun h => hx (h ▸ hy), hnew y hy⟩
    refine (bindIn hi (AgreesAll.mono hvs (hgrow.trans hle)) (by simpa using hlen) hnodup hnew'
      (hf.declare x).define hfresh.declare).mono ?_
    intro w' _ env' _ h
    simpa using h

theorem enter {k : ScopeId → Lox.Eval α} {y : Eval β} {post : World → α → β → Prop}
    (hf : w.Frame names none scope env)
    (h : ∀ w' inner, w.Le w' → base.parents.length ≤ inner → w'.Frame ([] :: names) none inner env →
      w'.Fresh inner ([] :: names) → Simulates known o base w' cur (k inner) y post) :
    Simulates known o base w cur (Lox.Eval.newScope (some scope) [] >>= k) y post := by
  intro hb s r hm hc
  have hext := World.extends_push o w (some scope)
  have hi : base.parents.length ≤ s.scopes.size := hm.size ▸ hb.le.length_le
  have hrel := h (w.push (some scope)) s.scopes.size hext.le hi (hm.size ▸ hf.enter)
    (hm.size ▸ hm.fresh_push (some scope)) (hb.trans hext) _ r (hm.push (some scope)) hc
  exact hrel.since hext.le

theorem newScope {params : List String} {vs : List Value} {vs' : List Lox.Value}
    (hf : w.Frame names none scope env) (hvs : AgreesAll known w vs vs')
    (hlen : params.length = vs.length) (hnodup : params.Nodup) :
    Simulates known o base w cur (Lox.Eval.newScope (some scope) (params.zip vs'))
      (Eval.extend env (params.zip vs)) fun w' inner env' => base.parents.length ≤ inner ∧
        w'.Frame (params :: names) none inner env' ∧ w'.Fresh inner (params :: names) := by
  intro hb s r hm hc
  have hext := World.extends_push o w (some scope)
  have hi : base.parents.length ≤ s.scopes.size := hm.size ▸ hb.le.length_le
  have hbind : Simulates known o base (w.push (some scope)) cur
      (Lox.Eval.bindIn s.scopes.size (params.zip vs')) (Eval.extend env (params.zip vs)) _ :=
    bindIn hi (AgreesAll.mono hvs hext.le) hlen hnodup (by simp) (hm.size ▸ hf.enter)
      (hm.size ▸ hm.fresh_push (some scope))
  have hrel := hbind (hb.trans hext) { s with scopes := (s.scopes.add (some scope)).2 } r
    (hm.push (some scope)) hc
  rw [Lox.Eval.newScope_eq]
  simp only [Functor.map, EStateM.map]
  generalize Lox.Eval.bindIn s.scopes.size (params.zip vs') _ = xs at hrel ⊢
  generalize Eval.extend env (params.zip vs) r = ys at hrel ⊢
  cases hrel with
  | ok le ext hm' hc' hp =>
    refine .ok (hext.le.trans le) ext hm' hc' ⟨hi, ?_, ?_⟩
    · exact hp.1.congr (by simp)
    · exact hp.2.congr (by simp)
  | error hm' hc' => exact .error hm' hc'

end Simulates

end Lexical

end Lox
