import Lox.Proofs.Lexical.Matches

/-!
# Evaluations that keep step

`Simulates known o base w cur x y post` says of an evaluation `x` with scopes, run in the scope
`cur`, and one `y` without, that from states that match in the world `w` both end in the same way:
they stop for the same reason, or they give results that meet `post` in a larger world. Since the
world `base` no scope but `o` got a location, apart from new ones. Either way the states match
again and the scope is the same as before.
-/

namespace Lox.Lexical

variable {α α' β β' : Type} {known : Known} {o : Option ScopeId} {base w : World} {cur : ScopeId}

/-- Two evaluations that ended in the same way. -/
inductive Related (known : Known) (o : Option ScopeId) (base w : World) (cur : ScopeId)
    (post : World → α → β → Prop) :
    EStateM.Result Stop Lox.State α → EStateM.Result Stop State β → Prop where
  | ok {w' : World} {s : Lox.State} {r : State} {a : α} {b : β} (le : w.Le w')
      (ext : base.Extends o w') (hm : Matches known w' s r) (hc : s.current = cur)
      (hp : post w' a b) : Related known o base w cur post (.ok a s) (.ok b r)
  | error {w' : World} {s : Lox.State} {r : State} {stop : Stop} (hm : Matches known w' s r)
      (hc : s.current = cur) : Related known o base w cur post (.error stop s) (.error stop r)

theorem Related.imp {post post' : World → α → β → Prop} {o' : Option ScopeId} {base' : World}
    {xs : EStateM.Result Stop Lox.State α} {ys : EStateM.Result Stop State β}
    (h : Related known o base w cur post xs ys)
    (hp : ∀ w' a b, base.Extends o w' → w.Le w' → post w' a b →
      base'.Extends o' w' ∧ post' w' a b) : Related known o' base' w cur post' xs ys := by
  cases h with
  | ok le ext hm hc hpost =>
    obtain ⟨ext, hpost⟩ := hp _ _ _ ext le hpost
    exact .ok le ext hm hc hpost
  | error hm hc => exact .error hm hc

theorem Related.since {post : World → α → β → Prop} {w₀ : World}
    {xs : EStateM.Result Stop Lox.State α} {ys : EStateM.Result Stop State β}
    (h : Related known o base w cur post xs ys) (hw : w₀.Le w) :
    Related known o base w₀ cur post xs ys := by
  cases h with
  | ok le ext hm hc hpost => exact .ok (hw.trans le) ext hm hc hpost
  | error hm hc => exact .error hm hc

def Simulates (known : Known) (o : Option ScopeId) (base w : World) (cur : ScopeId)
    (x : Lox.Eval α) (y : Eval β) (post : World → α → β → Prop) : Prop :=
  base.Extends o w → ∀ s r, Matches known w s r → s.current = cur →
    Related known o base w cur post (x s) (y r)

namespace Simulates

variable {x : Lox.Eval α} {y : Eval β} {post : World → α → β → Prop}

theorem mono {post' : World → α → β → Prop} (h : Simulates known o base w cur x y post)
    (hp : ∀ w' a b, w.Le w' → post w' a b → post' w' a b) :
    Simulates known o base w cur x y post' :=
  fun hb s r hm hc => (h hb s r hm hc).imp fun _ _ _ ext le hpost => ⟨ext, hp _ _ _ le hpost⟩

theorem pure {a : α} {b : β} (h : post w a b) :
    Simulates known o base w cur (pure a) (pure b) post :=
  fun hb _ _ hm hc => .ok (.refl w) hb hm hc h

/-- One evaluation after the other: the second starts in the world that the first leaves. -/
theorem bind {f : α → Lox.Eval α'} {g : β → Eval β'} {post' : World → α' → β' → Prop}
    (hx : Simulates known o base w cur x y post)
    (hf : ∀ w' a b, w.Le w' → post w' a b → Simulates known o base w' cur (f a) (g b) post') :
    Simulates known o base w cur (x >>= f) (y >>= g) post' := by
  intro hb s r hm hc
  simp only [Bind.bind, EStateM.bind]
  generalize hxs : x s = xs
  generalize hyr : y r = yr
  have hrel := hx hb s r hm hc
  rw [hxs, hyr] at hrel
  cases hrel with
  | error hm hc => exact .error hm hc
  | ok le ext hm hc hpost =>
    rename_i s' r' a b
    have hrel := hf _ _ _ le hpost ext _ _ hm hc
    show Related known o base w cur post' (f a s') (g b r')
    generalize f a s' = fs at hrel ⊢
    generalize g b r' = gs at hrel ⊢
    cases hrel with
    | ok le' ext' hm' hc' hpost' => exact .ok (le.trans le') ext' hm' hc' hpost'
    | error hm' hc' => exact .error hm' hc'

/-- The evaluation without scopes may go on with a result that it has. -/
theorem bind_right {g : β → Eval β'} {post' : World → α → β' → Prop}
    (hx : Simulates known o base w cur x y post)
    (hg : ∀ w' a b, post w' a b → ∃ b', g b = Pure.pure b' ∧ post' w' a b') :
    Simulates known o base w cur x (y >>= g) post' := by
  intro hb s r hm hc
  have hrel := hx hb s r hm hc
  simp only [Bind.bind, EStateM.bind]
  generalize x s = xs at hrel ⊢
  generalize y r = ys at hrel ⊢
  cases hrel with
  | ok le ext hm hc hpost =>
    obtain ⟨b', hb', hpost⟩ := hg _ _ _ hpost
    simp only [hb']
    exact .ok le ext hm hc hpost
  | error hm hc => exact .error hm hc

theorem assume (h : ∀ s r, Matches known w s r → Simulates known o base w cur x y post) :
    Simulates known o base w cur x y post :=
  fun hb s r hm hc => h s r hm hb s r hm hc

/-- An evaluation by itself is one since an earlier world. -/
theorem since (h : Simulates known o w w cur x y post) :
    Simulates known o base w cur x y post :=
  fun hb s r hm hc => (h (.refl o w) s r hm hc).imp fun _ _ _ ext _ hpost =>
    ⟨hb.trans ext, hpost⟩

/-- An evaluation that opens no scope may be part of one that has a scope open. -/
theorem quiet (h : Simulates known none w w cur x y post) :
    Simulates known o base w cur x y fun w' a b => w.Extends none w' ∧ post w' a b :=
  fun hb s r hm hc => (h (.refl none w) s r hm hc).imp fun _ _ _ ext _ hpost =>
    ⟨hb.trans ext.weaken, ext, hpost⟩

/-- A scope that is new may be open inside. -/
theorem within {inner : ScopeId} (h : Simulates known (some inner) w w inner x y post)
    (hi : base.parents.length ≤ inner) :
    Simulates known o base w cur (Lox.Eval.within inner x) y post := by
  intro hb s r hm hc
  have hrel := h (.refl _ w) { s with current := inner } r { hm with } rfl
  simp only [Lox.Eval.within]
  generalize x { s with current := inner } = xs at hrel ⊢
  generalize y r = yr at hrel ⊢
  cases hrel with
  | ok le ext hm _ hpost =>
    refine .ok le ⟨hb.le.trans le, fun scope z hz hs ho => ?_⟩ { hm with } hc hpost
    refine hb.quiet scope z (ext.quiet scope z hz (hb.le.lt_parents hs) ?_) hs ho
    rintro ⟨⟩
    exact Nat.not_lt_of_le hi hs
  | error hm _ => exact .error { hm with } hc

theorem outOfFuel : Simulates known o base w cur Lox.Eval.outOfFuel Eval.outOfFuel post :=
  fun _ _ _ hm hc => .error hm hc

theorem fault (cause : RuntimeFault) (token : Token) :
    Simulates known o base w cur (Lox.Eval.fault cause token) (Eval.fault cause token) post :=
  fun _ _ _ hm hc => .error hm hc

theorem tick : Simulates known o base w cur Lox.Eval.tick Eval.tick fun w' _ _ => w' = w :=
  fun hb _ _ hm hc => .ok (.refl w) hb { hm with ticks := congrArg (· + 1) hm.ticks } hc rfl

theorem readClock : Simulates known o base w cur Lox.Eval.readClock Eval.readClock
    fun w' v v' => Agrees known w' v' v := by
  intro hb s r hm hc
  simp only [Lox.Eval.readClock, Eval.readClock, hm.clock, hm.ticks]
  exact .ok (.refl w) hb hm hc (.plain (by rintro ⟨i, f, scope, h⟩; cases h))

theorem printLine (text : String) :
    Simulates known o base w cur (Lox.Eval.printLine text) (Eval.printLine text)
      fun w' _ _ => w' = w := by
  intro hb s r hm hc
  simp only [Lox.Eval.printLine, Eval.printLine, hm.sink]
  rcases s.sink.write (text.push '\n').toUTF8 with ⟨_ | _, sink⟩
  · have hm : Matches known w { s with sink } { r with sink } := { hm with sink := rfl }
    exact .error hm hc
  · have hm : Matches known w { s with sink } { r with sink } := { hm with sink := rfl }
    exact .ok (.refl w) hb hm hc rfl

theorem operate (op : Token) (result : Except RuntimeFault Lox.Value)
    (h : ∀ v, result = .ok v → ¬ v.IsClosure) :
    Simulates known o base w cur (Lox.Eval.operate op result) (Eval.operate op result)
      fun w' v v' => Agrees known w' v' v := by
  cases result with
  | ok v => exact .pure (.plain (h v rfl))
  | error cause => exact .fault cause op

end Simulates

end Lox.Lexical
