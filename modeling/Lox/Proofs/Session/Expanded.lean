import Lox.Proofs.Binding.Unlined
import Lox.Proofs.Grammar.Expansion
import Lox.Proofs.Lexical.Unlined
import Lox.Proofs.Session.Refused

/-!
# Counted loops and their expansions run alike

Two sources that spell the same program up to lines and numbers get the same report up to lines,
print the same, and leave a session that prints the same from then on (`Session.Follows.run_alike`).
So do a source with a `for` and the source in which it is written out (`for_expands`), whose
increment is bound as though its body declared nothing.
-/

namespace Lox

/-- The same message on no line. -/
def Diagnostic.unlined : Diagnostic → Diagnostic
  | lexical message _ => lexical message 0
  | grammar message token => grammar message token.unlined
  | binding message token => binding message token.unlined
  | runtime message token => runtime message token.unlined
  | sink message => sink message

/-- The same report on no line. -/
def Report.unlined (r : Report) : Report where
  lexical := r.lexical.map (·.unlined)
  grammar := r.grammar.map (·.unlined)
  binding := r.binding.map (·.unlined)
  runtime := r.runtime.map (·.unlined)

theorem Report.ofStop?_unlined (stop? : Option Stop) :
    (ofStop? stop?).map (·.unlined) = ofStop? (stop?.map (·.unlined)) := by
  rcases stop? with _ | ⟨_ | _⟩ | _ <;> rfl

theorem BindingError.map_diagnostic_unlined (faults : List BindingError) :
    (faults.map (·.diagnostic)).map (·.unlined) =
      (faults.map (·.unlined)).map (·.diagnostic) := by
  rw [List.map_map, List.map_map]
  rfl

namespace Lexical

theorem stop?_unlinedEnd {α β : Type} (g : α → β) (xs : EStateM.Result Stop State α) :
    stop? (unlinedEnd g xs) = (stop? xs).map (·.unlined) := by
  cases xs <;> rfl

theorem stateOf_unlinedEnd {α β : Type} (g : α → β) (xs : EStateM.Result Stop State α) :
    stateOf (unlinedEnd g xs) = (stateOf xs).unlined := by
  cases xs <;> rfl

variable {r r' : State} {n : Nat} {p q : List Stmt}

/-- Programs that are the same without lines end alike in states that are. -/
theorem interpret_alike (hr : r.unlined = r'.unlined)
    (hpq : Stmt.unlinedAll p = Stmt.unlinedAll q) :
    (stop? (interpret n p r)).map (·.unlined) = (stop? (interpret n q r')).map (·.unlined) ∧
      (stateOf (interpret n p r)).unlined = (stateOf (interpret n q r')).unlined := by
  rw [← stop?_unlinedEnd id, ← stop?_unlinedEnd id, ← stateOf_unlinedEnd id,
    ← stateOf_unlinedEnd id, ← interpret_unlined n p r, ← interpret_unlined n q r', hr, hpq]
  exact ⟨rfl, rfl⟩

/-- Sources that spell the same without lines leave states that are the same without lines. -/
theorem State.run_alike {a b : String} (hr : r.unlined = r'.unlined)
    (hab : (program? r.globalNames a).map Stmt.unlinedAll =
      (program? r'.globalNames b).map Stmt.unlinedAll) :
    (r.run n a).unlined = (r'.run n b).unlined := by
  unfold State.run
  cases ha : program? r.globalNames a <;> cases hb : program? r'.globalNames b <;>
    rw [ha, hb] at hab
  · exact hr
  · cases hab
  · cases hab
  · exact (interpret_alike hr (Option.some.inj hab)).2

theorem State.after_alike : ∀ (sources : List (Nat × String)) {r r' : State},
    r.unlined = r'.unlined → (r.after sources).unlined = (r'.after sources).unlined
  | [], _, _, hr => hr
  | (n, source) :: sources, r, r', hr => by
    have hnames : r.globalNames = r'.globalNames := by
      rw [← r.globalNames_unlined, hr, r'.globalNames_unlined]
    exact State.after_alike sources (State.run_alike hr (hnames ▸ rfl))

end Lexical

namespace Session

/-- Whatever ran before, both sources get the same report up to lines, and after them any others
print the same. -/
def RunAlike (a b : String) : Prop :=
  ∀ (clock : Nat → Float) (sink : Sink) (before : List (Nat × String)) (n : Nat),
    let S := (Session.initial clock sink).after before
    (S.run n a).report?.map (·.unlined) = (S.run n b).report?.map (·.unlined) ∧
      ∀ later, ((S.run n a).session.after later).state.sink =
        ((S.run n b).session.after later).state.sink

variable {S : Session} {r : Lexical.State} {a b : String} {p q : List Stmt}

/-- The report on a program that is read. -/
theorem Follows.report?_eq (h : S.Follows r) (ha : lexicalErrors a = [])
    (hp : (Grammar.parseProgram S.nextId (tokens a)).result = .ok p) (n : Nat) :
    (S.run n a).report? = match violations S.state.globalNames p with
      | [] => Report.ofStop? (stop? (Lexical.interpret n (Stmt.unnumberedAll p) r))
      | faults => some { binding := faults.map (·.diagnostic) } := by
  cases hv : violations S.state.globalNames p with
  | nil =>
    refine h.not_refused ?_
    simp [h.program?_eq, hp, ha, hv]
  | cons fault faults =>
    rw [Session.run_eq h.below]
    simp [hp, ha, hv]

/-- Sources that spell the same up to lines and numbers run alike. -/
theorem Follows.run_alike (h : S.Follows r) (ha : lexicalErrors a = []) (hb : lexicalErrors b = [])
    (hp : (Grammar.parseProgram S.nextId (tokens a)).result = .ok p)
    (hq : (Grammar.parseProgram S.nextId (tokens b)).result = .ok q) (hpq : Stmt.SameText p q)
    (n : Nat) :
    (S.run n a).report?.map (·.unlined) = (S.run n b).report?.map (·.unlined) ∧
      (r.run n a).unlined = (r.run n b).unlined := by
  have hlines := Stmt.sameText_iff.1 hpq
  have hv : (violations S.state.globalNames p).map (·.unlined) =
      (violations S.state.globalNames q).map (·.unlined) := by
    rw [← violations_unnumbered (fun _ => Iff.rfl) p, ← violations_unnumbered (fun _ => Iff.rfl) q,
      ← violations_unlined, ← violations_unlined, hlines]
  have hempty : (violations S.state.globalNames p).isEmpty =
      (violations S.state.globalNames q).isEmpty := by
    simpa using congrArg List.isEmpty hv
  constructor
  · rw [h.report?_eq ha hp, h.report?_eq hb hq]
    cases hvp : violations S.state.globalNames p <;>
      cases hvq : violations S.state.globalNames q <;> rw [hvp, hvq] at hv
    · dsimp only
      rw [Report.ofStop?_unlined, Report.ofStop?_unlined, (Lexical.interpret_alike rfl hlines).1]
    · cases hv
    · cases hv
    · simp only [Option.map_some, Report.unlined, BindingError.map_diagnostic_unlined, hv]
  · refine Lexical.State.run_alike rfl ?_
    rw [h.program?_eq, h.program?_eq, hp, hq]
    simp only [ha, hb, hempty]
    split
    · exact congrArg some hlines
    · rfl

theorem runAlike (ha : lexicalErrors a = []) (hb : lexicalErrors b = [])
    (hab : ∀ firstId, ∃ p q, (Grammar.parseProgram firstId (tokens a)).result = .ok p ∧
      (Grammar.parseProgram firstId (tokens b)).result = .ok q ∧ Stmt.SameText p q) :
    RunAlike a b := by
  intro clock sink before n S
  have h : S.Follows _ := (Session.follows_initial clock sink).after before
  obtain ⟨p, q, hp, hq, hpq⟩ := hab S.nextId
  obtain ⟨hreport, hstate⟩ := h.run_alike ha hb hp hq hpq n
  refine ⟨hreport, fun later => ?_⟩
  rw [((h.run n a).after later).sink, ((h.run n b).after later).sink]
  have hsink := congrArg Lexical.State.sink (Lexical.State.after_alike later hstate)
  exact hsink

end Session

/-! ## The increment -/

namespace Lexical

variable {α : Type} {env : Env}

/-- A run after which the environment is the one before, unless it returns. -/
def Stays (env : Env) (x : Eval Flow) : Prop :=
  ∀ r env' r', x r = .ok (.normal env') r' → env' = env

namespace Stays

theorem pure_normal : Stays env (pure (.normal env)) := by
  rintro r _ _ ⟨⟩
  rfl

theorem pure_returned (v : Value) : Stays env (pure (.returned v)) := by
  rintro r _ _ ⟨⟩

theorem outOfFuel : Stays env Eval.outOfFuel := by
  rintro r _ _ ⟨⟩

theorem bind {x : Eval α} {f : α → Eval Flow} (hf : ∀ a, Stays env (f a)) :
    Stays env (x >>= f) := by
  intro r env' r' h
  simp only [Bind.bind, EStateM.bind] at h
  cases hx : x r with
  | ok a s =>
    rw [hx] at h
    exact hf a s env' r' h
  | error stop s =>
    rw [hx] at h
    cases h

end Stays

theorem repeatWhile_stays (condition : Expr) (body : Stmt) :
    ∀ n, Stays env (repeatWhile n env condition body)
  | 0 => .outOfFuel
  | n + 1 => .bind fun _ => .bind fun v => by
    split
    · refine .bind fun flow => ?_
      cases flow with
      | normal _ => exact repeatWhile_stays condition body n
      | returned v => exact .pure_returned v
    · exact .pure_normal

/-- A statement leaves the environment as it was. -/
theorem execute_stays : ∀ (n : Nat) (s : Stmt), s.Proper → s.declared? = none →
    Stays env (execute n env s)
  | 0, _, _, _ => .outOfFuel
  | n + 1, .expression _, _, _ => .bind fun _ => .pure_normal
  | n + 1, .print _, _, _ => .bind fun _ => .bind fun _ => .pure_normal
  | n + 1, .block _, _, _ => .bind fun flow => by
    cases flow with
    | normal _ => exact .pure_normal
    | returned v => exact .pure_returned v
  | n + 1, .branch _ onTrue none, ⟨hd, hp⟩, _ => .bind fun v => by
    split
    · exact execute_stays n onTrue hp hd
    · exact .pure_normal
  | n + 1, .branch _ onTrue (some onFalse), ⟨⟨hd, hp⟩, hd', hp'⟩, _ => .bind fun v => by
    split
    · exact execute_stays n onTrue hp hd
    · exact execute_stays n onFalse hp' hd'
  | n + 1, .loop condition body, _, _ => repeatWhile_stays condition body n
  | n + 1, .exit _ _, _, _ => .bind fun v => .pure_returned v

end Lexical

namespace Sentence

open Grammar

theorem references_round {isOpen : Bool} {ss : List Token} {body s : Stmt} {e : Expr}
    (hb : Statement (.statement isOpen) ss body) (hs : s.unnumbered = body) (names : Names) :
    (Stmt.block [s, .expression e]).references names =
      s.references ([] :: names) ++ e.references ([] :: names) := by
  have hnone : s.declared? = none := by
    rw [← Stmt.declared?_unnumbered, hs]
    exact hb.proper.2 isOpen rfl
  simp only [Stmt.references, Stmt.referencesOfAll, Names.after, hnone, List.append_nil]

/-- A `for` is its expansion, whatever its clauses: both are read as the same tree up to lines and
numbers, alone and in every program where no `else` follows, and both run alike. Its increment is
bound where the loop stands and not in its body, and is evaluated in the environment in force
there. -/
theorem for_expands {is cs ns ss : List Token} {initial : Option Stmt}
    {condition increment : Option Expr} {body : Stmt} {isOpen : Bool}
    {keyword opening semicolon closing : Token} (hk : keyword.kind = .keyword .forKw)
    (ho : opening.kind = .symbol .leftParen) (hi : ForInitial is initial)
    (hc : Optional cs condition) (hs : semicolon.kind = .symbol .semicolon)
    (hn : Optional ns increment) (hp : closing.kind = .symbol .rightParen)
    (hb : Statement (.statement isOpen) ss body) (g : Scaffold) :
    let ws := forTokens keyword opening semicolon closing is cs ns ss
    let ws' := g.expand is cs ns ss
    SpellsAs ws ws' ∧
      (∀ pre post a b, NoElse post → lexicalErrors a = [] → lexicalErrors b = [] →
        beforeEnd (tokens a) = pre ++ ws ++ post →
        (beforeEnd (tokens b)).map (·.unlined) = (pre ++ ws' ++ post).map (·.unlined) →
        (∃ p, (parseProgram 0 (tokens a)).result = .ok p) → Session.RunAlike a b) ∧
      (∀ names s e, s.unnumbered = body → some e.unnumbered = increment →
        (Stmt.block [s, .expression e]).references names =
          s.references ([] :: names) ++ e.references ([] :: names)) ∧
      ∀ n env r env' r', Lexical.execute n env body r = .ok (.normal env') r' → env' = env := by
  intro ws ws'
  have hspells : SpellsAs ws ws' := .of_programs (.counted hk hi hc hs hn hp hb ho)
    fun pre post program hpost h => h.expanded hk hi hc hs hn hp hb g hpost
  refine ⟨hspells, fun pre post a b hpost ha hb hts hus ⟨p, hp⟩ => ?_, ?_, ?_⟩
  · refine Session.runAlike ha hb fun firstId => ?_
    obtain ⟨p', hp', -⟩ := parseProgram_unnumbered hp firstId
    obtain ⟨q, hq, hpq⟩ := hspells.inside pre post _ _ firstId firstId p' hpost hts hus hp'
    exact ⟨p', q, hp', hq, hpq⟩
  · exact fun names s e hs _ => references_round hb hs names
  · exact fun n env => Lexical.execute_stays n body hb.proper.1 (hb.proper.2 isOpen rfl)

/-- A loop with all its clauses. -/
theorem for_expands_clauses :
    let word (k : Keyword) : Token := ⟨.keyword k, k.spelling, 1⟩
    let mark (s : Symbol) : Token := ⟨.symbol s, s.spelling, 1⟩
    let x : Token := ⟨.identifier, "x", 1⟩
    let is := [word .varKw, x, mark .semicolon]
    let ss := [word .printKw, x, mark .semicolon]
    let g : Scaffold := ⟨mark .leftBrace, word .whileKw, mark .leftParen, word .trueKw,
      mark .rightParen, mark .leftBrace, mark .semicolon, mark .rightBrace, mark .rightBrace,
      rfl, rfl, rfl, rfl, rfl, rfl, rfl, rfl, rfl⟩
    let ws := forTokens (word .forKw) (mark .leftParen) (mark .semicolon) (mark .rightParen)
      is [x] [x] ss
    let ws' := g.expand is [x] [x] ss
    let body := Stmt.print (.read 0 x)
    ForInitial is (some (.var x none)) ∧ Optional [x] (some (.read 0 x)) ∧
      Statement (.statement false) ss body ∧
      SpellsAs ws ws' ∧
      (∀ pre post a b, NoElse post → lexicalErrors a = [] → lexicalErrors b = [] →
        beforeEnd (tokens a) = pre ++ ws ++ post →
        (beforeEnd (tokens b)).map (·.unlined) = (pre ++ ws' ++ post).map (·.unlined) →
        (∃ p, (parseProgram 0 (tokens a)).result = .ok p) → Session.RunAlike a b) ∧
      (∀ names s e, s.unnumbered = body → some e.unnumbered = some (Expr.read 0 x) →
        (Stmt.block [s, .expression e]).references names =
          s.references ([] :: names) ++ e.references ([] :: names)) ∧
      ∀ n env r env' r', Lexical.execute n env body r = .ok (.normal env') r' → env' = env := by
  intro word mark x is ss g ws ws' body
  have hi : ForInitial is (some (.var x none)) := .var (.plain _ x _ rfl rfl rfl)
  have hx : Expression .assignment [x] (.read 0 x) :=
    .operand (by decide) (Expression.name x rfl).of_primary
  have hb : Statement (.statement false) ss body := .print _ _ rfl hx rfl
  exact ⟨hi, .some hx, hb, for_expands rfl rfl hi (.some hx) rfl (.some hx) rfl hb g⟩

end Sentence

end Lox
