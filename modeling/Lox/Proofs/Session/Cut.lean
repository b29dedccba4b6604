import Lox.Proofs.Eval.Traced

/-!
# Runs that are cut short

A program prints to a sink that takes `n` bytes and fails after that. The run goes as it does on a
sink that never fails, up to the first line that does not fit; there it ends. So it prints the first
`n` bytes of the other run, and no statement begins after that line (`Session.run_cut`).

`Limits n x` says so of an evaluation, by how it ends on either sink (`Limited`). It is closed under
everything the evaluator is made of (`Limits.closed`), so it holds of the evaluator.
-/

namespace Lox

/-- What a run does: it begins a statement, or it has a line for the sink. -/
inductive Event where
  | statement (begun : Stmt)
  | line (text : String)

/-- Puts down the statements and the lines. -/
def steps : Probe Event :=
  ⟨fun s => [.statement s], fun text => [.line text], fun _ => [], fun _ => []⟩

def Event.bytes : Event → ByteArray
  | .statement _ => .empty
  | .line text => (text.push '\n').toUTF8

/-- The bytes of all lines. -/
def printed : List Event → ByteArray
  | [] => .empty
  | event :: log => event.bytes ++ printed log

theorem printed_append (log more : List Event) :
    printed (log ++ more) = printed log ++ printed more := by
  induction log with
  | nil => exact ByteArray.empty_append.symm
  | cons event log ih => rw [List.cons_append, printed, printed, ih, ByteArray.append_assoc]

theorem printed_line (log : List Event) (text : String) :
    printed (log ++ [.line text]) = printed log ++ (text.push '\n').toUTF8 := by
  rw [printed_append]
  exact congrArg _ ByteArray.append_empty

/-- What further lines print comes after the first `n` bytes, if there are as many already. -/
theorem extract_printed {log log' : List Event} (h : log <+: log') {n : Nat}
    (hn : n ≤ (printed log).size) : (printed log').extract 0 n = (printed log).extract 0 n := by
  obtain ⟨more, rfl⟩ := h
  rw [printed_append, ByteArray.extract_append, Nat.zero_sub, Nat.sub_eq_zero_of_le hn,
    ByteArray.extract_same, ByteArray.append_empty]

theorem size_printed_le {log log' : List Event} (h : log <+: log') :
    (printed log).size ≤ (printed log').size := by
  obtain ⟨more, rfl⟩ := h
  rw [printed_append, ByteArray.size_append]
  exact Nat.le_add_right _ _

/-- A line that goes over `n` bytes ends them: what is printed further is not in the first `n`. -/
theorem printed_of_full {n : Nat} {before log : List Event} {text : String}
    (hfull : n < (printed (before ++ [.line text])).size) (h : before ++ [.line text] <+: log) :
    n < (printed log).size ∧
      (printed (before ++ [.line text])).extract 0 n = (printed log).extract 0 n ∧
      ∃ after, log = before ++ .line text :: after := by
  refine ⟨Nat.lt_of_lt_of_le hfull (size_printed_le h),
    (extract_printed h (Nat.le_of_lt hfull)).symm, ?_⟩
  obtain ⟨after, rfl⟩ := h
  exact ⟨after, List.append_assoc ..⟩

theorem printed_statement (log : List Event) (s : Stmt) :
    printed (log ++ [.statement s]) = printed log := by
  rw [printed_append]
  exact ByteArray.append_empty

namespace Sink

/-- A sink that never fails, after some lines. -/
def ample (log : List Event) : Sink :=
  ⟨printed log, none, false⟩

/-- A sink for `n` bytes, after some lines. -/
def narrow (n : Nat) (log : List Event) : Sink :=
  ⟨(printed log).extract 0 n, some (n - (printed log).size), false⟩

theorem write_ample (log : List Event) (text : String) :
    (ample log).write (text.push '\n').toUTF8 = (true, ample (log ++ [.line text])) := by
  simp only [ample, write, printed_line]

theorem narrow_of_size_le {n : Nat} {log : List Event} (h : (printed log).size ≤ n) :
    narrow n log = ⟨printed log, some (n - (printed log).size), false⟩ := by
  have hall : (printed log).extract 0 n = printed log :=
    ByteArray.ext (by rw [ByteArray.data_extract, Array.extract_eq_self_of_le h])
  rw [narrow, hall]

/-- What does not fit any more is cut off. -/
theorem write_narrow {n : Nat} {log : List Event} (h : (printed log).size ≤ n) (text : String) :
    (narrow n log).write (text.push '\n').toUTF8 =
      (decide ((printed (log ++ [.line text])).size ≤ n), narrow n (log ++ [.line text])) := by
  have hfits (size : Nat) : size ≤ n - (printed log).size ↔ (printed log).size + size ≤ n := by
    omega
  simp only [narrow, write, printed_line, ByteArray.extract_append, ByteArray.size_append,
    Nat.zero_sub, Nat.sub_sub, hfits]

end Sink

def Session.onto (S : Session) (sink : Sink) : Session :=
  { S with state := S.state.onto sink }

/-- How a traced evaluation ends. -/
abbrev Ending (α : Type) := EStateM.Result Stop (State × List Event) α

namespace Ending

variable {α : Type}

/-- The end of an evaluation on an ample sink that began after the lines of `log`. -/
inductive Onward (log : List Event) : Ending α → Prop where
  | ok (a : α) (s : State) {log' : List Event} (h : log <+: log') :
    Onward log (.ok a (s.onto (.ample log'), log'))
  | error (stop : Stop) (s : State) {log' : List Event} (h : log <+: log') :
    Onward log (.error stop (s.onto (.ample log'), log'))

theorem Onward.weaken {log log' : List Event} {r : Ending α} (hr : Onward log' r)
    (h : log <+: log') : Onward log r := by
  cases hr with
  | ok a s h' => exact .ok a s (h.trans h')
  | error stop s h' => exact .error stop s (h.trans h')

/-- The end of an evaluation, back in the scope of the caller. -/
def back (caller : ScopeId) : Ending α → Ending α
  | .ok a (s, log) => .ok a ({ s with current := caller }, log)
  | .error stop (s, log) => .error stop ({ s with current := caller }, log)

theorem Onward.back {log : List Event} {r : Ending α} (hr : Onward log r) (caller : ScopeId) :
    Onward log (r.back caller) := by
  cases hr with
  | ok a s h => exact .ok a { s with current := caller } h
  | error stop s h => exact .error stop { s with current := caller } h

/-- How an evaluation ends on a sink for `n` bytes, next to how it ends on an ample one: in the same
way if its lines fit, and at the first line that does not. -/
inductive Limited (n : Nat) : Ending α → Ending α → Prop where
  | ok (a : α) (s : State) {log : List Event} (h : (printed log).size ≤ n) :
    Limited n (.ok a (s.onto (.ample log), log)) (.ok a (s.onto (.narrow n log), log))
  | error (stop : Stop) (s : State) {log : List Event} (h : (printed log).size ≤ n) :
    Limited n (.error stop (s.onto (.ample log), log)) (.error stop (s.onto (.narrow n log), log))
  | full {r : Ending α} {log : List Event} {text : String} (s : State)
    (h : (printed log).size ≤ n) (hfull : n < (printed (log ++ [.line text])).size)
    (hr : Onward (log ++ [.line text]) r) :
    Limited n r (.error (.error (.sink .full))
      (s.onto (.narrow n (log ++ [.line text])), log ++ [.line text]))

theorem Limited.back {n : Nat} {r r' : Ending α} (h : Limited n r r') (caller : ScopeId) :
    Limited n (r.back caller) (r'.back caller) := by
  cases h with
  | ok a s h => exact .ok a { s with current := caller } h
  | error stop s h => exact .error stop { s with current := caller } h
  | full s h hfull hr => exact .full { s with current := caller } h hfull (hr.back caller)

end Ending

open Ending

theorem Traced.within_eq_back {α : Type} (scope : ScopeId) (x : Traced Event α) (s : State)
    (log : List Event) :
    Traced.within scope x (s, log) =
      Ending.back s.current (x ({ s with current := scope }, log)) := by
  simp only [Traced.within]
  cases x ({ s with current := scope }, log) <;> rfl

theorem Traced.printLine_onto (text : String) (s : State) (sink : Sink) (log : List Event) :
    Traced.printLine steps text (s.onto sink, log) =
      match sink.write (text.push '\n').toUTF8 with
      | (true, sink) => .ok () (s.onto sink, log ++ [.line text])
      | (false, sink) => .error (.error (.sink .full)) (s.onto sink, log ++ [.line text]) := by
  have hprint : Traced.printLine steps text (s.onto sink, log) =
      Traced.attach (log ++ [.line text]) (Eval.printLine text (s.onto sink)) := rfl
  have hsink : (s.onto sink).sink = sink := rfl
  rw [hprint, Eval.printLine, hsink]
  rcases sink.write (text.push '\n').toUTF8 with ⟨fits, sink⟩
  cases fits <;> rfl

/-- An evaluation that ends on a sink for `n` bytes as on an ample one, up to the first line that
does not fit. -/
structure Limits {α : Type} (n : Nat) (x : Traced Event α) : Prop where
  onward (s : State) (log : List Event) : Onward log (x (s.onto (.ample log), log))
  limited (s : State) (log : List Event) (h : (printed log).size ≤ n) :
    Limited n (x (s.onto (.ample log), log)) (x (s.onto (.narrow n log), log))

namespace Limits

variable {α β : Type} {n : Nat} {x : Traced Event α} {f : α → Traced Event β}

theorem lift {y : Eval α} (hy : y.Blind) : Limits n (Traced.lift y) where
  onward s log := by
    change Onward log (Traced.attach log (y _))
    rw [hy s]
    cases y s with
    | ok a s' => exact .ok a s' (List.prefix_refl log)
    | error stop s' => exact .error stop s' (List.prefix_refl log)
  limited s log h := by
    change Limited n (Traced.attach log (y _)) (Traced.attach log (y _))
    rw [hy s, hy s]
    cases y s with
    | ok a s' => exact .ok a s' h
    | error stop s' => exact .error stop s' h

theorem bind (hx : Limits n x) (hf : ∀ a, Limits n (f a)) : Limits n (x >>= f) where
  onward s log := by
    have h := hx.onward s log
    simp only [Bind.bind, EStateM.bind]
    generalize x (s.onto (.ample log), log) = r at h
    cases h with
    | ok a s' h => exact ((hf a).onward s' _).weaken h
    | error stop s' h => exact .error stop s' h
  limited s log hn := by
    have h := hx.limited s log hn
    simp only [Bind.bind, EStateM.bind]
    generalize x (s.onto (.ample log), log) = r at h
    generalize x (s.onto (.narrow n log), log) = r' at h
    cases h with
    | ok a s' h => exact (hf a).limited s' _ h
    | error stop s' h => exact .error stop s' h
    | full s' h hfull hr =>
      -- The narrow run has ended; on the ample sink whatever comes next comes after this line.
      refine .full s' h hfull ?_
      cases hr with
      | ok a s' h => exact ((hf a).onward s' _).weaken h
      | error stop s' h => exact .error stop s' h

theorem within {scope : ScopeId} (hx : Limits n x) : Limits n (Traced.within scope x) where
  onward s log := by
    rw [Traced.within_eq_back]
    exact (hx.onward { s with current := scope } log).back s.current
  limited s log h := by
    rw [Traced.within_eq_back, Traced.within_eq_back]
    exact (hx.limited { s with current := scope } log h).back s.current

/-- A statement that begins prints nothing by that. -/
theorem statement (begun : Stmt) : Limits n (Traced.note (steps.statement begun)) where
  onward s log := by
    have hsink : Sink.ample log = .ample (log ++ [.statement begun]) := by
      simp only [Sink.ample, printed_statement]
    rw [hsink]
    exact .ok () s (List.prefix_append _ _)
  limited s log h := by
    rw [← printed_statement log begun] at h
    have hample : Sink.ample log = .ample (log ++ [.statement begun]) := by
      simp only [Sink.ample, printed_statement]
    have hnarrow : Sink.narrow n log = .narrow n (log ++ [.statement begun]) := by
      simp only [Sink.narrow, printed_statement]
    rw [hample, hnarrow]
    exact .ok () s h

/-- The line is written, or it is the first one that does not fit. -/
theorem printLine (text : String) : Limits n (Traced.printLine steps text) where
  onward s log := by
    rw [Traced.printLine_onto, Sink.write_ample]
    exact .ok () s (List.prefix_append _ _)
  limited s log h := by
    rw [Traced.printLine_onto, Traced.printLine_onto, Sink.write_ample, Sink.write_narrow h]
    by_cases hfull : (printed (log ++ [.line text])).size ≤ n
    · rw [decide_eq_true hfull]
      exact .ok () s hfull
    · rw [decide_eq_false hfull]
      exact .full s h (Nat.lt_of_not_le hfull) (.ok () s (List.prefix_refl _))

theorem read (id : NodeId) (name : Token) : Limits n (Traced.read steps id name) := by
  have hlift : Traced.read steps id name = Traced.lift (Eval.read id name) := by
    funext ⟨s, log⟩
    exact congrArg (Traced.attach · (Eval.read id name s)) (List.append_nil log)
  rw [hlift]
  exact lift (.read id name)

theorem assign (own? : Option String) (id : NodeId) (name : Token) (v : Value) :
    Limits n (Traced.assign steps own? id name v) := by
  have hlift : Traced.assign steps own? id name v = Traced.lift (Eval.assign id name v) := by
    funext ⟨s, log⟩
    exact congrArg (Traced.attach · (Eval.assign id name v s)) (List.append_nil log)
  rw [hlift]
  exact lift (.assign id name v)

end Limits

/-- Everything the evaluator is made of ends on a sink for `n` bytes as on an ample one, up to the
first line that does not fit. -/
theorem Limits.closed (n : Nat) : Traced.Closed steps fun x _ => Limits n x where
  lift hblind _ := .lift hblind
  bind := .bind
  within := .within
  statement s hx := (Limits.statement s).bind fun _ => hx
  printLine := .printLine
  read := .read
  assign := .assign

/-- The flush at the end succeeds on both sinks. -/
theorem interpret_limits (n fuel : Nat) (program : List Stmt) :
    Limits n (Traced.interpret steps fuel program) where
  onward s log := by
    have h := ((Limits.closed n).executeProgram fuel program).onward s log
    unfold Traced.interpret
    generalize Traced.executeProgram steps fuel program (s.onto (.ample log), log) = r at h
    cases h with
    | ok a s' h => exact .ok a s' h
    | error stop s' h => cases stop <;> exact .error _ s' h
  limited s log hn := by
    have h := ((Limits.closed n).executeProgram fuel program).limited s log hn
    unfold Traced.interpret
    generalize Traced.executeProgram steps fuel program (s.onto (.ample log), log) = r at h
    generalize Traced.executeProgram steps fuel program (s.onto (.narrow n log), log) = r' at h
    cases h with
    | ok a s' h => exact .ok a s' h
    | error stop s' h => cases stop <;> exact .error _ s' h
    | full s' h hfull hr =>
      refine .full s' h hfull ?_
      cases hr with
      | ok a s' h => exact .ok a s' h
      | error stop s' h => cases stop <;> exact .error _ s' h

theorem State.resolve_onto (s : State) (sink : Sink) (program : List Stmt) :
    (s.onto sink).resolve program =
      ((s.resolve program).1, (s.resolve program).2.onto sink) := by
  have hnames : (s.onto sink).globalNames = s.globalNames := rfl
  unfold State.resolve
  rw [hnames]
  cases violations s.globalNames program <;> rfl

/-- Whether a source is refused, and which program it is otherwise, does not depend on the sink. -/
theorem Traced.run_onto {ε : Type} (p : Probe ε) (fuel : Nat) (source : String) (S : Session) :
    (∃ (report : Report) (T : Session), ∀ sink,
      Traced.run p fuel source (S.onto sink) = (⟨some report, T.onto sink⟩, [])) ∨
    ∃ (program : List Stmt) (next : NodeId) (s : State), ∀ sink,
      Traced.run p fuel source (S.onto sink) =
        Traced.runProgram p fuel program next (s.onto sink) := by
  let parse := Grammar.parseProgram S.nextId (tokens source)
  have hparse (sink : Sink) :
      Grammar.parseProgram (S.onto sink).nextId (tokens source) = parse := rfl
  unfold Traced.run
  simp only [hparse]
  cases parse.result with
  | error faults => exact .inl ⟨_, ⟨S.state, parse.nextId⟩, fun _ => rfl⟩
  | ok program =>
    dsimp only
    split
    · exact .inl ⟨_, ⟨S.state, parse.nextId⟩, fun _ => rfl⟩
    · have hresolve (sink : Sink) : (S.onto sink).state.resolve program = _ :=
        S.state.resolve_onto sink program
      simp only [hresolve]
      rcases S.state.resolve program with ⟨_ | ⟨fault, faults⟩, s⟩
      · exact .inr ⟨program, parse.nextId, s, fun _ => rfl⟩
      · exact .inl ⟨_, ⟨s, parse.nextId⟩, fun _ => rfl⟩

/-- A run on a sink for `n` bytes does what it does on a sink that never fails, if what is printed
there fits. Otherwise it prints the first `n` bytes of that and ends in the error of the sink, at
the first line that does not fit; until then it takes the same steps, and none after it. -/
theorem Session.run_cut (S : Session) (fuel n : Nat) (source : String) :
    let free := Traced.run steps fuel source (S.onto .unbounded)
    let tight := Traced.run steps fuel source (S.onto ⟨.empty, some n, false⟩)
    free.1 = (S.onto .unbounded).run fuel source ∧
    tight.1 = (S.onto ⟨.empty, some n, false⟩).run fuel source ∧
    let output := free.1.session.state.sink.written
    output = printed free.2 ∧
    (output.size ≤ n →
      tight.1.report? = free.1.report? ∧
      tight.1.session = free.1.session.onto ⟨output, some (n - output.size), false⟩ ∧
      tight.2 = free.2) ∧
    (n < output.size →
      tight.1.session.state.sink.written = output.extract 0 n ∧
      tight.1.report? = some { runtime := (RuntimeError.sink .full).diagnostic } ∧
      ∃ before text after,
        free.2 = before ++ .line text :: after ∧ tight.2 = before ++ [.line text] ∧
        (printed before).size ≤ n ∧ n < (printed (before ++ [.line text])).size) := by
  intro free tight
  refine ⟨Traced.run_fst steps fuel source _, Traced.run_fst steps fuel source _, ?_⟩
  have hempty : (printed []).size ≤ n := Nat.zero_le n
  have hnarrow : (⟨.empty, some n, false⟩ : Sink) = .narrow n [] :=
    (Sink.narrow_of_size_le hempty).symm
  rcases Traced.run_onto steps fuel source S with ⟨report, T, hrefused⟩ | ⟨program, next, s, hrun⟩
  · have hfree : free = _ := hrefused _
    have htight : tight = _ := hrefused _
    rw [hfree, htight]
    exact ⟨rfl, fun _ => ⟨rfl, rfl, rfl⟩, fun h => absurd h (Nat.not_lt_zero n)⟩
  · have hfree : free = Traced.runProgram steps fuel program next (s.onto (.ample [])) := hrun _
    have htight : tight = Traced.runProgram steps fuel program next (s.onto (.narrow n [])) := by
      rw [← hnarrow]
      exact hrun _
    have h := (interpret_limits n fuel program).limited s [] (Nat.zero_le n)
    unfold Traced.runProgram at hfree htight
    rw [hfree, htight]
    clear hfree htight
    generalize Traced.interpret steps fuel program (s.onto (.ample []), []) = r at h
    generalize Traced.interpret steps fuel program (s.onto (.narrow n []), []) = r' at h
    cases h with
    | ok a s' h =>
      refine ⟨rfl, fun _ => ⟨rfl, ?_, rfl⟩, fun hn => absurd hn (Nat.not_lt_of_le h)⟩
      rw [Sink.narrow_of_size_le h]
      rfl
    | error stop s' h =>
      cases stop <;> exact
        ⟨rfl, fun _ => ⟨rfl, by rw [Sink.narrow_of_size_le h]; rfl, rfl⟩,
          fun hn => absurd hn (Nat.not_lt_of_le h)⟩
    | @full _ before text s' h hfull hr =>
      cases hr with
      | ok a s hlog =>
        obtain ⟨hsize, hextract, after, hafter⟩ := printed_of_full hfull hlog
        exact ⟨rfl, fun hn => absurd hn (Nat.not_le_of_lt hsize), fun _ =>
          ⟨hextract, rfl, before, text, after, hafter, rfl, h, hfull⟩⟩
      | error stop s hlog =>
        obtain ⟨hsize, hextract, after, hafter⟩ := printed_of_full hfull hlog
        cases stop <;> exact ⟨rfl, fun hn => absurd hn (Nat.not_le_of_lt hsize), fun _ =>
          ⟨hextract, rfl, before, text, after, hafter, rfl, h, hfull⟩⟩

/-- On a sink for six bytes the second line of `print true; print nil; print true;` is cut after one
byte, and the third one is not printed; all three fit on one for fourteen bytes. -/
theorem Session.run_cut_second_line :
    let S := Session.initial Float.ofNat .unbounded
    let source := "print true; print nil; print true;"
    let free := Traced.run steps 9 source (S.onto .unbounded)
    let tight := Traced.run steps 9 source (S.onto ⟨.empty, some 6, false⟩)
    let wide := Traced.run steps 9 source (S.onto ⟨.empty, some 14, false⟩)
    6 < free.1.session.state.sink.written.size ∧
      tight.1.session.state.sink.written = "true\nn".toUTF8 ∧
      tight.1.report? = some { runtime := (RuntimeError.sink .full).diagnostic } ∧
      free.2.length = 6 ∧ tight.2.length = 4 ∧
      free.1.session.state.sink.written.size ≤ 14 ∧
      wide.1.report? = free.1.report? ∧ wide.2 = free.2 := by
  intro S source free tight wide
  have hsize : 6 < free.1.session.state.sink.written.size := by decide +kernel
  have hfits : free.1.session.state.sink.written.size ≤ 14 := by decide +kernel
  obtain ⟨hwritten, hreport, -⟩ := (S.run_cut 9 6 source).2.2.2.2 hsize
  obtain ⟨hsame, -, hsteps⟩ := (S.run_cut 9 14 source).2.2.2.1 hfits
  refine ⟨hsize, ?_, hreport, by decide +kernel, by decide +kernel, hfits, hsame, hsteps⟩
  have hprefix : free.1.session.state.sink.written.extract 0 6 = "true\nn".toUTF8 := by
    decide +kernel
  exact hwritten.trans hprefix

end Lox
