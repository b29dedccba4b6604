import Lox.Grammar
import Lox.Proofs.Grammar.Reads
import Lox.Proofs.Grammar.Sentence
import Lox.Proofs.Tree.Numbers
import Lox.Proofs.Tree.Unnumbered
import Mathlib.Tactic.SplitIfs

/-!
# Expressions that are read are sentences

A rule of expressions that is read without a complaint took a sentence of its rank, built that
sentence's tree, and numbered the tree's references with numbers of its own
(`expression_reads`).
-/

namespace Lox.Grammar

open Sentence

/-- An expression of a rank stands between two rows, its references numbered between them. -/
def Spells (rank : Rank) (row : Row) (e : Expr) (row' : Row) : Prop :=
  ∃ ts, row.tokens = ts ++ row'.tokens ∧ Expression rank ts e.unnumbered ∧
    Numbers row.nextId row'.nextId e.ids

theorem Spells.operand {rank : Rank} {row row' : Row} {e : Expr} (hr : rank ≠ .primary)
    (h : Spells rank.tighter row e row') : Spells rank row e row' := by
  obtain ⟨ts, htok, hexp, hids⟩ := h
  exact ⟨ts, htok, .operand hr hexp, hids⟩

/-- A level of operators is a rank of the grammar. -/
structure Level.Fits (level : Level) (rank : Rank) : Prop where
  operators : ∀ t, level.holds t = true ↔ t.kind ∈ rank.operators
  unnumbered : ∀ a op b,
    (level.node a op b).unnumbered = rank.node a.unnumbered op b.unnumbered
  ids : ∀ a op b, (level.node a op b).ids = a.ids ++ b.ids

theorem fits_keyword {rank : Rank} (operator : Keyword)
    (ho : rank.operators = [.keyword operator]) (hn : rank.node = .logical) :
    (Level.keyword operator).Fits rank where
  operators t := by simp [Level.keyword, Token.isKeyword, ho]
  unnumbered a op b := by rw [hn]; rfl
  ids a op b := rfl

theorem fits_symbols {rank : Rank} (operators : List Symbol)
    (ho : rank.operators = operators.map .symbol) (hn : rank.node = .binary) :
    (Level.symbols operators).Fits rank where
  operators t := by
    simp only [Level.symbols, List.any_eq_true, Token.isSymbol, decide_eq_true_eq, ho,
      List.mem_map]
    constructor <;> rintro ⟨s, hs, h⟩ <;> exact ⟨s, hs, h.symm⟩
  unnumbered a op b := by rw [hn]; rfl
  ids a op b := rfl

section Binary

variable {level : Level} {rank : Rank} {side : Reader Expr}

theorem Spells.node {start row next row' : Row} {a b : Expr} {op : Token} (hf : level.Fits rank)
    (ha : Spells rank start a row) (hop : level.holds op = true)
    (htok : row.tokens = op :: next.tokens) (hid : next.nextId = row.nextId)
    (hb : Spells rank.tighter next b row') : Spells rank start (level.node a op b) row' := by
  obtain ⟨ts, hts, hexp, hids⟩ := ha
  obtain ⟨us, hus, hexp', hids'⟩ := hb
  refine ⟨ts ++ op :: us, by simp [hts, htok, hus], ?_, ?_⟩
  · rw [hf.unnumbered]
    exact .operator op ((hf.operators op).1 hop) hexp hexp'
  · rw [hf.ids]
    exact hids.append (hid ▸ hids')

theorem chain_reads (hf : level.Fits rank) (hs : Reads side (Spells rank.tighter)) :
    ∀ n left, Reads (chain level side n left) fun row e row' =>
      ∀ start, Spells rank start left row → Spells rank start e row'
  | 0, left => (Reads.pure left).mono (by rintro row e row' ⟨rfl, rfl⟩ start h; exact h)
  | n + 1, left => by
    refine (Reads.ifAccept (Reads.pure left) fun op _ =>
      hs.bind fun right => chain_reads hf hs n (level.node left op right)).mono ?_
    rintro row e row' (⟨-, rfl, rfl⟩ | ⟨op, next, hop, htok, hid, right, mid, hr, h⟩) start hl
    · exact hl
    · exact h start (hl.node hf hop htok hid hr)

theorem level_reads (rank : Rank) {n : Nat} {operand : Reader Expr} {tighter : List Level}
    (hr : rank ≠ .primary) (hf : level.Fits rank)
    (h : Reads (binary n operand tighter) (Spells rank.tighter)) :
    Reads (binary n operand (level :: tighter)) (Spells rank) := by
  refine (h.bind fun left => chain_reads hf h n left).mono ?_
  rintro row e row' ⟨left, mid, hl, hc⟩
  exact hc row (hl.operand hr)

theorem binary_reads {n : Nat} {operand : Reader Expr} (h : Reads operand (Spells .unary)) :
    Reads (binary n operand levels) (Spells .or) := by
  have hfactor : Reads (binary n operand [.symbols [.slash, .star]]) (Spells .factor) :=
    level_reads .factor (by decide) (fits_symbols _ rfl rfl) h
  have hterm := level_reads .term (by decide) (fits_symbols [.minus, .plus] rfl rfl) hfactor
  have hcomparison := level_reads .comparison (by decide)
    (fits_symbols [.greater, .greaterEqual, .less, .lessEqual] rfl rfl) hterm
  have hequality := level_reads .equality (by decide)
    (fits_symbols [.bangEqual, .equalEqual] rfl rfl) hcomparison
  have hand := level_reads .and (by decide) (fits_keyword .andKw rfl rfl) hequality
  exact level_reads .or (by decide) (fits_keyword _ rfl rfl) hand

end Binary

theorem unary_reads {call : Reader Expr} (h : Reads call (Spells .call)) :
    ∀ n, Reads (unary call n) (Spells .unary)
  | 0 => h.mono fun _ _ _ h => h.operand (by simp)
  | n + 1 => by
    refine (Reads.ifAccept h fun op _ => (unary_reads h n).bind fun e => Reads.pure _).mono ?_
    rintro row e row' (⟨-, h⟩ | ⟨op, next, hop, htok, hid, operand, mid, ⟨ts, hts, hexp, hids⟩,
      rfl, rfl⟩)
    · exact h.operand (by simp)
    · refine ⟨op :: ts, by simp [htok, hts], .unary op ?_ hexp, hid ▸ hids⟩
      simpa [Token.isSymbol] using hop

/-- Items stand between two rows with commas between them. -/
def SpellsAll {α : Type} (S : List Token → α → Prop) (ids : α → List NodeId) (row : Row)
    (items : List α) (row' : Row) : Prop :=
  ∃ parts : List (List Token × α), ∃ ts, row.tokens = ts ++ row'.tokens ∧
    (∀ p ∈ parts, S p.1 p.2) ∧ Separated (parts.map (·.1)) ts ∧ parts.map (·.2) = items ∧
    Numbers row.nextId row'.nextId (items.flatMap ids)

section List

variable {α : Type} {S : List Token → α → Prop} {ids : α → List NodeId} {item : Reader α}
  (h : Reads item fun row a row' => ∃ ts, row.tokens = ts ++ row'.tokens ∧ S ts a ∧
    Numbers row.nextId row'.nextId (ids a))

include h

theorem commaList_reads (excess : SyntaxFault) :
    ∀ n count, Reads (commaList excess item n count) fun row items row' =>
      SpellsAll S ids row items row' ∧ items ≠ [] ∧ count + items.length ≤ maxArity
  | 0, count => by
    unfold commaList
    refine (Reads.complainIf (h.bind fun a => Reads.pure [a])).mono ?_
    rintro row items row' ⟨hc, a, mid, ⟨ts, hts, hS, hids⟩, rfl, rfl⟩
    exact ⟨⟨[(ts, a)], ts, hts, by simpa using hS, .one ts, rfl, by simpa using hids⟩, by simp,
      by simp only [List.length_singleton]; omega⟩
  | n + 1, count => by
    unfold commaList
    refine (Reads.complainIf (h.bind fun a => Reads.ifAccept (Reads.pure [a]) fun _ _ =>
      (commaList_reads excess n (count + 1)).bind fun others => Reads.pure _)).mono ?_
    rintro row items row' ⟨hc, a, mid, ⟨ts, hts, hS, hids⟩, hrest⟩
    rcases hrest with ⟨-, rfl, rfl⟩ | ⟨comma, next, hcomma, htok, hid, others, mid', hall, rfl, rfl⟩
    · exact ⟨⟨[(ts, a)], ts, hts, by simpa using hS, .one ts, rfl, by simpa using hids⟩, by simp,
        by simp only [List.length_singleton]; omega⟩
    · obtain ⟨⟨parts, us, hus, hparts, hsep, rfl, hids'⟩, hne, hlen⟩ := hall
      have hkind : comma.kind = .symbol .comma := by simpa [Token.isSymbol] using hcomma
      rcases parts with _ | ⟨p, parts⟩
      · simp at hne
      refine ⟨⟨(ts, a) :: p :: parts, ts ++ comma :: us, by simp [hts, htok, hus], ?_,
        .more ts comma hkind hsep, rfl, ?_⟩, by simp, by simp at hlen ⊢; omega⟩
      · simpa using ⟨hS, by simpa using hparts⟩
      · exact hids.append (hid ▸ hids')

theorem listToParen_reads (n : Nat) (excess : SyntaxFault) :
    Reads (listToParen n excess item) fun row items row' =>
      SpellsAll S ids row items row' ∧ items.length ≤ 255 := by
  refine (Reads.ifTest (fun _ => rfl) (Reads.pure []) (commaList_reads h excess n 0)).mono ?_
  intro row items row' hall
  split at hall
  · obtain ⟨rfl, rfl⟩ := hall
    exact ⟨⟨[], [], rfl, by simp, .none, rfl, .nil (Nat.le_refl _)⟩, by simp⟩
  · exact ⟨hall.1, by simpa [maxArity] using hall.2.2⟩

end List

theorem calls_reads {n : Nat} {expression : Reader Expr}
    (h : Reads expression (Spells .assignment)) :
    ∀ k callee, Reads (calls n expression k callee) fun row e row' =>
      ∀ start, Spells .call start callee row → Spells .call start e row'
  | 0, callee => (Reads.pure callee).mono (by rintro row e row' ⟨rfl, rfl⟩ start h; exact h)
  | k + 1, callee => by
    unfold calls
    refine (Reads.ifAccept (Reads.pure callee) fun opening _ =>
      (listToParen_reads (S := fun ts (e : Expr) => Expression .assignment ts e.unnumbered) h n
        .tooManyArguments).bind fun arguments =>
      (Reads.symbol .rightParen .arguments).bind fun closing =>
      calls_reads h k (.call callee closing arguments)).mono ?_
    rintro row e row' (⟨-, rfl, rfl⟩ | ⟨opening, next, hop, htok, hid, arguments, mid, hall,
      closing, mid', ⟨hclose, htok', hid'⟩, hrest⟩) start hl
    · exact hl
    · refine hrest start ?_
      obtain ⟨⟨parts, us, hus, hparts, hsep, rfl, hids⟩, hlen⟩ := hall
      obtain ⟨ts, hts, hexp, hids₀⟩ := hl
      refine ⟨ts ++ opening :: us ++ [closing], by simp [hts, htok, hus, htok'], ?_, ?_⟩
      · have hargs : ∀ a ∈ parts.map fun p => (p.1, p.2.unnumbered),
            Expression .assignment a.1 a.2 := by
          intro a ha
          obtain ⟨p, hp, rfl⟩ := List.mem_map.1 ha
          exact hparts p hp
        have hopen : opening.kind = .symbol .leftParen := by simpa [Token.isSymbol] using hop
        have hcall := Expression.call (parts.map fun p => (p.1, p.2.unnumbered)) opening closing
          hexp hopen hargs (by simpa [Function.comp_def] using hsep) (by simpa using hlen) hclose
        simpa [Expr.unnumbered, Expr.unnumberedAll_eq_map, Function.comp_def] using hcall
      · rw [Expr.ids, Expr.idsOfAll_eq_flatMap, hid']
        exact hids₀.append (hid ▸ hids)

theorem denotes_of_literal? {t : Token} {value : Literal} (h : literal? t = some value) :
    Denotes t.kind value := by
  unfold literal? at h
  split at h <;> rename_i hk <;> simp only [Option.some.injEq, reduceCtorEq] at h <;>
    subst h <;> rw [hk] <;> constructor

theorem primary_reads {expression : Reader Expr} (h : Reads expression (Spells .assignment)) :
    Reads (primary expression) (Spells .primary) := by
  unfold primary
  refine (Reads.ifPeek (P := Spells .primary) (R := fun t row e row' =>
    row.tokens = t :: row.tokens.tail → Spells .primary row e row') (Reads.fail _)
    fun t => ?_).mono ?_
  · dsimp only
    rcases hlit : literal? t with _ | value
    · dsimp only
      split_ifs with hname hopen
      · refine (Reads.skip.bind fun _ => Reads.freshId.bind fun id => Reads.pure _).mono ?_
        rintro row e row' ⟨_, mid, ⟨htok, hid⟩, id, mid', ⟨rfl, htok', hid'⟩, rfl, rfl⟩ ht
        refine ⟨[t], ?_, .name t (by simpa [Token.isIdentifier] using hname), ?_⟩
        · rwa [List.singleton_append, htok', htok]
        · rw [← hid, hid']
          exact .single _
      · refine (Reads.skip.bind fun _ => h.bind fun inner =>
          (Reads.symbol .rightParen .expression).bind fun closing => Reads.pure _).mono ?_
        rintro row e row' ⟨_, mid, ⟨htok, hid⟩, inner, mid', ⟨ts, hts, hexp, hids⟩, closing, mid'',
          ⟨hclose, htok', hid'⟩, rfl, rfl⟩ ht
        refine ⟨t :: ts ++ [closing], ?_, .grouping t closing
          (by simpa [Token.isSymbol] using hopen) hexp hclose, ?_⟩
        · rw [ht, ← htok, hts, htok']
          simp
        · rw [← hid, hid']
          exact hids
      · exact Reads.fail _
    · refine (Reads.skip.bind fun _ => Reads.pure _).mono ?_
      rintro row e row' ⟨_, mid, ⟨htok, hid⟩, rfl, rfl⟩ ht
      refine ⟨[t], ?_, .literal t (denotes_of_literal? hlit), hid ▸ .nil (Nat.le_refl _)⟩
      rwa [List.singleton_append, htok]
  · rintro row e row' (⟨-, h⟩ | ⟨t, ht, h⟩)
    · exact h
    · exact h ht

theorem call_reads {n : Nat} {expression : Reader Expr}
    (h : Reads expression (Spells .assignment)) :
    Reads (call n expression) (Spells .call) := by
  refine ((primary_reads h).bind fun callee => calls_reads h n callee).mono ?_
  rintro row e row' ⟨callee, mid, hcallee, hcalls⟩
  exact hcalls row (hcallee.operand (by decide))

theorem node_ne_read (rank : Rank) (a b : Expr) (op : Token) (id : NodeId)
    (name : Token) : rank.node a op b ≠ .read id name := by
  cases rank <;> exact fun h => by cases h

/-- What is left of an assignment is a name by itself if its tree is a read. -/
theorem eq_singleton_of_read {rank : Rank} {ts : List Token} {id : NodeId} {name : Token}
    (h : Expression rank ts (.read id name)) : ts = [name] ∧ name.kind = .identifier := by
  generalize he : Expr.read id name = e at h
  induction h with
  | operand _ _ ih => exact ih he
  | operator op _ _ _ => exact (node_ne_read _ _ _ _ _ _ he.symm).elim
  | name t ht =>
    cases he
    exact ⟨rfl, ht⟩
  | _ => cases he

theorem assignment_reads {n : Nat} {shorter : Reader Expr}
    (h : Reads shorter (Spells .assignment)) :
    Reads (assignment n shorter) (Spells .assignment) := by
  unfold assignment
  refine ((binary_reads (unary_reads (call_reads h) n)).bind fun target =>
    Reads.ifAccept (Reads.pure target) fun equals _ => h.bind fun value =>
      (?_ : Reads (assign target equals value) fun row e row' => ∃ id name,
        target = .read id name ∧ e = .assign row.nextId name value ∧ row'.tokens = row.tokens ∧
          row'.nextId = row.nextId + 1)).mono ?_
  · unfold assign
    split
    · refine (Reads.freshId.bind fun id => Reads.pure _).mono ?_
      rintro row e row' ⟨id, mid, ⟨rfl, htok, hid⟩, rfl, rfl⟩
      exact ⟨_, _, rfl, rfl, htok, hid⟩
    · refine ((Reads.complain _ _).bind fun _ => Reads.pure value).mono ?_
      rintro row e row' ⟨_, _, h, -⟩
      exact h.elim
  · rintro row e row' ⟨target, mid, ⟨ts, hts, hexp, hids⟩, ⟨-, rfl, rfl⟩ | ⟨equals, next, heq, htok,
      hid, value, mid', ⟨us, hus, hval, hids'⟩, id, name, rfl, rfl, htok', hid'⟩⟩
    · exact ⟨ts, hts, .operand (by decide) hexp, hids⟩
    · obtain ⟨rfl, hname⟩ := eq_singleton_of_read hexp
      refine ⟨name :: equals :: us, by simp [hts, htok, hus, htok'],
        .assign name equals hname (by simpa [Token.isSymbol] using heq) hval, ?_⟩
      rw [hid', Expr.ids]
      exact (hids'.of_le (by rw [hid]; exact hids.le)).cons_last

/-- An expression that is read without a complaint is a sentence. -/
theorem expression_reads : ∀ n, Reads (expression n) (Spells .assignment)
  | 0 => Reads.fail _
  | n + 1 => assignment_reads (expression_reads n)

end Lox.Grammar
