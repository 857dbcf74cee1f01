import Mathlib.Data.List.Induction
import ConceptQuery.Proofs.Assembly

/-! # Every phrase is read

The other direction of `Rule.makes_of_read`: what a rule may make, reading does
make, if only it has enough fuel. So it is enough to find, for each phrase and what
stands behind it, how the rule of its level makes it. Nothing that stands behind
may continue the phrase: `Level.continuations` are the kinds that would.
-/
namespace ConceptQuery

namespace Rule
variable {rules : Nonterminal → Rule} {n m : Nat} {rule a b body : Rule} {look : Look}
variable {made made' mid : List (Tree Token)} {ts ts' us : List Token}

/-- More nested calls and rounds do no harm. -/
theorem Makes.mono (h : Makes rules n rule made ts made' ts') (hm : n ≤ m) :
    Makes rules m rule made ts made' ts' := by
  induction h generalizing m with
  | done => exact .done
  | expect h => exact .expect h
  | take => exact .take
  | takeNothing => exact .takeNothing
  | seq _ _ ih₁ ih₂ => exact .seq (ih₁ hm) (ih₂ hm)
  | yes h _ ih => exact .yes h (ih hm)
  | no h _ ih => exact .no h (ih hm)
  | round h _ _ ih₁ ih₂ =>
    obtain ⟨m, rfl⟩ := Nat.exists_eq_add_of_le' (Nat.le_of_add_left_le hm)
    exact .round h (ih₁ hm) (ih₂ (Nat.le_of_succ_le_succ hm))
  | last h => exact .last h
  | node _ ih => exact .node (ih hm)
  | mark _ ih => exact .mark (ih hm)
  | wrap _ ih => exact .wrap (ih hm)
  | call _ ih =>
    obtain ⟨m, rfl⟩ := Nat.exists_eq_add_of_le' (Nat.le_of_add_left_le hm)
    exact .call (ih (Nat.le_of_succ_le_succ hm))

/-- Reading makes what the rule may make. -/
theorem step_of_makes (h : Makes rules n rule made ts made' ts') {fuel : Nat} (hf : n ≤ fuel)
    {xs : List (Tree Token)} {input : List Lexeme} (hx : Tree.bareAll xs = made)
    (hi : input.map Lexeme.token = ts) (hp : ∀ l ∈ input, l.Proper) :
    ∃ ys rest, step rules (read rules fuel) rule xs input = .made ys rest ∧
      Tree.bareAll ys = made' ∧ rest.map Lexeme.token = ts' ∧ ∀ l ∈ rest, l.Proper := by
  induction h generalizing fuel xs input with
  | done => exact ⟨xs, input, rfl, hx, hi, hp⟩
  | expect h =>
    obtain ⟨l, rest, rfl, rfl, rfl⟩ := List.map_eq_cons_iff.mp hi
    refine ⟨xs ++ l.elements, rest, ?_, ?_, rfl, fun k hk => hp k (by simp [hk])⟩
    · rw [step]
      exact if_pos h
    · rw [Tree.bareAll_append, hx, (hp l (by simp)).bareAll_elements]
  | take =>
    obtain ⟨l, rest, rfl, rfl, rfl⟩ := List.map_eq_cons_iff.mp hi
    refine ⟨xs ++ l.elements, rest, rfl, ?_, rfl, fun k hk => hp k (by simp [hk])⟩
    rw [Tree.bareAll_append, hx, (hp l (by simp)).bareAll_elements]
  | takeNothing =>
    obtain rfl := List.map_eq_nil_iff.mp hi
    exact ⟨xs, [], rfl, hx, rfl, hp⟩
  | seq _ _ ih₁ ih₂ =>
    obtain ⟨ys, rest, hfirst, hys, hrest, hproper⟩ := ih₁ hf hx hi hp
    obtain ⟨zs, left, hsecond, h⟩ := ih₂ hf hys hrest hproper
    refine ⟨zs, left, ?_, h⟩
    rw [step, hfirst]
    exact hsecond
  | yes h _ ih =>
    obtain ⟨ys, rest, hbody, h'⟩ := ih hf hx hi hp
    refine ⟨ys, rest, ?_, h'⟩
    rw [step, Look.words_eq_ahead, hi, if_pos h]
    exact hbody
  | no h _ ih =>
    obtain ⟨ys, rest, hbody, h'⟩ := ih hf hx hi hp
    refine ⟨ys, rest, ?_, h'⟩
    rw [step, Look.words_eq_ahead, hi, if_neg (by simp [h])]
    exact hbody
  | round h _ _ ih₁ ih₂ =>
    obtain ⟨fuel, rfl⟩ := Nat.exists_eq_add_of_le' (Nat.le_of_add_left_le hf)
    obtain ⟨ys, rest, hfirst, hys, hrest, hproper⟩ := ih₁ hf hx hi hp
    obtain ⟨zs, left, hmore, h'⟩ := ih₂ (Nat.le_of_succ_le_succ hf) hys hrest hproper
    refine ⟨zs, left, ?_, h'⟩
    rw [step, Look.words_eq_ahead, hi, if_pos h, hfirst]
    exact hmore
  | last h =>
    refine ⟨xs, input, ?_, hx, hi, hp⟩
    rw [step, Look.words_eq_ahead, hi, if_neg (by simp [h])]
  | @node _ k _ _ _ _ _ _ ih =>
    obtain ⟨ys, rest, hbody, hys, h'⟩ := ih hf (show Tree.bareAll [] = [] from rfl) hi hp
    refine ⟨xs ++ [.node k ys], rest, ?_, ?_, h'⟩
    · rw [step, hbody]
    · rw [Tree.bareAll_append, hx, Tree.bareAll, Tree.bare, hys, Tree.bareAll]
  | mark _ ih =>
    obtain ⟨ys, rest, hbody, hys, h'⟩ := ih hf (show Tree.bareAll [] = [] from rfl) hi hp
    refine ⟨xs ++ ys, rest, ?_, ?_, h'⟩
    · rw [step, hbody]
    · rw [Tree.bareAll_append, hx, hys]
  | @wrap _ k _ _ _ _ _ _ ih =>
    obtain ⟨ys, rest, hbody, hys, h'⟩ := ih hf hx hi hp
    refine ⟨[.node k ys], rest, ?_, ?_, h'⟩
    · rw [step, hbody]
    · rw [Tree.bareAll, Tree.bare, hys, Tree.bareAll]
  | call _ ih =>
    obtain ⟨fuel, rfl⟩ := Nat.exists_eq_add_of_le' (Nat.le_of_add_left_le hf)
    exact ih (Nat.le_of_succ_le_succ hf) hx hi hp

/-- What a rule may make in some number of nested calls and rounds. -/
def Reads (rules : Nonterminal → Rule) (rule : Rule) (made : List (Tree Token)) (ts : List Token)
    (made' : List (Tree Token)) (ts' : List Token) : Prop :=
  ∃ n, Makes rules n rule made ts made' ts'

theorem reads_done : Reads rules done made ts made ts :=
  ⟨0, .done⟩

theorem reads_expect {k : TokenKind} {t : Token} (h : t.kind = k) :
    Reads rules (expect k) made (t :: ts) (made ++ [.leaf t]) ts :=
  ⟨0, .expect h⟩

theorem reads_take {t : Token} : Reads rules take made (t :: ts) (made ++ [.leaf t]) ts :=
  ⟨0, .take⟩

theorem Reads.seq (ha : Reads rules a made ts mid us) (hb : Reads rules b mid us made' ts') :
    Reads rules (seq a b) made ts made' ts' := by
  obtain ⟨n, ha⟩ := ha
  obtain ⟨m, hb⟩ := hb
  exact ⟨max n m, .seq (ha.mono (Nat.le_max_left n m)) (hb.mono (Nat.le_max_right n m))⟩

theorem Reads.yes (h : look (Look.ahead ts) = true) (ha : Reads rules a made ts made' ts') :
    Reads rules (branch look a b) made ts made' ts' :=
  ha.imp fun _ ha => .yes h ha

theorem Reads.no (h : look (Look.ahead ts) = false) (hb : Reads rules b made ts made' ts') :
    Reads rules (branch look a b) made ts made' ts' :=
  hb.imp fun _ hb => .no h hb

theorem Reads.round (h : look (Look.ahead ts) = true) (hb : Reads rules body made ts mid us)
    (hl : Reads rules (loop look body) mid us made' ts') :
    Reads rules (loop look body) made ts made' ts' := by
  obtain ⟨n, hb⟩ := hb
  obtain ⟨m, hl⟩ := hl
  have hn : n ≤ max n m + 1 := Nat.le_succ_of_le (Nat.le_max_left n m)
  exact ⟨max n m + 1, .round h (hb.mono hn) (hl.mono (Nat.le_max_right n m))⟩

theorem reads_last (h : look (Look.ahead ts) = false) :
    Reads rules (loop look body) made ts made ts :=
  ⟨0, .last h⟩

theorem Reads.node {k : NodeKind} (h : Reads rules body [] ts mid ts') :
    Reads rules (node k body) made ts (made ++ [.node k mid]) ts' :=
  h.imp fun _ h => .node h

theorem Reads.mark (h : Reads rules body [] ts mid ts') :
    Reads rules (mark body) made ts (made ++ mid) ts' :=
  h.imp fun _ h => .mark h

theorem Reads.wrap {k : NodeKind} (h : Reads rules body made ts mid ts') :
    Reads rules (wrap k body) made ts [.node k mid] ts' :=
  h.imp fun _ h => .wrap h

theorem Reads.call {name : Nonterminal} (h : Reads rules (rules name) made ts made' ts') :
    Reads rules (call name) made ts made' ts' := by
  obtain ⟨n, h⟩ := h
  exact ⟨n + 1, .call h⟩

theorem reads_nil : Reads rules (inOrder []) made ts made ts :=
  reads_done

theorem Reads.cons {more : List Rule} (h : Reads rules rule made ts mid us)
    (hm : Reads rules (inOrder more) mid us made' ts') :
    Reads rules (inOrder (rule :: more)) made ts made' ts' :=
  h.seq hm

theorem Reads.optional (h : look (Look.ahead ts) = true) (ha : Reads rules a made ts made' ts') :
    Reads rules (optional look a) made ts made' ts' :=
  .yes h ha

theorem reads_skip (h : look (Look.ahead ts) = false) :
    Reads rules (optional look a) made ts made ts :=
  .no h reads_done

end Rule

namespace Grammar
open Rule

section Fuel
variable {l : Lexeme} {lexemes : List Lexeme}

/-- With enough fuel, a reading of a statement stands for the same run as any other. -/
theorem ofReading_readStatement {fuel : Nat} (hf : 4 * (l :: lexemes).length + 4 ≤ fuel) :
    Assembly.Run.ofReading [] [] (Rule.read rules fuel statement [] (l :: lexemes)) =
      .ofReading [] [] (readStatement (l :: lexemes)) := by
  have hready : Assembly.Ready Assembly.need true false 3 statement none [] [] (l :: lexemes) :=
    ⟨by decide, by decide, by simp, by simp, by simp⟩
  have hmore := Assembly.followWithin_eq_read Assembly.rules_fit Assembly.rules_anchored
    (4 * (l :: lexemes).length + 4) fuel hready (by omega) (by omega) []
  have hread : Assembly.followWithin rules (4 * (l :: lexemes).length + 4) statement none ⟨[], []⟩
      (l :: lexemes) = some (.ofReading [] [] (readStatement (l :: lexemes))) :=
    Assembly.followWithin_statement (by simp) le_rfl
  exact Option.some.inj (hmore.symm.trans hread)

/-- A statement that may be made of the tokens of some lexemes is what reading
makes of them. -/
theorem readStatement_of_reads {made' : List (Tree Token)} {ts' : List Token}
    (hp : ∀ k ∈ l :: lexemes, k.Proper)
    (h : Reads rules statement [] ((l :: lexemes).map Lexeme.token) made' ts') :
    ∃ ys rest, readStatement (l :: lexemes) = .made ys rest ∧ Tree.bareAll ys = made' ∧
      rest.map Lexeme.token = ts' ∧ ∀ k ∈ rest, k.Proper := by
  obtain ⟨n, h⟩ := h
  let fuel := n + (4 * (l :: lexemes).length + 4)
  obtain ⟨ys, rest, hstep, hys⟩ := step_of_makes h (show n ≤ fuel from Nat.le_add_right _ _)
    (show Tree.bareAll [] = [] from rfl) rfl hp
  refine ⟨ys, rest, ?_, hys⟩
  have hread : Rule.read rules (fuel + 1) statement [] (l :: lexemes) = .made ys rest := hstep
  have hfuel : 4 * (l :: lexemes).length + 4 ≤ fuel + 1 := by
    simp only [fuel]
    omega
  have hsame := ofReading_readStatement hfuel
  rw [hread] at hsame
  cases hr : readStatement (l :: lexemes) with
  | made zs left =>
    rw [hr] at hsame
    simp only [Assembly.Run.ofReading, List.nil_append, Assembly.Run.finished.injEq,
      Assembly.mk.injEq, true_and] at hsame
    rw [hsame.1, hsame.2]
  | stuck u expected left =>
    rw [hr] at hsame
    cases hsame

end Fuel

section Behind
variable {kinds others : List TokenKind} {ts : List Token} {t : Token}

/-- The tokens start with one of these kinds. -/
def Starts (kinds : List TokenKind) (ts : List Token) : Prop :=
  ∃ t us, ts = t :: us ∧ t.kind ∈ kinds

/-- The tokens do not start with any of these kinds; there may be none at all. -/
def Avoids (kinds : List TokenKind) (ts : List Token) : Prop :=
  ∀ t us, ts = t :: us → t.kind ∉ kinds

theorem starts_cons (h : t.kind ∈ kinds) : Starts kinds (t :: ts) :=
  ⟨t, ts, rfl, h⟩

theorem avoids_cons (h : t.kind ∉ kinds) : Avoids kinds (t :: ts) := by
  rintro _ _ ⟨⟩
  exact h

theorem Starts.append {us : List Token} (h : Starts kinds ts) : Starts kinds (ts ++ us) := by
  obtain ⟨t, vs, rfl, ht⟩ := h
  exact ⟨t, vs ++ us, rfl, ht⟩

theorem Starts.weaken (h : Starts kinds ts) (hk : ∀ k ∈ kinds, k ∈ others) : Starts others ts := by
  obtain ⟨t, us, rfl, ht⟩ := h
  exact ⟨t, us, rfl, hk _ ht⟩

theorem Starts.avoids (h : Starts kinds ts) (hk : ∀ k ∈ kinds, k ∉ others) : Avoids others ts := by
  obtain ⟨t, us, rfl, ht⟩ := h
  exact avoids_cons (hk _ ht)

theorem Avoids.weaken (h : Avoids kinds ts) (hk : ∀ k ∈ others, k ∈ kinds) : Avoids others ts :=
  fun t us hts ht => h t us hts (hk _ ht)

theorem sees_cons : Look.sees kinds (Look.ahead (t :: ts)) = kinds.contains t.kind :=
  rfl

theorem thenSees_cons_cons {kind : TokenKind} {u : Token} :
    Look.thenSees kind (Look.ahead (t :: u :: ts)) = decide (u.kind = kind) :=
  rfl

theorem Starts.sees (h : Starts kinds ts) : Look.sees kinds (Look.ahead ts) = true := by
  obtain ⟨t, us, rfl, ht⟩ := h
  rw [sees_cons]
  simpa using ht

theorem Avoids.sees (h : Avoids kinds ts) : Look.sees kinds (Look.ahead ts) = false := by
  cases ts with
  | nil => rfl
  | cons t us =>
    rw [sees_cons]
    simpa using h t us rfl

theorem Avoids.thenSees {kind : TokenKind} (h : Avoids [kind] ts) :
    Look.thenSees kind (Look.ahead (t :: ts)) = false := by
  cases ts with
  | nil => rfl
  | cons u us =>
    rw [thenSees_cons_cons]
    simpa using h u us rfl

end Behind

namespace Level

/-- The rule that reads a level. -/
def rule : Level → Rule
  | disjunction => Grammar.disjunction
  | conjunction => Grammar.conjunction
  | negation => call .negation
  | comparison => Grammar.comparison
  | sum => Grammar.sum
  | product => Grammar.product
  | signed => call .signed
  | atom => Grammar.atom

/-- What stands between a sum and the rest of a comparison. -/
def tests : List TokenKind :=
  comparisonOperators ++ [word .is, word .inWord, word .not]

/-- The kinds that go on with a phrase of the level, or with the last part of it. -/
def continuations : Level → List TokenKind
  | atom | signed => [punct .leftParen]
  | product => punct .leftParen :: operators .product
  | sum => punct .leftParen :: (operators .product ++ operators .sum)
  | comparison | negation => punct .leftParen :: (operators .product ++ operators .sum ++ tests)
  | conjunction => punct .leftParen ::
      (operators .product ++ operators .sum ++ tests ++ operators .conjunction)
  | disjunction => punct .leftParen ::
      (operators .product ++ operators .sum ++ tests ++ operators .conjunction ++
        operators .disjunction)

/-- The kinds that a phrase of the level may start with. -/
def starts : Level → List TokenKind
  | atom => punct .leftParen :: .ident :: word .like :: literalStart
  | signed | product | sum | comparison =>
    punct .minus :: punct .leftParen :: .ident :: word .like :: literalStart
  | _ => word .not :: punct .minus :: punct .leftParen :: .ident :: word .like :: literalStart

variable {l m : Level}

theorem continues_of_tighter (h : l.tighter? = some m) :
    ∀ k ∈ m.continuations, k ∈ l.continuations := by
  cases l <;> cases h <;> decide

theorem starts_of_tighter (h : l.tighter? = some m) : ∀ k ∈ m.starts, k ∈ l.starts := by
  cases l <;> cases h <;> decide

theorem continues_of_operator (l : Level) : ∀ k ∈ l.operators, k ∈ l.continuations := by
  cases l <;> decide

/-- An operator of a level ends the operand in front of it. -/
theorem ends_of_operator (h : l.tighter? = some m) :
    ∀ k ∈ l.operators, k ∉ m.continuations := by
  cases l <;> cases h <;> decide

/-- The rounds of a level that nests to the left. -/
def rounds (l m : Level) : Rule :=
  loop (.sees l.operators) (wrap .binaryExpression (seq take m.rule))

theorem rule_of_operators (h : l.tighter? = some m) (ho : l.operators ≠ []) :
    l.rule = mark (seq m.rule (rounds l m)) := by
  cases l <;> cases h
  case disjunction => rfl
  case conjunction => rfl
  case sum => rfl
  case product => rfl
  all_goals exact absurd rfl ho

end Level

/-- The first token of a phrase. -/
theorem starts_of_phrase {l : Level} {t : Tree Token} (h : Phrase l t) :
    Starts l.starts t.leaves := by
  induction h with
  | tighter h p ih => exact ih.weaken (Level.starts_of_tighter h)
  | chain h ho lhs rhs iha ihb =>
    rw [Tree.leaves, Tree.leavesOf]
    exact iha.append
  | not ht p ih => exact starts_cons (by simp [ht, Level.starts])
  | compare ho lhs rhs iha ihb =>
    rw [Tree.leaves, Tree.leavesOf]
    exact iha.append
  | isNull p hi hn hz ih =>
    rw [Tree.leaves, Tree.leavesOf]
    exact ih.append
  | member p hn hi hl hfirst hcomma hmore hr ih ihfirst ihmore =>
    rw [Tree.leaves, Tree.leavesOf]
    exact ih.append
  | minus ht p ih => exact starts_cons (by simp [ht, Level.starts])
  | literal ht => exact starts_cons (by simp [ht, Level.starts])
  | paren hl p hr ih => exact starts_cons (by simp [hl, Level.starts])
  | @call f l first more r hf hl hfirst hcomma hmore hr ihfirst ihmore =>
    have hstart : ∀ k ∈ [TokenKind.ident, word .like], k ∈ Level.starts .atom := by decide
    exact starts_cons (hstart _ hf)
  | @callNothing f l r hf hl hr =>
    have hstart : ∀ k ∈ [TokenKind.ident, word .like], k ∈ Level.starts .atom := by decide
    exact starts_cons (hstart _ hf)
  | type ht hn => exact starts_cons (by simp [ht, Level.starts])
  | concept ht hn => exact starts_cons (by simp [ht, Level.starts])

section Phrases
variable {made made' : List (Tree Token)} {ts ts' rest : List Token}

/-- The rule of the level makes this tree of its leaves, whatever is behind them
that does not go on with it. -/
def Parses (l : Level) (t : Tree Token) : Prop :=
  ∀ made rest, Avoids l.continuations rest →
    Reads rules l.rule made (t.leaves ++ rest) (made ++ [t]) rest

/-- On a level that nests to the left, the tree is what is there after some rounds:
what further rounds make of it, all rounds make of its leaves. -/
def Leads (l m : Level) (t : Tree Token) : Prop :=
  ∀ rest made' ts', Avoids m.continuations rest →
    Reads rules (l.rounds m) [t] rest made' ts' →
    Reads rules (seq m.rule (l.rounds m)) [] (t.leaves ++ rest) made' ts'

variable {l m : Level} {t a b : Tree Token}

theorem Leads.parses (h : Leads l m t) (ht : l.tighter? = some m) (ho : l.operators ≠ []) :
    Parses l t := by
  intro made rest hrest
  rw [Level.rule_of_operators ht ho]
  have hstop : Look.sees l.operators (Look.ahead rest) = false :=
    (hrest.weaken (Level.continues_of_operator l)).sees
  exact (h _ _ _ (hrest.weaken (Level.continues_of_tighter ht)) (reads_last hstop)).mark

theorem Parses.leads (h : Parses m t) : Leads l m t := by
  intro rest made' ts' hrest hrounds
  exact (h [] rest hrest).seq hrounds

theorem Leads.chain {op : Token} (ht : l.tighter? = some m) (ho : op.kind ∈ l.operators)
    (ha : Leads l m a) (hb : Parses m b) :
    Leads l m (.node .binaryExpression [a, .leaf op, b]) := by
  intro rest made' ts' hrest hrounds
  have hround : Reads rules (l.rounds m) [a] (op :: (b.leaves ++ rest)) made' ts' :=
    .round (starts_cons ho).sees (reads_take.seq (hb _ rest hrest)).wrap hrounds
  have hall := ha _ _ _ (avoids_cons (Level.ends_of_operator ht _ ho)) hround
  simpa [Tree.leaves, Tree.leavesOf] using hall

/-- A phrase on the level that `call` leads to. -/
theorem Parses.expression (h : Parses .disjunction t) {made rest}
    (hrest : Avoids (Level.continuations .disjunction) rest) :
    Reads rules (call .expression) made (t.leaves ++ rest) (made ++ [t]) rest :=
  Reads.call (h made rest hrest)

/-- Items with separators between them: first one item, then rounds. -/
theorem reads_listed {look : Look} {separator : TokenKind} {item : Rule}
    {Item : List (Tree Token) → Prop} (Behind : List Token → Prop)
    (hitem : ∀ {xs made rest}, Item xs → Behind rest →
      Reads rules item made (Tree.leavesOf xs ++ rest) (made ++ xs) rest)
    (hseparator : ∀ {c rest}, c.kind = separator → Behind (c :: rest))
    (hlook : ∀ {c xs rest}, c.kind = separator → Item xs →
      look (Look.ahead (c :: (Tree.leavesOf xs ++ rest))) = true)
    {xs : List (Tree Token)} (h : Listed separator Item xs) :
    ∀ {made rest made' ts'}, Behind rest →
      Reads rules (loop look (seq take item)) (made ++ xs) rest made' ts' →
      ∃ mid us, Reads rules item made (Tree.leavesOf xs ++ rest) mid us ∧
        Reads rules (loop look (seq take item)) mid us made' ts' := by
  induction h with
  | one h =>
    intro made rest made' ts' hrest hrounds
    exact ⟨_, rest, hitem h hrest, hrounds⟩
  | @more xs c ys front hc h ih =>
    intro made rest made' ts' hrest hrounds
    have hround : Reads rules (loop look (seq take item)) (made ++ xs)
        (c :: (Tree.leavesOf ys ++ rest)) made' ts' :=
      .round (hlook hc h) (reads_take.seq (hitem h hrest)) (by simpa using hrounds)
    obtain ⟨mid, us, hfirst, hmore⟩ := ih (hseparator hc) hround
    exact ⟨mid, us, by simpa [Tree.leavesOf, Tree.leaves] using hfirst, hmore⟩

theorem reads_separated {separator : TokenKind} {item : Rule} {Item : List (Tree Token) → Prop}
    (Behind : List Token → Prop)
    (hitem : ∀ {xs made rest}, Item xs → Behind rest →
      Reads rules item made (Tree.leavesOf xs ++ rest) (made ++ xs) rest)
    (hseparator : ∀ {c rest}, c.kind = separator → Behind (c :: rest))
    {xs : List (Tree Token)} (h : Listed separator Item xs) (hrest : Behind rest)
    (hstop : Avoids [separator] rest) :
    Reads rules (separated separator item) made (Tree.leavesOf xs ++ rest) (made ++ xs) rest := by
  have hlook : ∀ {c xs rest}, c.kind = separator → Item xs →
      Look.sees [separator] (Look.ahead (c :: (Tree.leavesOf xs ++ rest))) = true :=
    fun hc _ => (starts_cons (by simp [hc])).sees
  obtain ⟨mid, us, hfirst, hmore⟩ := reads_listed Behind hitem hseparator hlook h hrest
    (reads_last hstop.sees)
  exact hfirst.seq hmore

theorem listed_of_strung {P : Tree Token → Prop} {first : Tree Token}
    {more : List (Token × Tree Token)} (hfirst : P first)
    (hcomma : ∀ p ∈ more, p.1.kind = punct .comma) (hmore : ∀ p ∈ more, P p.2) :
    Listed (punct .comma) (One P) (strung first more) := by
  induction more using List.reverseRecOn with
  | nil => exact .one ⟨first, by simp [strung], hfirst⟩
  | append_singleton more p ih =>
    rw [← strung_append]
    have hfront := ih (fun q hq => hcomma q (by simp [hq])) fun q hq => hmore q (by simp [hq])
    exact hfront.more (hcomma p (by simp)) ⟨p.2, rfl, hmore p (by simp)⟩

theorem reads_expressionList {xs : List (Tree Token)}
    (h : Listed (punct .comma) (One (Parses .disjunction)) xs)
    (hrest : Avoids (punct .comma :: Level.continuations .disjunction) rest) :
    Reads rules expressionList made (Tree.leavesOf xs ++ rest) (made ++ xs) rest := by
  refine reads_separated (Avoids (Level.continuations .disjunction)) ?_ ?_ h
    (hrest.weaken (by simp +contextual)) (hrest.weaken (by simp))
  · rintro _ made rest ⟨t, rfl, ht⟩ hbehind
    simpa [Tree.leavesOf] using ht.expression hbehind
  · intro c rest hc
    exact avoids_cons (by rw [hc]; decide)

variable {f op left right : Token} {more : List (Token × Tree Token)} {first : Tree Token}

theorem parses_literal {u : Token} (hu : u.kind ∈ literalStart) :
    Parses .atom (.node .literal [.leaf u]) := by
  intro made rest _
  exact .yes (starts_cons hu).sees (.node reads_take)

/-- What an atom starts with, if it is no literal. -/
theorem not_literal {kinds : List TokenKind} {u : Token} {us : List Token} (hu : u.kind ∈ kinds)
    (hk : ∀ k ∈ kinds, k ∉ literalStart) : Look.sees literalStart (Look.ahead (u :: us)) = false :=
  (avoids_cons (hk _ hu)).sees

theorem parses_paren (hl : left.kind = punct .leftParen) (ha : Parses .disjunction a)
    (hr : right.kind = punct .rightParen) :
    Parses .atom (.node .parenExpression [.leaf left, a, .leaf right]) := by
  intro made rest _
  have hexpr : Reads rules (call .expression) [.leaf left] (a.leaves ++ right :: rest)
      [.leaf left, a] (right :: rest) := ha.expression (avoids_cons (by rw [hr]; decide))
  have hbody : Reads rules (inOrder [take, call .expression, expect (punct .rightParen)]) []
      (left :: (a.leaves ++ right :: rest)) [.leaf left, a, .leaf right] rest :=
    reads_take.cons (hexpr.cons ((reads_expect hr).cons reads_nil))
  have hstart : left.kind ∈ [punct .leftParen] := by simp [hl]
  have hall : Reads rules atom made (left :: (a.leaves ++ right :: rest)) _ rest :=
    .no (not_literal hstart (by decide)) (.yes (starts_cons hstart).sees hbody.node)
  simpa [Level.rule, Tree.leaves, Tree.leavesOf] using hall

/-- A call, given how its arguments are read. -/
theorem parses_call {inner : List (Tree Token)} (hf : f.kind ∈ [.ident, word .like])
    (hl : left.kind = punct .leftParen) (hr : right.kind = punct .rightParen)
    (hinner : ∀ rest, Reads rules
      (branch (.sees [punct .rightParen]) done expressionList) [.leaf left]
      (Tree.leavesOf inner ++ right :: rest) (.leaf left :: inner) (right :: rest)) :
    Parses .atom (.node .callExpression
      [.leaf f, .node .argumentList (enclosed left inner right)]) := by
  intro made rest _
  have hargs : Reads rules (inOrder [expect (punct .leftParen),
      branch (.sees [punct .rightParen]) done expressionList, expect (punct .rightParen)]) []
      (left :: (Tree.leavesOf inner ++ right :: rest)) (enclosed left inner right) rest :=
    (reads_expect hl).cons ((hinner rest).cons ((reads_expect hr).cons reads_nil))
  have hbody : Reads rules callExpression made
      (f :: left :: (Tree.leavesOf inner ++ right :: rest)) _ rest :=
    (reads_take.seq hargs.node).node
  have hcall : Look.and (.sees [.ident, word .like]) (.thenSees (punct .leftParen))
      (Look.ahead (f :: left :: (Tree.leavesOf inner ++ right :: rest))) = true := by
    rw [Look.and, (starts_cons hf).sees, thenSees_cons_cons, hl]
    rfl
  have hparen : ∀ k ∈ [TokenKind.ident, word .like], k ∉ [punct .leftParen] := by decide
  have hall : Reads rules atom made (f :: left :: (Tree.leavesOf inner ++ right :: rest)) _ rest :=
    .no (not_literal hf (by decide)) (.no (avoids_cons (hparen _ hf)).sees (.yes hcall hbody))
  simpa [Level.rule, Tree.leaves, Tree.leavesOf, enclosed] using hall

theorem parses_arguments (hf : f.kind ∈ [.ident, word .like]) (hl : left.kind = punct .leftParen)
    {inner : List (Tree Token)} (hi : Listed (punct .comma) (One (Parses .disjunction)) inner)
    (hstart : Starts (Level.starts .disjunction) (Tree.leavesOf inner))
    (hr : right.kind = punct .rightParen) :
    Parses .atom (.node .callExpression
      [.leaf f, .node .argumentList (enclosed left inner right)]) := by
  apply parses_call hf hl hr
  intro rest
  have hlist : Reads rules expressionList [.leaf left] (Tree.leavesOf inner ++ right :: rest)
      (.leaf left :: inner) (right :: rest) :=
    reads_expressionList hi (avoids_cons (by rw [hr]; decide))
  exact .no (hstart.append.avoids (by decide)).sees hlist

theorem parses_noArguments (hf : f.kind ∈ [.ident, word .like])
    (hl : left.kind = punct .leftParen) (hr : right.kind = punct .rightParen) :
    Parses .atom (.node .callExpression
      [.leaf f, .node .argumentList (enclosed left [] right)]) := by
  apply parses_call hf hl hr
  intro rest
  exact .yes (starts_cons (by simp [hr])).sees reads_done

theorem parses_name {kind : NodeKind} {isType : Bool} {u : Token} (hu : u.kind = .ident)
    (hn : atTypeName [u.word] = isType)
    (hk : kind = if isType then .typeLiteral else .conceptLiteral) :
    Parses .atom (.node kind [.leaf u]) := by
  intro made rest hrest
  have hnode : Reads rules (oneToken kind .ident) made (u :: rest)
      (made ++ [.node kind [.leaf u]]) rest := .node (reads_expect hu)
  have hname : Reads rules
      (branch atTypeName (oneToken .typeLiteral .ident) (oneToken .conceptLiteral .ident)) made
      (u :: rest) (made ++ [.node kind [.leaf u]]) rest := by
    cases isType with
    | true => exact .yes ((atTypeName_ahead u rest).trans hn) (by simpa [hk] using hnode)
    | false => exact .no ((atTypeName_ahead u rest).trans hn) (by simpa [hk] using hnode)
  have hcall : Look.and (.sees [.ident, word .like]) (.thenSees (punct .leftParen))
      (Look.ahead (u :: rest)) = false := by
    rw [Look.and, hrest.thenSees, Bool.and_false]
  have hstart : u.kind ∈ [TokenKind.ident] := by simp [hu]
  exact .no (not_literal hstart (by decide)) (.no (avoids_cons (by rw [hu]; decide)).sees
    (.no hcall (.yes (starts_cons hstart).sees hname)))

/-- A prefix operator in front of a phrase of the level that calls itself. -/
theorem reads_unary {name : Nonterminal} {otherwise : Rule}
    (hrule : rules name = branch (.sees [op.kind])
      (node .unaryExpression (seq take (call name))) otherwise)
    (ha : Reads rules (call name) [.leaf op] (a.leaves ++ rest) [.leaf op, a] rest) :
    Reads rules (call name) made (Tree.leaves (.node .unaryExpression [.leaf op, a]) ++ rest)
      (made ++ [.node .unaryExpression [.leaf op, a]]) rest := by
  apply Reads.call
  rw [hrule]
  have hnode : Reads rules (node .unaryExpression (seq take (call name))) made
      (op :: (a.leaves ++ rest)) (made ++ [.node .unaryExpression [.leaf op, a]]) rest :=
    (reads_take.seq ha).node
  have hall : Reads rules (branch (.sees [op.kind])
      (node .unaryExpression (seq take (call name))) otherwise) made (op :: (a.leaves ++ rest))
      (made ++ [.node .unaryExpression [.leaf op, a]]) rest :=
    .yes (starts_cons (by simp)).sees hnode
  simpa [Tree.leaves, Tree.leavesOf] using hall

/-- A sum and what tests it, with the mark of the comparison around them. -/
theorem reads_comparison {us : List Token} (ha : Parses .sum a)
    (hbehind : Avoids (Level.continuations .sum) us)
    (htest : Reads rules (branch (.sees comparisonOperators) (wrap .binaryExpression (seq take sum))
      (branch (.sees [word .is]) isNullTest (optional atMembership membershipTest))) [a] us
      [t] rest) :
    Reads rules comparison made (a.leaves ++ us) (made ++ [t]) rest := by
  have hsum : Reads rules sum [] (a.leaves ++ us) [a] us := ha [] us hbehind
  exact (hsum.seq htest).mark

theorem atMembership_cons {u : Token} {us : List Token} :
    atMembership (Look.ahead (u :: us)) =
      (decide (u.kind = word .inWord) ||
        (decide (u.kind = word .not) && Look.thenSees (word .inWord) (Look.ahead (u :: us)))) := by
  rw [atMembership, Look.or, Look.and, sees_cons, sees_cons]
  simp

theorem parses_plainComparison (ha : Parses .sum a) : Parses .comparison a := by
  intro made rest hrest
  refine reads_comparison ha (hrest.weaken (Level.continues_of_tighter rfl)) ?_
  have hmember : atMembership (Look.ahead rest) = false := by
    cases rest with
    | nil => rfl
    | cons u us =>
      have hin : Avoids [word .inWord] (u :: us) := hrest.weaken (by decide)
      have hnot : Avoids [word .not] (u :: us) := hrest.weaken (by decide)
      rw [atMembership_cons, decide_eq_false (by simpa using hin u us rfl),
        decide_eq_false (by simpa using hnot u us rfl)]
      rfl
  exact .no (hrest.weaken (by decide)).sees (.no (hrest.weaken (by decide)).sees (reads_skip hmember))

theorem parses_compare (ho : op.kind ∈ comparisonOperators) (ha : Parses .sum a)
    (hb : Parses .sum b) : Parses .comparison (.node .binaryExpression [a, .leaf op, b]) := by
  intro made rest hrest
  have hbehind : ∀ k ∈ comparisonOperators, k ∉ Level.continuations .sum := by decide
  have hright : Reads rules sum [a, .leaf op] (b.leaves ++ rest) [a, .leaf op, b] rest :=
    hb _ rest (hrest.weaken (Level.continues_of_tighter rfl))
  have htest : Reads rules (wrap .binaryExpression (seq take sum)) [a] (op :: (b.leaves ++ rest))
      [.node .binaryExpression [a, .leaf op, b]] rest := (reads_take.seq hright).wrap
  have hall : Reads rules comparison made _ (made ++ [_]) rest :=
    reads_comparison ha (avoids_cons (hbehind _ ho)) (.yes (starts_cons ho).sees htest)
  simpa [Level.rule, Tree.leaves, Tree.leavesOf] using hall

theorem reads_maybe {kind : TokenKind} {xs : List (Tree Token)} (h : Maybe kind xs)
    (hrest : Avoids [kind] rest) :
    Reads rules (optional (.sees [kind]) take) made (Tree.leavesOf xs ++ rest) (made ++ xs) rest := by
  rcases h with rfl | ⟨u, hu, rfl⟩
  · simpa [Tree.leavesOf] using reads_skip hrest.sees
  · exact .optional (starts_cons (by simp [hu])).sees reads_take

theorem parses_isNull {i z : Token} {negated : List (Tree Token)} (ha : Parses .sum a)
    (hi : i.kind = word .is) (hn : Maybe (word .not) negated) (hz : z.kind = word .null) :
    Parses .comparison (.node .isNullExpression (a :: .leaf i :: (negated ++ [.leaf z]))) := by
  intro made rest _
  have hnot : Reads rules (optional (.sees [word .not]) take) [a, .leaf i]
      (Tree.leavesOf negated ++ z :: rest) ([a, .leaf i] ++ negated) (z :: rest) :=
    reads_maybe hn (avoids_cons (by rw [hz]; decide))
  have htest : Reads rules isNullTest [a] (i :: (Tree.leavesOf negated ++ z :: rest))
      [.node .isNullExpression ([a, .leaf i] ++ negated ++ [.leaf z])] rest :=
    (reads_take.cons (hnot.cons ((reads_expect hz).cons reads_nil))).wrap
  have hall : Reads rules comparison made _ (made ++ [_]) rest :=
    reads_comparison ha (avoids_cons (by rw [hi]; decide))
    (.no (avoids_cons (by rw [hi]; decide)).sees (.yes (starts_cons (by simp [hi])).sees htest))
  simpa [Level.rule, Tree.leaves, Tree.leavesOf] using hall

theorem parses_member {i : Token} {negated inner : List (Tree Token)} (ha : Parses .sum a)
    (hn : Maybe (word .not) negated) (hi : i.kind = word .inWord)
    (hl : left.kind = punct .leftParen)
    (hinner : Listed (punct .comma) (One (Parses .disjunction)) inner)
    (hr : right.kind = punct .rightParen) :
    Parses .comparison (.node .inExpression
      (a :: (negated ++ .leaf i :: enclosed left inner right))) := by
  intro made rest _
  have hlist : Reads rules expressionList ([a] ++ negated ++ [.leaf i] ++ [.leaf left])
      (Tree.leavesOf inner ++ right :: rest) ([a] ++ negated ++ [.leaf i] ++ [.leaf left] ++ inner)
      (right :: rest) := reads_expressionList hinner (avoids_cons (by rw [hr]; decide))
  have hlist := (reads_expect hl).cons (hlist.cons ((reads_expect hr).cons reads_nil))
  have hnot : Reads rules (optional (.sees [word .not]) take) [a]
      (Tree.leavesOf negated ++ i :: left :: (Tree.leavesOf inner ++ right :: rest))
      ([a] ++ negated) (i :: left :: (Tree.leavesOf inner ++ right :: rest)) :=
    reads_maybe hn (avoids_cons (by rw [hi]; decide))
  have htest := (hnot.cons (reads_take.cons hlist)).wrap (k := .inExpression)
  -- either word tells a list from other tests
  have hseen : atMembership (Look.ahead
      (Tree.leavesOf negated ++ i :: left :: (Tree.leavesOf inner ++ right :: rest))) = true := by
    rcases hn with rfl | ⟨u, hu, rfl⟩
    · simp only [Tree.leavesOf, List.nil_append]
      rw [atMembership_cons, decide_eq_true hi]
      rfl
    · simp only [Tree.leavesOf, Tree.leaves, List.cons_append, List.nil_append, List.append_nil]
      rw [atMembership_cons, decide_eq_true hu, thenSees_cons_cons, decide_eq_true hi]
      simp
  have hstart : Starts [word .not, word .inWord]
      (Tree.leavesOf negated ++ i :: left :: (Tree.leavesOf inner ++ right :: rest)) := by
    rcases hn with rfl | ⟨u, hu, rfl⟩
    · exact starts_cons (by simp [hi])
    · exact starts_cons (by simp [hu])
  have hall : Reads rules comparison made _ (made ++ [_]) rest :=
    reads_comparison ha (hstart.avoids (by decide))
    (.no (hstart.avoids (by decide)).sees
      (.no (hstart.avoids (by decide)).sees (.optional hseen htest)))
  simpa [Level.rule, Tree.leaves, Tree.leavesOf, enclosed] using hall

/-- A phrase of the next tighter level is one of this level. -/
theorem Parses.loosen (h : l.tighter? = some m) (hs : Starts m.starts t.leaves) (ht : Parses m t) :
    Parses l t := by
  cases l with
  | disjunction => exact ht.leads.parses h (by decide)
  | conjunction => exact ht.leads.parses h (by decide)
  | negation =>
    cases h
    intro made rest hrest
    exact .call (.no (hs.append.avoids (by decide)).sees (ht made rest hrest))
  | comparison =>
    cases h
    exact parses_plainComparison ht
  | sum => exact ht.leads.parses h (by decide)
  | product => exact ht.leads.parses h (by decide)
  | signed =>
    cases h
    intro made rest hrest
    exact .call (.no (hs.append.avoids (by decide)).sees (ht made rest hrest))
  | atom => cases h

/-- The rule of its level reads each phrase, and no other tree. -/
theorem parses_phrase (h : Phrase l t) :
    Parses l t ∧ ∀ m, l.tighter? = some m → l.operators ≠ [] → Leads l m t := by
  induction h with
  | tighter h p ih =>
    refine ⟨ih.1.loosen h (starts_of_phrase p), ?_⟩
    intro m' h' _
    obtain rfl := Option.some.inj (h.symm.trans h')
    exact ih.1.leads
  | @chain l m a op b h ho lhs rhs iha ihb =>
    have hne : l.operators ≠ [] := List.ne_nil_of_mem ho
    have hleads := (iha.2 m h hne).chain h ho ihb.1
    refine ⟨hleads.parses h hne, ?_⟩
    intro m' h' _
    obtain rfl := Option.some.inj (h.symm.trans h')
    exact hleads
  | @not u a ht p ih =>
    refine ⟨fun made rest hrest => ?_, by simp [Level.operators]⟩
    exact reads_unary (by rw [ht]; rfl) (ih.1 _ rest hrest)
  | compare ho lhs rhs iha ihb =>
    exact ⟨parses_compare ho iha.1 ihb.1, by simp [Level.operators]⟩
  | isNull p hi hn hz ih => exact ⟨parses_isNull ih.1 hi hn hz, by simp [Level.operators]⟩
  | member p hn hi hl hfirst hcomma hmore hr ih ihfirst ihmore =>
    have hlist := listed_of_strung ihfirst.1 hcomma fun p hp => (ihmore p hp).1
    exact ⟨parses_member ih.1 hn hi hl hlist hr, by simp [Level.operators]⟩
  | minus ht p ih =>
    refine ⟨fun made rest hrest => ?_, by simp [Level.operators]⟩
    exact reads_unary (by rw [ht]; rfl) (ih.1 _ rest hrest)
  | literal ht => exact ⟨parses_literal ht, by simp [Level.operators]⟩
  | paren hl p hr ih => exact ⟨parses_paren hl ih.1 hr, by simp [Level.operators]⟩
  | @call f left first more right hf hl hfirst hcomma hmore hr ihfirst ihmore =>
    have hlist := listed_of_strung ihfirst.1 hcomma fun p hp => (ihmore p hp).1
    have hstart : Starts (Level.starts .disjunction) (Tree.leavesOf (strung first more)) :=
      (starts_of_phrase hfirst).append
    exact ⟨parses_arguments hf hl hlist hstart hr, by simp [Level.operators]⟩
  | callNothing hf hl hr => exact ⟨parses_noArguments hf hl hr, by simp [Level.operators]⟩
  | type ht hn => exact ⟨parses_name ht hn rfl, by simp [Level.operators]⟩
  | concept ht hn => exact ⟨parses_name ht hn rfl, by simp [Level.operators]⟩

end Phrases
end Grammar
end ConceptQuery
