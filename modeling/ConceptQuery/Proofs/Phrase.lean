import ConceptQuery.Grammar.Expression
import ConceptQuery.Proofs.Reading

/-! # Trees of expressions

`Phrase` is the grammar of expressions as a property of trees without trivia, one
level of precedence inside the other. What the rules for expressions make is a
phrase of the level of the rule.
-/
namespace ConceptQuery.Grammar
open Rule

/-- The levels of an expression, from loose to tight. -/
inductive Level where
  | disjunction | conjunction | negation | comparison | sum | product | signed | atom
deriving DecidableEq

namespace Level

def tighter? : Level → Option Level
  | disjunction => some conjunction
  | conjunction => some negation
  | negation => some comparison
  | comparison => some sum
  | sum => some product
  | product => some signed
  | signed => some atom
  | atom => none

/-- The operators of the levels that nest to the left. -/
def operators : Level → List TokenKind
  | disjunction => [word .or]
  | conjunction => [word .and]
  | sum => [punct .plus, punct .minus]
  | product => [punct .star, punct .slash, punct .percent]
  | _ => []

end Level

/-- A first tree, and more of them behind a token each. -/
def strung (first : Tree Token) (more : List (Token × Tree Token)) : List (Tree Token) :=
  first :: more.flatMap fun p => [.leaf p.1, p.2]

/-- The parentheses around the arguments of a call or the members of a list. -/
def enclosed (left : Token) (inner : List (Tree Token)) (right : Token) : List (Tree Token) :=
  .leaf left :: (inner ++ [.leaf right])

/-- Nothing, or one token of this kind. -/
def Maybe (kind : TokenKind) (xs : List (Tree Token)) : Prop :=
  xs = [] ∨ ∃ t, t.kind = kind ∧ xs = [.leaf t]

inductive Phrase : Level → Tree Token → Prop where
  | tighter {l m t} (h : l.tighter? = some m) (p : Phrase m t) : Phrase l t
  | chain {l m a op b} (h : l.tighter? = some m) (ho : op.kind ∈ l.operators) (lhs : Phrase l a)
      (rhs : Phrase m b) : Phrase l (.node .binaryExpression [a, .leaf op, b])
  | not {t a} (ht : t.kind = word .not) (p : Phrase .negation a) :
      Phrase .negation (.node .unaryExpression [.leaf t, a])
  | compare {a op b} (ho : op.kind ∈ comparisonOperators) (lhs : Phrase .sum a)
      (rhs : Phrase .sum b) : Phrase .comparison (.node .binaryExpression [a, .leaf op, b])
  | isNull {a i negated z} (p : Phrase .sum a) (hi : i.kind = word .is)
      (hn : Maybe (word .not) negated) (hz : z.kind = word .null) :
      Phrase .comparison (.node .isNullExpression (a :: .leaf i :: (negated ++ [.leaf z])))
  | member {a negated i l first more r} (p : Phrase .sum a) (hn : Maybe (word .not) negated)
      (hi : i.kind = word .inWord) (hl : l.kind = punct .leftParen)
      (hfirst : Phrase .disjunction first) (hcomma : ∀ p ∈ more, p.1.kind = punct .comma)
      (hmore : ∀ p ∈ more, Phrase .disjunction p.2) (hr : r.kind = punct .rightParen) :
      Phrase .comparison (.node .inExpression
        (a :: (negated ++ .leaf i :: enclosed l (strung first more) r)))
  | minus {t a} (ht : t.kind = punct .minus) (p : Phrase .signed a) :
      Phrase .signed (.node .unaryExpression [.leaf t, a])
  | literal {t} (ht : t.kind ∈ literalStart) : Phrase .atom (.node .literal [.leaf t])
  | paren {l a r} (hl : l.kind = punct .leftParen) (p : Phrase .disjunction a)
      (hr : r.kind = punct .rightParen) :
      Phrase .atom (.node .parenExpression [.leaf l, a, .leaf r])
  | call {f l first more r} (hf : f.kind ∈ [.ident, word .like]) (hl : l.kind = punct .leftParen)
      (hfirst : Phrase .disjunction first) (hcomma : ∀ p ∈ more, p.1.kind = punct .comma)
      (hmore : ∀ p ∈ more, Phrase .disjunction p.2) (hr : r.kind = punct .rightParen) :
      Phrase .atom (.node .callExpression
        [.leaf f, .node .argumentList (enclosed l (strung first more) r)])
  | callNothing {f l r} (hf : f.kind ∈ [.ident, word .like]) (hl : l.kind = punct .leftParen)
      (hr : r.kind = punct .rightParen) :
      Phrase .atom (.node .callExpression [.leaf f, .node .argumentList (enclosed l [] r)])
  | type {t} (ht : t.kind = .ident) (hn : atTypeName [t.word] = true) :
      Phrase .atom (.node .typeLiteral [.leaf t])
  | concept {t} (ht : t.kind = .ident) (hn : atTypeName [t.word] = false) :
      Phrase .atom (.node .conceptLiteral [.leaf t])

/-- A single tree of a level. -/
def Level.Made (l : Level) (xs : List (Tree Token)) : Prop :=
  ∃ t, xs = [t] ∧ Phrase l t

theorem Level.Made.loosen {l m : Level} (h : l.tighter? = some m) {xs : List (Tree Token)} :
    m.Made xs → l.Made xs := by
  rintro ⟨t, rfl, ht⟩
  exact ⟨t, rfl, .tighter h ht⟩

theorem strung_append (first : Tree Token) (more : List (Token × Tree Token)) (c : Token)
    (t : Tree Token) : strung first more ++ [.leaf c, t] = strung first (more ++ [(c, t)]) := by
  simp [strung]

/-- Listed phrases, taken apart. -/
theorem strung_of_listed {l : Level} {xs : List (Tree Token)}
    (h : Listed (punct .comma) l.Made xs) :
    ∃ first more, xs = strung first more ∧ Phrase l first ∧
      (∀ p ∈ more, p.1.kind = punct .comma) ∧ ∀ p ∈ more, Phrase l p.2 := by
  induction h with
  | one h =>
    obtain ⟨t, rfl, ht⟩ := h
    exact ⟨t, [], by simp [strung], ht, by simp, by simp⟩
  | @more xs c ys front hc h ih =>
    obtain ⟨first, more, rfl, hfirst, hcomma, hmore⟩ := ih
    obtain ⟨t, rfl, ht⟩ := h
    refine ⟨first, more ++ [(c, t)], strung_append first more c t, hfirst, ?_, ?_⟩
    · intro p hp
      rcases List.mem_append.mp hp with hp | hp
      · exact hcomma p hp
      · exact List.mem_singleton.mp hp ▸ hc
    · intro p hp
      rcases List.mem_append.mp hp with hp | hp
      · exact hmore p hp
      · exact List.mem_singleton.mp hp ▸ ht

/-- The level that a rule reads which others call. -/
def levelOf : Nonterminal → Level
  | .expression => .disjunction
  | .negation => .negation
  | .signed => .signed

section Levels
variable {n : Nat}

/-- The rounds of a level that nests to the left: what is made stays one phrase. -/
theorem made_of_rounds {l m : Level} (h : l.tighter? = some m) {operand : Rule}
    (ho : Adds rules n operand m.Made) :
    ∀ k ≤ n, ∀ {a ts made' ts'}, Phrase l a →
      Makes rules k (loop (.sees l.operators) (wrap .binaryExpression (seq take operand)))
        [a] ts made' ts' → l.Made made' := by
  intro k
  induction k with
  | zero =>
    intro _ a ts made' ts' ha hm
    cases hm with
    | last _ => exact ⟨a, rfl, ha⟩
  | succ k ih =>
    intro hk a ts made' ts' ha hm
    cases hm with
    | last _ => exact ⟨a, rfl, ha⟩
    | round seen first more =>
      obtain ⟨inner, hbody, rfl⟩ := makes_wrap.mp first
      obtain ⟨mid, us, htake, hoperand⟩ := makes_seq.mp hbody
      obtain ⟨op, hop, rfl, rfl⟩ := makes_take_of_sees seen htake
      obtain ⟨new, rfl, b, rfl, hb⟩ := ho _ hk hoperand
      exact ih (by omega) (.chain h hop ha hb) more

theorem adds_leftNested {l m : Level} (h : l.tighter? = some m) {operand : Rule}
    (ho : Adds rules n operand m.Made) : Adds rules n (leftNested l.operators operand) l.Made := by
  intro k hk made ts made' ts' hm
  obtain ⟨inner, hbody, rfl⟩ := makes_mark.mp hm
  obtain ⟨mid, us, first, more⟩ := makes_seq.mp hbody
  obtain ⟨new, rfl, a, rfl, ha⟩ := ho k hk first
  exact ⟨inner, rfl, made_of_rounds h ho k hk (.tighter h ha) more⟩

theorem atTypeName_ahead (t : Token) (ts : List Token) :
    atTypeName (Look.ahead (t :: ts)) = atTypeName [t.word] := by
  simp [Look.ahead, atTypeName]

theorem adds_oneToken {kind : NodeKind} {token : TokenKind} :
    Adds rules n (oneToken kind token)
      (fun xs => ∃ t, t.kind = token ∧ xs = [.node kind [.leaf t]]) :=
  (adds_node adds_expect).weaken fun xs => by
    rintro ⟨inner, rfl, t, ht, rfl⟩
    exact ⟨t, ht, rfl⟩

/-- Behind a sum: `is null` or `is not null`. -/
theorem made_of_isNullTest {k : Nat} {a : Tree Token} {ts made' ts'} (ha : Phrase .sum a)
    (seen : Look.sees [word .is] (Look.ahead ts) = true)
    (h : Makes rules k isNullTest [a] ts made' ts') : Level.comparison.Made made' := by
  obtain ⟨inner, hbody, rfl⟩ := makes_wrap.mp h
  simp only [makes_inOrder_cons, makes_inOrder_nil, makes_expect] at hbody
  obtain ⟨_, _, htake, _, _, hnot, _, _, ⟨z, hz, rfl, rfl⟩, rfl, rfl⟩ := hbody
  obtain ⟨i, hi, rfl, rfl⟩ := makes_take_of_sees seen htake
  obtain ⟨negated, rfl, hn⟩ := adds_optional_take k le_rfl hnot
  refine ⟨_, rfl, ?_⟩
  have hn : Maybe (word .not) negated := by simpa [Maybe] using hn
  simpa using Phrase.isNull ha (by simpa using hi) hn hz

/-- `in`, or `not in`. -/
theorem makes_membershipWords {k : Nat} {made mid made' : List (Tree Token)} {ts us ts' : List Token}
    (seen : atMembership (Look.ahead ts) = true)
    (hnot : Makes rules k (optional (.sees [word .not]) take) made ts mid us)
    (htake : Makes rules k take mid us made' ts') :
    ∃ negated i, Maybe (word .not) negated ∧ i.kind = word .inWord ∧
      made' = made ++ negated ++ [.leaf i] := by
  rcases Bool.or_eq_true_iff.mp seen with seenIn | seenNot
  · obtain ⟨i, rest, rfl, hi⟩ := Look.sees_ahead seenIn
    have hi : i.kind = word .inWord := by simpa using hi
    rcases makes_branch.mp hnot with ⟨other, -⟩ | ⟨-, hdone⟩
    · obtain ⟨_, _, ⟨⟩, ht⟩ := Look.sees_ahead other
      simp [hi] at ht
    · obtain ⟨rfl, rfl⟩ := makes_done.mp hdone
      obtain ⟨rfl, rfl⟩ := makes_take_cons.mp htake
      exact ⟨[], i, .inl rfl, hi, by simp⟩
  · obtain ⟨seenNot, seenIn⟩ := Bool.and_eq_true_iff.mp seenNot
    rcases makes_branch.mp hnot with ⟨-, htaken⟩ | ⟨notSeen, -⟩
    · obtain ⟨t, ht, rfl, rfl⟩ := makes_take_of_sees seenNot htaken
      obtain ⟨i, rest, rfl, hi⟩ := Look.thenSees_ahead seenIn
      obtain ⟨rfl, rfl⟩ := makes_take_cons.mp htake
      exact ⟨[.leaf t], i, .inr ⟨t, by simpa using ht, rfl⟩, hi, rfl⟩
    · rw [notSeen] at seenNot
      cases seenNot

variable (calls : ∀ name, Adds rules n (call name) (levelOf name).Made)
include calls

theorem adds_callExpression {k : Nat} (hk : k ≤ n) {made ts made' ts'}
    (seen : Look.sees [.ident, word .like] (Look.ahead ts) = true)
    (h : Makes rules k callExpression made ts made' ts') :
    ∃ new, made' = made ++ new ∧ Level.atom.Made new := by
  obtain ⟨inner, hbody, rfl⟩ := makes_node.mp h
  obtain ⟨mid, us, htake, hargs⟩ := makes_seq.mp hbody
  obtain ⟨f, hf, rfl, rfl⟩ := makes_take_of_sees seen htake
  obtain ⟨args, hlist, rfl⟩ := makes_node.mp hargs
  simp only [makes_inOrder_cons, makes_inOrder_nil, makes_expect] at hlist
  obtain ⟨_, _, ⟨l, hl, rfl, rfl⟩, mid, us, hitems, _, _, ⟨r, hr, rfl, rfl⟩, rfl, rfl⟩ := hlist
  refine ⟨_, rfl, _, rfl, ?_⟩
  rcases makes_branch.mp hitems with ⟨-, hdone⟩ | ⟨-, hlist⟩
  · obtain ⟨rfl, rfl⟩ := makes_done.mp hdone
    exact .callNothing hf hl hr
  · obtain ⟨items, rfl, hlisted⟩ := adds_separated (calls .expression) k hk hlist
    obtain ⟨first, more, rfl, hfirst, hcomma, hmore⟩ := strung_of_listed hlisted
    simpa [enclosed] using Phrase.call hf hl hfirst hcomma hmore hr

theorem adds_atom : Adds rules n atom Level.atom.Made := by
  intro k hk made ts made' ts' h
  rcases makes_branch.mp h with ⟨seen, h⟩ | ⟨-, h⟩
  · obtain ⟨inner, hbody, rfl⟩ := makes_node.mp h
    obtain ⟨t, ht, rfl, rfl⟩ := makes_take_of_sees seen hbody
    exact ⟨_, rfl, _, rfl, .literal ht⟩
  rcases makes_branch.mp h with ⟨seen, h⟩ | ⟨-, h⟩
  · obtain ⟨inner, hbody, rfl⟩ := makes_node.mp h
    simp only [makes_inOrder_cons, makes_inOrder_nil, makes_expect] at hbody
    obtain ⟨_, _, htake, _, _, hcall, _, _, ⟨r, hr, rfl, rfl⟩, rfl, rfl⟩ := hbody
    obtain ⟨l, hl, rfl, rfl⟩ := makes_take_of_sees seen htake
    obtain ⟨new, rfl, a, rfl, ha⟩ := calls .expression k hk hcall
    exact ⟨_, rfl, _, rfl, .paren (by simpa using hl) ha hr⟩
  rcases makes_branch.mp h with ⟨seen, h⟩ | ⟨-, h⟩
  · exact adds_callExpression calls hk (Bool.and_eq_true_iff.mp seen).1 h
  rcases makes_branch.mp h with ⟨seen, h⟩ | ⟨-, h⟩
  · obtain ⟨t, rest, rfl, -⟩ := Look.sees_ahead seen
    rcases makes_branch.mp h with ⟨hname, h⟩ | ⟨hname, h⟩
    · obtain ⟨inner, hbody, rfl⟩ := makes_node.mp h
      obtain ⟨_, ht, ⟨⟩, rfl⟩ := makes_expect.mp hbody
      exact ⟨_, rfl, _, rfl, .type ht (atTypeName_ahead t ts' ▸ hname)⟩
    · obtain ⟨inner, hbody, rfl⟩ := makes_node.mp h
      obtain ⟨_, ht, ⟨⟩, rfl⟩ := makes_expect.mp hbody
      exact ⟨_, rfl, _, rfl, .concept ht (atTypeName_ahead t ts' ▸ hname)⟩
  · exact absurd h not_makes_refuse

theorem adds_signed : Adds rules n signed Level.signed.Made := by
  intro k hk made ts made' ts' h
  rcases makes_branch.mp h with ⟨seen, h⟩ | ⟨-, h⟩
  · obtain ⟨inner, hbody, rfl⟩ := makes_node.mp h
    obtain ⟨mid, us, htake, hcall⟩ := makes_seq.mp hbody
    obtain ⟨t, ht, rfl, rfl⟩ := makes_take_of_sees seen htake
    obtain ⟨new, rfl, a, rfl, ha⟩ := calls .signed k hk hcall
    exact ⟨_, rfl, _, rfl, .minus (by simpa using ht) ha⟩
  · exact (adds_atom calls).weaken (fun _ => Level.Made.loosen rfl) k hk h

theorem adds_sum : Adds rules n sum Level.sum.Made :=
  adds_leftNested (l := .sum) rfl (adds_leftNested (l := .product) rfl (calls .signed))

/-- Behind a sum: `in` or `not in` and a list. -/
theorem made_of_membershipTest {k : Nat} (hk : k ≤ n) {a : Tree Token} {ts made' ts'}
    (ha : Phrase .sum a) (seen : atMembership (Look.ahead ts) = true)
    (h : Makes rules k membershipTest [a] ts made' ts') : Level.comparison.Made made' := by
  obtain ⟨inner, hbody, rfl⟩ := makes_wrap.mp h
  simp only [makes_inOrder_cons, makes_inOrder_nil, makes_expect] at hbody
  obtain ⟨_, us, hnot, _, _, htake, _, _, ⟨l, hl, rfl, rfl⟩, _, _, hlist, _, _, ⟨r, hr, rfl, rfl⟩,
    rfl, rfl⟩ := hbody
  obtain ⟨items, rfl, hlisted⟩ := adds_separated (calls .expression) k hk hlist
  obtain ⟨first, more, rfl, hfirst, hcomma, hmore⟩ := strung_of_listed hlisted
  refine ⟨_, rfl, ?_⟩
  obtain ⟨negated, i, hn, hi, rfl⟩ := makes_membershipWords seen hnot htake
  simpa [enclosed] using Phrase.member ha hn hi hl hfirst hcomma hmore hr

theorem adds_comparison : Adds rules n comparison Level.comparison.Made := by
  intro k hk made ts made' ts' h
  obtain ⟨inner, hbody, rfl⟩ := makes_mark.mp h
  obtain ⟨mid, us, hsum, hrest⟩ := makes_seq.mp hbody
  obtain ⟨new, rfl, a, rfl, ha⟩ := adds_sum calls k hk hsum
  refine ⟨inner, rfl, ?_⟩
  rcases makes_branch.mp hrest with ⟨seen, h⟩ | ⟨-, h⟩
  · obtain ⟨whole, hwhole, rfl⟩ := makes_wrap.mp h
    obtain ⟨mid, us, htake, hsum⟩ := makes_seq.mp hwhole
    obtain ⟨op, hop, rfl, rfl⟩ := makes_take_of_sees seen htake
    obtain ⟨new, rfl, b, rfl, hb⟩ := adds_sum calls k hk hsum
    exact ⟨_, rfl, .compare hop ha hb⟩
  rcases makes_branch.mp h with ⟨seen, h⟩ | ⟨-, h⟩
  · exact made_of_isNullTest ha seen h
  rcases makes_branch.mp h with ⟨seen, h⟩ | ⟨-, h⟩
  · exact made_of_membershipTest calls hk ha seen h
  · obtain ⟨rfl, rfl⟩ := makes_done.mp h
    exact ⟨a, rfl, .tighter rfl ha⟩

theorem adds_negation : Adds rules n negation Level.negation.Made := by
  intro k hk made ts made' ts' h
  rcases makes_branch.mp h with ⟨seen, h⟩ | ⟨-, h⟩
  · obtain ⟨inner, hbody, rfl⟩ := makes_node.mp h
    obtain ⟨mid, us, htake, hcall⟩ := makes_seq.mp hbody
    obtain ⟨t, ht, rfl, rfl⟩ := makes_take_of_sees seen htake
    obtain ⟨new, rfl, a, rfl, ha⟩ := calls .negation k hk hcall
    exact ⟨_, rfl, _, rfl, .not (by simpa using ht) ha⟩
  · exact (adds_comparison calls).weaken (fun _ => Level.Made.loosen rfl) k hk h

theorem adds_disjunction : Adds rules n disjunction Level.disjunction.Made :=
  adds_leftNested (l := .disjunction) rfl
    (adds_leftNested (l := .conjunction) rfl (calls .negation))

end Levels

/-- What the rules that call each other make, by induction on the nesting. -/
theorem adds_call (n : Nat) (name : Nonterminal) :
    Adds rules n (call name) (levelOf name).Made := by
  induction n generalizing name with
  | zero =>
    intro k hk made ts made' ts' h
    obtain rfl := Nat.le_zero.mp hk
    cases h
  | succ n ih =>
    intro k hk made ts made' ts' h
    cases h with
    | call h =>
      have hk := Nat.le_of_succ_le_succ hk
      cases name with
      | expression => exact adds_disjunction ih _ hk h
      | negation => exact adds_negation ih _ hk h
      | signed => exact adds_signed ih _ hk h

theorem adds_expression (n : Nat) : Adds rules n expression Level.disjunction.Made :=
  adds_call n .expression

end ConceptQuery.Grammar
