import ConceptQuery.Proofs.Acceptance
import ConceptQuery.Proofs.Resolving
import ConceptQuery.Proofs.Wording

/-! # Printed expressions read back

The words of an expression are those of a phrase of its level: an operand that binds as tightly
as its place asks is a phrase of the level that the grammar asks for there. What is compiled of
this phrase is the expression. As there is only one tree with the tokens of a text, the text of an
expression behind `auto q <-` is read into this phrase and nothing else.
-/
namespace ConceptQuery
open Grammar

namespace Grammar

theorem Level.eq_of_rank {l m : Level} (h : l.rank = m.rank) : l = m := by
  cases l <;> cases m <;> first | rfl | cases h

theorem Level.exists_tighter {l m : Level} (h : l.rank < m.rank) :
    ∃ k, l.tighter? = some k ∧ k.rank = l.rank + 1 := by
  cases l with
  | atom => cases m <;> exact absurd h (by decide)
  | _ => exact ⟨_, rfl, rfl⟩

/-- A phrase may stand where a looser one is asked for. -/
theorem Phrase.loosen {l m : Level} {t : Tree Token} (p : Phrase m t) (h : l.rank ≤ m.rank) :
    Phrase l t := by
  induction hn : m.rank - l.rank generalizing l with
  | zero =>
    obtain rfl : l = m := Level.eq_of_rank (by omega)
    exact p
  | succ n ih =>
    obtain ⟨k, hk, hrank⟩ := Level.exists_tighter (show l.rank < m.rank by omega)
    exact .tighter hk (ih (by omega) (by omega))

/-- An operator between operands as tight as it asks. -/
theorem phrase_binary {op : BinaryOp} {u : Token} {a b : Tree Token} (hu : u.kind = op.kind)
    (lhs : Phrase op.left a) (rhs : Phrase op.right b) :
    Phrase op.level (.node .binaryExpression [a, .leaf u, b]) := by
  cases op with
  | or | and | add | sub | mul | div | mod => exact .chain rfl (by rw [hu]; decide) lhs rhs
  | _ => exact .compare (by rw [hu]; decide) lhs rhs

end Grammar

namespace Compile
variable {env : Environment}

/-- This value and no error. -/
abbrev Exactly {ε α : Type} (a : α) : Except ε α → Prop :=
  Ends (fun b => b = a) (fun _ => False)

theorem exactly_iff {ε α : Type} {a : α} {x : Except ε α} : Exactly a x ↔ x = .ok a := by
  cases x <;> simp [Exactly, Ends]

theorem Exactly.bind {ε α β : Type} {a : α} {b : β} {x : Except ε α} {f : α → Except ε β}
    (hx : Exactly a x) (hf : Exactly b (f a)) : Exactly b (x >>= f) := by
  refine Ends.bind hx ?_
  rintro _ rfl
  exact hf

/-- The tree is compiled into the expression, in whatever text its words stand. -/
def Means (env : Environment) (t : Tree Token) (e : Expr) : Prop :=
  ∀ text : List Char, Exactly e (expr env (t.placed text))

section Nodes
variable {l m : Level} {a b : Tree Token} {x y : Expr} {u : Token}

theorem means_binary {op : BinaryOp} (hu : u.word = op.word) (lhs : Phrase l a) (rhs : Phrase m b)
    (ha : Means env a x) (hb : Means env b y) :
    Means env (.node .binaryExpression [a, .leaf u, b]) (.binary op x y) := by
  have hword : u.kind.isTrivia = false := by
    rw [show u.kind = op.kind from congrArg Word.kind hu]
    cases op <;> rfl
  have hop : BinaryOp.ofToken? u.text = some op := by
    rw [show u.text = Text.lowered op.sql from congrArg Word.text hu]
    cases op <;> rfl
  have hnodes : [a, .leaf u, b].filter Tree.isNode = [a, b] := filter_isNode_binary lhs rhs
  intro text
  simp only [Tree.placed, expr]
  refine Exactly.bind (a := op) ?_ ?_
  · exact Exactly.bind (ends_part (head?_ownLeaves (words_binary lhs rhs hword))) (ends_part hop)
  · refine Exactly.bind (ends_operand (by rw [hnodes]; rfl) (ha text)) ?_
    exact Exactly.bind (ends_operand (by rw [hnodes]; rfl) (hb text)) rfl

theorem means_unary {op : UnaryOp} (p : Phrase l a) (hu : u.kind.isTrivia = false)
    (hop : Tree.matchesKeyword "not" u.word = decide (op = .not)) (ha : Means env a x) :
    Means env (.node .unaryExpression [.leaf u, a]) (.unary op x) := by
  intro text
  have hkeyword : ((Tree.node .unaryExpression [.leaf u, a]).placed text).hasKeyword "not" = _ :=
    hasKeyword_unary p hu
  simp only [Tree.placed] at hkeyword ⊢
  simp only [expr, hkeyword, hop]
  refine Exactly.bind (ends_operand (by rw [filter_isNode_unary p]; rfl) (ha text)) ?_
  cases op <;> rfl

theorem means_paren {left right : Token} (p : Phrase l a) (ha : Means env a x) :
    Means env (.node .parenExpression [.leaf left, a, .leaf right]) (.paren x) := by
  intro text
  simp only [Tree.placed, expr]
  exact Exactly.bind (ends_operand (by rw [filter_isNode_paren p]; rfl) (ha text)) rfl

theorem exactly_inSequence {as : List (Tree Token)} {es : List Expr}
    (h : List.Forall₂ (Means env) as es) (text : List Char) :
    Exactly es (inSequence (as.map fun a => expr env (a.placed text))) := by
  induction h with
  | nil => rfl
  | @cons a e as es ha _ ih =>
    rw [List.map_cons, exactly_iff.mp (ha text), inSequence, exactly_iff.mp ih]
    rfl

theorem maybe_of_denial {ns : List Token} {negated : Bool}
    (h : ns.map Token.word = Expr.denial negated) :
    Maybe (word .not) (ns.map .leaf) ∧ Tree.wordsOf (ns.map .leaf) = ns := by
  cases negated with
  | false =>
    obtain rfl := List.map_eq_nil_iff.mp h
    exact ⟨.inl rfl, rfl⟩
  | true =>
    obtain ⟨n, rfl, hn⟩ := List.map_eq_singleton_iff.mp h
    exact ⟨.inr ⟨n, congrArg Word.kind hn, rfl⟩, Tree.wordsOf_leaf (Token.not_isTrivia hn rfl) _⟩

section Tests
variable {i z left right : Token} {ns : List Token} {negated : Bool}

theorem words_isNull (p : Phrase l a) (hi : i.word = .ofKeyword .is)
    (hn : ns.map Token.word = Expr.denial negated) (hz : z.word = .ofKeyword .null) :
    (Tree.node .isNullExpression (a :: .leaf i :: (ns.map .leaf ++ [.leaf z]))).words.map
      Token.word = Word.ofKeyword .is :: (Expr.denial negated ++ [Word.ofKeyword .null]) := by
  rw [Tree.words_node, wordsOf_phrase p, Tree.wordsOf_leaf (Token.not_isTrivia hi rfl),
    Tree.wordsOf_append, (maybe_of_denial hn).2, Tree.wordsOf_leaf (Token.not_isTrivia hz rfl),
    Tree.wordsOf_nil, List.map_cons, List.map_append, hi, hn, List.map_singleton, hz]

theorem means_isNull (p : Phrase .sum a) (hi : i.word = .ofKeyword .is)
    (hn : ns.map Token.word = Expr.denial negated) (hz : z.word = .ofKeyword .null)
    (ha : Means env a x) :
    Means env (.node .isNullExpression (a :: .leaf i :: (ns.map .leaf ++ [.leaf z])))
      (.isNull x negated) := by
  have hnodes := filter_isNode_isNull (i := i) (z := z) p (maybe_of_denial hn).1
  intro text
  have hkeyword := Tree.hasKeyword_placed text (.node .isNullExpression
    (a :: .leaf i :: (ns.map .leaf ++ [.leaf z]))) "not"
  have hnot : (Word.ofKeyword .is :: (Expr.denial negated ++ [.ofKeyword .null])).any
      (Tree.matchesKeyword "not") = negated := by
    cases negated <;> rfl
  rw [words_isNull p hi hn hz, hnot] at hkeyword
  simp only [Tree.placed] at hkeyword ⊢
  simp only [expr, hkeyword]
  exact Exactly.bind (ends_operand (by rw [hnodes]; rfl) (ha text)) rfl

variable {first : Tree Token} {more : List (Token × Tree Token)}

theorem wordsOf_strung (hfirst : Phrase l first) (hcomma : ∀ p ∈ more, p.1.word = .ofMark .comma)
    (hmore : ∀ p ∈ more, Phrase m p.2) :
    (Tree.wordsOf (strung first more)).map Token.word = more.map fun _ => .ofMark .comma := by
  rw [strung, wordsOf_phrase hfirst]
  induction more with
  | nil => rfl
  | cons p more ih =>
    rw [List.forall_mem_cons] at hcomma hmore
    rw [List.flatMap_cons, List.cons_append, List.cons_append, List.nil_append,
      Tree.wordsOf_leaf (Token.not_isTrivia hcomma.1 rfl), wordsOf_phrase hmore.1, List.map_cons,
      List.map_cons, hcomma.1, ih hcomma.2 hmore.2]

/-- Behind the first operand: `not` or nothing, `in`, and only marks. -/
theorem words_member (p : Phrase l a) (hn : ns.map Token.word = Expr.denial negated)
    (hi : i.word = .ofKeyword .inWord) (hl : left.word = .ofMark .leftParen)
    (hfirst : Phrase m first) (hcomma : ∀ p ∈ more, p.1.word = .ofMark .comma)
    (hmore : ∀ p ∈ more, Phrase m p.2) (hr : right.word = .ofMark .rightParen) :
    (Tree.node .inExpression (a :: (ns.map .leaf ++ .leaf i ::
      enclosed left (strung first more) right))).words.map Token.word =
        Expr.denial negated ++ Word.ofKeyword .inWord :: Word.ofMark .leftParen ::
          ((more.map fun _ => Word.ofMark .comma) ++ [Word.ofMark .rightParen]) := by
  rw [Tree.words_node, wordsOf_phrase p, Tree.wordsOf_append, (maybe_of_denial hn).2,
    Tree.wordsOf_leaf (Token.not_isTrivia hi rfl), enclosed,
    Tree.wordsOf_leaf (Token.not_isTrivia hl rfl), Tree.wordsOf_append,
    Tree.wordsOf_leaf (Token.not_isTrivia hr rfl), Tree.wordsOf_nil, List.map_append,
    List.map_cons, List.map_cons, List.map_append, wordsOf_strung hfirst hcomma hmore,
    List.map_singleton, hn, hi, hl, hr]

theorem means_member {items : List Expr} (p : Phrase .sum a)
    (hn : ns.map Token.word = Expr.denial negated) (hi : i.word = .ofKeyword .inWord)
    (hl : left.word = .ofMark .leftParen) (hfirst : Phrase .disjunction first)
    (hcomma : ∀ p ∈ more, p.1.word = .ofMark .comma) (hmore : ∀ p ∈ more, Phrase .disjunction p.2)
    (hr : right.word = .ofMark .rightParen) (ha : Means env a x)
    (hitems : List.Forall₂ (Means env) (first :: more.map Prod.snd) items) :
    Means env (.node .inExpression
      (a :: (ns.map .leaf ++ .leaf i :: enclosed left (strung first more) right)))
      (.inList x items negated) := by
  have hnodes : (a :: (ns.map .leaf ++ .leaf i :: enclosed left (strung first more) right)).filter
      Tree.isNode = a :: first :: more.map Prod.snd :=
    filter_isNode_member p (maybe_of_denial hn).1 hfirst hmore
  intro text
  have hkeyword := Tree.hasKeyword_placed text (.node .inExpression
    (a :: (ns.map .leaf ++ .leaf i :: enclosed left (strung first more) right))) "not"
  have hcommas : (more.map fun _ => Word.ofMark .comma).any (Tree.matchesKeyword "not") =
      false := by
    rw [List.any_eq_false]
    intro w hw
    obtain ⟨-, -, rfl⟩ := List.mem_map.mp hw
    decide
  rw [words_member p hn hi hl hfirst hcomma hmore hr, List.any_append, List.any_cons,
    List.any_cons, List.any_append, hcommas] at hkeyword
  have hnot : ((Tree.node .inExpression (a :: (ns.map .leaf ++ .leaf i ::
      enclosed left (strung first more) right))).placed text).hasKeyword "not" = negated := by
    rw [hkeyword]
    cases negated <;> rfl
  simp only [Tree.placed] at hnot ⊢
  simp only [expr, hnot]
  refine Exactly.bind (ends_operand (by rw [hnodes]; rfl) (ha text)) ?_
  rw [tail_nodeExprs hnodes]
  exact Exactly.bind (exactly_inSequence hitems text) rfl

end Tests

theorem means_call {f : Token} {args as : List (Tree Token)} {function : String} {es : List Expr}
    (hf : f.word = .ofName function) (hknown : function ∈ Function.known)
    (hnodes : args.filter Tree.isNode = as) (has : List.Forall₂ (Means env) as es) :
    Means env (.node .callExpression [.leaf f, .node .argumentList args]) (.call function es) := by
  have hkept : f.kind.isTrivia = false := by
    refine Token.not_isTrivia hf ?_
    rw [Word.ofName]
    cases Keyword.ofText? function <;> rfl
  have hname : ∀ g ∈ Function.known, Function.isKnown g = true ∧ Text.lowered g = g := by
    decide +kernel
  have htext : f.text = function := congrArg Word.text hf
  have hwords : (Tree.node .callExpression [.leaf f, .node .argumentList args]).words = f :: [] :=
    Tree.wordsOf_leaf hkept _
  intro text
  simp only [Tree.placed, expr]
  refine Exactly.bind (a := function) ?_ ?_
  · refine Exactly.bind (ends_part (head?_ownLeaves hwords)) ?_
    have hleaf : (Leaf.ofToken text .callExpression f).text = function := htext
    simp only [Tree.kind, hleaf, hname function hknown]
    rfl
  · rw [argumentExprs_placedAll hkept, hnodes]
    exact Exactly.bind (exactly_inSequence has text) rfl

theorem means_type {datatype : DataType} (hu : u.word = ⟨.ident, datatype.name⟩)
    (hknown : datatype ≠ .unknown) :
    Means env (.node .typeLiteral [.leaf u]) (.type datatype) := by
  have hwords : (Tree.node .typeLiteral [.leaf u]).words = u :: [] :=
    Tree.wordsOf_leaf (Token.not_isTrivia hu rfl) _
  have hname : DataType.ofName? datatype.name = some datatype := by
    cases datatype <;> first | rfl | exact absurd rfl hknown
  intro text
  simp only [Tree.placed, expr]
  refine Exactly.bind (ends_part (head?_ownLeaves hwords)) ?_
  have hleaf : (Leaf.ofToken text .typeLiteral u).text = datatype.name := congrArg Word.text hu
  simp only [Tree.kind, hleaf, hname]
  rfl

theorem means_concept {address : String} (hu : u.word = ⟨.ident, address⟩)
    (hknown : env.Knows address) :
    Means env (.node .conceptLiteral [.leaf u]) (.concept address) := by
  have hkind : u.kind = .ident := congrArg Word.kind hu
  intro text
  simp only [Tree.placed, expr]
  refine Exactly.bind (ends_part (head?_conceptLiteral hkind)) ?_
  have hleaf : (Leaf.ofToken text .conceptLiteral u).text = address := congrArg Word.text hu
  rw [hleaf, resolveLater, env.resolve?_of_knows hknown]
  rfl

theorem means_literal {value : Literal} (h : u.word.Tells value) :
    Means env (.node .literal [.leaf u]) (.literal value) := by
  have hwords : (Tree.node .literal [.leaf u]).words = [u] :=
    Tree.wordsOf_leaf (notTrivia h.1 (by decide)) []
  intro text
  simp only [Tree.placed, expr]
  refine Exactly.bind (ends_part (head?_ownLeaves hwords)) ?_
  exact Exactly.bind (ends_part (h.2 text u rfl)) rfl

end Nodes

/-- The tokens are those of a phrase of this level, and it means the expression. -/
def Conveys (env : Environment) (l : Level) (ts : List Token) (e : Expr) : Prop :=
  ∃ t, Phrase l t ∧ t.leaves = ts ∧ Means env t e

/-- The tokens are those of phrases with commas between them, which mean the expressions. -/
def ConveysAll (env : Environment) (ts : List Token) (es : List Expr) : Prop :=
  ∃ first more, Tree.leavesOf (strung first more) = ts ∧ Phrase .disjunction first ∧
    (∀ p ∈ more, p.1.word = .ofMark .comma) ∧ (∀ p ∈ more, Phrase .disjunction p.2) ∧
    List.Forall₂ (Means env) (first :: more.map Prod.snd) es

theorem Conveys.loosen {l m : Level} {ts : List Token} {e : Expr} (h : Conveys env m ts e)
    (hl : l.rank ≤ m.rank) : Conveys env l ts e := by
  obtain ⟨t, ht, hleaves, hmeans⟩ := h
  exact ⟨t, ht.loosen hl, hleaves, hmeans⟩

/-- Between parentheses and commas any phrase may stand. -/
theorem Conveys.whole {m : Level} {ts : List Token} {e : Expr} (h : Conveys env m ts e) :
    Conveys env .disjunction ts e :=
  h.loosen (Nat.zero_le _)

theorem ofName_kind {function : String} (h : function ∈ Function.known) :
    (Word.ofName function).kind ∈ [.ident, word .like] := by
  have hall : ∀ f ∈ Function.known, (Word.ofName f).kind ∈ [.ident, word .like] := by
    decide +kernel
  exact hall function h

theorem atTypeName_datatype {datatype : DataType} (h : datatype ≠ .unknown) :
    atTypeName [⟨.ident, datatype.name⟩] = true := by
  cases datatype <;> first | rfl | exact absurd rfl h

/-- No name of a type has a dot. -/
theorem not_atTypeName {address : String} (h : Dotted.isDotted address = true) :
    atTypeName [⟨.ident, address⟩] = false := by
  have hplain : ∀ name ∈ typeNames, '.' ∉ name.toList := by decide
  have hdot : '.' ∈ (Text.lowered address).toList := by
    rw [Text.lowered, String.toList_ofList]
    exact List.mem_map.mpr ⟨'.', by simpa [Dotted.isDotted] using h, by decide⟩
  have hnot : Text.lowered address ∉ typeNames := fun hmem => hplain _ hmem hdot
  simpa [atTypeName] using hnot

mutual
/-- The words of an expression are those of a phrase that means it. -/
theorem conveys_words (e : Expr) (hf : e.Formed) (hs : e.Readable env) {ts : List Token}
    (hts : ts.map Token.word = e.words) : Conveys env e.level ts e := by
  cases e with
  | concept address =>
    obtain ⟨u, rfl, hu⟩ := List.map_eq_singleton_iff.mp hts
    have hname : atTypeName [u.word] = false := by
      rw [hu]
      exact not_atTypeName hs.2.1
    exact ⟨_, .concept (congrArg Word.kind hu) hname, rfl, means_concept hu hs.2.2⟩
  | literal value =>
    obtain ⟨w, hw, htells⟩ := Literal.Readable.exists_word hs
    have halone := hw [] Lexer.clear_nil
    rw [List.append_nil] at halone
    rw [Expr.words, halone] at hts
    obtain ⟨u, rfl, rfl⟩ := List.map_eq_singleton_iff.mp hts
    exact ⟨_, .literal htells.1, rfl, means_literal htells⟩
  | type datatype =>
    obtain ⟨u, rfl, hu⟩ := List.map_eq_singleton_iff.mp hts
    have hname : atTypeName [u.word] = true := by
      rw [hu]
      exact atTypeName_datatype hs
    exact ⟨_, .type (congrArg Word.kind hu) hname, rfl, means_type hu hs⟩
  | call function arguments =>
    -- here and below, the tokens fall apart where the words do
    simp only [Expr.words, List.map_eq_cons_iff, List.map_eq_append_iff, List.map_eq_nil_iff] at hts
    obtain ⟨f, _, rfl, hfunction, l, _, rfl, hl, us, _, rfl, hus, r, _, rfl, hr, rfl⟩ := hts
    have hkind : f.kind ∈ [.ident, word .like] := by
      have hname := ofName_kind hf.1
      rw [← hfunction] at hname
      exact hname
    by_cases hnone : arguments = []
    · subst hnone
      obtain rfl := List.map_eq_nil_iff.mp hus
      exact ⟨_, .callNothing hkind (congrArg Word.kind hl) (congrArg Word.kind hr), rfl,
        means_call hfunction hf.1 (filter_isNode_enclosed _ _ _) .nil⟩
    · obtain ⟨first, more, rfl, hfirst, hcomma, hmore, hmeans⟩ :=
        conveys_listed arguments hnone hf.2 hs hus
      refine ⟨_, .call hkind (congrArg Word.kind hl) hfirst
        (fun p hp => congrArg Word.kind (hcomma p hp)) hmore (congrArg Word.kind hr), ?_, ?_⟩
      · simp [enclosed, Tree.leaves, Tree.leavesOf]
      · refine means_call hfunction hf.1 ?_ hmeans
        rw [filter_isNode_enclosed, filter_isNode_strung hfirst hmore]
  | binary op lhs rhs =>
    simp only [Expr.words, List.map_eq_cons_iff, List.map_eq_append_iff] at hts
    obtain ⟨us, _, rfl, hus, u, vs, rfl, hu, hvs⟩ := hts
    obtain ⟨a, pa, rfl, ha⟩ := (conveys_words lhs hf.2.2.1 hs.1 hus).loosen hf.1
    obtain ⟨b, pb, rfl, hb⟩ := (conveys_words rhs hf.2.2.2 hs.2 hvs).loosen hf.2.1
    exact ⟨_, phrase_binary (congrArg Word.kind hu) pa pb, by simp [Tree.leaves, Tree.leavesOf],
      means_binary hu pa pb ha hb⟩
  | unary op operand =>
    cases op with
    | not =>
      obtain ⟨u, us, rfl, hu, hus⟩ := List.map_eq_cons_iff.mp hts
      obtain ⟨a, pa, rfl, ha⟩ := (conveys_words operand hf.2 hs.2 hus).loosen hf.1
      have hmeans : Means env (.node .unaryExpression [.leaf u, a]) (.unary .not operand) :=
        means_unary pa (Token.not_isTrivia hu rfl) (by rw [hu]; rfl) ha
      exact ⟨_, .not (congrArg Word.kind hu) pa, by simp [Tree.leaves, Tree.leavesOf], hmeans⟩
    | neg =>
      obtain ⟨u, us, rfl, hu, hus⟩ := List.map_eq_cons_iff.mp hts
      obtain ⟨a, pa, rfl, ha⟩ := (conveys_words operand hf.2 hs.2 hus).loosen hf.1
      have hmeans : Means env (.node .unaryExpression [.leaf u, a]) (.unary .neg operand) :=
        means_unary pa (Token.not_isTrivia hu rfl) (by rw [hu]; rfl) ha
      exact ⟨_, .minus (congrArg Word.kind hu) pa, by simp [Tree.leaves, Tree.leavesOf], hmeans⟩
  | isNull operand negated =>
    simp only [Expr.words, List.map_eq_cons_iff, List.map_eq_append_iff, List.map_eq_nil_iff] at hts
    obtain ⟨us, _, rfl, hus, i, _, rfl, hi, ns, _, rfl, hn, z, _, rfl, hz, rfl⟩ := hts
    obtain ⟨a, pa, rfl, ha⟩ := (conveys_words operand hf.2 hs hus).loosen hf.1
    exact ⟨_, .isNull pa (congrArg Word.kind hi) (maybe_of_denial hn).1 (congrArg Word.kind hz),
      by simp [Tree.leaves, Tree.leavesOf], means_isNull pa hi hn hz ha⟩
  | inList operand items negated =>
    simp only [Expr.words, List.map_eq_cons_iff, List.map_eq_append_iff, List.map_eq_nil_iff] at hts
    obtain ⟨us, _, rfl, hus, ns, _, rfl, hn, i, _, rfl, hi, l, _, rfl, hl, vs, _, rfl, hvs, r, _,
      rfl, hr, rfl⟩ := hts
    obtain ⟨a, pa, rfl, ha⟩ := (conveys_words operand hf.2.1 hs.1 hus).loosen hf.1
    obtain ⟨first, more, rfl, hfirst, hcomma, hmore, hmeans⟩ :=
      conveys_listed items hf.2.2.1 hf.2.2.2 hs.2 hvs
    exact ⟨_, .member pa (maybe_of_denial hn).1 (congrArg Word.kind hi) (congrArg Word.kind hl)
      hfirst (fun p hp => congrArg Word.kind (hcomma p hp)) hmore (congrArg Word.kind hr),
      by simp [enclosed, Tree.leaves, Tree.leavesOf],
      means_member pa hn hi hl hfirst hcomma hmore hr ha hmeans⟩
  | paren inner =>
    simp only [Expr.words, List.map_eq_cons_iff, List.map_eq_append_iff, List.map_eq_nil_iff] at hts
    obtain ⟨l, _, rfl, hl, us, _, rfl, hus, r, _, rfl, hr, rfl⟩ := hts
    obtain ⟨a, pa, rfl, ha⟩ := (conveys_words inner hf hs hus).whole
    exact ⟨_, .paren (congrArg Word.kind hl) pa (congrArg Word.kind hr),
      by simp [Tree.leaves, Tree.leavesOf], means_paren pa ha⟩

theorem conveys_listed (es : List Expr) (hne : es ≠ []) (hf : Expr.FormedAll es)
    (hs : Expr.ReadableAll env es) {ts : List Token} (hts : ts.map Token.word = Expr.listed es) :
    ConveysAll env ts es := by
  match es with
  | [] => exact absurd rfl hne
  | [e] =>
    obtain ⟨t, pt, rfl, ht⟩ := (conveys_words e hf.1 hs.1 hts).whole
    exact ⟨t, [], by simp [strung, Tree.leavesOf], pt, by simp, by simp, .cons ht .nil⟩
  | e :: next :: es =>
    rw [Expr.listed_cons_cons] at hts
    simp only [List.map_eq_cons_iff, List.map_eq_append_iff] at hts
    obtain ⟨us, _, rfl, hus, c, vs, rfl, hc, hvs⟩ := hts
    obtain ⟨t, pt, rfl, ht⟩ := (conveys_words e hf.1 hs.1 hus).whole
    obtain ⟨first, more, rfl, hfirst, hcomma, hmore, hmeans⟩ :=
      conveys_listed (next :: es) (List.cons_ne_nil _ _) hf.2 hs.2 hvs
    exact ⟨t, (c, first) :: more, by simp [strung, Tree.leavesOf, Tree.leaves], pt,
      List.forall_mem_cons.mpr ⟨hc, hcomma⟩, List.forall_mem_cons.mpr ⟨hfirst, hmore⟩,
      .cons ht hmeans⟩
end

end Compile

theorem placed_derivation {text : List Char} {l : Level} {k name arrow semi : Token}
    {a : Tree Token} (hk : k.kind.isTrivia = false) (hname : name.kind.isTrivia = false)
    (harrow : arrow.kind.isTrivia = false) (pa : Phrase l a) (hs : semi.kind.isTrivia = false) :
    (Tree.node .sourceFile [.node .conceptDerivation
      [.leaf k, .leaf name, .leaf arrow, a, .leaf semi]]).placed text =
    .node .sourceFile [.node .conceptDerivation [.leaf (Leaf.ofToken text .conceptDerivation k),
      .leaf (Leaf.ofToken text .conceptDerivation name),
      .leaf (Leaf.ofToken text .conceptDerivation arrow), a.placed text,
      .leaf (Leaf.ofToken text .conceptDerivation semi)]] := by
  cases a with
  | leaf u => cases Compile.isNode_of_phrase pa
  | node kind children => simp [Tree.placed, Tree.placedAll, hk, hname, harrow, hs]

/-- The statement that derives a concept by the expression. -/
def Expr.derivation (e : Expr) (gap : String) : String :=
  "auto q <- " ++ e.text ++ gap ++ ";"

theorem Expr.words_derivation {env : Environment} {e : Expr} {gap : String} (hf : e.Formed)
    (hs : e.Readable env) (hgap : ∀ c ∈ gap.toList, Lexer.isSpace c = true) :
    Lexer.words (e.derivation gap).toList = .ofKeyword .auto :: ⟨.ident, "q"⟩ ::
      .ofMark .leftArrow :: (e.words ++ [.ofMark .semicolon]) := by
  have htext : (e.derivation gap).toList = Keyword.auto.text.toList ++ ' ' :: ("q".toList ++ ' ' ::
      (Punctuation.leftArrow.text.toList ++ ' ' :: (e.text.toList ++ (gap.toList ++ [';'])))) := by
    simp [derivation, Keyword.text, Punctuation.text]
  have hclear : Lexer.Clear (gap.toList ++ [';']) := by
    cases hcs : gap.toList with
    | nil => exact Lexer.clear_cons (by decide)
    | cons c cs => exact Lexer.clear_cons (Lexer.not_continues_of_space (hgap c (by simp [hcs])))
  have hname : Lexer.IsName "q".toList := Lexer.isName_of_plain (by decide)
  have hsemi : Lexer.words [';'] = [.ofMark .semicolon] := by decide
  rw [htext, Lexer.words_keyword_blank, Lexer.words_name hname (Lexer.clear_cons (by decide)),
    Lexer.words_blank_cons, Lexer.words_mark_blank, words_text e hf hs _ hclear,
    Lexer.words_blank hgap, hsemi]
  rfl

/-- The text of an expression that respects the levels of the grammar is read back as the
expression, with nothing else in it. -/
theorem Expr.reads_back {env : Environment} {e : Expr} {gap : String} (hf : e.Formed)
    (hs : e.Readable env) (hgap : ∀ c ∈ gap.toList, Lexer.isSpace c = true) :
    ∃ k name arrow node semi, parse (e.derivation gap) = .ok (.node .sourceFile
        [.node .conceptDerivation [.leaf k, .leaf name, .leaf arrow, node, .leaf semi]]) ∧
      Compile.expr env node = .ok e := by
  have hwords : (Token.significant (e.derivation gap)).map Token.word = _ :=
    words_derivation hf hs hgap
  simp only [List.map_eq_cons_iff, List.map_eq_append_iff, List.map_eq_nil_iff] at hwords
  obtain ⟨k, _, hleaves, hk, name, _, rfl, hname, arrow, _, rfl, harrow, us, _, rfl, hus, semi, _,
    rfl, hsemi, rfl⟩ := hwords
  obtain ⟨a, pa, rfl, ha⟩ := (Compile.conveys_words e hf hs hus).whole
  have hpurpose : k.kind ∈ purposes := by
    rw [show k.kind = word .auto from congrArg Word.kind hk]
    decide
  have hsentence : Sentence (.node .conceptDerivation
      [.leaf k, .leaf name, .leaf arrow, a, .leaf semi]) :=
    .derivation hpurpose (congrArg Word.kind hname) (congrArg Word.kind harrow) pa
      (congrArg Word.kind hsemi)
  have htokens : Tree.leavesOf [Tree.node .conceptDerivation
      [.leaf k, .leaf name, .leaf arrow, a, .leaf semi]] =
        Token.significant (e.derivation gap) := by
    rw [hleaves]
    simp [Tree.leavesOf, Tree.leaves]
  have hparse := parse_of_sentences (List.forall_mem_singleton.mpr hsentence) htokens
  rw [placed_derivation (Token.not_isTrivia hk rfl) (Token.not_isTrivia hname rfl)
    (Token.not_isTrivia harrow rfl) pa (Token.not_isTrivia hsemi rfl)] at hparse
  exact ⟨_, _, _, _, _, hparse, Compile.exactly_iff.mp (ha _)⟩

/-- Two keys. -/
def twoKeys : Environment :=
  { Environment.initial with
    concepts := ⟨[
      ("local.a", { name := "a", space := "local", datatype := .integer, purpose := .key }),
      ("local.b", { name := "b", space := "local", datatype := .date, purpose := .key })]⟩ }

/-- `like` as an operator and as a function, `date` as a type and as a function, a number below
zero on the right of a minus, and each test with `not`. -/
def nestedTests : Expr :=
  .binary .or
    (.binary .and
      (.inList (.binary .sub (.concept "local.a") (.unary .neg (.concept "local.b")))
        [.literal (.number "1"), .literal (.number "2.5")] true)
      (.unary .not (.binary .like (.call "like" [.literal (.string "x\ny"), .concept "local.a"])
        (.call "date" [.call "now" []]))))
    (.isNull (.paren (.call "cast" [.concept "local.b", .type .date])) true)

theorem Expr.reads_back_nestedTests :
    nestedTests.derivation " " = "auto q <- local.a - -local.b not in (1, 2.5) and " ++
      "not like('x\ny', local.a) like date(now()) or (cast(local.b, date)) is not null ;" ∧
    ∃ k name arrow node semi, parse (nestedTests.derivation " ") = .ok (.node .sourceFile
        [.node .conceptDerivation [.leaf k, .leaf name, .leaf arrow, node, .leaf semi]]) ∧
      Compile.expr twoKeys node = .ok nestedTests := by
  have hone : Lexer.IsNumber "1".toList := ⟨.integer, .inl rfl, by decide⟩
  have hfloat : Lexer.IsNumber "2.5".toList := ⟨.float, .inr rfl, by decide⟩
  have hname : ∀ c : Char, Lexer.startsName c = true →
      Lexer.IsName ['l', 'o', 'c', 'a', 'l', '.', c] := fun c hc =>
    ⟨_, _, rfl, rfl,
      .continues rfl (.continues rfl (.continues rfl (.continues rfl (.dot hc .nil))))⟩
  have ha : (Expr.concept "local.a").Readable twoKeys :=
    ⟨hname 'a' rfl, by decide, by simp [twoKeys, Environment.Knows, Catalog.keys]⟩
  have hb : (Expr.concept "local.b").Readable twoKeys :=
    ⟨hname 'b' rfl, by decide, by simp [twoKeys, Environment.Knows, Catalog.keys]⟩
  have hbody : (Literal.string "x\ny").Readable := by
    simp [Literal.Readable]
  have hformed : nestedTests.Formed := by
    have hdigits : IsNumeral "1".toList ∧ IsNumeral "2.5".toList := by
      simp [IsNumeral, Lexer.isDigit]
    simp only [nestedTests, Expr.Formed, Expr.FormedAll, Literal.Formed, hdigits, and_true,
      true_and]
    decide
  have hminus : (Expr.unary .neg (.concept "local.b")).Readable twoKeys :=
    ⟨fun _ e h => (by cases h), hb⟩
  have htype : (Expr.type .date).Readable twoKeys := DataType.noConfusion
  have hlike : (Expr.unary .not (.binary .like
      (.call "like" [.literal (.string "x\ny"), .concept "local.a"])
      (.call "date" [.call "now" []]))).Readable twoKeys :=
    ⟨fun h => (by cases h), ⟨⟨hbody, ⟨ha, trivial⟩⟩, ⟨trivial, trivial⟩⟩⟩
  have hreadable : nestedTests.Readable twoKeys :=
    ⟨⟨⟨⟨ha, hminus⟩, ⟨hone, ⟨hfloat, trivial⟩⟩⟩, hlike⟩, ⟨hb, ⟨htype, trivial⟩⟩⟩
  exact ⟨by decide +kernel, Expr.reads_back hformed hreadable (by simp [Lexer.isSpace])⟩

end ConceptQuery
