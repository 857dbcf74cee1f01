import ConceptQuery.Proofs.Placed
import ConceptQuery.Proofs.Triple

/-! # Errors that a well-formed document can have

The compiler takes the statements of a tree apart by position: the first keyword,
the second node, the last name. Of a tree that the grammar made it always finds
what it looks for. What remains are errors about names, types, functions and
imports, a limit that is too large, and an alignment of the wrong length.
-/
namespace ConceptQuery

/-- Which errors about the form of a statement there may be, by rule, line and message. -/
abbrev Flaw := String → Nat → String → Prop

/-- The errors that a document may have which the grammar accepts, if these are the flaws
of its form. -/
def CompileError.Anticipated (flaw : Flaw) : CompileError → Prop
  | .notPrepared => False
  | .malformed rule line message => flaw rule line message
  | _ => True

namespace Compile
open Grammar

/-- A blocked expression has such an error if nobody waits. -/
def Blocker.Anticipated (flaw : Flaw) (b : Blocker) : Prop :=
  b.error.Anticipated flaw

section Texts

/-- The text of a kind that has only one. -/
def fixedText? : TokenKind → Option String
  | .keyword k => some k.text
  | .punctuation p => some p.text
  | _ => none

theorem text_eq_of_spells {t : Token} {s : String} (h : t.kind.Spells t.text.toList)
    (hs : fixedText? t.kind = some s) : t.text = s := by
  apply String.toList_injective
  cases hk : t.kind with
  | keyword k =>
    rw [hk] at h hs
    rw [← Option.some.inj hs]
    exact h
  | punctuation p =>
    rw [hk] at h hs
    rw [← Option.some.inj hs]
    exact h
  | _ =>
    rw [hk] at hs
    cases hs

/-- A property of the texts of some kinds. -/
def TextsSatisfy (kinds : List TokenKind) (P : String → Bool) : Bool :=
  kinds.all fun k => (fixedText? k).any P

theorem text_satisfies {kinds : List TokenKind} {P : String → Bool} (hall : TextsSatisfy kinds P)
    {t : Token} (ht : t.kind ∈ kinds) (h : t.kind.Spells t.text.toList) : P t.text = true := by
  have hany := List.all_eq_true.mp hall t.kind ht
  cases hs : fixedText? t.kind with
  | none => simp [hs] at hany
  | some s =>
    rw [text_eq_of_spells h hs]
    simpa [hs] using hany

theorem purposes_satisfy :
    TextsSatisfy purposes (fun s => (Purpose.ofKeyword? s).isSome) = true := by
  decide +kernel

theorem operators_satisfy (l : Level) :
    TextsSatisfy l.operators (fun s => (BinaryOp.ofToken? s).isSome) = true := by
  cases l <;> decide +kernel

theorem comparisons_satisfy :
    TextsSatisfy comparisonOperators (fun s => (BinaryOp.ofToken? s).isSome) = true := by
  decide +kernel

end Texts

theorem notTrivia {t : Token} {kinds : List TokenKind} (ht : t.kind ∈ kinds)
    (hk : kinds.all (fun k => !k.isTrivia) = true) : t.kind.isTrivia = false := by
  simpa using List.all_eq_true.mp hk t.kind ht

theorem isNode_of_phrase {l : Level} {t : Tree Token} (h : Phrase l t) : t.isNode = true := by
  induction h with
  | tighter _ _ ih => exact ih
  | _ => rfl

section Expressions
variable {flaw : Flaw} {env : Environment} {text : List Char} {line : Nat}

theorem nodeExprs_placedAll (parent : NodeKind) (cs : List (Tree Token)) :
    nodeExprs env (Tree.placedAll text parent cs) =
      (cs.filter Tree.isNode).map fun t => expr env (t.placed text) := by
  rw [nodeExprs_eq, Tree.filter_isNode_placedAll, List.map_map]
  rfl

theorem tail_nodeExprs {parent : NodeKind} {cs as : List (Tree Token)} {a : Tree Token}
    (h : cs.filter Tree.isNode = a :: as) :
    (nodeExprs env (Tree.placedAll text parent cs)).tail =
      as.map fun t => expr env (t.placed text) := by
  rw [nodeExprs_placedAll, h, List.map_cons, List.tail_cons]

/-- An expression that compiles, or waits or fails for an anticipated reason. -/
abbrev Sound {α : Type} (flaw : Flaw) : Except Blocker α → Prop :=
  Ends (fun _ => True) (Blocker.Anticipated flaw)

theorem ends_operand {parent : NodeKind} {cs : List (Tree Token)} {i : Nat} {a : Tree Token}
    {good : Expr → Prop} {bad : Blocker → Prop} (h : (cs.filter Tree.isNode)[i]? = some a)
    (ha : Ends good bad (expr env (a.placed text))) :
    Ends good bad (operand line (nodeExprs env (Tree.placedAll text parent cs)) i) := by
  rw [nodeExprs_placedAll, operand, List.getElem?_map, h]
  exact ha

theorem sound_inSequence {as : List (Tree Token)}
    (h : ∀ a ∈ as, Sound flaw (expr env (a.placed text))) :
    Sound flaw (inSequence (as.map fun a => expr env (a.placed text))) := by
  have hmap : ∀ x ∈ as.map (fun a => expr env (a.placed text)), Sound flaw x := by
    intro x hx
    obtain ⟨a, ha, rfl⟩ := List.mem_map.mp hx
    exact h a ha
  exact ends_inSequence hmap

theorem ends_part {α : Type} {message : String} {value : Option α} {a : α}
    {bad : Blocker → Prop} (h : value = some a) :
    Ends (fun b => b = a) bad (part line message value) := by
  rw [part, h]
  rfl

theorem sound_resolveLater (name : String) : Sound flaw (resolveLater env name line) := by
  unfold resolveLater
  split
  · trivial
  · trivial

variable {k : NodeKind} {t : Tree Token}

theorem head?_ownLeaves {u : Token} {us : List Token} (h : t.words = u :: us) :
    (t.placed text).ownLeaves.head? = some (Leaf.ofToken text t.kind u) := by
  rw [Tree.ownLeaves_placed, h]
  rfl

theorem sound_binaryOp {op : Token} {us : List Token} (h : t.words = op :: us)
    (hop : (BinaryOp.ofToken? op.text).isSome = true) :
    Sound flaw (binaryOp line (t.placed text)) := by
  obtain ⟨o, ho⟩ := Option.isSome_iff_exists.mp hop
  apply (ends_part (head?_ownLeaves h)).bind
  rintro leaf rfl
  exact (ends_part ho).weaken (fun _ _ => trivial) (fun _ h => h)

theorem sound_functionName {f : Token} {us : List Token} (h : t.words = f :: us) :
    Sound flaw (functionName line (t.placed text)) := by
  apply (ends_part (head?_ownLeaves h)).bind
  rintro leaf rfl
  split
  · trivial
  · trivial

theorem sound_typeExpr {u : Token} {us : List Token} (h : t.words = u :: us) :
    Sound flaw (typeExpr line (t.placed text)) := by
  apply (ends_part (head?_ownLeaves h)).bind
  rintro leaf rfl
  split
  · trivial
  · trivial

theorem head?_conceptLiteral {u : Token} (hu : u.kind = .ident) :
    ((Tree.node .conceptLiteral [.leaf u]).placed text).identifiers.head? =
      some (Leaf.ofToken text .conceptLiteral u) := by
  rw [Tree.identifiers_placed text _ (by decide) (by decide)]
  simp [Tree.wordsOf, hu, TokenKind.isTrivia]

theorem sound_conceptExpr {u : Token} (hu : u.kind = .ident) :
    Sound flaw (conceptExpr env line ((Tree.node .conceptLiteral [.leaf u]).placed text)) := by
  apply (ends_part (head?_conceptLiteral hu)).bind
  rintro leaf rfl
  exact (sound_resolveLater _).bind fun _ _ => trivial

/-- The words among the literals. -/
def literalWords : List TokenKind :=
  [word .trueWord, word .falseWord, word .null]

theorem literalWords_satisfy :
    TextsSatisfy literalWords (fun s => (literalOf? ⟨.keyword, s, none, none, none, none⟩).isSome) =
      true := by
  decide +kernel

/-- A literal has a value. -/
theorem literalOf?_ofToken {u : Token} (hu : u.kind ∈ literalStart)
    (hs : u.kind.Spells u.text.toList) :
    ∃ value, literalOf? (Leaf.ofToken text .literal u) = some value := by
  by_cases hword : u.kind ∈ literalWords
  · obtain ⟨value, hvalue⟩ := Option.isSome_iff_exists.mp
      (text_satisfies literalWords_satisfy hword hs)
    have hkind : (Leaf.ofToken text .literal u).kind = .keyword := by
      simp only [literalWords, List.mem_cons, List.not_mem_nil, or_false] at hword
      rcases hword with h | h | h <;> simp [Leaf.ofToken, Leaf.kindOf, h]
    refine ⟨value, ?_⟩
    rw [← hvalue, literalOf?, literalOf?, hkind]
    rfl
  · have hkind : u.kind = .integer ∨ u.kind = .float ∨ u.kind = .string := by
      simp only [literalStart, literalWords, List.mem_cons, List.not_mem_nil, or_false] at hu hword
      rcases hu with h | h | h | h
      · exact .inl h
      · exact .inr (.inl h)
      · exact .inr (.inr h)
      · exact absurd h hword
    rcases hkind with h | h | h <;> simp [literalOf?, Leaf.ofToken, Leaf.kindOf, h]

theorem sound_literalExpr {u : Token} (hu : u.kind ∈ literalStart)
    (hs : u.kind.Spells u.text.toList) :
    Sound flaw (literalExpr line ((Tree.node .literal [.leaf u]).placed text)) := by
  have hwords : (Tree.node .literal [.leaf u]).words = [u] :=
    Tree.wordsOf_leaf (notTrivia hu (by decide)) []
  obtain ⟨value, hvalue⟩ := literalOf?_ofToken hu hs
  apply (ends_part (head?_ownLeaves hwords)).bind
  rintro leaf rfl
  apply (ends_part hvalue).bind
  exact fun _ _ => trivial

theorem wordsOf_phrase {l : Level} {a : Tree Token} (h : Phrase l a) (cs : List (Tree Token)) :
    Tree.wordsOf (a :: cs) = Tree.wordsOf cs := by
  have hnode := isNode_of_phrase h
  cases a with
  | leaf u => cases hnode
  | node k ds => rfl

theorem filter_isNode_phrase {l : Level} {a : Tree Token} (h : Phrase l a)
    (cs : List (Tree Token)) : (a :: cs).filter Tree.isNode = a :: cs.filter Tree.isNode :=
  List.filter_cons_of_pos (isNode_of_phrase h)

theorem filter_isNode_maybe {kind : TokenKind} {xs : List (Tree Token)} (h : Maybe kind xs) :
    xs.filter Tree.isNode = [] := by
  rcases h with rfl | ⟨t, -, rfl⟩
  · rfl
  · rfl

/-- The nodes between the separators. -/
theorem filter_isNode_strung {l : Level} {first : Tree Token} {more : List (Token × Tree Token)}
    (hfirst : Phrase l first) (hmore : ∀ p ∈ more, Phrase l p.2) :
    (strung first more).filter Tree.isNode = first :: more.map Prod.snd := by
  rw [strung, filter_isNode_phrase hfirst]
  congr 1
  induction more with
  | nil => rfl
  | cons p more ih =>
    have hp := hmore p (by simp)
    rw [List.flatMap_cons, List.cons_append, List.cons_append, List.nil_append,
      Tree.filter_isNode_leaf, filter_isNode_phrase hp, ih fun q hq => hmore q (by simp [hq]),
      List.map_cons]

theorem filter_isNode_enclosed (left right : Token) (inner : List (Tree Token)) :
    (enclosed left inner right).filter Tree.isNode = inner.filter Tree.isNode := by
  simp [enclosed]

theorem filter_isNode_member {l : Level} {a first : Tree Token} {negated : List (Tree Token)}
    {i left right : Token} {more : List (Token × Tree Token)} (ha : Phrase l a)
    (hn : Maybe (word .not) negated) (hfirst : Phrase .disjunction first)
    (hmore : ∀ p ∈ more, Phrase .disjunction p.2) :
    (a :: (negated ++ .leaf i :: enclosed left (strung first more) right)).filter Tree.isNode =
      a :: first :: more.map Prod.snd := by
  rw [filter_isNode_phrase ha, List.filter_append, filter_isNode_maybe hn, List.nil_append,
    Tree.filter_isNode_leaf, filter_isNode_enclosed, filter_isNode_strung hfirst hmore]

theorem filter_isNode_binary {l m : Level} {a b : Tree Token} {op : Token} (lhs : Phrase l a)
    (rhs : Phrase m b) : [a, .leaf op, b].filter Tree.isNode = [a, b] := by
  rw [filter_isNode_phrase lhs, Tree.filter_isNode_leaf, filter_isNode_phrase rhs, List.filter_nil]

theorem words_binary {l m : Level} {a b : Tree Token} {op : Token} (lhs : Phrase l a)
    (rhs : Phrase m b) (hword : op.kind.isTrivia = false) :
    (Tree.node .binaryExpression [a, .leaf op, b]).words = [op] := by
  rw [Tree.words_node, wordsOf_phrase lhs, Tree.wordsOf_leaf hword, wordsOf_phrase rhs,
    Tree.wordsOf_nil]

theorem filter_isNode_unary {l : Level} {a : Tree Token} {u : Token} (p : Phrase l a) :
    [.leaf u, a].filter Tree.isNode = [a] := by
  rw [Tree.filter_isNode_leaf, filter_isNode_phrase p, List.filter_nil]

theorem filter_isNode_paren {l : Level} {a : Tree Token} {left right : Token} (p : Phrase l a) :
    [.leaf left, a, .leaf right].filter Tree.isNode = [a] := by
  rw [Tree.filter_isNode_leaf, filter_isNode_phrase p, Tree.filter_isNode_leaf, List.filter_nil]

theorem filter_isNode_isNull {l : Level} {a : Tree Token} {negated : List (Tree Token)}
    {i z : Token} (p : Phrase l a) (hn : Maybe (word .not) negated) :
    (a :: .leaf i :: (negated ++ [.leaf z])).filter Tree.isNode = [a] := by
  rw [filter_isNode_phrase p, Tree.filter_isNode_leaf, List.filter_append, filter_isNode_maybe hn]
  rfl

theorem sound_binary {l m : Level} {a b : Tree Token} {op : Token} (lhs : Phrase l a)
    (rhs : Phrase m b) (hword : op.kind.isTrivia = false)
    (hop : (BinaryOp.ofToken? op.text).isSome = true) (ha : Sound flaw (expr env (a.placed text)))
    (hb : Sound flaw (expr env (b.placed text))) :
    Sound flaw (expr env ((Tree.node .binaryExpression [a, .leaf op, b]).placed text)) := by
  have hnodes : [a, .leaf op, b].filter Tree.isNode = [a, b] := filter_isNode_binary lhs rhs
  simp only [Tree.placed, expr]
  refine (sound_binaryOp (words_binary lhs rhs hword) hop).bind fun _ _ => ?_
  refine (ends_operand (by rw [hnodes]; rfl) ha).bind fun _ _ => ?_
  exact (ends_operand (by rw [hnodes]; rfl) hb).bind fun _ _ => trivial

theorem sound_unary {l : Level} {a : Tree Token} {u : Token} (p : Phrase l a)
    (ha : Sound flaw (expr env (a.placed text))) :
    Sound flaw (expr env ((Tree.node .unaryExpression [.leaf u, a]).placed text)) := by
  simp only [Tree.placed, expr]
  exact (ends_operand (by rw [filter_isNode_unary p]; rfl) ha).bind fun _ _ => trivial

theorem argumentExprs_placedAll {f : Token} {args : List (Tree Token)}
    (hf : f.kind.isTrivia = false) :
    argumentExprs env (Tree.placedAll text .callExpression
      [.leaf f, .node .argumentList args]) =
      (args.filter Tree.isNode).map fun a => expr env (a.placed text) := by
  simp only [Tree.placedAll, hf, Bool.false_eq_true, if_false, Tree.placed, argumentExprs,
    if_true, nodeExprs_placedAll]

theorem sound_call {f : Token} {args : List (Tree Token)} {as : List (Tree Token)}
    (hf : f.kind.isTrivia = false) (hnodes : args.filter Tree.isNode = as)
    (has : ∀ a ∈ as, Sound flaw (expr env (a.placed text))) :
    Sound flaw (expr env ((Tree.node .callExpression [.leaf f, .node .argumentList args]).placed
      text)) := by
  have hwords : (Tree.node .callExpression [.leaf f, .node .argumentList args]).words = f :: [] :=
    Tree.wordsOf_leaf hf _
  simp only [Tree.placed, expr]
  refine (sound_functionName hwords).bind fun _ _ => ?_
  rw [argumentExprs_placedAll hf, hnodes]
  exact (sound_inSequence has).bind fun _ _ => trivial

/-- Every phrase is an expression that the compiler understands. -/
theorem sound_expr {l : Level} {t : Tree Token} (h : Phrase l t) (hs : t.Spelled) :
    Sound flaw (expr env (t.placed text)) := by
  induction h with
  | tighter _ _ ih => exact ih hs
  | @chain l m a op b h ho lhs rhs iha ihb =>
    have hop := text_satisfies (operators_satisfy l) ho (hs.leaf (by simp))
    have hword : op.kind.isTrivia = false := notTrivia ho (by cases l <;> decide)
    exact sound_binary lhs rhs hword hop (iha (hs.child (by simp))) (ihb (hs.child (by simp)))
  | not hu p ih => exact sound_unary p (ih (hs.child (by simp)))
  | @compare a op b ho lhs rhs iha ihb =>
    have hop := text_satisfies comparisons_satisfy ho (hs.leaf (by simp))
    have hword : op.kind.isTrivia = false := notTrivia ho (by decide)
    exact sound_binary lhs rhs hword hop (iha (hs.child (by simp))) (ihb (hs.child (by simp)))
  | @isNull a i negated z p hi hn hz ih =>
    simp only [Tree.placed, expr]
    exact (ends_operand (by rw [filter_isNode_isNull p hn]; rfl) (ih (hs.child (by simp)))).bind
      fun _ _ => trivial
  | @member a negated i l first more r p hn hi hl hfirst hcomma hmore hr ih ihfirst ihmore =>
    have hnodes : (a :: (negated ++ .leaf i :: enclosed l (strung first more) r)).filter
        Tree.isNode = a :: first :: more.map Prod.snd := filter_isNode_member p hn hfirst hmore
    have hitems : ∀ b ∈ first :: more.map Prod.snd, Sound flaw (expr env (b.placed text)) := by
      intro b hb
      have hspelled : b.Spelled := by
        apply hs.node
        rw [Tree.nodes_node, hnodes]
        exact List.mem_cons_of_mem a hb
      rcases List.mem_cons.mp hb with rfl | hb
      · exact ihfirst hspelled
      · obtain ⟨q, hq, rfl⟩ := List.mem_map.mp hb
        exact ihmore q hq hspelled
    simp only [Tree.placed, expr]
    refine (ends_operand (by rw [hnodes]; rfl) (ih (hs.child (by simp)))).bind fun _ _ => ?_
    rw [tail_nodeExprs hnodes]
    exact (sound_inSequence hitems).bind fun _ _ => trivial
  | minus hu p ih => exact sound_unary p (ih (hs.child (by simp)))
  | literal hu =>
    simp only [Tree.placed, expr]
    exact sound_literalExpr hu (hs.leaf (by simp))
  | @paren l a r hl p hr ih =>
    simp only [Tree.placed, expr]
    exact (ends_operand (by rw [filter_isNode_paren p]; rfl) (ih (hs.child (by simp)))).bind
      fun _ _ => trivial
  | @call f l first more r hf hl hfirst hcomma hmore hr ihfirst ihmore =>
    have hnodes : (enclosed l (strung first more) r).filter Tree.isNode =
        first :: more.map Prod.snd := by
      rw [filter_isNode_enclosed, filter_isNode_strung hfirst hmore]
    refine sound_call (notTrivia hf (by decide)) hnodes fun b hb => ?_
    have hargs : (Tree.node .argumentList (enclosed l (strung first more) r)).Spelled :=
      hs.child (by simp)
    have hspelled : b.Spelled := by
      apply hargs.node
      rw [Tree.nodes_node, hnodes]
      exact hb
    rcases List.mem_cons.mp hb with rfl | hb
    · exact ihfirst hspelled
    · obtain ⟨q, hq, rfl⟩ := List.mem_map.mp hb
      exact ihmore q hq hspelled
  | callNothing hf hl hr =>
    exact sound_call (notTrivia hf (by decide)) (filter_isNode_enclosed _ _ _) (by simp)
  | @type u hu hn =>
    have hwords : (Tree.node .typeLiteral [.leaf u]).words = u :: [] :=
      Tree.wordsOf_leaf (by rw [hu]; rfl) _
    simp only [Tree.placed, expr]
    exact sound_typeExpr hwords
  | concept hu hn =>
    simp only [Tree.placed, expr]
    exact sound_conceptExpr hu

end Expressions
end Compile
end ConceptQuery
