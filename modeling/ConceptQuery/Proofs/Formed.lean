import ConceptQuery.Proofs.Anticipated
import ConceptQuery.Proofs.Inside
import ConceptQuery.Proofs.Known
import ConceptQuery.Proofs.SqlReading

/-! # Expressions as the grammar forms them

An expression that was compiled of a phrase has the levels of the grammar in it: each operand
binds as tightly as its place asks, a concept or a call like any other atom. It calls known
functions only, its lists have members, and its numbers are digits. `Expr.Formed` says all this.
Every node inside a statement that the compiler takes for an expression is a phrase, so what
it makes of the trees of a document is formed, wherever it looks for it.
-/
namespace ConceptQuery
open Grammar (Level)

/-- Digits, with or without a dot. -/
def IsNumeral (cs : List Char) : Prop :=
  cs ≠ [] ∧ ∀ c ∈ cs, Lexer.isDigit c = true ∨ c = '.'

def Literal.Formed : Literal → Prop
  | number text => IsNumeral text.toList
  | _ => True

namespace Expr

def level : Expr → Level
  | concept _ | literal _ | type _ | call _ _ | paren _ => .atom
  | binary op _ _ => op.level
  | unary op _ => op.level
  | isNull _ _ | inList _ _ _ => .comparison

mutual
def Formed : Expr → Prop
  | concept _ | type _ => True
  | literal value => value.Formed
  | call function arguments => function ∈ Function.known ∧ FormedAll arguments
  | binary op lhs rhs =>
    op.left.rank ≤ lhs.level.rank ∧ op.right.rank ≤ rhs.level.rank ∧ Formed lhs ∧ Formed rhs
  | unary op operand => op.level.rank ≤ operand.level.rank ∧ Formed operand
  | isNull operand _ => Level.sum.rank ≤ operand.level.rank ∧ Formed operand
  | inList operand items _ =>
    Level.sum.rank ≤ operand.level.rank ∧ Formed operand ∧ items ≠ [] ∧ FormedAll items
  | paren inner => Formed inner

def FormedAll : List Expr → Prop
  | [] => True
  | e :: es => Formed e ∧ FormedAll es
end

theorem formedAll_iff {es : List Expr} : FormedAll es ↔ ∀ e ∈ es, e.Formed := by
  induction es with
  | nil => simp [FormedAll]
  | cons e es ih => simp [FormedAll, ih]

variable {f : String → String}

theorem level_mapConcepts (e : Expr) : (e.mapConcepts f).level = e.level := by
  cases e <;> rfl

mutual
/-- The concepts that an expression mentions are no part of its form. -/
theorem Formed.mapConcepts (e : Expr) (h : e.Formed) : (e.mapConcepts f).Formed := by
  cases e with
  | concept address => trivial
  | literal value => exact h
  | type datatype => trivial
  | call function arguments => exact ⟨h.1, FormedAll.mapConcepts arguments h.2⟩
  | binary op lhs rhs =>
    obtain ⟨hleft, hright, hlhs, hrhs⟩ := h
    refine ⟨?_, ?_, Formed.mapConcepts lhs hlhs, Formed.mapConcepts rhs hrhs⟩
    · rwa [level_mapConcepts]
    · rwa [level_mapConcepts]
  | unary op operand =>
    refine ⟨?_, Formed.mapConcepts operand h.2⟩
    rw [level_mapConcepts]
    exact h.1
  | isNull operand negated =>
    refine ⟨?_, Formed.mapConcepts operand h.2⟩
    rw [level_mapConcepts]
    exact h.1
  | inList operand items negated =>
    obtain ⟨hlevel, hoperand, hitems, hall⟩ := h
    refine ⟨?_, Formed.mapConcepts operand hoperand, ?_, FormedAll.mapConcepts items hall⟩
    · rwa [level_mapConcepts]
    · cases items with
      | nil => exact absurd rfl hitems
      | cons e es => exact List.cons_ne_nil _ _
  | paren inner => exact Formed.mapConcepts inner h

theorem FormedAll.mapConcepts (es : List Expr) (h : FormedAll es) :
    FormedAll (mapConceptsAll f es) := by
  cases es with
  | nil => trivial
  | cons e es => exact ⟨Formed.mapConcepts e h.1, FormedAll.mapConcepts es h.2⟩
end

end Expr

section Numerals
open Lexer

/-- Numbers are numerals. -/
def TokenKind.Counts (kind : TokenKind) (cs : List Char) : Prop :=
  kind = .integer ∨ kind = .float → IsNumeral cs

theorem number_counts (digits after : List Char) (h : digits ≠ [])
    (hd : ∀ c ∈ digits, isDigit c = true) :
    IsNumeral (number digits after).2.1 := by
  unfold number
  split
  · split
    · rename_i d rest hdigit
      refine ⟨by simp, fun c hc => ?_⟩
      simp only [List.mem_append, List.mem_cons] at hc
      rcases hc with hc | rfl | rfl | hc
      · exact .inl (hd c hc)
      · exact .inr rfl
      · exact .inl hdigit
      · exact .inl (List.mem_takeWhile_imp hc)
    · exact ⟨h, fun c hc => .inl (hd c hc)⟩
  · exact ⟨h, fun c hc => .inl (hd c hc)⟩

theorem symbol_counts (c : Char) (after : List Char) :
    (symbol c after).1.Counts (symbol c after).2.1 := by
  have halone : ((single? c).elim TokenKind.stray TokenKind.punctuation).Counts [c] := by
    cases single? c <;> simp [TokenKind.Counts]
  unfold symbol
  split
  · exact halone
  · split
    · simp [TokenKind.Counts]
    · exact halone

theorem next_counts (c : Char) (after : List Char) :
    (next c after).1.Counts (next c after).2.1 := by
  unfold next
  split_ifs with hspace hname hdigit hquote hcomment
  · simp [TokenKind.Counts]
  · dsimp only
    unfold nameKind
    split <;> simp [TokenKind.Counts]
  · refine fun _ => number_counts _ _ (by simp) fun d hd => ?_
    rcases List.mem_cons.mp hd with rfl | hd
    · exact hdigit
    · exact List.mem_takeWhile_imp hd
  · unfold string
    split
    · split <;> simp [TokenKind.Counts]
    · simp [TokenKind.Counts]
  · simp [TokenKind.Counts, lineComment]
  · split
    · simp [TokenKind.Counts, lineComment]
    · exact symbol_counts c after

theorem counts_of_scan {fuel : Nat} {cs : List Char} {offset : Nat} {t : Token}
    (h : t ∈ Lexer.scan fuel cs offset) : t.kind.Counts t.text.toList := by
  induction fuel generalizing cs offset with
  | zero => simp [Lexer.scan] at h
  | succ fuel ih =>
    cases cs with
    | nil => simp [Lexer.scan] at h
    | cons c after =>
      rw [Lexer.scan_cons] at h
      rcases List.mem_cons.mp h with rfl | h
      · rw [String.toList_ofList]
        exact next_counts c after
      · exact ih h

end Numerals

namespace Tree
variable {t u : Tree Token} {k : NodeKind} {cs : List (Tree Token)}

/-- The texts of all tokens are what their kinds say. -/
def Legible (t : Tree Token) : Prop :=
  ∀ u ∈ t.leaves, u.kind.Spells u.text.toList ∧ u.kind.Counts u.text.toList

theorem Legible.child (h : (node k cs).Legible) (ht : t ∈ cs) : t.Legible :=
  fun u hu => h u (mem_leavesOf.mpr ⟨t, ht, hu⟩)

theorem Legible.leaf {u : Token} (h : (node k cs).Legible) (hu : .leaf u ∈ cs) :
    u.kind.Spells u.text.toList ∧ u.kind.Counts u.text.toList :=
  h.child hu u (by simp [leaves])

theorem Legible.node (h : t.Legible) (hu : u ∈ t.nodes) : u.Legible := by
  cases t with
  | leaf t => simp [nodes, children] at hu
  | node k cs => exact h.child (mem_nodes.mp hu).1

end Tree

namespace Compile
open Grammar
variable {env : Environment} {text : List Char} {line : Nat} {t : Tree Token}

/-- An expression that may stand where the level is asked for. -/
def Fits (level : Level) (e : Expr) : Prop :=
  e.Formed ∧ level.rank ≤ e.level.rank

section Operators

theorem operators_level (l : Level) : TextsSatisfy l.operators
    (fun s => (BinaryOp.ofToken? s).all fun o => o.level = l) = true := by
  cases l <;> decide +kernel

theorem comparisons_level : TextsSatisfy comparisonOperators
    (fun s => (BinaryOp.ofToken? s).all fun o => o.level = .comparison) = true := by
  decide +kernel

theorem yields_binaryOp {op : Token} {us : List Token} (h : t.words = op :: us) :
    Yields (fun o => BinaryOp.ofToken? op.text = some o) (binaryOp line (t.placed text)) := by
  refine Ends.bind (ends_part (head?_ownLeaves h)) ?_
  rintro leaf rfl
  refine ends_of_ok fun o ho => ?_
  have htext : (Leaf.ofToken text t.kind op).text = op.text := rfl
  rw [htext] at ho
  cases hop : BinaryOp.ofToken? op.text with
  | none =>
    rw [hop] at ho
    cases ho
  | some o' =>
    rw [hop] at ho
    cases ho
    rfl

theorem fits_binary {l m k : Level} {a b : Tree Token} {op : Token} (lhs : Phrase l a)
    (rhs : Phrase m b) (hword : op.kind.isTrivia = false)
    (hop : ∀ o, BinaryOp.ofToken? op.text = some o →
      k.rank ≤ o.level.rank ∧ o.left.rank ≤ l.rank ∧ o.right.rank ≤ m.rank)
    (ha : Yields (Fits l) (expr env (a.placed text)))
    (hb : Yields (Fits m) (expr env (b.placed text))) :
    Yields (Fits k) (expr env ((Tree.node .binaryExpression [a, .leaf op, b]).placed text)) := by
  have hnodes : [a, .leaf op, b].filter Tree.isNode = [a, b] := filter_isNode_binary lhs rhs
  simp only [Tree.placed, expr]
  refine (yields_binaryOp (words_binary lhs rhs hword)).bind fun o ho => ?_
  refine (ends_operand (by rw [hnodes]; rfl) ha).bind fun x hx => ?_
  refine (ends_operand (by rw [hnodes]; rfl) hb).bind fun y hy => ?_
  obtain ⟨hlevel, hleft, hright⟩ := hop o ho
  exact ⟨⟨hleft.trans hx.2, hright.trans hy.2, hx.1, hy.1⟩, hlevel⟩

theorem fits_unary {l : Level} (op : UnaryOp) {a : Tree Token} {u : Token} (p : Phrase op.level a)
    (hop : ((Tree.node .unaryExpression [.leaf u, a]).placed text).hasKeyword "not" =
      decide (op = .not))
    (hl : l.rank ≤ op.level.rank) (ha : Yields (Fits op.level) (expr env (a.placed text))) :
    Yields (Fits l) (expr env ((Tree.node .unaryExpression [.leaf u, a]).placed text)) := by
  simp only [Tree.placed] at hop ⊢
  simp only [expr, hop]
  refine (ends_operand (by rw [filter_isNode_unary p]; rfl) ha).bind fun x hx => ?_
  cases op with
  | not => exact ⟨⟨hx.2, hx.1⟩, hl⟩
  | neg => exact ⟨⟨hx.2, hx.1⟩, hl⟩

theorem hasKeyword_unary {u : Token} {a : Tree Token} {l : Level} (p : Phrase l a)
    (hu : u.kind.isTrivia = false) :
    ((Tree.node .unaryExpression [.leaf u, a]).placed text).hasKeyword "not" =
      Tree.matchesKeyword "not" u.word := by
  rw [Tree.hasKeyword_placed, Tree.words_node, Tree.wordsOf_leaf hu, wordsOf_phrase p,
    Tree.wordsOf_nil, List.map_singleton, List.any_cons, List.any_nil, Bool.or_false]

end Operators

section Phrases

theorem formed_literalOf? {u : Token} {value : Literal} (hu : u.kind.Counts u.text.toList)
    (h : literalOf? (Leaf.ofToken text .literal u) = some value) : value.Formed := by
  unfold literalOf? at h
  split at h
  · rename_i hkind
    obtain rfl := Option.some.inj h
    refine hu ?_
    cases hk : u.kind with
    | integer => exact .inl rfl
    | float => exact .inr rfl
    | punctuation p => cases p <;> simp [Leaf.ofToken, Leaf.kindOf, hk, Punctuation.isOperator] at hkind
    | _ => simp [Leaf.ofToken, Leaf.kindOf, hk] at hkind
  · obtain rfl := Option.some.inj h
    trivial
  · split at h
    · obtain rfl := Option.some.inj h
      trivial
    · obtain rfl := Option.some.inj h
      trivial
    · obtain rfl := Option.some.inj h
      trivial
    · cases h
  · cases h

theorem fits_literal {u : Token} (hu : u.kind ∈ literalStart) (hc : u.kind.Counts u.text.toList) :
    Yields (Fits .atom) (expr env ((Tree.node .literal [.leaf u]).placed text)) := by
  have hwords : (Tree.node .literal [.leaf u]).words = [u] :=
    Tree.wordsOf_leaf (notTrivia hu (by decide)) []
  simp only [Tree.placed, expr]
  refine Ends.bind (ends_part (head?_ownLeaves hwords)) ?_
  rintro leaf rfl
  refine Ends.bind (ends_of_ok fun value hvalue => ?_) fun value hvalue =>
    (⟨hvalue, le_rfl⟩ : Fits .atom (.literal value))
  cases hfound : literalOf? (Leaf.ofToken text .literal u) with
  | none =>
    rw [Tree.kind, hfound] at hvalue
    cases hvalue
  | some found =>
    rw [Tree.kind, hfound] at hvalue
    cases hvalue
    exact formed_literalOf? hc hfound

theorem known_functionName (node : Tree Leaf) :
    Yields (fun f => f ∈ Function.known) (functionName line node) := by
  refine (ends_trivial _).bind fun leaf _ => ?_
  split
  · rename_i hknown
    exact List.contains_iff_mem.mp hknown
  · trivial

theorem formed_inSequence {l : Level} {as : List (Tree Token)}
    (h : ∀ a ∈ as, Yields (Fits l) (expr env (a.placed text))) :
    Yields Expr.FormedAll (inSequence (as.map fun a => expr env (a.placed text))) := by
  have hmap : ∀ x ∈ as.map (fun a => expr env (a.placed text)), Yields Expr.Formed x := by
    intro x hx
    obtain ⟨a, ha, rfl⟩ := List.mem_map.mp hx
    exact (h a ha).weaken (fun _ he => he.1) fun _ h => h
  exact (Ends.inSequence hmap).weaken (fun _ => Expr.formedAll_iff.mpr) fun _ h => h

theorem inSequence_ne_nil {ε α : Type} (x : Except ε α) (xs : List (Except ε α)) :
    Yields (fun as => as ≠ []) (inSequence (x :: xs)) := by
  cases x with
  | error e => trivial
  | ok a =>
    rw [inSequence]
    split
    · exact List.cons_ne_nil _ _
    · trivial

theorem fits_call {f : Token} {args as : List (Tree Token)} (hf : f.kind.isTrivia = false)
    (hnodes : args.filter Tree.isNode = as)
    (has : ∀ a ∈ as, Yields (Fits .disjunction) (expr env (a.placed text))) :
    Yields (Fits .atom)
      (expr env ((Tree.node .callExpression [.leaf f, .node .argumentList args]).placed text)) := by
  simp only [Tree.placed, expr]
  refine (known_functionName _).bind fun function hfunction => ?_
  rw [argumentExprs_placedAll hf, hnodes]
  exact (formed_inSequence has).bind fun arguments harguments =>
    (⟨⟨hfunction, harguments⟩, le_rfl⟩ : Fits .atom (.call function arguments))

/-- What is compiled of a phrase has the form of its level. -/
theorem fits_expr {l : Level} (h : Phrase l t) (hs : t.Legible) :
    Yields (Fits l) (expr env (t.placed text)) := by
  induction h with
  | @tighter l m t h _ ih =>
    have hle : l.rank ≤ m.rank := by cases l <;> cases h <;> decide
    exact (ih hs).weaken (fun _ he => ⟨he.1, hle.trans he.2⟩) fun _ h => h
  | @chain l m a op b h ho lhs rhs iha ihb =>
    have hword : op.kind.isTrivia = false := notTrivia ho (by cases l <;> decide)
    refine fits_binary lhs rhs hword (fun o hop => ?_) (iha (hs.child (by simp)))
      (ihb (hs.child (by simp)))
    have hlevel := text_satisfies (operators_level l) ho (hs.leaf (by simp)).1
    rw [hop] at hlevel
    obtain rfl : o.level = l := by simpa using hlevel
    have hleft : o.left = o.level := if_neg fun hcomparison => by
      rw [hcomparison] at ho
      cases ho
    have hright : o.right = m := by rw [BinaryOp.right, h]; rfl
    exact ⟨le_rfl, by rw [hleft], by rw [hright]⟩
  | @not u a hu p ih =>
    refine fits_unary .not p ?_ le_rfl (ih (hs.child (by simp)))
    have htext : u.text = "not" := text_eq_of_spells (hs.leaf (by simp)).1 (by rw [hu]; rfl)
    rw [hasKeyword_unary p (by rw [hu]; rfl), Token.word, hu, htext]
    rfl
  | @compare a op b ho lhs rhs iha ihb =>
    have hword : op.kind.isTrivia = false := notTrivia ho (by decide)
    refine fits_binary lhs rhs hword (fun o hop => ?_) (iha (hs.child (by simp)))
      (ihb (hs.child (by simp)))
    have hlevel := text_satisfies comparisons_level ho (hs.leaf (by simp)).1
    rw [hop] at hlevel
    have hlevel : o.level = .comparison := by simpa using hlevel
    have hleft : o.left = .sum := if_pos hlevel
    have hright : o.right = .sum := by rw [BinaryOp.right, hlevel]; rfl
    exact ⟨by rw [hlevel], by rw [hleft], by rw [hright]⟩
  | @isNull a i negated z p hi hn hz ih =>
    simp only [Tree.placed, expr]
    exact (ends_operand (by rw [filter_isNode_isNull p hn]; rfl) (ih (hs.child (by simp)))).bind
      fun x hx => (⟨⟨hx.2, hx.1⟩, le_rfl⟩ : Fits .comparison (.isNull x _))
  | @member a negated i l first more r p hn hi hl hfirst hcomma hmore hr ih ihfirst ihmore =>
    have hnodes : (a :: (negated ++ .leaf i :: enclosed l (strung first more) r)).filter
        Tree.isNode = a :: first :: more.map Prod.snd := filter_isNode_member p hn hfirst hmore
    have hitems : ∀ b ∈ first :: more.map Prod.snd,
        Yields (Fits .disjunction) (expr env (b.placed text)) := by
      intro b hb
      have hlegible : b.Legible := by
        apply hs.node
        rw [Tree.nodes_node, hnodes]
        exact List.mem_cons_of_mem a hb
      rcases List.mem_cons.mp hb with rfl | hb
      · exact ihfirst hlegible
      · obtain ⟨q, hq, rfl⟩ := List.mem_map.mp hb
        exact ihmore q hq hlegible
    simp only [Tree.placed, expr]
    refine (ends_operand (by rw [hnodes]; rfl) (ih (hs.child (by simp)))).bind fun x hx => ?_
    rw [tail_nodeExprs hnodes]
    have hall := formed_inSequence hitems
    have hne := inSequence_ne_nil (expr env (first.placed text))
      ((more.map Prod.snd).map fun b => expr env (b.placed text))
    refine (ends_of_ok fun as has => (⟨hall.of_eq_ok has, hne.of_eq_ok has⟩ :
      Expr.FormedAll as ∧ as ≠ [])).bind fun as has => ?_
    exact (⟨⟨hx.2, hx.1, has.2, has.1⟩, le_rfl⟩ : Fits .comparison (.inList x as _))
  | @minus u a hu p ih =>
    refine fits_unary .neg p ?_ le_rfl (ih (hs.child (by simp)))
    rw [hasKeyword_unary p (by rw [hu]; rfl), Token.word, hu]
    rfl
  | literal hu => exact fits_literal hu (hs.leaf (by simp)).2
  | @paren l a r hl p hr ih =>
    simp only [Tree.placed, expr]
    exact (ends_operand (by rw [filter_isNode_paren p]; rfl) (ih (hs.child (by simp)))).bind
      fun x hx => (⟨hx.1, le_rfl⟩ : Fits .atom (.paren x))
  | @call f l first more r hf hl hfirst hcomma hmore hr ihfirst ihmore =>
    have hnodes : (enclosed l (strung first more) r).filter Tree.isNode =
        first :: more.map Prod.snd := by
      rw [filter_isNode_enclosed, filter_isNode_strung hfirst hmore]
    refine fits_call (notTrivia hf (by decide)) hnodes fun b hb => ?_
    have hargs : (Tree.node .argumentList (enclosed l (strung first more) r)).Legible :=
      hs.child (by simp)
    have hlegible : b.Legible := by
      apply hargs.node
      rw [Tree.nodes_node, hnodes]
      exact hb
    rcases List.mem_cons.mp hb with rfl | hb
    · exact ihfirst hlegible
    · obtain ⟨q, hq, rfl⟩ := List.mem_map.mp hb
      exact ihmore q hq hlegible
  | callNothing hf hl hr =>
    exact fits_call (notTrivia hf (by decide)) (filter_isNode_enclosed _ _ _) (by simp)
  | type hu hn =>
    simp only [Tree.placed, expr]
    refine (ends_trivial _).bind fun leaf _ => ?_
    split
    · exact (⟨trivial, le_rfl⟩ : Fits .atom (.type _))
    · trivial
  | concept hu hn =>
    simp only [Tree.placed, expr]
    refine (ends_trivial _).bind fun leaf _ => ?_
    exact (ends_trivial _).bind fun address _ => (⟨trivial, le_rfl⟩ : Fits .atom (.concept address))

end Phrases

end Compile

namespace Tree

theorem Legible.inside {t u : Tree Token} (h : t.Legible) (hu : Inside u t) : u.Legible := by
  induction hu with
  | here => exact h
  | child ht _ ih => exact ih (h.child ht)

end Tree

namespace Grammar
open ConceptQuery.Tree

/-- The nodes that stand for more than a concept. -/
def compounds : List NodeKind :=
  [.literal, .typeLiteral, .callExpression, .parenExpression, .binaryExpression, .unaryExpression,
   .isNullExpression, .inExpression]

/-- All such nodes in a tree are phrases. -/
def Proper (t : Tree Token) : Prop :=
  ∀ k cs, Inside (.node k cs) t → k ∈ compounds → ∃ l, Phrase l (.node k cs)

theorem common_compounds :
    Common fun k cs => k ∈ compounds → ∃ l, Phrase l (.node k cs) where
  phrase h _ := ⟨_, h⟩
  part {k cs} hk hcompound := by
    have hapart : ∀ k ∈ parts, k ∉ compounds := by decide
    exact absurd hcompound (hapart k hk)

/-- What stands for an expression in a statement is a phrase. -/
theorem proper_sentence {t : Tree Token} (h : Sentence t) : Proper t := by
  cases t with
  | leaf u => cases h
  | node k cs =>
    have hinside := everywhereAll_sentence common_compounds h
    refine everywhere_node.mpr ⟨fun hk => ?_, hinside⟩
    cases h <;> exact absurd hk (by decide)

end Grammar

namespace Compile
open Grammar ConceptQuery.Tree

/-- Whatever is compiled as an expression inside a tree is formed. -/
def FormedTree (t : Tree Leaf) : Prop :=
  ∀ u, Inside u t → ∀ {env : Environment} {e : Expr}, expr env u = .ok e → e.Formed

theorem FormedTree.node {t u : Tree Leaf} (h : FormedTree t) (hu : u ∈ t.nodes) : FormedTree u := by
  cases t with
  | leaf l => simp [nodes, children] at hu
  | node k cs => exact fun v hv => h v (.child (List.mem_filter.mp hu).1 hv)

theorem formed_conceptExpr {env : Environment} (line : Nat) (node : Tree Leaf) :
    Yields Expr.Formed (conceptExpr env line node) :=
  (ends_trivial _).bind fun _ _ => (ends_trivial _).bind fun _ _ => trivial

theorem formedTree_placed {text : List Char} {t : Tree Token} (h : Proper t) (hs : t.Legible) :
    FormedTree (t.placed text) := by
  intro u hu env e he
  rcases inside_placed hu with ⟨l, rfl⟩ | ⟨v, hv, rfl⟩
  · cases he
  cases v with
  | leaf l => cases he
  | node k cs =>
    by_cases hk : k ∈ compounds
    · obtain ⟨l, hphrase⟩ := h k cs hv hk
      exact ((fits_expr hphrase (hs.inside hv)).of_eq_ok he).1
    · by_cases hconcept : k = .conceptLiteral
      · subst hconcept
        exact (formed_conceptExpr _ _).of_eq_ok he
      · cases k <;> first | exact absurd (by decide) hk | exact absurd rfl hconcept | cases he

end Compile

theorem Parsed.bare_legible (text : String) : (Parsed.ofText text).tree.bare.Legible := by
  intro u hu
  refine ⟨Parsed.bare_spelled text u hu, ?_⟩
  have hleaf := Tree.mem_leaves_of_bare hu
  rw [Parsed.leaves_ofText] at hleaf
  exact counts_of_scan hleaf

open Compile in
/-- What a document is compiled from are trees of formed expressions. -/
theorem formedTree_of_parse {text : String} {tree : Tree Leaf} (h : parse text = .ok tree) :
    ∀ node ∈ tree.nodes, FormedTree node := by
  simp only [parse] at h
  split at h
  · rename_i hfaults
    cases h
    obtain ⟨sentences, hbare, hs⟩ := Grammar.sentences_of_parsed hfaults
    have hlegible := Parsed.bare_legible text
    rw [← Tree.placed_bare, hbare, Tree.nodes_placed]
    rw [hbare] at hlegible
    intro node hnode
    obtain ⟨t, ht, rfl⟩ := List.mem_map.mp hnode
    exact formedTree_placed (Grammar.proper_sentence (hs t (Tree.mem_nodes.mp ht).1))
      (hlegible.node ht)
  · cases h

end ConceptQuery
