import ConceptQuery.Grammar.ParseError
import ConceptQuery.Proofs.Lossless

/-! # Trees of placed words

The compiler reads trees whose leaves are words with places. These are the trees
that the grammar made: the same nodes in the same order, and the same leaves
without trivia. So the form of a statement can be told from the tree of tokens.
-/
namespace ConceptQuery
namespace Tree
variable (text : List Char)

mutual
/-- Placing drops trivia anyway. -/
theorem placed_bare (t : Tree Token) : t.bare.placed text = t.placed text := by
  cases t with
  | leaf t => rfl
  | node k cs => rw [bare, placed, placed, placedAll_bareAll k cs]

theorem placedAll_bareAll (parent : NodeKind) (ts : List (Tree Token)) :
    placedAll text parent (bareAll ts) = placedAll text parent ts := by
  match ts with
  | [] => rfl
  | leaf t :: rest =>
    rw [bareAll, placedAll]
    split
    · exact placedAll_bareAll parent rest
    · rename_i ht
      rw [placedAll, if_neg ht, placedAll_bareAll parent rest]
  | node k cs :: rest =>
    rw [bareAll, placedAll, ← placed_bare (node k cs), ← placedAll_bareAll parent rest, bare,
      placedAll]
end

theorem placedAll_append (parent : NodeKind) (xs ys : List (Tree Token)) :
    placedAll text parent (xs ++ ys) = placedAll text parent xs ++ placedAll text parent ys := by
  induction xs with
  | nil => rfl
  | cons x xs ih =>
    cases x with
    | leaf t =>
      rw [List.cons_append, placedAll, placedAll]
      split
      · exact ih
      · rw [ih, List.cons_append]
    | node kind children => rw [List.cons_append, placedAll, placedAll, ih, List.cons_append]

theorem kind_placed (t : Tree Token) : (t.placed text).kind = t.kind := by
  cases t with
  | leaf t => rfl
  | node k cs => rfl

theorem filter_isNode_placedAll (parent : NodeKind) (ts : List (Tree Token)) :
    (placedAll text parent ts).filter isNode = (ts.filter isNode).map (placed text) := by
  induction ts with
  | nil => rfl
  | cons t ts ih =>
    cases t with
    | leaf t =>
      rw [placedAll]
      split
      · simpa [isNode] using ih
      · simpa [isNode] using ih
    | node k cs =>
      rw [placedAll, placed, List.filter_cons_of_pos rfl, List.filter_cons_of_pos rfl,
        List.map_cons, placed, ih]

theorem nodes_placed (t : Tree Token) : (t.placed text).nodes = t.nodes.map (placed text) := by
  cases t with
  | leaf t => rfl
  | node k cs => exact filter_isNode_placedAll text k cs

@[simp] theorem nodes_node {α : Type} (k : NodeKind) (cs : List (Tree α)) :
    (node k cs).nodes = cs.filter isNode :=
  rfl

@[simp] theorem filter_isNode_leaf {α : Type} (a : α) (cs : List (Tree α)) :
    (leaf a :: cs).filter isNode = cs.filter isNode :=
  rfl

@[simp] theorem filter_isNode_node {α : Type} (k : NodeKind) (ds cs : List (Tree α)) :
    (node k ds :: cs).filter isNode = node k ds :: cs.filter isNode :=
  rfl

/-- The tokens among some elements, without trivia. -/
def wordsOf : List (Tree Token) → List Token
  | [] => []
  | leaf t :: rest => if t.kind.isTrivia then wordsOf rest else t :: wordsOf rest
  | node _ _ :: rest => wordsOf rest

/-- The tokens that hang directly from a node, without trivia. -/
def words (t : Tree Token) : List Token :=
  wordsOf t.children

@[simp] theorem words_node (k : NodeKind) (cs : List (Tree Token)) :
    (node k cs).words = wordsOf cs :=
  rfl

@[simp] theorem wordsOf_nil : wordsOf [] = [] :=
  rfl

@[simp] theorem wordsOf_node (k : NodeKind) (ds cs : List (Tree Token)) :
    wordsOf (node k ds :: cs) = wordsOf cs :=
  rfl

theorem wordsOf_leaf {t : Token} (h : t.kind.isTrivia = false) (cs : List (Tree Token)) :
    wordsOf (leaf t :: cs) = t :: wordsOf cs := by
  simp [wordsOf, h]

@[simp] theorem wordsOf_append (xs ys : List (Tree Token)) :
    wordsOf (xs ++ ys) = wordsOf xs ++ wordsOf ys := by
  induction xs with
  | nil => rfl
  | cons x xs ih =>
    cases x with
    | leaf t =>
      by_cases h : t.kind.isTrivia
      · simp [wordsOf, h, ih]
      · simp [wordsOf, h, ih]
    | node k cs => simp [ih]

theorem ownLeaves_placed (t : Tree Token) :
    (t.placed text).ownLeaves = t.words.map (Leaf.ofToken text t.kind) := by
  cases t with
  | leaf t => rfl
  | node k cs =>
    change (placedAll text k cs).filterMap leaf? = (wordsOf cs).map (Leaf.ofToken text k)
    induction cs with
    | nil => rfl
    | cons c cs ih =>
      cases c with
      | leaf t =>
        rw [placedAll, wordsOf]
        split
        · exact ih
        · simpa [leaf?] using ih
      | node l ds =>
        rw [placedAll, placed, List.filterMap_cons_none rfl, wordsOf_node]
        exact ih

/-- The names that hang directly from a node that names no type. -/
theorem identifiers_placed {k : NodeKind} (cs : List (Tree Token)) (hd : k ≠ .datatype)
    (hl : k ≠ .typeLiteral) :
    ((node k cs).placed text).identifiers =
      ((wordsOf cs).filter fun u => u.kind = .ident).map (Leaf.ofToken text k) := by
  rw [identifiers, ownLeaves_placed, List.filter_map]
  congr 2
  funext u
  cases hu : u.kind with
  | ident => simp [Leaf.isIdentifier, Leaf.ofToken, Leaf.kindOf, hu, hd, hl, Tree.kind]
  | punctuation p =>
    cases p <;> simp [Leaf.isIdentifier, Leaf.ofToken, Leaf.kindOf, hu, Punctuation.isOperator]
  | _ => simp [Leaf.isIdentifier, Leaf.ofToken, Leaf.kindOf, hu]

/-- The word is this keyword, in any case. -/
def matchesKeyword (s : String) (w : Word) : Bool :=
  w.kind.isKeyword && Text.sameLetters w.text s

theorem hasKeyword_placed (t : Tree Token) (s : String) :
    (t.placed text).hasKeyword s = (t.words.map Token.word).any (matchesKeyword s) := by
  have hkind : ∀ parent kind, decide (Leaf.kindOf parent kind = .keyword) = kind.isKeyword := by
    intro parent kind
    cases kind with
    | ident =>
      by_cases h : parent = .datatype ∨ parent = .typeLiteral <;>
        simp [Leaf.kindOf, h, TokenKind.isKeyword]
    | punctuation p => cases p <;> rfl
    | _ => rfl
  rw [hasKeyword, ownLeaves_placed, List.any_map, List.any_map]
  congr 1
  funext u
  exact congrArg (· && Text.sameLetters u.text s) (hkind t.kind u.kind)

theorem child?_placed (t : Tree Token) (kind : NodeKind) :
    (t.placed text).child? kind = (t.child? kind).map (placed text) := by
  rw [child?, child?, nodes_placed, List.find?_map]
  congr 2
  funext u
  simp [kind_placed]

/-- The texts of all tokens fit their kinds. -/
def Spelled (t : Tree Token) : Prop :=
  ∀ u ∈ t.leaves, u.kind.Spells u.text.toList

variable {text} {k : NodeKind} {cs : List (Tree Token)}

theorem Spelled.child {t : Tree Token} (h : (node k cs).Spelled) (ht : t ∈ cs) : t.Spelled :=
  fun u hu => h u (mem_leavesOf.mpr ⟨t, ht, hu⟩)

theorem Spelled.leaf {u : Token} (h : (node k cs).Spelled) (hu : .leaf u ∈ cs) :
    u.kind.Spells u.text.toList :=
  h.child hu u (by simp [leaves])

theorem mem_nodes {t u : Tree Token} : u ∈ t.nodes ↔ u ∈ t.children ∧ u.isNode = true :=
  List.mem_filter

theorem Spelled.node {t u : Tree Token} (h : t.Spelled) (hu : u ∈ t.nodes) : u.Spelled := by
  cases t with
  | leaf t => simp [nodes, children] at hu
  | node k cs => exact h.child (mem_nodes.mp hu).1

theorem child?_some {t u : Tree Token} {kind : NodeKind} (h : t.child? kind = some u) :
    u ∈ t.nodes ∧ u.kind = kind :=
  ⟨List.mem_of_find?_eq_some h, by simpa using List.find?_some h⟩

theorem child?_isSome {t u : Tree Token} (hu : u ∈ t.nodes) :
    ∃ v, t.child? u.kind = some v := by
  cases h : t.child? u.kind with
  | some v => exact ⟨v, rfl⟩
  | none =>
    have := List.find?_eq_none.mp h u hu
    simp at this

mutual
theorem mem_leaves_of_bare {t : Tree Token} {u : Token} (h : u ∈ t.bare.leaves) :
    u ∈ t.leaves := by
  cases t with
  | leaf t => exact h
  | node k cs => exact mem_leavesOf_of_bareAll h

theorem mem_leavesOf_of_bareAll {ts : List (Tree Token)} {u : Token}
    (h : u ∈ leavesOf (bareAll ts)) : u ∈ leavesOf ts := by
  match ts with
  | [] => exact h
  | .leaf t :: rest =>
    rw [leavesOf, List.mem_append]
    rw [bareAll] at h
    split at h
    · exact .inr (mem_leavesOf_of_bareAll h)
    · rw [leavesOf, List.mem_append] at h
      exact h.imp_right mem_leavesOf_of_bareAll
  | .node k cs :: rest =>
    rw [leavesOf, List.mem_append]
    rw [bareAll, leavesOf, List.mem_append] at h
    exact h.imp mem_leaves_of_bare mem_leavesOf_of_bareAll
end

end Tree

theorem Parsed.bare_spelled (text : String) : (Parsed.ofText text).tree.bare.Spelled := by
  intro u hu
  have hleaf := Tree.mem_leaves_of_bare hu
  rw [Parsed.leaves_ofText] at hleaf
  exact (Token.scan_consecutive text).spells hleaf

/-- A tree that was read stands for the sentences of its text, each of them
spelled as its tokens say. -/
theorem sentences_of_parse {text : String} {tree : Tree Leaf} (h : parse text = .ok tree) :
    ∃ sentences : List (Tree Token), tree.nodes = sentences.map (Tree.placed text.toList) ∧
      ∀ t ∈ sentences, Grammar.Sentence t ∧ t.Spelled := by
  simp only [parse] at h
  split at h
  · rename_i hfaults
    cases h
    obtain ⟨sentences, hbare, hs⟩ := Grammar.sentences_of_parsed hfaults
    have hspelled := Parsed.bare_spelled text
    rw [hbare] at hspelled
    refine ⟨(Tree.node .sourceFile sentences).nodes, ?_, ?_⟩
    · rw [← Tree.placed_bare, hbare, Tree.nodes_placed]
    · intro t ht
      exact ⟨hs t (Tree.mem_nodes.mp ht).1, hspelled.node ht⟩
  · cases h

end ConceptQuery
