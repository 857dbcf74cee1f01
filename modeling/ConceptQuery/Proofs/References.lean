import ConceptQuery.Proofs.Passes
import ConceptQuery.Proofs.Resolving

/-! # Every reference is resolved

The editor records a location for each identifier that stands for a concept. If a
select compiles, each of those in it that refer to a concept was resolved on the
way, so that a name without dots is known from then on: `settles_select`.
-/
namespace ConceptQuery

namespace Tree

mutual
/-- The identifiers that stand for concepts, each with the kind of node that it
hangs from, in document order. -/
def namings : Tree Leaf → List (NodeKind × Leaf)
  | .leaf _ => []
  | .node kind children => namingsOf kind children

def namingsOf (parent : NodeKind) : List (Tree Leaf) → List (NodeKind × Leaf)
  | [] => []
  | .leaf name :: rest =>
    if name.isIdentifier && parent.namesConcepts then (parent, name) :: namingsOf parent rest
    else namingsOf parent rest
  | .node kind children :: rest => namings (.node kind children) ++ namingsOf parent rest
end

end Tree

namespace Location

mutual
/-- The locations are those of the identifiers that stand for concepts. -/
theorem ofTree_eq (space : String) : (t : Tree Leaf) →
    ofTree space t = t.namings.map fun p => ofLeaf space p.1 p.2
  | .leaf _ => rfl
  | .node kind children => by
    rw [ofTree, Tree.namings]
    exact ofChildren_eq space kind children

theorem ofChildren_eq (space : String) (parent : NodeKind) : (ts : List (Tree Leaf)) →
    ofChildren space parent ts =
      (Tree.namingsOf parent ts).map fun p => ofLeaf space p.1 p.2
  | [] => rfl
  | .leaf leaf :: rest => by
    rw [ofChildren, Tree.namingsOf, ofChildren_eq space parent rest]
    split
    · rfl
    · rfl
  | .node kind children :: rest => by
    rw [ofChildren, Tree.namingsOf, ofTree_eq space (.node kind children),
      ofChildren_eq space parent rest, List.map_append]
end

end Location

/-- Nodes whose identifiers refer to concepts that are declared elsewhere. -/
def NodeKind.refers (k : NodeKind) : Bool :=
  k.namesConcepts && !k.isDefinition

namespace Environment

/-- A name without dots that resolves. -/
def Finds (env : Environment) (name : String) : Prop :=
  Dotted.isDotted name = false → env.Knows name ∨ env.Knows (Dotted.qualify env.space name)

/-- Every reference in a tree is found. -/
def Settles (env : Environment) (t : Tree Leaf) : Prop :=
  ∀ p ∈ t.namings, p.1.isDefinition = false → env.Finds p.2.text

variable {importer : Compile.Importer} {env env' : Environment}

theorem finds_of_resolve? {name address : String} (h : env.resolve? name = some address) :
    env.Finds name :=
  fun hname => knows_of_resolve?_undotted hname h

theorem Steps.finds {name : String} (h : Steps importer env env') (hf : env.Finds name) :
    env'.Finds name := by
  intro hname
  rw [h.space_eq]
  exact (hf hname).imp h.knows h.knows

theorem Steps.settles {t : Tree Leaf} (h : Steps importer env env') (ht : env.Settles t) :
    env'.Settles t :=
  fun p hp hreference => h.finds (ht p hp hreference)

theorem mem_namingsOf {parent : NodeKind} {ts : List (Tree Leaf)} {p : NodeKind × Leaf}
    (h : p ∈ Tree.namingsOf parent ts) :
    (p.1 = parent ∧ parent.namesConcepts = true ∧ p.2 ∈ (Tree.node parent ts).identifiers) ∨
      ∃ n ∈ (Tree.node parent ts).nodes, p ∈ n.namings := by
  induction ts with
  | nil => cases h
  | cons t ts ih =>
    have hlater : p ∈ Tree.namingsOf parent ts →
        (p.1 = parent ∧ parent.namesConcepts = true ∧
          p.2 ∈ (Tree.node parent (t :: ts)).identifiers) ∨
          ∃ n ∈ (Tree.node parent (t :: ts)).nodes, p ∈ n.namings := by
      intro hmem
      rcases ih hmem with ⟨hkind, hnames, hleaf⟩ | ⟨n, hn, hp⟩
      · refine .inl ⟨hkind, hnames, ?_⟩
        simp only [Tree.identifiers, Tree.ownLeaves, Tree.children, List.mem_filter,
          List.mem_filterMap, List.mem_cons] at hleaf ⊢
        obtain ⟨⟨u, hu, hleaf⟩, hid⟩ := hleaf
        exact ⟨⟨u, .inr hu, hleaf⟩, hid⟩
      · refine .inr ⟨n, ?_, hp⟩
        simp only [Tree.nodes, Tree.children, List.mem_filter, List.mem_cons] at hn ⊢
        exact ⟨.inr hn.1, hn.2⟩
    cases t with
    | leaf leaf =>
      rw [Tree.namingsOf] at h
      split at h
      · rename_i hleaf
        rcases List.mem_cons.mp h with rfl | h
        · rw [Bool.and_eq_true] at hleaf
          refine .inl ⟨rfl, hleaf.2, ?_⟩
          simp [Tree.identifiers, Tree.ownLeaves, Tree.children, Tree.leaf?, hleaf.1]
        · exact hlater h
      · exact hlater h
    | node kind children =>
      rw [Tree.namingsOf] at h
      rcases List.mem_append.mp h with h | h
      · exact .inr ⟨.node kind children, by simp [Tree.nodes, Tree.children, Tree.isNode], h⟩
      · exact hlater h

/-- The references of a tree are those that hang from it and those of its nodes. -/
theorem settles_of_parts {t : Tree Leaf}
    (hown : t.kind.refers = true → ∀ leaf ∈ t.identifiers, env.Finds leaf.text)
    (hnodes : ∀ n ∈ t.nodes, env.Settles n) : env.Settles t := by
  cases t with
  | leaf leaf =>
    intro p hp
    cases hp
  | node kind children =>
    intro p hp hreference
    rcases mem_namingsOf hp with ⟨hkind, hnames, hleaf⟩ | ⟨n, hn, hmem⟩
    · rw [hkind] at hreference
      refine hown ?_ p.2 hleaf
      rw [Tree.kind, NodeKind.refers, hnames, hreference]
      rfl
    · exact hnodes n hn p hmem hreference

theorem settles_of_nodes {text : List Char} {t : Tree Token} (hk : t.kind.refers = false)
    (h : ∀ n ∈ t.nodes, env.Settles (n.placed text)) : env.Settles (t.placed text) := by
  apply settles_of_parts
  · rw [Tree.kind_placed, hk]
    intro hrefers
    cases hrefers
  · rw [Tree.nodes_placed]
    intro n hn
    obtain ⟨m, hm, rfl⟩ := List.mem_map.mp hn
    exact h m hm

end Environment

namespace Compile
open Environment Grammar Build
variable {env : Environment} {text : List Char} {line : Nat}

section Expressions

/-- A node around a single other. -/
theorem settles_around {k : NodeKind} {cs : List (Tree Token)} {a : Tree Token}
    (hk : k.refers = false) (hnodes : cs.filter Tree.isNode = [a])
    (ha : env.Settles (a.placed text)) : env.Settles ((Tree.node k cs).placed text) := by
  apply settles_of_nodes (t := .node k cs) hk
  rw [Tree.nodes_node, hnodes]
  simpa using ha

/-- A node whose names are all found and which has nothing below them. -/
theorem settles_names {k : NodeKind} {cs : List (Tree Token)} (hnodes : cs.filter Tree.isNode = [])
    (hnames : ∀ leaf ∈ ((Tree.node k cs).placed text).identifiers, env.Finds leaf.text) :
    env.Settles ((Tree.node k cs).placed text) := by
  apply settles_of_parts
  · exact fun _ => hnames
  · rw [Tree.nodes_placed, Tree.nodes_node, hnodes]
    simp

theorem identifiers_single {k : NodeKind} {u : Token} (hd : k ≠ .datatype) (hl : k ≠ .typeLiteral)
    (hu : u.kind = .ident) :
    ((Tree.node k [.leaf u]).placed text).identifiers = [Leaf.ofToken text k u] := by
  rw [Tree.identifiers_placed text _ hd hl]
  simp [Tree.wordsOf, hu, TokenKind.isTrivia]

theorem finds_resolveLater (name : String) :
    Yields (fun _ => env.Finds name) (resolveLater env name line) := by
  unfold resolveLater
  split
  · rename_i h
    exact finds_of_resolve? h
  · trivial

theorem finds_resolveNow (name : String) :
    Yields (fun _ => env.Finds name) (resolveNow env name line) := by
  unfold resolveNow
  split
  · rename_i h
    exact finds_of_resolve? h
  · trivial

/-- If the expression has a value, all its references are found. -/
def Settled (env : Environment) (text : List Char) (t : Tree Token) : Prop :=
  Yields (fun _ => env.Settles (t.placed text)) (expr env (t.placed text))

theorem settled_leaf {k : NodeKind} (hk : k.refers = false) (u : Token) :
    Settled env text (.node k [.leaf u]) :=
  ends_of_ok fun _ _ => settles_of_nodes hk (by simp [Tree.nodes, Tree.children, Tree.isNode])

theorem settled_conceptExpr {u : Token} (hu : u.kind = .ident) :
    Settled env text (.node .conceptLiteral [.leaf u]) := by
  have hidentifiers : ((Tree.node .conceptLiteral [.leaf u]).placed text).identifiers =
      [Leaf.ofToken text .conceptLiteral u] := identifiers_single (by decide) (by decide) hu
  unfold Settled
  simp only [Tree.placed, expr]
  apply (ends_part (congrArg List.head? hidentifiers)).bind
  rintro leaf rfl
  refine (finds_resolveLater u.text).bind fun _ hfinds => ?_
  refine settles_names rfl fun leaf hleaf => ?_
  rw [hidentifiers, List.mem_singleton] at hleaf
  rw [hleaf]
  exact hfinds

theorem settled_binary {l m : Level} {a b : Tree Token} {op : Token} (lhs : Phrase l a)
    (rhs : Phrase m b) (ha : Settled env text a) (hb : Settled env text b) :
    Settled env text (.node .binaryExpression [a, .leaf op, b]) := by
  have hnodes : [a, .leaf op, b].filter Tree.isNode = [a, b] := by
    rw [filter_isNode_phrase lhs, Tree.filter_isNode_leaf, filter_isNode_phrase rhs,
      List.filter_nil]
  unfold Settled
  simp only [Tree.placed, expr]
  refine (ends_trivial _).bind fun _ _ => ?_
  refine (ends_operand (by rw [hnodes]; rfl) ha).bind fun _ ha => ?_
  refine (ends_operand (by rw [hnodes]; rfl) hb).bind fun _ hb => ?_
  apply settles_of_nodes (t := .node .binaryExpression [a, .leaf op, b]) rfl
  rw [Tree.nodes_node, hnodes]
  simp [ha, hb]

/-- An operation on a single operand. -/
theorem settled_operand {k : NodeKind} {cs : List (Tree Token)} {a : Tree Token} {f : Expr → Expr}
    (hk : k.refers = false) (hnodes : cs.filter Tree.isNode = [a]) (ha : Settled env text a)
    (hexpr : expr env ((Tree.node k cs).placed text) = (do
      let inner ← operand line (nodeExprs env (Tree.placedAll text k cs)) 0
      return f inner)) : Settled env text (.node k cs) := by
  unfold Settled
  rw [hexpr]
  exact (ends_operand (by rw [hnodes]; rfl) ha).bind fun _ ha => settles_around hk hnodes ha

theorem settled_call {f : Token} {args as : List (Tree Token)} (hf : f.kind.isTrivia = false)
    (hnodes : args.filter Tree.isNode = as) (has : ∀ a ∈ as, Settled env text a) :
    Settled env text (.node .callExpression [.leaf f, .node .argumentList args]) := by
  unfold Settled
  simp only [Tree.placed, expr]
  refine (ends_trivial _).bind fun _ _ => ?_
  rw [argumentExprs_placedAll hf, hnodes]
  refine (Ends.inSequence_map has).bind fun _ has => ?_
  apply settles_of_nodes (t := .node .callExpression [.leaf f, .node .argumentList args]) rfl
  intro n hn
  obtain rfl : n = .node .argumentList args := by
    simpa [Tree.nodes, Tree.children, Tree.isNode] using hn
  apply settles_of_nodes rfl
  rw [Tree.nodes_node, hnodes]
  exact has

/-- Every reference in an expression that compiles is found. -/
theorem settled_phrase {l : Level} {t : Tree Token} (h : Phrase l t) : Settled env text t := by
  induction h with
  | tighter _ _ ih => exact ih
  | chain _ _ lhs rhs iha ihb => exact settled_binary lhs rhs iha ihb
  | @not u a hu p ih =>
    have hnodes : [.leaf u, a].filter Tree.isNode = [a] := by
      rw [Tree.filter_isNode_leaf, filter_isNode_phrase p, List.filter_nil]
    exact settled_operand rfl hnodes ih (by simp only [Tree.placed, expr]; rfl)
  | compare _ lhs rhs iha ihb => exact settled_binary lhs rhs iha ihb
  | @isNull a i negated z p hi hn hz ih =>
    have hnodes : (a :: .leaf i :: (negated ++ [.leaf z])).filter Tree.isNode = [a] := by
      rw [filter_isNode_phrase p, Tree.filter_isNode_leaf, List.filter_append,
        filter_isNode_maybe hn]
      rfl
    exact settled_operand rfl hnodes ih (by simp only [Tree.placed, expr]; rfl)
  | @member a negated i l first more r p hn hi hl hfirst hcomma hmore hr ih ihfirst ihmore =>
    have hnodes : (a :: (negated ++ .leaf i :: enclosed l (strung first more) r)).filter
        Tree.isNode = a :: first :: more.map Prod.snd := filter_isNode_member p hn hfirst hmore
    have hitems : ∀ b ∈ first :: more.map Prod.snd, Settled env text b := by
      intro b hb
      rcases List.mem_cons.mp hb with rfl | hb
      · exact ihfirst
      · obtain ⟨q, hq, rfl⟩ := List.mem_map.mp hb
        exact ihmore q hq
    unfold Settled
    simp only [Tree.placed, expr]
    refine (ends_operand (by rw [hnodes]; rfl) ih).bind fun _ ha => ?_
    rw [nodeExprs_placedAll, hnodes, List.map_cons, List.tail_cons]
    refine (Ends.inSequence_map hitems).bind fun _ hitems => ?_
    apply settles_of_nodes (t := .node .inExpression
      (a :: (negated ++ .leaf i :: enclosed l (strung first more) r))) rfl
    rw [Tree.nodes_node, hnodes]
    intro n hn
    rcases List.mem_cons.mp hn with rfl | hn
    · exact ha
    · exact hitems n hn
  | @minus u a hu p ih =>
    have hnodes : [.leaf u, a].filter Tree.isNode = [a] := by
      rw [Tree.filter_isNode_leaf, filter_isNode_phrase p, List.filter_nil]
    exact settled_operand rfl hnodes ih (by simp only [Tree.placed, expr]; rfl)
  | literal hu => exact settled_leaf rfl _
  | @paren l a r hl p hr ih =>
    have hnodes : [.leaf l, a, .leaf r].filter Tree.isNode = [a] := by
      rw [Tree.filter_isNode_leaf, filter_isNode_phrase p]
      rfl
    exact settled_operand rfl hnodes ih (by simp only [Tree.placed, expr]; rfl)
  | @call f l first more r hf hl hfirst hcomma hmore hr ihfirst ihmore =>
    have hnodes : (enclosed l (strung first more) r).filter Tree.isNode =
        first :: more.map Prod.snd := by
      rw [filter_isNode_enclosed, filter_isNode_strung hfirst hmore]
    refine settled_call (notTrivia hf (by decide)) hnodes fun b hb => ?_
    rcases List.mem_cons.mp hb with rfl | hb
    · exact ihfirst
    · obtain ⟨q, hq, rfl⟩ := List.mem_map.mp hb
      exact ihmore q hq
  | callNothing hf hl hr =>
    exact settled_call (notTrivia hf (by decide)) (filter_isNode_enclosed _ _ _) (by simp)
  | type hu hn => exact settled_leaf rfl _
  | concept hu hn => exact settled_conceptExpr hu

end Expressions

section Clauses
variable {t : Tree Token}

theorem settled_exprNow {l : Level} {a : Tree Token} (ha : Phrase l a) :
    Yields (fun _ => env.Settles (a.placed text)) (exprNow env (a.placed text)) :=
  Ends.mapError (settled_phrase ha)

theorem finds_resolveLeaves (leaves : List Leaf) :
    Yields (fun _ => ∀ leaf ∈ leaves, env.Finds leaf.text) (resolveLeaves env line leaves) :=
  Ends.inSequence_map fun leaf _ => finds_resolveNow leaf.text

theorem settles_conditionOf {n : Tree Token} (hn : WhereClause n)
    (hc : t.child? .whereClause = some n) :
    Yields (fun _ => env.Settles (n.placed text)) (conditionOf env (t.placed text)) := by
  cases hn with
  | @intro w a hw ha =>
    have hnodes : [.leaf w, a].filter Tree.isNode = [a] := by
      rw [Tree.filter_isNode_leaf, filter_isNode_phrase ha, List.filter_nil]
    have hhead : ((Tree.node .whereClause [.leaf w, a]).placed text).nodes.head? =
        some (a.placed text) := by
      rw [Tree.nodes_placed, Tree.nodes_node, hnodes]
      rfl
    unfold conditionOf
    rw [Tree.child?_placed, hc]
    simp only [Option.map_some, Option.bind_some, hhead]
    exact Ends.map ((settled_exprNow ha).weaken (fun _ => settles_around rfl hnodes) fun _ h => h)

theorem settles_orderItem {n : Tree Token} (hn : Grammar.OrderItem n) :
    Yields (fun _ => env.Settles (n.placed text)) (orderItem env line (n.placed text)) := by
  cases hn with
  | @intro a direction ha hd =>
    have hnodes : (a :: direction).filter Tree.isNode = [a] := by
      rw [filter_isNode_phrase ha]
      rcases hd with rfl | ⟨d, -, rfl⟩
      · rfl
      · rfl
    have hhead : ((Tree.node .orderItem (a :: direction)).placed text).nodes.head? =
        some (a.placed text) := by
      rw [Tree.nodes_placed, Tree.nodes_node, hnodes]
      rfl
    refine (ends_need hhead).bind ?_
    rintro _ rfl
    exact (settled_exprNow ha).bind fun _ hsettles => settles_around rfl hnodes hsettles

theorem settles_orderingOf {n : Tree Token} (hn : OrderByClause n)
    (hc : t.child? .orderByClause = some n) :
    Yields (fun _ => env.Settles (n.placed text)) (orderingOf env line (t.placed text)) := by
  cases hn with
  | @intro o b items ho hb hi =>
    unfold orderingOf
    rw [Tree.child?_placed, hc]
    simp only [Option.map_some]
    rw [Tree.nodes_placed, List.map_map]
    have hitems : ∀ n ∈ (Tree.node .orderByClause (.leaf o :: .leaf b :: items)).nodes,
        Yields (fun _ => env.Settles (n.placed text)) (orderItem env line (n.placed text)) :=
      fun n hn => settles_orderItem (of_mem_listed hi hn)
    exact (Ends.inSequence_map hitems).weaken (fun _ hall => settles_of_nodes rfl hall)
      fun _ h => h

theorem settles_alignItem {n : Tree Token} {count : Nat} (hn : Grammar.AlignItem n) :
    Yields (fun _ => env.Settles (n.placed text)) (alignItem env line count (n.placed text)) := by
  cases hn with
  | @intro name colon concepts hn hc hi =>
    have hconcepts : ∀ n ∈ concepts.filter Tree.isNode,
        ∃ u, u.kind = .ident ∧ n = .node .conceptLiteral [.leaf u] := by
      refine forall_nodes_listed (fun ys hys n hn => ?_) hi
      obtain ⟨u, hu, rfl⟩ := hys
      exact ⟨u, hu, List.mem_singleton.mp hn⟩
    refine (ends_trivial _).bind fun _ _ => ?_
    refine (finds_resolveLeaves _).bind fun found hfinds => ?_
    split
    · apply settles_of_nodes (t := .node .alignItem (.leaf name :: .leaf colon :: concepts)) rfl
      intro n hn
      obtain ⟨u, hu, rfl⟩ := hconcepts n hn
      have hnames : ((Tree.node .conceptLiteral [.leaf u]).placed text).identifiers =
          [Leaf.ofToken text .conceptLiteral u] := identifiers_single (by decide) (by decide) hu
      refine settles_names rfl fun leaf hleaf => hfinds leaf ?_
      rw [Tree.nodes_placed, List.filterMap_map, List.mem_filterMap]
      refine ⟨_, hn, ?_⟩
      rw [hnames, List.mem_singleton] at hleaf
      rw [Function.comp_apply, hnames, hleaf]
      rfl
    · trivial

theorem settles_alignment {n : Tree Token} {count : Nat} (hn : AlignClause n)
    (hc : t.child? .alignClause = some n) :
    Yields (fun _ => env.Settles (n.placed text)) (alignment env line count (t.placed text)) := by
  cases hn with
  | @intro a items ha hi =>
    unfold alignment
    rw [Tree.child?_placed, hc]
    simp only [Option.map_some]
    rw [Tree.nodes_placed, List.map_map]
    have hitems : ∀ n ∈ (Tree.node .alignClause (.leaf a :: items)).nodes,
        Yields (fun _ => env.Settles (n.placed text))
          (alignItem env line count (n.placed text)) :=
      fun n hn => settles_alignItem (of_mem_listed hi hn)
    exact (Ends.inSequence_map hitems).weaken (fun _ hall => settles_of_nodes rfl hall)
      fun _ h => h

end Clauses

section Selects
variable {t : Tree Token} {env' : Environment}

theorem eq_of_mem_atMostOne {P : Tree Token → Prop} {xs : List (Tree Token)} (h : AtMostOne P xs)
    {m n : Tree Token} (hm : m ∈ xs) (hn : n ∈ xs) : m = n := by
  rcases h with rfl | ⟨t, rfl, -⟩
  · cases hm
  · rw [List.mem_singleton.mp hm, List.mem_singleton.mp hn]

/-- Where in a select the clauses of a kind stand. -/
def clausesIn (condition ordering limit : List (Tree Token)) : NodeKind → List (Tree Token)
  | .whereClause => condition
  | .orderByClause => ordering
  | .limitClause => limit
  | _ => []

theorem eq_of_mem_clausesIn {condition ordering limit : List (Tree Token)}
    (hw : AtMostOne WhereClause condition) (ho : AtMostOne OrderByClause ordering)
    (hl : AtMostOne LimitClause limit) {kind : NodeKind} {m n : Tree Token}
    (hm : m ∈ clausesIn condition ordering limit kind)
    (hn : n ∈ clausesIn condition ordering limit kind) : m = n := by
  unfold clausesIn at hm hn
  split at hm
  · exact eq_of_mem_atMostOne hw hm hn
  · exact eq_of_mem_atMostOne ho hm hn
  · exact eq_of_mem_atMostOne hl hm hn
  · cases hm

/-- A select has no two clauses of a kind. -/
theorem unique_clause {body : List (Tree Token)} (h : SelectBody body) {m n : Tree Token}
    (hm : m ∈ body.filter Tree.isNode) (hn : n ∈ body.filter Tree.isNode)
    (hk : m.kind = n.kind) (hitem : n.kind ≠ .selectItem) : m = n := by
  cases h with
  | @intro s items comma condition ordering limit hs hi hc hw ho hl =>
    have hplace : ∀ x ∈ (.leaf s :: (items ++ (comma ++ (condition ++
        (ordering ++ limit))))).filter Tree.isNode,
        x.kind ≠ .selectItem → x ∈ clausesIn condition ordering limit x.kind := by
      intro x hx hkind
      simp only [Tree.filter_isNode_leaf, List.filter_append, List.mem_append,
        filter_isNode_maybe hc, List.not_mem_nil, false_or] at hx
      rcases hx with hx | hx | hx | hx
      · cases of_mem_listed hi hx <;> exact absurd rfl hkind
      · cases of_mem_atMostOne hw hx
        exact (List.mem_filter.mp hx).1
      · cases of_mem_atMostOne ho hx
        exact (List.mem_filter.mp hx).1
      · cases of_mem_atMostOne hl hx
        exact (List.mem_filter.mp hx).1
    have hnplace := hplace n hn hitem
    have hmplace := hplace m hm (hk ▸ hitem)
    rw [hk] at hmplace
    exact eq_of_mem_clausesIn hw ho hl hmplace hnplace

theorem child?_of_unique {n : Tree Token} (hn : n ∈ t.nodes)
    (h : ∀ m ∈ t.nodes, m.kind = n.kind → m = n) : t.child? n.kind = some n := by
  obtain ⟨m, hm⟩ := Tree.child?_isSome hn
  obtain ⟨hmem, hk⟩ := Tree.child?_some hm
  rw [hm, h m hmem hk]

theorem settles_selectItem (importer : Importer) (h : Grammar.SelectItem t) {i : SelectItem}
    (hgives : Gives (selectItem line (t.placed text)) env i env') :
    env'.Settles (t.placed text) := by
  cases h with
  | @plain hidden u hh hu =>
    have hnames : ((Tree.node .conceptAssignment [.leaf u]).placed text).identifiers =
        [Leaf.ofToken text .conceptAssignment u] := identifiers_single (by decide) (by decide) hu
    simp only [selectItem, Tree.child?_placed, child?_selectItem, if_true, Option.map_some]
      at hgives
    obtain ⟨_, _, hlift, hpure⟩ := gives_bind.mp hgives
    obtain ⟨hresolve, rfl⟩ := gives_lift.mp hlift
    obtain ⟨-, rfl⟩ := gives_pure.mp hpure
    have hfinds : Yields (fun _ => env.Finds u.text) (do
        let leaf ← need "select_item" line "missing concept"
          ((Tree.node .conceptAssignment [.leaf u]).placed text).identifiers.head?
        resolveNow env leaf.text (leafLine leaf line)) := by
      refine (ends_need (congrArg List.head? hnames)).bind ?_
      rintro _ rfl
      exact finds_resolveNow u.text
    apply settles_around rfl (filter_isNode_hidden hidden _ _)
    refine settles_names rfl fun leaf hleaf => ?_
    rw [hnames, List.mem_singleton] at hleaf
    rw [hleaf]
    exact hfinds.of_eq_ok hresolve
  | @transform hidden a arrow name hh ha harrow hname =>
    have hnodes : [a, .leaf arrow, .leaf name].filter Tree.isNode = [a] := by
      rw [filter_isNode_phrase ha]
      rfl
    have hhead : ((Tree.node .selectTransform
        [a, .leaf arrow, .leaf name]).placed text).nodes.head? = some (a.placed text) := by
      rw [Tree.nodes_placed, Tree.nodes_node, hnodes]
      rfl
    have hsettles : Yields (fun _ => env.Settles (a.placed text)) (transformedConcept env
        ((Tree.node .selectTransform [a, .leaf arrow, .leaf name]).placed text)) := by
      refine (ends_need hhead).bind ?_
      rintro _ rfl
      exact (ends_trivial _).bind fun _ _ => (settled_exprNow ha).bind fun _ hsettles => hsettles
    simp only [selectItem, Tree.child?_placed, child?_selectItem, reduceCtorEq, if_true, if_false,
      Option.map_some, Option.map_none] at hgives
    obtain ⟨c, _, hlift, hrest⟩ := gives_bind.mp hgives
    obtain ⟨hc, rfl⟩ := gives_lift.mp hlift
    obtain ⟨_, between, hregister, hpure⟩ := gives_bind.mp hrest
    obtain ⟨-, rfl⟩ := gives_pure.mp hpure
    obtain ⟨hsteps, -⟩ : Steps importer env between ∧ _ :=
      steps_register ((own_transformedConcept _).of_eq_ok hc) hregister
    apply settles_around rfl (filter_isNode_hidden hidden _ _)
    exact settles_around rfl hnodes (hsteps.settles (hsettles.of_eq_ok hc))

/-- What each of some steps in a row finds is found in the end. -/
theorem settles_mapM {importer : Importer} {β : Type} {nodes : List (Tree Leaf)}
    {body : Tree Leaf → Build β} {mentions : β → List String} {bs : List β}
    (hbrings : ∀ {n env b env'}, Gives (body n) env b env' → Brings importer env env' (mentions b))
    (h : ∀ n ∈ nodes, ∀ {env b env'}, Gives (body n) env b env' → env'.Settles n)
    (hgives : Gives (nodes.mapM body) env bs env') : ∀ n ∈ nodes, env'.Settles n := by
  induction nodes generalizing env bs with
  | nil => simp
  | cons node nodes ih =>
    obtain ⟨b, between, more, hfirst, hmore, rfl⟩ := gives_mapM_cons.mp hgives
    have hlater := (brings_mapM hbrings hmore).steps
    refine List.forall_mem_cons.mpr ⟨hlater.settles (h node (by simp) hfirst), ?_⟩
    exact ih (fun n hn => h n (by simp [hn])) hmore

/-- Every reference in a select that compiles is found. -/
theorem settles_select (importer : Importer) {body : List (Tree Token)} (hb : SelectBody body)
    (hk : t.kind = .selectStatement) (ht : t.nodes = body.filter Tree.isNode) {s : Select}
    (hgives : Gives (select (t.placed text)) env s env') : env'.Settles (t.placed text) := by
  obtain ⟨items, between, hitems, hrest⟩ := gives_bind.mp hgives
  obtain ⟨condition, _, hlift, hrest⟩ := gives_bind.mp hrest
  obtain ⟨hcondition, rfl⟩ := gives_lift.mp hlift
  obtain ⟨orderBy, _, hlift, hrest⟩ := gives_bind.mp hrest
  obtain ⟨horderBy, rfl⟩ := gives_lift.mp hlift
  obtain ⟨limit, _, hlift, hpure⟩ := gives_bind.mp hrest
  obtain ⟨-, rfl⟩ := gives_lift.mp hlift
  obtain ⟨-, rfl⟩ := gives_pure.mp hpure
  have hclauses : HasClauses t := hasClauses_of_body hb ht
  have hall : ∀ n ∈ (t.placed text).nodes.filter (fun n => n.kind = .selectItem),
      between.Settles n := by
    rw [selectItems_eq_mapM] at hitems
    have hbrings : ∀ {n env i env'}, Gives (selectItem (lineOf (t.placed text)) n) env i env' →
        Brings importer env env' [i.concept] := brings_selectItem
    refine settles_mapM hbrings (fun n hn _ _ _ hitem => ?_) hitems
    obtain ⟨hn, hkind⟩ := List.mem_filter.mp hn
    rw [Tree.nodes_placed] at hn
    obtain ⟨m, hm, rfl⟩ := List.mem_map.mp hn
    have hclause := hclauses m hm
    rw [Tree.kind_placed, decide_eq_true_iff] at hkind
    rw [hkind] at hclause
    exact settles_selectItem importer hclause hitem
  apply settles_of_nodes (by rw [hk]; rfl)
  intro n hn
  have hchild : n.kind ≠ .selectItem → t.child? n.kind = some n := by
    intro hitem
    refine child?_of_unique hn fun m hm hkm => ?_
    rw [ht] at hm hn
    exact unique_clause hb hm hn hkm hitem
  have hclause := hclauses n hn
  cases hkn : n.kind with
  | selectItem =>
    apply hall
    rw [Tree.nodes_placed]
    exact List.mem_filter.mpr ⟨List.mem_map_of_mem hn, by simp [Tree.kind_placed, hkn]⟩
  | whereClause =>
    rw [hkn] at hclause hchild
    exact (settles_conditionOf hclause (hchild (by simp))).of_eq_ok hcondition
  | orderByClause =>
    rw [hkn] at hclause hchild
    exact (settles_orderingOf hclause (hchild (by simp))).of_eq_ok horderBy
  | limitClause =>
    rw [hkn] at hclause
    cases hclause
    exact settles_of_nodes rfl (by simp)
  | _ =>
    rw [hkn] at hclause
    exact hclause.elim

end Selects
end Compile
end ConceptQuery
