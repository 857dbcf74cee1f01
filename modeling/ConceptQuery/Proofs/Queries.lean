import ConceptQuery.Proofs.Shape

/-! # Queries that the compiler understands

Selects, merged selects, persisted selects and datasources: their clauses are found
by kind, and each clause has the parts that it needs.
-/
namespace ConceptQuery

namespace Decimal

/-- The number that digits stand for. -/
def value (digits : List Char) : Nat :=
  digits.foldl (fun n c => n * 10 + (c.toNat - '0'.toNat)) 0

theorem le_value (digits : List Char) (n : Nat) :
    n ≤ digits.foldl (fun n c => n * 10 + (c.toNat - '0'.toNat)) n := by
  induction digits generalizing n with
  | nil => exact le_rfl
  | cons c digits ih =>
    have := ih (n * 10 + (c.toNat - '0'.toNat))
    simp only [List.foldl_cons]
    omega

/-- Digits alone can only be too many. -/
theorem readDigits_error {digits : List Char} {n : Nat} {e : ReadError}
    (hd : ∀ c ∈ digits, Lexer.isDigit c = true) (h : readDigits n digits = .error e) :
    e = .tooLarge ∧ bound ≤ digits.foldl (fun n c => n * 10 + (c.toNat - '0'.toNat)) n := by
  induction digits generalizing n with
  | nil => cases h
  | cons c digits ih =>
    have hc := hd c (by simp)
    have hdigit : digit? c = some (c.toNat - '0'.toNat) := by
      rw [digit?, if_pos]
      simpa [Lexer.isDigit] using hc
    rw [readDigits, hdigit] at h
    simp only at h
    split at h
    · exact ih (fun d hd' => hd d (by simp [hd'])) h
    · rename_i hbound
      cases h
      have := le_value digits (n * 10 + (c.toNat - '0'.toNat))
      rw [List.foldl_cons]
      exact ⟨rfl, by omega⟩

theorem read_error {text : String} {e : ReadError} (hne : text.toList ≠ [])
    (hd : ∀ c ∈ text.toList, Lexer.isDigit c = true) (h : read text = .error e) :
    e = .tooLarge ∧ bound ≤ value text.toList := by
  unfold read at h
  split at h
  · rename_i hnil
    exact absurd hnil hne
  · rename_i hplus
    have hdigit := hd '+' (by simp [hplus])
    exact absurd hdigit (by decide)
  · rename_i digits _ hplus
    have hdigit := hd '+' (by simp [hplus])
    exact absurd hdigit (by decide)
  · exact readDigits_error hd h

end Decimal

namespace Compile
open Grammar

section Flaws

/-- The digits behind the limit of a select stand for too large a number. -/
def HugeLimit (select : Tree Leaf) : Prop :=
  ∃ clause ∈ select.nodes, clause.kind = .limitClause ∧
    ∃ leaf ∈ clause.ownLeaves, leaf.kind = .number ∧
      (∀ c ∈ leaf.text.toList, Lexer.isDigit c = true) ∧
      Decimal.bound ≤ Decimal.value leaf.text.toList

/-- The selects of a statement that merges them. -/
def mergedSelects (node : Tree Leaf) : List (Tree Leaf) :=
  node.nodes.filter fun n => n.kind = .selectStatement

/-- The concepts that an align item names. -/
def alignedConcepts (item : Tree Leaf) : List (Tree Leaf) :=
  item.nodes.filter fun n => n.kind = .conceptLiteral

def misalignment (name : Leaf) (concepts selects : Nat) : String :=
  "'" ++ name.text ++ "' aligns " ++ toString concepts ++ " concepts across " ++
    toString selects ++ " selects"

/-- What can be wrong with the form of a statement that the grammar accepts: a limit of it,
or of a select in it, is too large; or an align item has not as many concepts as there are
merged selects. -/
inductive Flawed (node : Tree Leaf) : Flaw
  | limit {select} (hselect : select = node ∨ select ∈ node.nodes)
      (hkind : select.kind = .selectStatement) (hlimit : HugeLimit select) :
      Flawed node "limit" (lineOf select) Decimal.ReadError.tooLarge.message
  | align {clause item name} (hkind : node.kind = .multiSelectStatement)
      (hclause : clause ∈ node.nodes) (halign : clause.kind = .alignClause)
      (hitem : item ∈ clause.nodes) (hname : item.identifiers.head? = some name)
      (hcount : (alignedConcepts item).length ≠ (mergedSelects node).length) :
      Flawed node "align_item" (lineOf node)
        (misalignment name (alignedConcepts item).length (mergedSelects node).length)

/-- The flaws of this statement are among those that may be reported. -/
def Admits (flaw : Flaw) (node : Tree Leaf) : Prop :=
  ∀ {rule line message}, Flawed node rule line message → flaw rule line message

end Flaws

section Members
variable {separator : TokenKind}

/-- The nodes between separators are those of the items. -/
theorem forall_nodes_listed {Item : List (Tree Token) → Prop} {P : Tree Token → Prop}
    {xs : List (Tree Token)} (hItem : ∀ ys, Item ys → ∀ n ∈ ys.filter Tree.isNode, P n)
    (h : Rule.Listed separator Item xs) : ∀ n ∈ xs.filter Tree.isNode, P n := by
  induction h with
  | one h => exact hItem _ h
  | more front hc h ih =>
    intro n hn
    rw [List.filter_append, Tree.filter_isNode_leaf] at hn
    rcases List.mem_append.mp hn with hn | hn
    · exact ih n hn
    · exact hItem _ h n hn

theorem of_mem_listed {P : Tree Token → Prop} {xs : List (Tree Token)}
    (h : Rule.Listed separator (One P) xs) {n : Tree Token} (hn : n ∈ xs.filter Tree.isNode) :
    P n := by
  refine forall_nodes_listed (fun ys hys m hm => ?_) h n hn
  obtain ⟨t, rfl, ht⟩ := hys
  rw [List.mem_singleton.mp (List.mem_filter.mp hm).1]
  exact ht

theorem of_mem_atMostOne {P : Tree Token → Prop} {xs : List (Tree Token)} (h : AtMostOne P xs)
    {n : Tree Token} (hn : n ∈ xs.filter Tree.isNode) : P n := by
  rcases h with rfl | ⟨t, rfl, ht⟩
  · simp at hn
  · rw [List.mem_singleton.mp (List.mem_filter.mp hn).1]
    exact ht

/-- What a select may have in it, by kind. -/
def Clause : NodeKind → Tree Token → Prop
  | .selectItem => Grammar.SelectItem
  | .whereClause => WhereClause
  | .orderByClause => OrderByClause
  | .limitClause => LimitClause
  | _ => fun _ => False

/-- The nodes of a select are its items and its clauses. -/
theorem clause_of_mem {body : List (Tree Token)} (h : SelectBody body) {n : Tree Token}
    (hn : n ∈ body.filter Tree.isNode) : Clause n.kind n := by
  cases h with
  | intro hs hi hc hw ho hl =>
    simp only [Tree.filter_isNode_leaf, List.filter_append, List.mem_append,
      filter_isNode_maybe hc, List.not_mem_nil, false_or] at hn
    rcases hn with hn | hn | hn | hn
    · have hitem := of_mem_listed hi hn
      cases hitem with
      | plain hh ht => exact .plain hh ht
      | transform hh ha harrow hname => exact .transform hh ha harrow hname
    · cases of_mem_atMostOne hw hn with
      | intro hw ha => exact WhereClause.intro hw ha
    · cases of_mem_atMostOne ho hn with
      | intro ho hb hi => exact OrderByClause.intro ho hb hi
    · cases of_mem_atMostOne hl hn with
      | intro hl hc => exact LimitClause.intro hl hc

end Members

section Selects
variable {flaw : Flaw} {text : List Char} {env : Environment} {line : Nat} {t : Tree Token}

theorem fine_addConcept (c : Concept) (line : Nat) :
    Build.Fine flaw (Build.change fun env => env.addConcept c line) := by
  apply Build.ensures_change
  intro env _
  unfold Environment.addConcept
  split
  · split
    · trivial
    · trivial
  · trivial

theorem fine_addDatasource (d : Datasource) (line : Nat) :
    Build.Fine flaw (Build.change fun env => env.addDatasource d line) := by
  apply Build.ensures_change
  intro env _
  unfold Environment.addDatasource
  split
  · trivial
  · trivial

theorem fine_register (c : Concept) (line : Nat) : Build.Fine flaw (register c line) := by
  refine (fine_addConcept c line).bind fun _ => ?_
  split
  · exact fine_addConcept (countOf c) line
  · exact Build.ensures_pure fun _ _ => trivial

theorem fine_transformedConcept {a : Tree Token} {arrow name : Token} (ha : Phrase .disjunction a)
    (harrow : arrow.kind = punct .arrow) (hname : name.kind = .ident) (hs : a.Spelled) :
    Fine flaw (transformedConcept env
      ((Tree.node .selectTransform [a, .leaf arrow, .leaf name]).placed text)) := by
  have hnode : ((Tree.node .selectTransform [a, .leaf arrow, .leaf name]).placed text).nodes.head? =
      some (a.placed text) := by
    rw [Tree.nodes_placed, Tree.nodes_node, filter_isNode_phrase ha]
    rfl
  have hlast : ((Tree.node .selectTransform
      [a, .leaf arrow, .leaf name]).placed text).identifiers.getLast? =
        some (Leaf.ofToken text .selectTransform name) := by
    rw [Tree.identifiers_placed text _ (by decide) (by decide), wordsOf_phrase ha]
    simp [Tree.wordsOf, harrow, hname, TokenKind.isTrivia]
  refine (ends_need hnode).bind ?_
  rintro _ rfl
  refine (ends_need hlast).bind fun _ _ => ?_
  exact (fine_exprNow ha hs).bind fun _ _ => trivial

/-- Behind the marks that hide it, a select item has one node. -/
theorem filter_isNode_hidden (hidden : List Token) (kind : NodeKind) (ds : List (Tree Token)) :
    (hidden.map Tree.leaf ++ [Tree.node kind ds]).filter Tree.isNode = [.node kind ds] := by
  have hnone : (hidden.map Tree.leaf).filter Tree.isNode = [] := by
    simp [List.filter_eq_nil_iff, Tree.isNode]
  rw [List.filter_append, hnone]
  rfl

theorem child?_selectItem (hidden : List Token) (kind k : NodeKind) (ds : List (Tree Token)) :
    (Tree.node .selectItem (hidden.map .leaf ++ [.node kind ds])).child? k =
      if kind = k then some (.node kind ds) else none := by
  rw [Tree.child?, Tree.nodes_node, filter_isNode_hidden]
  by_cases h : kind = k
  · simp [Tree.kind, h]
  · simp [Tree.kind, h]

theorem fine_selectItem (h : Grammar.SelectItem t) (hs : t.Spelled) :
    Build.Fine flaw (selectItem line (t.placed text)) := by
  cases h with
  | @plain hidden u hh hu =>
    have hname : ((Tree.node .conceptAssignment [.leaf u]).placed text).identifiers.head? =
        some (Leaf.ofToken text .conceptAssignment u) := by
      rw [Tree.identifiers_placed text _ (by decide) (by decide)]
      simp [Tree.wordsOf, hu, TokenKind.isTrivia]
    simp only [selectItem, Tree.child?_placed, child?_selectItem, if_true, Option.map_some]
    have hlift : Build.Fine flaw (Build.lift fun env => do
        let leaf ← need "select_item" line "missing concept"
          ((Tree.node .conceptAssignment [.leaf u]).placed text).identifiers.head?
        resolveNow env leaf.text (leafLine leaf line)) := by
      apply Build.ensures_lift
      intro env _
      exact (ends_need hname).bind fun _ _ => fine_resolveNow _ _ _
    exact hlift.bind fun _ => Build.ensures_pure fun _ _ => trivial
  | @transform hidden a arrow name hh ha harrow hname =>
    have hspelled : a.Spelled := by
      have htransform : (Tree.node .selectTransform [a, .leaf arrow, .leaf name]).Spelled :=
        hs.child (by simp)
      exact htransform.child (by simp)
    simp only [selectItem, Tree.child?_placed, child?_selectItem, reduceCtorEq, if_true, if_false,
      Option.map_some, Option.map_none]
    have hlift : Build.Fine flaw (Build.lift fun env => transformedConcept env
        ((Tree.node .selectTransform [a, .leaf arrow, .leaf name]).placed text)) :=
      Build.ensures_lift fun env _ => fine_transformedConcept ha harrow hname hspelled
    refine hlift.bind fun c => ?_
    exact (fine_register c _).bind fun _ => Build.ensures_pure fun _ _ => trivial

/-- A node whose clauses are those of a select. -/
def HasClauses (t : Tree Token) : Prop :=
  ∀ n ∈ t.nodes, Clause n.kind n

variable (h : HasClauses t)
include h

theorem HasClauses.child {kind : NodeKind} {n : Tree Token} (hn : t.child? kind = some n) :
    Clause kind n := by
  obtain ⟨hmem, rfl⟩ := Tree.child?_some hn
  exact h n hmem

theorem fine_conditionOf (hs : t.Spelled) : Fine flaw (conditionOf env (t.placed text)) := by
  unfold conditionOf
  rw [Tree.child?_placed]
  cases hc : t.child? .whereClause with
  | none => trivial
  | some n =>
    have hspelled := hs.node (Tree.child?_some hc).1
    cases (show WhereClause n from h.child hc) with
    | @intro w a hw ha =>
      have hhead : ((Tree.node .whereClause [.leaf w, a]).placed text).nodes.head? =
          some (a.placed text) := by
        rw [Tree.nodes_placed, Tree.nodes_node, Tree.filter_isNode_leaf, filter_isNode_phrase ha]
        rfl
      simp only [Option.map_some, Option.bind_some, hhead]
      exact Ends.map (fine_exprNow ha (hspelled.child (by simp)))

omit h in
theorem fine_orderItem {n : Tree Token} (hn : Grammar.OrderItem n) (hs : n.Spelled) :
    Fine flaw (orderItem env line (n.placed text)) := by
  cases hn with
  | @intro a direction ha hd =>
    have hhead : ((Tree.node .orderItem (a :: direction)).placed text).nodes.head? =
        some (a.placed text) := by
      rw [Tree.nodes_placed, Tree.nodes_node, filter_isNode_phrase ha]
      rfl
    refine (ends_need hhead).bind ?_
    rintro _ rfl
    exact (fine_exprNow ha (hs.child (by simp))).bind fun _ _ => trivial

theorem fine_orderingOf (hs : t.Spelled) : Fine flaw (orderingOf env line (t.placed text)) := by
  unfold orderingOf
  rw [Tree.child?_placed]
  cases hc : t.child? .orderByClause with
  | none => trivial
  | some n =>
    have hspelled := hs.node (Tree.child?_some hc).1
    cases (show OrderByClause n from h.child hc) with
    | @intro o b items ho hb hi =>
      have hall : ∀ x ∈ (((Tree.node .orderByClause (.leaf o :: .leaf b :: items)).placed
          text).nodes.map (orderItem env line)), Fine flaw x := by
        intro x hx
        obtain ⟨m, hm, rfl⟩ := List.mem_map.mp hx
        rw [Tree.nodes_placed] at hm
        obtain ⟨n, hn, rfl⟩ := List.mem_map.mp hm
        exact fine_orderItem (of_mem_listed hi hn) (hspelled.node hn)
      exact ends_inSequence hall

theorem fine_limitOf (hs : t.Spelled)
    (hflaw : HugeLimit (t.placed text) → flaw "limit" line Decimal.ReadError.tooLarge.message) :
    Fine flaw (limitOf line (t.placed text)) := by
  unfold limitOf
  rw [Tree.child?_placed]
  cases hc : t.child? .limitClause with
  | none => trivial
  | some n =>
    obtain ⟨hmem, hkind⟩ := Tree.child?_some hc
    have hspelled := hs.node hmem
    cases (show LimitClause n from h.child hc) with
    | @intro l count hl hcount =>
      have hfind : ((Tree.node .limitClause [.leaf l, .leaf count]).placed text).ownLeaves.find?
          (fun l => l.kind = .number) = some (Leaf.ofToken text .limitClause count) := by
        rw [Tree.ownLeaves_placed, Tree.words_node, Tree.wordsOf_leaf (by rw [hl]; rfl),
          Tree.wordsOf_leaf (by rw [hcount]; rfl)]
        simp [Leaf.ofToken, Leaf.kindOf, hl, hcount, Tree.kind]
      have hdigits : count.kind.Spells count.text.toList := hspelled.leaf (by simp)
      rw [hcount] at hdigits
      refine (ends_need hfind).bind ?_
      rintro _ rfl
      cases hread : Decimal.read count.text with
      | ok n =>
        simp only [Leaf.ofToken, hread]
        trivial
      | error e =>
        obtain ⟨rfl, hlarge⟩ := Decimal.read_error hdigits.1 hdigits.2 hread
        have hclause : (Tree.node .limitClause [.leaf l, .leaf count]).placed text ∈
            (t.placed text).nodes := by
          rw [Tree.nodes_placed]
          exact List.mem_map_of_mem hmem
        simp only [Leaf.ofToken, hread]
        exact hflaw ⟨_, hclause, rfl, _, List.mem_of_find?_eq_some hfind,
          by simpa using List.find?_some hfind, hdigits.2, hlarge⟩

theorem fine_select (hs : t.Spelled)
    (hflaw : HugeLimit (t.placed text) →
      flaw "limit" (lineOf (t.placed text)) Decimal.ReadError.tooLarge.message) :
    Build.Fine flaw (select (t.placed text)) := by
  have hitems : Build.Fine flaw (selectItems (lineOf (t.placed text))
      ((t.placed text).nodes.filter fun n => n.kind = .selectItem)) := by
    rw [selectItems_eq_mapM]
    apply Build.ensures_mapM
    intro m hm
    obtain ⟨hm, hk⟩ := List.mem_filter.mp hm
    rw [Tree.nodes_placed] at hm
    obtain ⟨n, hn, rfl⟩ := List.mem_map.mp hm
    have hclause := h n hn
    rw [Tree.kind_placed, decide_eq_true_iff] at hk
    rw [hk] at hclause
    exact fine_selectItem hclause (hs.node hn)
  refine hitems.bind fun _ => ?_
  refine (Build.ensures_lift fun env _ => fine_conditionOf h hs).bind fun _ => ?_
  refine (Build.ensures_lift fun env _ => fine_orderingOf h hs).bind fun _ => ?_
  refine (Build.ensures_lift fun env _ => fine_limitOf h hs hflaw).bind fun _ => ?_
  exact Build.ensures_pure fun _ _ => trivial

end Selects

section Merging
variable {flaw : Flaw} {text : List Char} {env : Environment} {line count : Nat} {t : Tree Token}

theorem hasClauses_of_body {body : List (Tree Token)} (h : SelectBody body)
    (ht : t.nodes = body.filter Tree.isNode) : HasClauses t := by
  intro n hn
  rw [ht] at hn
  exact clause_of_mem h hn

theorem wordsOf_listed_ident {separator : TokenKind} (hsep : separator.isTrivia = false)
    {xs : List (Tree Token)} {Item : List (Tree Token) → Prop}
    (hItem : ∀ ys, Item ys → Tree.wordsOf ys = []) (h : Rule.Listed separator Item xs) :
    ∀ u ∈ Tree.wordsOf xs, u.kind = separator := by
  induction h with
  | one h => simp [hItem _ h]
  | @more xs c ys front hc h ih =>
    intro u hu
    rw [Tree.wordsOf_append, Tree.wordsOf_leaf (by rw [hc]; exact hsep), hItem _ h] at hu
    rcases List.mem_append.mp hu with hu | hu
    · exact ih u hu
    · rw [List.mem_singleton.mp hu]
      exact hc

/-- The nodes of an align item are the concepts that it names, and each has its name. -/
theorem length_alignedConcepts {n : Tree Token} (h : Grammar.AlignItem n) :
    ((n.placed text).nodes.filterMap fun m => m.identifiers.head?).length =
      (alignedConcepts (n.placed text)).length := by
  cases h with
  | @intro name colon concepts hn hc hi =>
    have hconcepts : ∀ m ∈ concepts.filter Tree.isNode, ∃ u : Token,
        u.kind = .ident ∧ m = .node .conceptLiteral [.leaf u] := by
      refine forall_nodes_listed (fun ys hys m hm => ?_) hi
      obtain ⟨u, hu, rfl⟩ := hys
      exact ⟨u, hu, List.mem_singleton.mp (List.mem_filter.mp hm).1⟩
    rw [alignedConcepts, List.length_filterMap_eq_countP, ← List.countP_eq_length_filter,
      Tree.nodes_placed]
    apply List.countP_congr
    intro m hm
    obtain ⟨v, hv, rfl⟩ := List.mem_map.mp hm
    obtain ⟨u, hu, rfl⟩ := hconcepts v hv
    rw [head?_conceptLiteral hu, Tree.kind_placed]
    simp [Tree.kind]

theorem fine_alignItem {n : Tree Token} (h : Grammar.AlignItem n)
    (hflaw : ∀ name, (n.placed text).identifiers.head? = some name →
      (alignedConcepts (n.placed text)).length ≠ count →
      flaw "align_item" line (misalignment name (alignedConcepts (n.placed text)).length count)) :
    Fine flaw (alignItem env line count (n.placed text)) := by
  have hlength : ((n.placed text).nodes.filterMap fun m => m.identifiers.head?).length =
      (alignedConcepts (n.placed text)).length := length_alignedConcepts h
  cases h with
  | @intro name colon concepts hn hc hi =>
    have hnone : ((Tree.wordsOf concepts).filter fun u => u.kind = .ident) = [] := by
      rw [List.filter_eq_nil_iff]
      intro u hu
      have hcomma := wordsOf_listed_ident rfl (fun ys hys => by
        obtain ⟨v, -, rfl⟩ := hys
        rfl) hi u hu
      simp [hcomma]
    have hnames : ((Tree.wordsOf (.leaf name :: .leaf colon :: concepts)).filter
        fun u => u.kind = .ident) = name :: [] := by
      rw [Tree.wordsOf_leaf (by rw [hn]; rfl), Tree.wordsOf_leaf (by rw [hc]; rfl)]
      simp [hn, hc, hnone]
    refine (ends_nameOf (by decide) (by decide) hnames _).bind ?_
    rintro _ rfl
    have hfound : Ends (fun found => found.length = (alignedConcepts ((Tree.node .alignItem
        (.leaf name :: .leaf colon :: concepts)).placed text)).length)
        (CompileError.Anticipated flaw) (resolveLeaves env line (((Tree.node .alignItem
          (.leaf name :: .leaf colon :: concepts)).placed text).nodes.filterMap
            fun m => m.identifiers.head?)) := by
      refine (fine_resolveLeaves _ _ _).of_ok fun found hfound => ?_
      rw [length_inSequence hfound, List.length_map, hlength]
    refine hfound.bind fun found hfound => ?_
    split
    · trivial
    · rename_i hne
      rw [hfound] at hne ⊢
      exact hflaw _ (head?_identifiers (by decide) (by decide) hnames) hne

/-- What merged selects have in them, by kind. -/
def MergePart : NodeKind → Tree Token → Prop
  | .selectStatement => fun n => ∃ body, n = .node .selectStatement body ∧ SelectBody body
  | .alignClause => AlignClause
  | _ => fun _ => False

theorem mergePart_of_mem {body align : List (Tree Token)}
    {parts : List (Token × List (Tree Token))} {semi : Token} (hb : SelectBody body)
    (hp : ∀ p ∈ parts, SelectBody p.2) (ha : AtMostOne AlignClause align) {n : Tree Token}
    (hn : n ∈ (Tree.node .multiSelectStatement
      (.node .selectStatement body :: (merged parts ++ (align ++ [.leaf semi])))).nodes) :
    MergePart n.kind n := by
  simp only [Tree.nodes_node, Tree.filter_isNode_node, List.filter_append, List.mem_cons,
    List.mem_append, Tree.filter_isNode_leaf, List.filter_nil, List.not_mem_nil, or_false] at hn
  rcases hn with rfl | hn | hn
  · exact ⟨body, rfl, hb⟩
  · obtain ⟨hmem, hnode⟩ := List.mem_filter.mp hn
    obtain ⟨p, hpmem, hmem⟩ := List.mem_flatMap.mp hmem
    rcases List.mem_cons.mp hmem with rfl | hmem
    · cases hnode
    · rw [List.mem_singleton.mp hmem]
      exact ⟨p.2, rfl, hp p hpmem⟩
  · cases of_mem_atMostOne ha hn with
    | intro ha hi => exact AlignClause.intro ha hi

theorem fine_alignment (h : ∀ n ∈ t.nodes, MergePart n.kind n)
    (hflaw : ∀ clause ∈ (t.placed text).nodes, clause.kind = .alignClause →
      ∀ item ∈ clause.nodes, ∀ name, item.identifiers.head? = some name →
        (alignedConcepts item).length ≠ count →
        flaw "align_item" line (misalignment name (alignedConcepts item).length count)) :
    Fine flaw (alignment env line count (t.placed text)) := by
  unfold alignment
  rw [Tree.child?_placed]
  cases hc : t.child? .alignClause with
  | none => trivial
  | some n =>
    obtain ⟨hmem, hk⟩ := Tree.child?_some hc
    have hclause := h n hmem
    rw [hk] at hclause
    cases hclause with
    | @intro a items ha hi =>
      have hplaced : (Tree.node .alignClause (.leaf a :: items)).placed text ∈
          (t.placed text).nodes := by
        rw [Tree.nodes_placed]
        exact List.mem_map_of_mem hmem
      have hall : ∀ x ∈ (((Tree.node .alignClause (.leaf a :: items)).placed text).nodes.map
          (alignItem env line count)), Fine flaw x := by
        intro x hx
        obtain ⟨m, hm, rfl⟩ := List.mem_map.mp hx
        have hitem := hflaw _ hplaced rfl m hm
        rw [Tree.nodes_placed] at hm
        obtain ⟨n, hn, rfl⟩ := List.mem_map.mp hm
        exact fine_alignItem (of_mem_listed hi hn) hitem
      exact ends_inSequence hall

theorem fine_multiSelect (hk : t.kind = .multiSelectStatement)
    (h : ∀ n ∈ t.nodes, MergePart n.kind n) (hs : t.Spelled) (hflaw : Admits flaw (t.placed text)) :
    Build.Fine flaw (multiSelect (t.placed text)) := by
  have hselects : Build.Ensures (fun _ => True) (selects (mergedSelects (t.placed text)))
      (fun parts _ => parts.length = (mergedSelects (t.placed text)).length ∧ True)
      (CompileError.Anticipated flaw) := by
    rw [selects_eq_mapM]
    apply Build.ensures_length_mapM
    intro m hm
    obtain ⟨hm, hkind⟩ := List.mem_filter.mp hm
    have hlimit : HugeLimit m → flaw "limit" (lineOf m) Decimal.ReadError.tooLarge.message :=
      fun hhuge => hflaw (.limit (.inr hm) (of_decide_eq_true hkind) hhuge)
    rw [Tree.nodes_placed] at hm
    obtain ⟨n, hn, rfl⟩ := List.mem_map.mp hm
    have hpart := h n hn
    rw [Tree.kind_placed, decide_eq_true_iff] at hkind
    rw [hkind] at hpart
    obtain ⟨body, rfl, hb⟩ := hpart
    exact fine_select (hasClauses_of_body hb rfl) (hs.node hn) hlimit
  have halign : ∀ parts : List Select,
      Build.Ensures (fun _ => parts.length = (mergedSelects (t.placed text)).length ∧ True)
        (Build.lift fun env => alignment env (lineOf (t.placed text)) parts.length (t.placed text))
        (fun _ _ => True) (CompileError.Anticipated flaw) := by
    refine fun parts => Build.ensures_lift fun env hparts => ?_
    rw [hparts.1]
    apply fine_alignment h
    intro clause hclause halign item hitem name hname hcount
    exact hflaw (.align ((Tree.kind_placed text t).trans hk) hclause halign hitem hname hcount)
  exact hselects.bind fun parts => (halign parts).bind fun _ =>
    Build.ensures_pure fun _ _ => trivial

end Merging

section Statements
variable {flaw : Flaw} {text : List Char} {env : Environment} {line : Nat}

theorem fine_persist_of_parts {node selected : Tree Leaf} {target table : Leaf}
    (hnames : node.identifiers = [target, table])
    (hselect : node.child? .selectStatement = some selected)
    (h : Build.Fine flaw (select selected)) : Build.Fine flaw (persist node) := by
  have hparts : Build.Ensures (fun _ => True) (Build.lift fun _ => do
      let target ← need "persist" (lineOf node) "missing datasource" node.identifiers[0]?
      let table ← need "persist" (lineOf node) "missing table" node.identifiers[1]?
      let selectNode ← need "persist" (lineOf node) "missing select" (node.child? .selectStatement)
      return (target, table, selectNode))
      (fun parts _ => parts.2.2 = selected) (CompileError.Anticipated flaw) := by
    apply Build.ensures_lift
    intro env _
    refine (ends_need (congrArg (·[0]?) hnames)).bind fun _ _ => ?_
    refine (ends_need (congrArg (·[1]?) hnames)).bind fun _ _ => ?_
    refine (ends_need hselect).bind ?_
    rintro _ rfl
    rfl
  refine hparts.bind ?_
  rintro ⟨target, table, node⟩ env rfl
  exact (h.bind fun _ => Build.ensures_pure fun _ _ => trivial) env trivial

theorem fine_persist {p target i table f semi : Token} {body : List (Tree Token)}
    (hp : p.kind = word .persist) (ht : target.kind = .ident) (hi : i.kind = word .into)
    (htable : table.kind = .ident) (hf : f.kind = word .fromWord) (hb : SelectBody body)
    (hsemi : semi.kind = punct .semicolon)
    (hs : (Tree.node .persistStatement [.leaf p, .leaf target, .leaf i, .leaf table, .leaf f,
      .node .selectStatement body, .leaf semi]).Spelled)
    (hflaw : Admits flaw ((Tree.node .persistStatement [.leaf p, .leaf target, .leaf i,
      .leaf table, .leaf f, .node .selectStatement body, .leaf semi]).placed text)) :
    Build.Fine flaw (persist ((Tree.node .persistStatement [.leaf p, .leaf target, .leaf i,
      .leaf table, .leaf f, .node .selectStatement body, .leaf semi]).placed text)) := by
  have hbody : (Tree.node .selectStatement body).Spelled := hs.child (by simp)
  apply fine_persist_of_parts
  · rw [Tree.identifiers_placed text _ (by decide) (by decide)]
    have hwords : ((Tree.wordsOf [.leaf p, .leaf target, .leaf i, .leaf table, .leaf f,
        .node .selectStatement body, .leaf semi]).filter fun u => u.kind = .ident) =
          [target, table] := by
      simp [Tree.wordsOf, hp, ht, hi, htable, hf, hsemi, TokenKind.isTrivia]
    rw [hwords]
    rfl
  · rw [Tree.child?_placed]
    rfl
  · refine fine_select (hasClauses_of_body hb rfl) hbody fun hhuge => ?_
    refine hflaw (.limit (.inr ?_) rfl hhuge)
    rw [Tree.nodes_placed]
    exact List.mem_map_of_mem (by simp)

theorem fine_columnsOf (raw : Option String) (columns : List (Tree Leaf)) :
    Fine flaw (columnsOf env line raw columns) := by
  induction columns generalizing raw with
  | nil => trivial
  | cons c columns ih =>
    cases c with
    | node kind children =>
      rw [columnsOf]
      split
      · exact ih _
      · exact ih _
    | leaf leaf =>
      rw [columnsOf]
      split
      · refine (fine_resolveNow _ _ _).bind fun _ _ => ?_
        exact (ih none).bind fun _ _ => trivial
      · exact ih _

/-- What a datasource has in it, by kind. -/
def SourcePart : NodeKind → Tree Token → Prop
  | .columnList | .grainClause => fun _ => True
  | .addressClause => fun n => ∃ a t, n = .node .addressClause [.leaf a, .leaf t] ∧
      a.kind = word .address ∧ t.kind = .ident
  | .queryClause => fun n => ∃ q t, n = .node .queryClause [.leaf q, .leaf t] ∧
      q.kind = word .query ∧ t.kind = .string
  | _ => fun _ => False

theorem sourcePart_of_source {n : Tree Token} (h : Source n) : SourcePart n.kind n := by
  cases h with
  | table ha ht => exact ⟨_, _, rfl, ha, ht⟩
  | query hq ht => exact ⟨_, _, rfl, hq, ht⟩

theorem fine_sourceAddress {t source : Tree Token} (h : ∀ n ∈ t.nodes, SourcePart n.kind n)
    (hmem : source ∈ t.nodes) (hsource : Source source) :
    Fine flaw (sourceAddress (t.placed text) line) := by
  unfold sourceAddress
  rw [Tree.child?_placed, Tree.child?_placed]
  cases ha : t.child? .addressClause with
  | some n =>
    obtain ⟨hn, hk⟩ := Tree.child?_some ha
    have hpart := h n hn
    rw [hk] at hpart
    obtain ⟨a, u, rfl, ha, hu⟩ := hpart
    have hname : ((Tree.node .addressClause [.leaf a, .leaf u]).placed text).identifiers.head? =
        some (Leaf.ofToken text .addressClause u) := by
      rw [Tree.identifiers_placed text _ (by decide) (by decide)]
      simp [Tree.wordsOf, ha, hu, TokenKind.isTrivia]
    exact (ends_need hname).bind fun _ _ => trivial
  | none =>
    cases hq : t.child? .queryClause with
    | some n =>
      obtain ⟨hn, hk⟩ := Tree.child?_some hq
      have hpart := h n hn
      rw [hk] at hpart
      obtain ⟨q, u, rfl, hq, hu⟩ := hpart
      have hfind : ((Tree.node .queryClause [.leaf q, .leaf u]).placed text).ownLeaves.find?
          (fun l => l.kind = .string) = some (Leaf.ofToken text .queryClause u) := by
        rw [Tree.ownLeaves_placed, Tree.words_node, Tree.wordsOf_leaf (by rw [hq]; rfl),
          Tree.wordsOf_leaf (by rw [hu]; rfl)]
        simp [Leaf.ofToken, Leaf.kindOf, hq, hu, Tree.kind]
      exact (ends_need hfind).bind fun _ _ => trivial
    | none =>
      -- the source itself would have been found under its kind
      exfalso
      obtain ⟨v, hv⟩ := Tree.child?_isSome hmem
      cases hsource with
      | table => simp [Tree.kind, ha] at hv
      | query => simp [Tree.kind, hq] at hv

theorem fine_datasourceOf {t source : Tree Token} {name : Token} {us : List Token}
    (hk : t.kind = .datasource) (hwords : (t.words.filter fun u => u.kind = .ident) = name :: us)
    (h : ∀ n ∈ t.nodes, SourcePart n.kind n) (hmem : source ∈ t.nodes) (hsource : Source source) :
    Fine flaw (datasourceOf env (t.placed text)) := by
  have hname : Fine flaw (nameOf (t.placed text) "datasource") := by
    cases t with
    | leaf u => cases hwords
    | node k cs =>
      obtain rfl : k = .datasource := hk
      exact (ends_nameOf (by decide) (by decide) hwords _).weaken (fun _ _ => trivial)
        (fun _ h => h)
  refine hname.bind fun leaf _ => ?_
  have haddress : Fine flaw (sourceAddress (t.placed text) (lineOf (t.placed text))) :=
    fine_sourceAddress h hmem hsource
  have hnone : ∀ α : Type, Fine flaw (pure [] : Except CompileError (List α)) := fun _ => trivial
  dsimp only
  -- a column list or a grain that is missing is an empty one
  split
  · refine (fine_columnsOf _ _).bind fun columns _ => ?_
    split
    · exact (fine_resolveLeaves _ _ _).bind fun grain _ => haddress.bind fun _ _ => trivial
    · exact (hnone String).bind fun grain _ => haddress.bind fun _ _ => trivial
  · refine (hnone ColumnBinding).bind fun columns _ => ?_
    split
    · exact (fine_resolveLeaves _ _ _).bind fun grain _ => haddress.bind fun _ _ => trivial
    · exact (hnone String).bind fun grain _ => haddress.bind fun _ _ => trivial

theorem fine_datasource {t source : Tree Token} {name : Token} {us : List Token}
    (hk : t.kind = .datasource) (hwords : (t.words.filter fun u => u.kind = .ident) = name :: us)
    (h : ∀ n ∈ t.nodes, SourcePart n.kind n) (hmem : source ∈ t.nodes) (hsource : Source source) :
    Build.Fine flaw (datasource (t.placed text)) := by
  refine (Build.ensures_lift fun env _ =>
    fine_datasourceOf hk hwords h hmem hsource).bind fun d => ?_
  exact (fine_addDatasource d _).bind fun _ => Build.ensures_pure fun _ _ => trivial

end Statements
end Compile
end ConceptQuery
