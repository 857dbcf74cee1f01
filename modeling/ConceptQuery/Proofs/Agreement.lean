import ConceptQuery.Proofs.References
import ConceptQuery.Proofs.Rounds

/-! # The editor names what the compiler found

In a document that compiles every reference is found in the end, whatever pass it
was compiled in. So the editor and the compiler agree on every reference without
dots, and on a dotted one under a condition that `Compilation.reference_agrees`
states.
-/
namespace ConceptQuery

namespace Compile
open Environment Grammar Build
variable {env env' : Environment} {text : List Char} {line : Nat} {t : Tree Token}

section Queries

/-- Merged selects have their align clause in its place. -/
theorem mem_align {body align : List (Tree Token)} {parts : List (Token × List (Tree Token))}
    {semi : Token} {n : Tree Token}
    (hn : n ∈ (Tree.node .multiSelectStatement
      (.node .selectStatement body :: (merged parts ++ (align ++ [.leaf semi])))).nodes)
    (hk : n.kind = .alignClause) : n ∈ align := by
  simp only [Tree.nodes_node, Tree.filter_isNode_node, List.filter_append, List.mem_cons,
    List.mem_append, Tree.filter_isNode_leaf, List.filter_nil, List.not_mem_nil, or_false] at hn
  rcases hn with rfl | hn | hn
  · cases hk
  · obtain ⟨hmem, hnode⟩ := List.mem_filter.mp hn
    obtain ⟨p, -, hmem⟩ := List.mem_flatMap.mp hmem
    rcases List.mem_cons.mp hmem with rfl | hmem
    · cases hnode
    · rw [List.mem_singleton.mp hmem] at hk
      cases hk
  · exact (List.mem_filter.mp hn).1

theorem settles_multiSelect (importer : Importer) (hk : t.kind = .multiSelectStatement)
    (hparts : ∀ n ∈ t.nodes, MergePart n.kind n)
    (halone : ∀ n ∈ t.nodes, n.kind = .alignClause → t.child? .alignClause = some n)
    {s : Statement} (hgives : Gives (multiSelect (t.placed text)) env s env') :
    env'.Settles (t.placed text) := by
  obtain ⟨parts, between, hselects, hrest⟩ := gives_bind.mp hgives
  obtain ⟨align, _, hlift, hpure⟩ := gives_bind.mp hrest
  obtain ⟨halign, rfl⟩ := gives_lift.mp hlift
  obtain ⟨-, rfl⟩ := gives_pure.mp hpure
  have hall : ∀ n ∈ (t.placed text).nodes.filter (fun n => n.kind = .selectStatement),
      between.Settles n := by
    rw [selects_eq_mapM] at hselects
    have hbrings : ∀ {n env s env'}, Gives (select n) env s env' →
        Brings importer env env' s.mentions := brings_select
    refine settles_mapM hbrings (fun n hn _ _ _ hselect => ?_) hselects
    obtain ⟨hn, hkind⟩ := List.mem_filter.mp hn
    rw [Tree.nodes_placed] at hn
    obtain ⟨m, hm, rfl⟩ := List.mem_map.mp hn
    have hpart := hparts m hm
    rw [Tree.kind_placed, decide_eq_true_iff] at hkind
    rw [hkind] at hpart
    obtain ⟨body, rfl, hb⟩ := hpart
    exact settles_select importer hb rfl rfl hselect
  apply settles_of_nodes (by rw [hk]; rfl)
  intro n hn
  have hpart := hparts n hn
  cases hkn : n.kind with
  | selectStatement =>
    apply hall
    rw [Tree.nodes_placed]
    exact List.mem_filter.mpr ⟨List.mem_map_of_mem hn, by simp [Tree.kind_placed, hkn]⟩
  | alignClause =>
    rw [hkn] at hpart
    exact (settles_alignment hpart (halone n hn hkn)).of_eq_ok halign
  | _ =>
    rw [hkn] at hpart
    exact hpart.elim

/-- A persisted select is compiled as it stands. -/
theorem gives_persist {node selected : Tree Leaf} {s : Statement}
    (hchild : node.child? .selectStatement = some selected)
    (hgives : Gives (persist node) env s env') : ∃ found, Gives (select selected) env found env' := by
  obtain ⟨parts, _, hlift, hrest⟩ := gives_bind.mp hgives
  obtain ⟨hneed, rfl⟩ := gives_lift.mp hlift
  obtain ⟨found, between, hselect, hpure⟩ := gives_bind.mp hrest
  obtain ⟨-, rfl⟩ := gives_pure.mp hpure
  have hselected : parts.2.2 = selected := by
    refine @Ends.of_eq_ok _ (Leaf × Leaf × Tree Leaf) (fun parts => parts.2.2 = selected)
      (fun _ => True) _ parts ?_ hneed
    refine (ends_trivial _).bind fun _ _ => (ends_trivial _).bind fun _ _ => ?_
    refine (ends_need hchild).bind ?_
    rintro _ rfl
    rfl
  exact ⟨found, hselected ▸ hselect⟩

/-- Every reference in a query that compiles is found. -/
theorem settles_query (importer : Importer) (h : Sentence t) {s : Statement}
    (hgives : Gives (query (t.placed text)) env s env') : env'.Settles (t.placed text) := by
  unfold query at hgives
  rw [Tree.kind_placed] at hgives
  cases h with
  | @select body semi hb hsemi =>
    obtain ⟨found, hselect, -⟩ := gives_map.mp hgives
    exact settles_select importer hb rfl (by simp) hselect
  | merge hb hne hm hp ha hsemi =>
    refine settles_multiSelect importer rfl (fun n hn => mergePart_of_mem hb hp ha hn)
      (fun n hn hk => ?_) hgives
    rw [← hk]
    refine child?_of_unique hn fun m hm hkm => ?_
    exact eq_of_mem_atMostOne ha (mem_align hm (hkm.trans hk)) (mem_align hn hk)
  | @persist p target i table f body semi hp ht hi htable hf hb hsemi =>
    have hchild : ((Tree.node .persistStatement [.leaf p, .leaf target, .leaf i, .leaf table,
        .leaf f, .node .selectStatement body, .leaf semi]).placed text).child? .selectStatement =
          some ((Tree.node .selectStatement body).placed text) := by
      rw [Tree.child?_placed]
      rfl
    obtain ⟨found, hselect⟩ := gives_persist hchild hgives
    exact settles_around rfl rfl (settles_select importer hb rfl rfl hselect)
  | _ => exact absurd hgives not_gives_throw

end Queries

section Sources

theorem finds_columnsOf (raw : Option String) (columns : List (Tree Leaf)) :
    Yields (fun _ => ∀ leaf, .leaf leaf ∈ columns → leaf.isIdentifier = true → env.Finds leaf.text)
      (columnsOf env line raw columns) := by
  induction columns generalizing raw with
  | nil => simp [columnsOf, Ends]
  | cons c columns ih =>
    cases c with
    | node kind children =>
      have hrest : ∀ raw, Yields (fun _ => ∀ leaf, .leaf leaf ∈ Tree.node kind children :: columns →
          leaf.isIdentifier = true → env.Finds leaf.text) (columnsOf env line raw columns) := by
        intro raw
        refine (ih raw).weaken (fun _ hall leaf hleaf => ?_) fun _ h => h
        exact hall leaf ((List.mem_cons.mp hleaf).resolve_left (by simp))
      rw [columnsOf]
      split
      · exact hrest _
      · exact hrest _
    | leaf name =>
      rw [columnsOf]
      split
      · refine (finds_resolveNow name.text).bind fun _ hfinds => ?_
        refine (ih none).bind fun _ hall leaf hleaf hid => ?_
        rcases List.mem_cons.mp hleaf with hleaf | hleaf
        · rw [Tree.leaf.inj hleaf]
          exact hfinds
        · exact hall leaf hleaf hid
      · rename_i hname
        refine (ih raw).weaken (fun _ hall leaf hleaf hid => ?_) fun _ h => h
        refine hall leaf ((List.mem_cons.mp hleaf).resolve_left fun heq => ?_) hid
        rw [Tree.leaf.inj heq] at hid
        exact hname hid

theorem settles_columnsOf {n : Tree Token} (hn : ColumnList n) :
    Yields (fun _ => env.Settles (n.placed text))
      (columnsOf env line none (n.placed text).children) := by
  cases hn with
  | @intro columns comma hi hc =>
    have haliases : ∀ n ∈ columns.filter Tree.isNode, env.Settles (n.placed text) := by
      refine forall_nodes_listed (fun ys hys n hn => ?_) hi
      cases hys with
      | plain ht => cases hn
      | named hr hc ht =>
        rw [List.mem_singleton.mp hn]
        exact settles_of_nodes rfl (by simp)
    refine (finds_columnsOf none _).weaken (fun _ hfinds => ?_) fun _ h => h
    apply settles_of_parts
    · intro _ leaf hleaf
      obtain ⟨hleaf, hid⟩ := List.mem_filter.mp hleaf
      obtain ⟨c, hc, hleaf⟩ := List.mem_filterMap.mp hleaf
      cases c with
      | leaf found =>
        rw [← Option.some.inj hleaf] at hid ⊢
        exact hfinds found hc hid
      | node kind children => cases hleaf
    · rw [Tree.nodes_placed, Tree.nodes_node, List.filter_append, filter_isNode_maybe hc,
        List.append_nil]
      intro m hm
      obtain ⟨n, hn, rfl⟩ := List.mem_map.mp hm
      exact haliases n hn

theorem settles_grain {n : Tree Token} (hn : GrainClause n) :
    Yields (fun _ => env.Settles (n.placed text))
      (resolveLeaves env line (n.placed text).identifiers) := by
  cases hn with
  | @intro g l concepts r hg hl hi hr =>
    have hnone : ∀ n ∈ concepts.filter Tree.isNode, False := by
      refine forall_nodes_listed (fun ys hys n hn => ?_) hi
      obtain ⟨u, -, rfl⟩ := hys
      cases hn
    have hnodes : (.leaf g :: enclosed l concepts r).filter Tree.isNode = [] := by
      rw [Tree.filter_isNode_leaf, filter_isNode_enclosed]
      exact List.eq_nil_iff_forall_not_mem.mpr hnone
    exact (finds_resolveLeaves _).weaken (fun _ hfinds => settles_names hnodes hfinds) fun _ h => h

theorem settles_datasourceOf {columns source : Tree Token} {grain : List (Tree Token)}
    (hk : t.kind = .datasource) (hnodes : t.nodes = columns :: (grain.filter Tree.isNode ++ [source]))
    (hc : ColumnList columns) (hg : AtMostOne GrainClause grain) (hsource : Source source) :
    Yields (fun _ => env.Settles (t.placed text)) (datasourceOf env (t.placed text)) := by
  have hcolumns : t.child? .columnList = some columns := by
    rw [Tree.child?, hnodes]
    cases hc
    rfl
  have hlast : env.Settles (source.placed text) := by
    cases hsource <;> exact settles_of_nodes rfl (by simp)
  refine (ends_trivial _).bind fun name _ => ?_
  dsimp only
  rw [Tree.child?_placed, hcolumns, Option.map_some]
  refine (settles_columnsOf hc).bind fun _ hfirst => ?_
  have hwhole : (∀ n ∈ grain.filter Tree.isNode, env.Settles (n.placed text)) →
      env.Settles (t.placed text) := by
    intro hgrain
    apply settles_of_nodes (by rw [hk]; rfl)
    rw [hnodes]
    refine List.forall_mem_cons.mpr ⟨hfirst, fun n hn => ?_⟩
    rcases List.mem_append.mp hn with hn | hn
    · exact hgrain n hn
    · rw [List.mem_singleton.mp hn]
      exact hlast
  rw [Tree.child?_placed]
  rcases hg with rfl | ⟨g, rfl, hg⟩
  · exact ends_of_ok fun _ _ => hwhole (by simp)
  · have hgrain : t.child? .grainClause = some g := by
      rw [Tree.child?, hnodes]
      cases hc
      cases hg
      rfl
    rw [hgrain, Option.map_some]
    refine (settles_grain hg).bind fun _ hsettles => ?_
    refine (ends_trivial _).bind fun _ _ => hwhole fun n hn => ?_
    rw [List.mem_singleton.mp (List.mem_filter.mp hn).1]
    exact hsettles

/-- Every reference in a datasource that compiles is found. -/
theorem settles_datasource (importer : Importer) (h : Sentence t) (hk : t.kind = .datasource)
    {s : Statement} (hgives : Gives (datasource (t.placed text)) env s env') :
    env'.Settles (t.placed text) := by
  have hsettles : Yields (fun _ => env.Settles (t.placed text))
      (datasourceOf env (t.placed text)) := by
    cases h with
    | datasource hroot hd hname hl hc hr hg hsource hsemi =>
      exact settles_datasourceOf rfl (nodes_datasource hroot hc hsource) hc hg hsource
    | _ => cases hk
  obtain ⟨steps, -⟩ : Brings importer env env' s.mentions := brings_datasource hgives
  obtain ⟨d, _, hlift, -⟩ := gives_bind.mp hgives
  exact steps.settles (hsettles.of_eq_ok (gives_lift.mp hlift).1)

end Sources

section Concepts
variable {lines : List (List Char)}

/-- A declaration with a type refers to nothing. -/
theorem settles_declared {kind : NodeKind} (hk : kind.refers = false) {k name type semi : Token}
    {nullable : List (Tree Token)} (hn : Maybe (punct .question) nullable) :
    env.Settles ((Tree.node kind (declared k name type nullable semi)).placed text) := by
  have hnodes : (declared k name type nullable semi).filter Tree.isNode =
      [.node .datatype [.leaf type]] := by
    simp [declared, filter_isNode_maybe hn]
  exact settles_around hk hnodes (settles_of_nodes rfl (by simp))

/-- Every reference in a concept that compiles is found. -/
theorem settles_derivedConcept (h : Sentence t) (hk : t.kind ∈ conceptKinds) :
    Yields (fun _ => env.Settles (t.placed text)) (derivedConcept lines env (t.placed text)) := by
  cases h with
  | @property k name type nullable semi hk hname hdot htype hn hsemi =>
    exact ends_of_ok fun _ _ => settles_declared rfl hn
  | @derivation k name arrow a semi hk hname harrow ha hsemi =>
    have hnodes : [.leaf k, .leaf name, .leaf arrow, a, .leaf semi].filter Tree.isNode = [a] := by
      simp [filter_isNode_phrase ha]
    have hhead : ((Tree.node .conceptDerivation
        [.leaf k, .leaf name, .leaf arrow, a, .leaf semi]).placed text).nodes.head? =
          some (a.placed text) := by
      rw [Tree.nodes_placed, Tree.nodes_node, hnodes]
      rfl
    refine (ends_trivial _).bind fun purpose _ => (ends_trivial _).bind fun leaf _ => ?_
    have hlineage : Yields (fun _ => env.Settles (a.placed text)) (lineageConcept env
        ((Tree.node .conceptDerivation
          [.leaf k, .leaf name, .leaf arrow, a, .leaf semi]).placed text) purpose leaf) := by
      refine (Ends.orFail (ends_need hhead)).bind ?_
      rintro _ rfl
      exact (settled_phrase ha).bind fun _ hsettles => hsettles
    simp only [Tree.kind]
    exact hlineage.bind fun _ hsettles => settles_around rfl hnodes hsettles
  | _ => simp [conceptKinds, Tree.kind] at hk

theorem settles_tryConcept (importer : Importer) (h : Sentence t) (hk : t.kind ∈ conceptKinds)
    {s : Statement} (hgives : Gives (tryConcept lines (t.placed text)) env (.ok s) env') :
    env'.Settles (t.placed text) := by
  have hbrings : Brings importer env env' (attempted (.ok s)) := brings_tryConcept hgives
  obtain ⟨_, _, hget, hrest⟩ := gives_bind.mp hgives
  obtain ⟨rfl, rfl⟩ := gives_get.mp hget
  cases hc : derivedConcept lines env (t.placed text) with
  | ok c => exact hbrings.steps.settles ((settles_derivedConcept h hk).of_eq_ok hc)
  | error b =>
    simp only [hc] at hrest
    cases b with
    | unresolved name line => cases (gives_pure.mp hrest).1
    | failed e => exact absurd hrest not_gives_throw

end Concepts

section Passes
variable {importer : Importer} {lines : List (List Char)}

/-- The statement is compiled and its references are found, or it waits as it is. -/
def Slot.Settles (env : Environment) (node : Tree Leaf) : Slot → Prop
  | .ready _ => env.Settles node
  | .pending m => m = node

theorem settles_firstPass (h : Sentence t) {slot : Slot}
    (hgives : Gives (firstPass importer lines (t.placed text)) env slot env') :
    slot.Settles env' (t.placed text) := by
  have hwaits : t.kind ∈ conceptKinds → slot.Settles env' (t.placed text) := by
    intro hk
    rw [firstPass_of_concept ((isConceptNode_placed t).mpr hk)] at hgives
    obtain ⟨result, htry, rfl⟩ := gives_map.mp hgives
    cases result with
    | ok s => exact settles_tryConcept importer h hk htry
    | error name => rfl
  have hleft : Gives (pure (Slot.pending (t.placed text))) env slot env' →
      slot.Settles env' (t.placed text) := by
    intro hgives
    obtain ⟨rfl, rfl⟩ := gives_pure.mp hgives
    rfl
  unfold firstPass at hgives
  rw [Tree.kind_placed] at hgives
  cases h with
  | declaration hk hconst hname hdot htype hn hsemi =>
    obtain ⟨c, _, hlift, hrest⟩ := gives_bind.mp hgives
    obtain ⟨_, between, hregister, hpure⟩ := gives_bind.mp hrest
    obtain ⟨rfl, rfl⟩ := gives_pure.mp hpure
    exact settles_declared rfl hn
  | property hk hname hdot htype hn hsemi => exact hwaits (by simp [Tree.kind, conceptKinds])
  | derivation hk hname harrow ha hsemi => exact hwaits (by simp [Tree.kind, conceptKinds])
  | datasource hroot hd hname hl hc hr hg hsource hsemi => exact hleft hgives
  | importing hi hpath has hsemi =>
    obtain ⟨s, between, himport, hpure⟩ := gives_bind.mp hgives
    obtain ⟨rfl, rfl⟩ := gives_pure.mp hpure
    refine settles_of_nodes rfl ?_
    rcases has with rfl | ⟨a, name, -, -, rfl⟩
    · simp
    · simp
  | select hb hsemi => exact hleft hgives
  | merge hb hne hm hp ha hsemi => exact hleft hgives
  | persist hp ht hi htable hf hb hsemi => exact hleft hgives
  | rawSql hw hl hu hr hsemi =>
    obtain ⟨s, _, hlift, hpure⟩ := gives_bind.mp hgives
    obtain ⟨rfl, rfl⟩ := gives_pure.mp hpure
    exact settles_of_nodes rfl (by simp)

/-- The references of a statement are found from the moment it is compiled. -/
theorem kept_settles {start : Environment} : Kept importer lines start fun node slot env =>
    ∀ t : Tree Token, node = t.placed text → Sentence t → slot.Settles env node where
  step {node slot env env'} hstep hslot := by
    intro t ht h
    cases slot with
    | ready s => exact Steps.settles (.single hstep) (hslot t ht h)
    | pending m => exact hslot t ht h
  first _ hgives := by
    rintro t rfl h
    exact settles_firstPass h hgives
  concept {node m s env env'} _ hm hslot hgives := by
    rintro t rfl h
    obtain rfl : m = t.placed text := hslot t rfl h
    exact settles_tryConcept importer h ((isConceptNode_placed t).mp hm) hgives
  datasource {node m s env env'} _ hm hslot hgives := by
    rintro t rfl h
    obtain rfl : m = t.placed text := hslot t rfl h
    rw [Tree.kind_placed] at hm
    exact settles_datasource importer h hm hgives
  query {node m s env env'} _ hslot hgives := by
    rintro t rfl h
    obtain rfl : m = t.placed text := hslot t rfl h
    exact settles_query importer h hgives

end Passes
end Compile

open Compile

theorem Leaf.ident_of_kindOf {parent : NodeKind} {kind : TokenKind}
    (h : kindOf parent kind = .identifier) : kind = .ident := by
  cases kind with
  | ident => rfl
  | punctuation p =>
    rw [kindOf] at h
    split at h <;> cases h
  | _ => cases h

namespace Tree
variable {text : List Char} {p : NodeKind × Leaf}

mutual
/-- A name in a tree comes from an identifier of the text. -/
theorem exists_ident_of_namings {t : Tree Token} (h : p ∈ (t.placed text).namings) :
    ∃ u ∈ t.leaves, u.kind = .ident ∧ p.2.text = u.text := by
  match t with
  | .leaf u => cases h
  | .node kind children => exact exists_ident_of_namingsOf h

theorem exists_ident_of_namingsOf {parent : NodeKind} {ts : List (Tree Token)}
    (h : p ∈ namingsOf parent (placedAll text parent ts)) :
    ∃ u ∈ leavesOf ts, u.kind = .ident ∧ p.2.text = u.text := by
  match ts with
  | [] => cases h
  | .leaf u :: rest =>
    have hrest : p ∈ namingsOf parent (placedAll text parent rest) →
        ∃ v ∈ leavesOf (.leaf u :: rest), v.kind = .ident ∧ p.2.text = v.text := by
      intro h
      obtain ⟨v, hv, hfacts⟩ := exists_ident_of_namingsOf h
      exact ⟨v, List.mem_append_right _ hv, hfacts⟩
    rw [placedAll] at h
    split at h
    · exact hrest h
    · rw [namingsOf] at h
      split at h
      · rename_i hname
        rcases List.mem_cons.mp h with rfl | h
        · refine ⟨u, List.mem_append_left _ (by simp [leaves]), ?_, rfl⟩
          rw [Bool.and_eq_true, Leaf.isIdentifier, decide_eq_true_iff] at hname
          exact Leaf.ident_of_kindOf hname.1
        · exact hrest h
      · exact hrest h
  | .node kind children :: rest =>
    rw [placedAll, placed, namingsOf] at h
    rcases List.mem_append.mp h with h | h
    · obtain ⟨v, hv, hfacts⟩ := exists_ident_of_namingsOf h
      exact ⟨v, List.mem_append_left _ hv, hfacts⟩
    · obtain ⟨v, hv, hfacts⟩ := exists_ident_of_namingsOf h
      exact ⟨v, List.mem_append_right _ hv, hfacts⟩
end

/-- So it has a letter at least. -/
theorem text_ne_of_namings {t : Tree Token} (hs : t.Spelled) (h : p ∈ (t.placed text).namings) :
    p.2.text ≠ "" := by
  obtain ⟨u, hu, hk, htext⟩ := exists_ident_of_namings h
  have hspells := hs u hu
  rw [hk] at hspells
  obtain ⟨c, tail, hname, -⟩ := hspells
  intro hempty
  rw [← htext, hempty] at hname
  cases hname

end Tree

/-- The editor and the compiler agree on a name without dots that is found. -/
theorem Environment.Tidy.resolve?_agrees_of_finds {env : Environment} {name : String} (h : env.Tidy)
    (hlocal : env.space = localSpace) (hname : Dotted.isDotted name = false) (hne : name ≠ "")
    (hfinds : env.Finds name) :
    ∃ m, env.metadata.resolve? (Dotted.qualify localSpace name) = some m ∧
      env.resolve? name = some m.address := by
  have hnot : ¬ env.Knows name := by
    intro hknown
    rw [h.isDotted hknown] at hname
    cases hname
  have hown : env.Knows (Dotted.qualify env.space name) := (hfinds hname).resolve_left hnot
  have hresolve := resolve?_of_knows_own hnot hown
  rw [hlocal] at hown hresolve
  obtain ⟨m, hm, haddress⟩ := h.get?_metadata_of_shows (h.shows_own hname hne hown)
  refine ⟨m, ?_, by rw [hresolve, haddress]⟩
  rw [MetadataMap.resolve?, hm]

namespace Compilation
open Environment
variable {importer : Importer} {text : String} {tree : Tree Leaf}

theorem kind_of_parse (h : parse text = .ok tree) : tree.kind = .sourceFile := by
  simp only [parse] at h
  split at h
  · rw [← Except.ok.inj h]
    rfl
  · cases h

/-- The names that stand for concepts are those in the sentences of the text. -/
theorem exists_sentence_of_namings (h : parse text = .ok tree) {p : NodeKind × Leaf}
    (hp : p ∈ tree.namings) : ∃ t : Tree Token, t.placed text.toList ∈ tree.nodes ∧
      Grammar.Sentence t ∧ t.Spelled ∧ p ∈ (t.placed text.toList).namings := by
  have hkind := kind_of_parse h
  obtain ⟨sentences, hnodes, hsentences⟩ := sentences_of_parse h
  cases tree with
  | leaf leaf => cases hp
  | node kind children =>
    obtain rfl : kind = .sourceFile := hkind
    rcases mem_namingsOf hp with ⟨-, hnames, -⟩ | ⟨n, hn, hp⟩
    · cases hnames
    · have hmem := hn
      rw [hnodes] at hmem
      obtain ⟨t, ht, rfl⟩ := List.mem_map.mp hmem
      exact ⟨t, hn, (hsentences t ht).1, (hsentences t ht).2, hp⟩

/-- Every reference of a document that compiles is found in the end. -/
theorem settles_of_run {env : Environment} (hparse : parse text = .ok tree)
    (h : (Compilation.run importer env text tree).error = none) :
    (Compilation.run importer env text tree).env.Settles tree := by
  have hR : Kept importer (linesOf text) env fun node slot env => ∀ t : Tree Token,
      node = t.placed text.toList → Grammar.Sentence t → slot.Settles env node := kept_settles
  obtain ⟨-, hkept⟩ := Compilation.kept_of_run hR h
  intro p hp
  obtain ⟨t, ht, hsentence, -, hmem⟩ := exists_sentence_of_namings hparse hp
  obtain ⟨i, hi, hnode⟩ := List.mem_iff_getElem.mp ht
  have hready := List.Forall₂.get hkept hi (by rw [← hkept.length_eq]; exact hi)
  exact hready t hnode hsentence p (by rw [List.get_eq_getElem, hnode]; exact hmem)

theorem tidy_of_run (h : (Compilation.run importer .initial text tree).error = none) :
    (Compilation.run importer .initial text tree).env.Tidy ∧
      (Compilation.run importer .initial text tree).env.space = localSpace := by
  obtain ⟨hsteps, -⟩ := Compilation.kept_of_run kept_trivial h
  exact ⟨Steps.tidy hsteps tidy_initial, Steps.space_eq hsteps⟩

theorem metadata_of_run {env : Environment}
    (h : (Compilation.run importer env text tree).error = none) :
    (Compilation.run importer env text tree).metadata =
      (Compilation.run importer env text tree).env.metadata := by
  obtain ⟨_, _, _, _, -, -, hrun⟩ := Compilation.passes_of_run h
  rw [hrun]

/-- The editor finds metadata for a location, under the address that the compiler
finds for the name there. -/
def Agrees (c : Compilation) (location : Location) (name : String) : Prop :=
  ∃ m, c.metadata.resolve? location.address = some m ∧ c.env.resolve? name = some m.address

/-- Locations are recorded of the names that stand for concepts. In a document that
compiles the editor and the compiler agree on every reference without dots. On a
dotted one they agree exactly if the compiler finds a concept that the editor shows,
under an address that the editor reads for its first segment and the rest. -/
theorem reference_agrees {load : Loader} {depth : Nat} {stack : List String}
    (hparse : parse text = .ok tree) {c : Compilation}
    (hrun : Compilation.run (compileModule load depth stack) .initial text tree = c)
    (hresolved : c.error = none) :
    Location.ofTree localSpace tree =
      tree.namings.map (fun p => Location.ofLeaf localSpace p.1 p.2) ∧
    ∀ p ∈ tree.namings, p.1.isDefinition = false →
      (Dotted.isDotted p.2.text = false →
        c.Agrees (.ofLeaf localSpace p.1 p.2) p.2.text) ∧
      (Dotted.isDotted p.2.text = true →
        ∃ first rest, Dotted.isDotted first = false ∧ p.2.text = Dotted.qualify first rest ∧
          (c.Agrees (.ofLeaf localSpace p.1 p.2) p.2.text ↔
            ∃ address, c.env.resolve? p.2.text = some address ∧ c.env.Shows address ∧
              c.env.Reads first rest address)) := by
  subst hrun
  refine ⟨Location.ofTree_eq localSpace tree, ?_⟩
  rintro ⟨kind, leaf⟩ hp hreference
  obtain ⟨htidy, hlocal⟩ := tidy_of_run hresolved
  have hfinds := settles_of_run hparse hresolved
  obtain ⟨t, -, -, hspelled, hmem⟩ := exists_sentence_of_namings hparse hp
  have hdefinition : kind.isDefinition = false := hreference
  rw [Agrees, metadata_of_run hresolved, Location.ofLeaf, hdefinition, Bool.false_or]
  constructor
  · intro hname
    rw [hname]
    exact htidy.resolve?_agrees_of_finds hlocal hname (Tree.text_ne_of_namings hspelled hmem)
      (hfinds _ hp hreference)
  · intro hname
    obtain ⟨first, rest, hfirst, htext⟩ := Dotted.exists_qualify hname
    refine ⟨first, rest, hfirst, htext, ?_⟩
    rw [hname, htext]
    exact htidy.resolve?_agrees_iff hlocal hfirst

/-- A module with a single key. -/
def oneKey : Library :=
  ⟨[("m", "key x int;")], fun _ => "missing"⟩

/-- A plain name and a property behind the name of its parent. -/
theorem reference_agrees_property :
    ∃ tree c, parse "import m as a;\nkey k int;\nproperty k.p string;\nselect k, k.p;" = .ok tree ∧
      Compilation.run (compileModule oneKey.load 1 []) .initial
        "import m as a;\nkey k int;\nproperty k.p string;\nselect k, k.p;" tree = c ∧
      c.error = none ∧ ∃ p q, p ∈ tree.namings ∧ q ∈ tree.namings ∧
        p.2.text = "k" ∧ c.Agrees (.ofLeaf localSpace p.1 p.2) "k" ∧
        q.2.text = "k.p" ∧ c.Agrees (.ofLeaf localSpace q.1 q.2) "k.p" := by
  have hcomputed : ∃ tree,
      parse "import m as a;\nkey k int;\nproperty k.p string;\nselect k, k.p;" = .ok tree ∧
      (fun c : Compilation => some (c.error,
          (tree.namings.filter fun p => !p.1.isDefinition).map fun p => p.2.text,
          c.env.resolve? "k.p", decide (c.env.Shows "local.p"),
          decide (c.env.Reads "k" "p" "local.p")))
        (Compilation.run (compileModule oneKey.load 1 []) .initial
          "import m as a;\nkey k int;\nproperty k.p string;\nselect k, k.p;" tree) =
        some (none, ["k", "k.p"], some "local.p", true, true) := by
    apply exists_tree
    decide +kernel
  obtain ⟨tree, hparse, hcomputed⟩ := hcomputed
  simp only [Option.some.injEq, Prod.mk.injEq, decide_eq_true_iff] at hcomputed
  obtain ⟨hresolved, hnames, hresolve, hshows, hreads⟩ := hcomputed
  obtain ⟨-, hagrees⟩ := reference_agrees hparse rfl hresolved
  have hname : ∀ name ∈ ["k", "k.p"],
      ∃ p ∈ tree.namings, p.1.isDefinition = false ∧ p.2.text = name := by
    intro name hname
    rw [← hnames] at hname
    obtain ⟨p, hp, htext⟩ := List.mem_map.mp hname
    obtain ⟨hp, hreference⟩ := List.mem_filter.mp hp
    exact ⟨p, hp, by simpa using hreference, htext⟩
  obtain ⟨p, hp, hreference, hk⟩ := hname "k" (by simp)
  obtain ⟨q, hq, hreference', hkp⟩ := hname "k.p" (by simp)
  have hplain := (hagrees p hp hreference).1
  obtain ⟨first, rest, hfirst, htext, hdotted⟩ := (hagrees q hq hreference').2 (by rw [hkp]; decide)
  rw [hk] at hplain
  rw [hkp] at htext hdotted
  have hsplit : Dotted.qualify first rest = Dotted.qualify "k" "p" := htext.symm
  refine ⟨tree, _, hparse, rfl, hresolved, p, q, hp, hq, hk, hplain (by decide), hkp, ?_⟩
  rcases Dotted.qualify_eq_qualify (by decide) hsplit with ⟨rfl, rfl⟩ | ⟨more, rfl⟩
  · exact hdotted.mpr ⟨_, hresolve, hshows, hreads⟩
  · rw [Dotted.isDotted_qualify] at hfirst
    cases hfirst

/-- A namespace with the name of a key hides the properties of the key from the editor,
but not from the compiler. -/
theorem reference_disagrees_hidden :
    ∃ tree c, parse "import m as a;\nkey a int;\nproperty a.b string;\nselect a.b;" = .ok tree ∧
      Compilation.run (compileModule oneKey.load 1 []) .initial
        "import m as a;\nkey a int;\nproperty a.b string;\nselect a.b;" tree = c ∧
      c.error = none ∧ ∃ p ∈ tree.namings, p.1.isDefinition = false ∧ p.2.text = "a.b" ∧
        c.env.resolve? "a.b" = some "local.b" ∧ ¬ c.Agrees (.ofLeaf localSpace p.1 p.2) "a.b" := by
  have hcomputed : ∃ tree,
      parse "import m as a;\nkey a int;\nproperty a.b string;\nselect a.b;" = .ok tree ∧
      (fun c : Compilation => some (c.error,
          (tree.namings.filter fun p => !p.1.isDefinition).map fun p =>
            (p.2.text, (c.metadata.resolve? (Location.ofLeaf localSpace p.1 p.2).address).isSome),
          c.env.resolve? "a.b"))
        (Compilation.run (compileModule oneKey.load 1 []) .initial
          "import m as a;\nkey a int;\nproperty a.b string;\nselect a.b;" tree) =
        some (none, [("a.b", false)], some "local.b") := by
    apply exists_tree
    decide +kernel
  obtain ⟨tree, hparse, hcomputed⟩ := hcomputed
  simp only [Option.some.injEq, Prod.mk.injEq] at hcomputed
  obtain ⟨hresolved, hnames, hresolve⟩ := hcomputed
  have hmem := List.mem_singleton_self ("a.b", false)
  rw [← hnames] at hmem
  obtain ⟨p, hp, hfound⟩ := List.mem_map.mp hmem
  obtain ⟨hp, hreference⟩ := List.mem_filter.mp hp
  obtain ⟨htext, hnone⟩ := Prod.mk.inj hfound
  refine ⟨tree, _, hparse, rfl, hresolved, p, hp, by simpa using hreference, htext, hresolve, ?_⟩
  rintro ⟨m, hm, -⟩
  rw [hm] at hnone
  cases hnone

end Compilation
end ConceptQuery
