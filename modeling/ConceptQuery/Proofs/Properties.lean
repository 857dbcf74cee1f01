import ConceptQuery.Proofs.Agreement
import ConceptQuery.Proofs.Origins

/-! # Properties behind the names of their parents

A property `parent.name` is filed under its short name in the namespace of the document
and has its parent for a key. The first declaration of a short name stays, and later ones
have to agree with it in type only; so the name behind the parent leads to the property if the
declaration that stayed has this parent, and if nothing else has the dotted name, which
is tried first. `Compilation.property_reachable` says so of every document that compiles.
-/
namespace ConceptQuery

namespace Dotted
variable {space other name rest parent : String}

/-- A plain name in a plain namespace is taken apart in one way. -/
theorem eq_of_qualify_eq (hspace : isDotted space = false) (hname : isDotted name = false)
    (h : qualify other rest = qualify space name) : other = space ∧ rest = name := by
  rcases qualify_eq_qualify hspace h with heq | ⟨more, rfl⟩
  · exact heq
  · -- the longer namespace would leave a dot for the name
    exfalso
    have hlist := congrArg String.toList h
    simp only [toList_qualify, List.append_assoc, List.cons_append, List.append_cancel_left_eq,
      List.cons.injEq, true_and] at hlist
    simp [isDotted, ← hlist] at hname

theorem reverse_segments_qualify (hname : isDotted name = false) :
    (segments (qualify parent name)).reverse = name :: (segments parent).reverse := by
  rw [segments_qualify, segments_of_undotted hname, List.reverse_append, List.reverse_singleton,
    List.singleton_append]

theorem splitLast?_qualify (hname : isDotted name = false) :
    splitLast? (qualify parent name) = some (parent, name) := by
  unfold splitLast?
  rw [reverse_segments_qualify hname]
  cases hparents : (segments parent).reverse with
  | nil => exact absurd (List.reverse_eq_nil_iff.mp hparents) (segments_ne_nil parent)
  | cons last parents =>
    dsimp only
    rw [← hparents, List.reverse_reverse, join_segments]

end Dotted

/-- A property of the document that is declared with its type. -/
structure Concept.IsProperty (c : Concept) (name : String) (datatype : DataType) : Prop where
  address : c.address = Dotted.qualify localSpace name
  purpose : c.purpose = .property
  datatype : c.datatype = datatype
  lineage : c.lineage = none

theorem Concept.IsProperty.of_agrees {c stored : Concept} {name : String} {datatype : DataType}
    (h : c.IsProperty name datatype) (hagrees : stored.agrees c = true)
    (haddress : stored.address = c.address) : stored.IsProperty name datatype := by
  simp only [agrees, Bool.and_eq_true, decide_eq_true_eq, h.lineage] at hagrees
  obtain ⟨⟨hpurpose, hdatatype⟩, hlineage⟩ := hagrees
  refine ⟨haddress.trans h.address, hpurpose.trans h.purpose, hdatatype.trans h.datatype, ?_⟩
  cases hl : stored.lineage with
  | none => rfl
  | some e =>
    rw [hl] at hlineage
    cases hlineage

namespace Environment
variable {importer : Compile.Importer} {env env' : Environment} {parent name key : String}

/-- The concept under this address lies in the namespace of the document. -/
def IsOwn (env : Environment) (address : String) : Prop :=
  ∃ c, env.concept? address = some c ∧ c.space = localSpace

/-- Something else has the name of the property behind that of its parent. -/
def Shadows (env : Environment) (parent name : String) : Prop :=
  parent ≠ localSpace ∧ (env.Knows (Dotted.qualify parent name) ∨
    env.Knows (Dotted.qualify localSpace (Dotted.qualify parent name)))

instance (env : Environment) (parent name : String) : Decidable (env.Shadows parent name) :=
  inferInstanceAs (Decidable (_ ≠ _ ∧ (_ ∈ env.concepts.keys ∨ _ ∈ env.concepts.keys)))

theorem Step.extends (h : Step importer env env') : env.Extends env' := by
  cases h with
  | concept hnew _ => exact extends_withConcept hnew
  | moved _ _ _ hnew => exact extends_withConcept hnew
  | datasource _ _ => exact fun _ _ => id
  | movedDatasource _ _ _ _ => exact fun _ _ => id
  | imported => exact fun _ _ => id

/-- Under the address of a concept that was added stands one that agrees with it. -/
theorem exists_of_addConcept {c : Concept} {line : Nat} (h : env.addConcept c line = .ok env') :
    ∃ stored, env'.concept? c.address = some stored ∧ (stored = c ∨ stored.agrees c = true) := by
  unfold addConcept at h
  split at h
  · rename_i existing hexisting
    split at h
    · rename_i hagrees
      obtain rfl := Except.ok.inj h
      exact ⟨existing, hexisting, .inr hagrees⟩
    · cases h
  · obtain rfl := Except.ok.inj h
    exact ⟨c, (concept?_withConcept (c := c)).trans (if_pos rfl), .inl rfl⟩

/-- If nothing has a dotted name, it is looked for behind its parent. -/
theorem resolve?_of_parent (hname : Dotted.isDotted name = false)
    (hraw : ¬ env.Knows (Dotted.qualify parent name))
    (hown : ¬ env.Knows (Dotted.qualify env.space (Dotted.qualify parent name))) :
    env.resolve? (Dotted.qualify parent name) =
      (env.resolve? parent).bind fun address => env.propertyOf? address name := by
  have hsegments : (Dotted.segments (Dotted.qualify parent name)).reverse =
      name :: (Dotted.segments parent).reverse := Dotted.reverse_segments_qualify hname
  have hjoin : Dotted.join (name :: (Dotted.segments parent).reverse).reverse =
      Dotted.qualify parent name := by
    rw [← hsegments, List.reverse_reverse, Dotted.join_segments]
  rw [resolve?, hsegments]
  exact resolveSegments?_of_parent (by rwa [hjoin]) (by rwa [hjoin])

theorem propertyOf?_of_isOwn {stored : Concept} (hown : env.IsOwn key)
    (hstored : env.concept? (Dotted.qualify localSpace name) = some stored)
    (hkey : key ∈ stored.keys.getD []) :
    env.propertyOf? key name = some (Dotted.qualify localSpace name) := by
  obtain ⟨c, hc, hspace⟩ := hown
  unfold propertyOf?
  simp only [hc, Option.map_some, Option.getD_some, hspace, hstored, Option.bind_some]
  cases hkeys : stored.keys with
  | none => simp [hkeys] at hkey
  | some keys =>
    have hcontains : keys.contains key = true := by simpa [hkeys] using hkey
    exact if_pos hcontains

/-- The name behind the parent leads to a property of the parent unless something else has it. -/
theorem resolve?_property_iff {stored : Concept} (hspace : env.space = localSpace)
    (hname : Dotted.isDotted name = false) (hparent : env.resolve? parent = some key)
    (hown : env.IsOwn key)
    (hstored : env.concept? (Dotted.qualify localSpace name) = some stored)
    (hkey : key ∈ stored.keys.getD []) :
    env.resolve? (Dotted.qualify parent name) = some (Dotted.qualify localSpace name) ↔
      ¬ env.Shadows parent name := by
  by_cases hlocal : parent = localSpace
  · have hfound := resolve?_of_knows (knows_of_concept? hstored)
    simp [Shadows, hlocal, hfound]
  have hne : Dotted.qualify parent name ≠ Dotted.qualify localSpace name := fun heq =>
    hlocal (Dotted.eq_of_qualify_eq (by decide) hname heq).1
  have hdotted : Dotted.qualify localSpace (Dotted.qualify parent name) ≠
      Dotted.qualify localSpace name := by
    intro heq
    rw [← qualify_inj.mp heq, Dotted.isDotted_qualify] at hname
    cases hname
  -- the order in which `resolve?` tries its readings
  by_cases hraw : env.Knows (Dotted.qualify parent name)
  · simp [Shadows, hlocal, hraw, resolve?_of_knows hraw, hne]
  by_cases hlonger : env.Knows (Dotted.qualify localSpace (Dotted.qualify parent name))
  · have hfound := resolve?_of_knows_own hraw (by rwa [hspace])
    rw [hspace] at hfound
    simp [Shadows, hlocal, hlonger, hfound, hdotted]
  · rw [resolve?_of_parent hname hraw (by rwa [hspace]), hparent, Option.bind_some,
      propertyOf?_of_isOwn hown hstored hkey]
    simp [Shadows, hraw, hlonger]

/-- A plain parent is a concept of the document. -/
theorem Tidy.isOwn_of_undotted (h : env.Tidy) (hparent : Dotted.isDotted parent = false)
    (hknown : env.Knows (Dotted.qualify localSpace parent)) :
    env.IsOwn (Dotted.qualify localSpace parent) := by
  cases hc : env.concept? (Dotted.qualify localSpace parent) with
  | none => exact absurd hknown (concept?_eq_none_iff.mp hc)
  | some c =>
    have haddress : Dotted.qualify c.space c.name = Dotted.qualify localSpace parent :=
      h.address_of_concept? hc
    exact ⟨c, hc, (Dotted.eq_of_qualify_eq (by decide) hparent haddress).1⟩

/-- A plain parent stands for the same concept at all times. -/
theorem Tidy.resolve?_of_earlier (h : env'.Tidy) (hlocal : env'.space = localSpace)
    (hsteps : Steps importer env env') (hparent : Dotted.isDotted parent = false)
    (hresolve : env.resolve? parent = some key) :
    key = Dotted.qualify localSpace parent ∧ env'.resolve? parent = some key ∧ env'.IsOwn key := by
  have hspace : env.space = localSpace := hsteps.space_eq.symm.trans hlocal
  have hraw' : ¬ env'.Knows parent := by
    intro hknown
    rw [h.isDotted hknown] at hparent
    cases hparent
  have hraw : ¬ env.Knows parent := fun hknown => hraw' (hsteps.knows hknown)
  have hown := (knows_of_resolve?_undotted hparent hresolve).resolve_left hraw
  rw [resolve?_of_knows_own hraw hown] at hresolve
  have hown' := hsteps.knows hown
  rw [hspace] at hresolve hown'
  obtain rfl := Option.some.inj hresolve
  refine ⟨rfl, ?_, h.isOwn_of_undotted hparent hown'⟩
  rw [resolve?_of_knows_own hraw' (by rwa [hlocal]), hlocal]

end Environment

namespace Compile
open Environment Build

/-- A statement `property parent.name datatype;`. -/
structure DeclaresProperty (node : Tree Leaf) (parent name : String) (datatype : DataType) :
    Prop where
  kind : node.kind = .propertyDeclaration
  purpose : (purposeOf node).toOption = some .property
  named : node.identifiers.head?.map Leaf.text = some (Dotted.qualify parent name)
  undotted : Dotted.isDotted name = false
  typed : (datatypeOf node).toOption = some datatype

theorem declaresProperty_iff {node : Tree Leaf} {parent name : String} {datatype : DataType} :
    DeclaresProperty node parent name datatype ↔
      node.kind = .propertyDeclaration ∧ (purposeOf node).toOption = some .property ∧
      node.identifiers.head?.map Leaf.text = some (Dotted.qualify parent name) ∧
      Dotted.isDotted name = false ∧ (datatypeOf node).toOption = some datatype := by
  constructor
  · rintro ⟨hkind, hpurpose, hnamed, hundotted, htyped⟩
    exact ⟨hkind, hpurpose, hnamed, hundotted, htyped⟩
  · rintro ⟨hkind, hpurpose, hnamed, hundotted, htyped⟩
    exact ⟨hkind, hpurpose, hnamed, hundotted, htyped⟩

instance (node : Tree Leaf) (parent name : String) (datatype : DataType) :
    Decidable (DeclaresProperty node parent name datatype) :=
  decidable_of_iff _ declaresProperty_iff.symm

section Declaring
variable {importer : Importer} {lines : List (List Char)} {env env' : Environment}
  {node : Tree Leaf} {parent name : String} {datatype : DataType}

theorem ends_of_toOption {ε α : Type} {x : Except ε α} {a : α} (h : x.toOption = some a) :
    Ends (fun b => b = a) (fun _ => True) x := by
  cases x with
  | error e => trivial
  | ok b => exact Option.some.inj h

/-- What the statement declares, once its parent is known. -/
theorem DeclaresProperty.yields (h : DeclaresProperty node parent name datatype)
    (hspace : env.space = localSpace) :
    Yields (fun c => c.IsProperty name datatype ∧
        ∃ key, env.resolve? parent = some key ∧ c.keys = some [key])
      (derivedConcept lines env node) := by
  obtain ⟨leaf, hleaf, htext⟩ := Option.map_eq_some_iff.mp h.named
  have hsplit : Dotted.splitLast? leaf.text = some (parent, name) := by
    rw [htext, Dotted.splitLast?_qualify h.undotted]
  have hparent : Yields (fun key => env.resolve? parent = some key)
      (resolveLater env parent (lineOf node)) := by
    unfold resolveLater
    split
    · assumption
    · trivial
  unfold derivedConcept
  refine (Ends.orFail (ends_of_toOption h.purpose)).bind fun purpose hpurpose => ?_
  refine (Ends.orFail (ends_need hleaf)).bind fun found hfound => ?_
  rw [hpurpose, hfound, if_pos h.kind]
  have hproperty : Yields (fun c => c.IsProperty name datatype ∧
        ∃ key, env.resolve? parent = some key ∧ c.keys = some [key])
      (propertyConcept env node .property leaf) := by
    refine (Ends.orFail (ends_need hsplit)).bind fun parts hparts => ?_
    subst hparts
    refine hparent.bind fun key hkey => ?_
    refine (Ends.orFail (ends_of_toOption h.typed)).bind fun found hfound => ?_
    exact ⟨⟨congrArg (Dotted.qualify · name) hspace, rfl, hfound, rfl⟩, key, hkey, rfl⟩
  exact hproperty.bind fun c hc => ⟨⟨hc.1.address, hc.1.purpose, hc.1.datatype, hc.1.lineage⟩, hc.2⟩

/-- The statement waits as it is, or it has been compiled in an environment in which its parent
stood for its key, and a concept stands under its address that agrees with what it declares. -/
def Slot.Registers (importer : Importer) (lines : List (List Char)) (env : Environment)
    (node : Tree Leaf) (parent name : String) (datatype : DataType) : Slot → Prop
  | .pending m => m = node
  | .ready s => ∃ declared key before stored, s = .concept declared (startLine? node) ∧
      declared.IsProperty name datatype ∧ declared.keys = some [key] ∧
      (Steps importer .initial before ∧ Steps importer before env ∧
        derivedConcept lines before node = .ok declared ∧ before.resolve? parent = some key) ∧
      env.concept? declared.address = some stored ∧
      (stored = declared ∨ stored.agrees declared = true)

theorem DeclaresProperty.isConceptNode (h : DeclaresProperty node parent name datatype) :
    isConceptNode node = true := by
  simp [Compile.isConceptNode, h.kind]

theorem DeclaresProperty.tryConcept (h : DeclaresProperty node parent name datatype)
    (hstart : Steps importer .initial env) {result : Except (String × Nat) Statement}
    (hgives : Gives (tryConcept lines node) env result env') :
    (Slot.ofAttempt node result).Registers importer lines env' node parent name datatype := by
  have hsteps : Steps importer env env' := (brings_tryConcept hgives).steps
  obtain ⟨_, _, hget, hrest⟩ := gives_bind.mp hgives
  obtain ⟨rfl, rfl⟩ := gives_get.mp hget
  cases hc : derivedConcept lines env node with
  | ok c =>
    simp only [hc] at hrest
    obtain ⟨_, between, hregister, hpure⟩ := gives_bind.mp hrest
    obtain ⟨rfl, rfl⟩ := gives_pure.mp hpure
    obtain ⟨hproperty, key, hkey, hkeys⟩ := (h.yields hstart.space_eq).of_eq_ok hc
    obtain ⟨_, after, hadd, hcount⟩ := gives_bind.mp hregister
    -- no count comes along, a property is no key
    rw [if_neg (by simp [hproperty.purpose])] at hcount
    obtain ⟨-, rfl⟩ := gives_pure.mp hcount
    obtain ⟨stored, hstored, hagrees⟩ := exists_of_addConcept (gives_change.mp hadd)
    exact ⟨c, key, env, stored, rfl, hproperty, hkeys, ⟨hstart, hsteps, hc, hkey⟩, hstored, hagrees⟩
  | error b =>
    simp only [hc] at hrest
    cases b with
    | unresolved name line =>
      obtain ⟨rfl, rfl⟩ := gives_pure.mp hrest
      rfl
    | failed e => exact absurd hrest not_gives_throw

/-- A property is registered from the moment its statement is compiled. -/
theorem kept_registers : Kept importer lines .initial fun node slot env =>
    ∀ parent name datatype, DeclaresProperty node parent name datatype →
      slot.Registers importer lines env node parent name datatype where
  step {node slot env env'} hstep hslot := by
    intro parent name datatype h
    have hheld := hslot parent name datatype h
    cases slot with
    | pending m => exact hheld
    | ready s =>
      obtain ⟨declared, key, before, stored, hs, hproperty, hkeys, ⟨hstart, hsteps, hcompiled⟩,
        hstored, hagrees⟩ := hheld
      exact ⟨declared, key, before, stored, hs, hproperty, hkeys,
        ⟨hstart, hsteps.tail hstep, hcompiled⟩, hstep.extends _ _ hstored, hagrees⟩
  first {node slot env env'} hstart hgives := by
    intro parent name datatype h
    rw [firstPass_of_concept h.isConceptNode] at hgives
    obtain ⟨result, htry, rfl⟩ := gives_map.mp hgives
    exact h.tryConcept hstart htry
  concept {node m s env env'} hstart _ hslot hgives := by
    intro parent name datatype h
    obtain rfl : m = node := hslot parent name datatype h
    exact h.tryConcept hstart hgives
  datasource {node m s env env'} _ hm hslot hgives := by
    intro parent name datatype h
    obtain rfl : m = node := hslot parent name datatype h
    rw [h.kind] at hm
    cases hm
  query {node m s env env'} _ hslot hgives := by
    intro parent name datatype h
    obtain rfl : m = node := hslot parent name datatype h
    rw [query, h.kind] at hgives
    exact absurd hgives not_gives_throw

end Declaring
end Compile

open Compile Environment

namespace Compilation

/-- A property under a plain name comes from a declaration of the document, or from a module
that is imported into its own namespace. -/
theorem declared_of_isProperty {importer : Importer} {text : String} {tree : Tree Leaf}
    {name address : String} {datatype : DataType} {e : Concept}
    (h : (Compilation.run importer .initial text tree).error = none)
    (hname : Dotted.isDotted name = false) (hproperty : e.IsProperty name datatype)
    (he : (Compilation.run importer .initial text tree).env.concept? address = some e) :
    (∃ line, .concept e line ∈ (Compilation.run importer .initial text tree).statements) ∨
      ∃ r line, .imported r line ∈ (Compilation.run importer .initial text tree).statements ∧
        r.space = localSpace := by
  have hderived : ¬ e.lineage.isSome = true := by simp [hproperty.lineage]
  rcases sourced_of_run h he with rfl | ⟨s, hs, hdeclares⟩
  · exact absurd rfl hderived
  · cases s with
    | concept p line =>
      rcases hdeclares with rfl | rfl
      · exact .inl ⟨line, hs⟩
      · exact absurd rfl hderived
    | imported r line =>
      obtain ⟨rest, haddress⟩ := hdeclares
      rw [hproperty.address] at haddress
      exact .inr ⟨r, line, hs, (Dotted.eq_of_qualify_eq (by decide) hname haddress.symm).1⟩
    | datasource d line => exact hdeclares.elim
    | rawSql sql line => exact hdeclares.elim
    | select s => exact absurd hdeclares hderived
    | multiSelect selects align line => exact absurd hdeclares hderived
    | persist target table s line => exact absurd hdeclares hderived

/-- In a document that compiles each `property parent.name datatype;` becomes a property in
the namespace of the document with the one key that the parent stood for when the statement was
compiled, in an environment on the way from the first one to the last. What stands under
its address in the end has the same role and type and comes from such a declaration, its own
if it is the only one. A plain parent is a concept of the document and stands for it to the
end. The name behind such a parent leads to a property of the parent exactly if
the declaration that stayed has this key and nothing else has the dotted name. -/
theorem property_reachable {importer : Importer} {text : String} {tree : Tree Leaf}
    {node : Tree Leaf} {i : Nat} {parent name : String} {datatype : DataType} {c : Compilation}
    (hrun : Compilation.run importer .initial text tree = c) (hresolved : c.error = none)
    (hnode : tree.nodes[i]? = some node)
    (hdeclares : DeclaresProperty node parent name datatype) :
    ∃ declared stored key before,
      c.statements[i]? = some (.concept declared (startLine? node)) ∧
      (Steps importer .initial before ∧ Steps importer before c.env ∧
        derivedConcept (linesOf text) before node = .ok declared ∧
        before.resolve? parent = some key) ∧
      declared.IsProperty name datatype ∧ declared.keys = some [key] ∧
      c.env.concept? (Dotted.qualify localSpace name) = some stored ∧
      stored.IsProperty name datatype ∧
      ((∃ line, .concept stored line ∈ c.statements) ∨
        ∃ r line, .imported r line ∈ c.statements ∧ r.space = localSpace) ∧
      (Dotted.isDotted parent = false → key = Dotted.qualify localSpace parent ∧
        c.env.resolve? parent = some key ∧ c.env.IsOwn key) ∧
      (c.env.resolve? parent = some key → c.env.IsOwn key →
        (c.env.resolve? (Dotted.qualify parent name) = some (Dotted.qualify localSpace name) ∧
            key ∈ stored.keys.getD [] ↔
          key ∈ stored.keys.getD [] ∧ ¬ c.env.Shadows parent name)) := by
  subst hrun
  obtain ⟨htidy, hlocal⟩ := tidy_of_run hresolved
  obtain ⟨-, hkept⟩ := Compilation.kept_of_run kept_registers hresolved
  obtain ⟨hi, hget⟩ := List.getElem?_eq_some_iff.mp hnode
  have hi' : i < (Compilation.run importer .initial text tree).statements.length := by
    rwa [← hkept.length_eq]
  have hregisters := List.Forall₂.get hkept hi hi'
  rw [List.get_eq_getElem, hget] at hregisters
  obtain ⟨declared, key, before, stored, hs, hproperty, hkeys, ⟨hstart, hsteps, hcompiled, hkey⟩,
    hstored, hagrees⟩ := hregisters parent name datatype hdeclares
  have hstatement := (List.getElem?_eq_getElem hi').trans (congrArg some hs)
  have hsame : stored.IsProperty name datatype := by
    rcases hagrees with rfl | hagrees
    · exact hproperty
    · exact hproperty.of_agrees hagrees (htidy.address_of_concept? hstored)
  rw [hproperty.address] at hstored
  refine ⟨declared, stored, key, before, hstatement, ⟨hstart, hsteps, hcompiled, hkey⟩,
    hproperty, hkeys, hstored, hsame,
    declared_of_isProperty hresolved hdeclares.undotted hsame hstored,
    fun hparent => htidy.resolve?_of_earlier hlocal hsteps hparent hkey, ?_⟩
  intro hresolve hown
  rw [and_comm, and_congr_right_iff]
  exact fun hmem => resolve?_property_iff hlocal hdeclares.undotted hresolve hown hstored hmem

/-- Nothing to import. -/
def noModules : Library :=
  ⟨[], fun _ => "missing"⟩

/-- A property that waits for its parent is reached behind it. -/
theorem property_reachable_waiting :
    ∃ tree c node, parse "property sale.total float;\nkey sale int;" = .ok tree ∧
      Compilation.run noModules.importer .initial "property sale.total float;\nkey sale int;" tree = c ∧
      c.error = none ∧ tree.nodes[0]? = some node ∧
      DeclaresProperty node "sale" "total" .float ∧
      c.env.resolve? "sale.total" = some "local.total" := by
  have hcomputed : ∃ tree, parse "property sale.total float;\nkey sale int;" = .ok tree ∧
      (fun c : Compilation => some (c.error,
          (tree.nodes[0]?).map fun node => decide (DeclaresProperty node "sale" "total" .float),
          (c.env.concept? "local.total").bind Concept.keys,
          decide (c.env.Shadows "sale" "total")))
        (Compilation.run noModules.importer .initial
          "property sale.total float;\nkey sale int;" tree) =
        some (none, some true, some ["local.sale"], false) := by
    apply exists_tree
    decide +kernel
  obtain ⟨tree, hparse, hcomputed⟩ := hcomputed
  simp only [Option.some.injEq, Prod.mk.injEq, decide_eq_false_iff_not] at hcomputed
  obtain ⟨hresolved, hnode, hkeys, hshadows⟩ := hcomputed
  obtain ⟨node, hnode, hdeclares⟩ := Option.map_eq_some_iff.mp hnode
  have hdeclares := of_decide_eq_true hdeclares
  refine ⟨tree, _, node, hparse, rfl, hresolved, hnode, hdeclares, ?_⟩
  obtain ⟨declared, stored, key, before, -, -, -, -, hstored, -, -, hplain, hreached⟩ :=
    property_reachable rfl hresolved hnode hdeclares
  obtain ⟨rfl, hparent, hown⟩ := hplain (by decide)
  rw [show Dotted.qualify localSpace "total" = "local.total" by decide] at hstored
  rw [hstored] at hkeys
  have hkey : stored.keys = some ["local.sale"] := hkeys
  exact ((hreached hparent hown).mpr ⟨by rw [hkey]; decide, hshadows⟩).1

/-- Of two parents with a property of one name only the first has it, and the count of a key
hides a property of that name. -/
theorem property_unreachable :
    (∃ tree c node,
      parse "key a int;\nkey b int;\nproperty a.n string;\nproperty b.n string;" = .ok tree ∧
      Compilation.run noModules.importer .initial
        "key a int;\nkey b int;\nproperty a.n string;\nproperty b.n string;" tree = c ∧
      c.error = none ∧ tree.nodes[3]? = some node ∧ DeclaresProperty node "b" "n" .string ∧
      c.env.resolve? "b.n" = none) ∧
    ∃ tree c node, parse "key a int;\nproperty a.count int;" = .ok tree ∧
      Compilation.run noModules.importer .initial "key a int;\nproperty a.count int;" tree = c ∧
      c.error = none ∧ tree.nodes[1]? = some node ∧ DeclaresProperty node "a" "count" .integer ∧
      c.env.resolve? "a.count" = some "local.a.count" := by
  constructor
  · have hcomputed : ∃ tree,
        parse "key a int;\nkey b int;\nproperty a.n string;\nproperty b.n string;" = .ok tree ∧
        (fun c : Compilation => some (c.error,
            (tree.nodes[3]?).map fun node => decide (DeclaresProperty node "b" "n" .string),
            c.env.resolve? "b.n"))
          (Compilation.run noModules.importer .initial
            "key a int;\nkey b int;\nproperty a.n string;\nproperty b.n string;" tree) =
          some (none, some true, none) := by
      apply exists_tree
      decide +kernel
    obtain ⟨tree, hparse, hcomputed⟩ := hcomputed
    simp only [Option.some.injEq, Prod.mk.injEq] at hcomputed
    obtain ⟨hresolved, hnode, hnone⟩ := hcomputed
    obtain ⟨node, hnode, hdeclares⟩ := Option.map_eq_some_iff.mp hnode
    exact ⟨tree, _, node, hparse, rfl, hresolved, hnode, of_decide_eq_true hdeclares, hnone⟩
  · have hcomputed : ∃ tree, parse "key a int;\nproperty a.count int;" = .ok tree ∧
        (fun c : Compilation => some (c.error,
            (tree.nodes[1]?).map fun node => decide (DeclaresProperty node "a" "count" .integer),
            c.env.resolve? "a.count"))
          (Compilation.run noModules.importer .initial
            "key a int;\nproperty a.count int;" tree) =
          some (none, some true, some "local.a.count") := by
      apply exists_tree
      decide +kernel
    obtain ⟨tree, hparse, hcomputed⟩ := hcomputed
    simp only [Option.some.injEq, Prod.mk.injEq] at hcomputed
    obtain ⟨hresolved, hnode, hfound⟩ := hcomputed
    obtain ⟨node, hnode, hdeclares⟩ := Option.map_eq_some_iff.mp hnode
    exact ⟨tree, _, node, hparse, rfl, hresolved, hnode, of_decide_eq_true hdeclares, hfound⟩

end Compilation
end ConceptQuery
