import ConceptQuery.Proofs.Deferral
import ConceptQuery.Proofs.Growth
import ConceptQuery.Proofs.Shape

/-! # What concept statements declare

Concept statements that declare plain names, each once, one after the other: `Declared`.
Each of them finds its name free, so it adds its concept, and the count that a key brings
along, and touches nothing else. What a statement declared it would declare again later,
so what is declared in the end depends on the statements only and not on their order:
`Declared.extends_of_subset`.
-/
namespace ConceptQuery

namespace Environment
open Compile (countOf)
variable {env env' : Environment} {c e : Concept} {a : String}

/-- The environment with a concept declared, and with the count that a key brings along. -/
def registered (env : Environment) (c : Concept) : Environment :=
  if c.purpose = .key then (env.withConcept c).withConcept (countOf c) else env.withConcept c

/-- A concept is there, with the count that a key brings along. -/
def Has (env : Environment) (c : Concept) : Prop :=
  env.concept? c.address = some c ∧
    (c.purpose = .key → env.concept? (countOf c).address = some (countOf c))

/-- A concept of the document itself, under a plain name that is free. -/
structure Fresh (env : Environment) (c : Concept) : Prop where
  space : c.space = localSpace
  undotted : Dotted.isDotted c.name = false
  named : c.name ≠ localSpace
  free : ¬ env.Knows c.address

/-- Every plain name that is known is one of these. -/
def NamedBy (env : Environment) (names : List (Option String)) : Prop :=
  ∀ name, Dotted.isDotted name = false → env.Knows (Dotted.qualify localSpace name) →
    some name ∈ names

theorem Extends.has (h : env.Extends env') (hc : env.Has c) : env'.Has c :=
  ⟨h _ _ hc.1, fun hkey => h _ _ (hc.2 hkey)⟩

theorem concept?_withConcept :
    (env.withConcept c).concept? a = if c.address = a then some c else env.concept? a :=
  Catalog.get?_insert a

theorem withConcept_cases (h : (env.withConcept c).concept? a = some e) :
    env.concept? a = some e ∨ a = c.address ∧ e = c := by
  rw [concept?_withConcept] at h
  split at h
  · rename_i haddress
    exact .inr ⟨haddress.symm, (Option.some.inj h).symm⟩
  · exact .inl h

theorem extends_withConcept (h : ¬ env.Knows c.address) : env.Extends (env.withConcept c) := by
  intro a e he
  rw [concept?_withConcept, if_neg]
  · exact he
  · rintro rfl
    exact h (knows_of_concept? he)

theorem registered_cases (h : (env.registered c).concept? a = some e) :
    env.concept? a = some e ∨ a = c.address ∧ e = c ∨
      c.purpose = .key ∧ a = (countOf c).address ∧ e = countOf c := by
  unfold registered at h
  split at h
  · rename_i hkey
    rcases withConcept_cases h with h | hcount
    · exact (withConcept_cases h).imp_right .inl
    · exact .inr (.inr ⟨hkey, hcount⟩)
  · exact (withConcept_cases h).imp_right .inl

section Fresh
variable (h : env.Flat) (hc : env.Fresh c)

include hc

theorem Fresh.address_eq : c.address = Dotted.qualify localSpace c.name := by
  rw [Concept.address, hc.space]

theorem Fresh.segments_address : Dotted.segments c.address = [localSpace, c.name] := by
  rw [hc.address_eq, Dotted.segments_qualify, Dotted.segments_of_undotted hc.undotted]
  rfl

theorem Fresh.countOf_eq : (countOf c).address = Dotted.join [localSpace, c.name, "count"] := by
  have hname : (countOf c).name = Dotted.qualify c.name "count" := by
    apply String.toList_injective
    rw [Dotted.toList_qualify]
    exact String.toList_append
  have hspace : (countOf c).space = localSpace := hc.space
  rw [Concept.address, hname, hspace, Dotted.join_cons_cons, Dotted.join_cons_cons,
    Dotted.join_singleton]

theorem Fresh.segments_countOf :
    Dotted.segments (countOf c).address = [localSpace, c.name, "count"] := by
  rw [hc.countOf_eq]
  apply Dotted.segments_join (by simp)
  simpa using ⟨by decide, hc.undotted, by decide⟩

theorem Fresh.countOf_ne : (countOf c).address ≠ c.address := by
  intro heq
  have hsegments := hc.segments_countOf
  rw [heq, hc.segments_address] at hsegments
  simp at hsegments

theorem Fresh.has_registered : (env.registered c).Has c := by
  unfold registered
  split
  · refine ⟨?_, fun _ => ?_⟩
    · rw [concept?_withConcept, if_neg hc.countOf_ne, concept?_withConcept, if_pos rfl]
    · rw [concept?_withConcept, if_pos rfl]
  · rename_i hkey
    refine ⟨?_, fun h => absurd h hkey⟩
    rw [concept?_withConcept, if_pos rfl]

include h

/-- The count of a free name is free as well. -/
theorem Fresh.free_countOf : ¬ (env.withConcept c).Knows (countOf c).address := by
  rw [knows_withConcept hc.free, not_or]
  refine ⟨fun hknown => ?_, hc.countOf_ne⟩
  have hnamed := h.named _ hknown
  rw [hc.segments_countOf] at hnamed
  rcases hnamed with hrows | ⟨e, he, -, hplain | ⟨-, hcount⟩⟩
  · simp at hrows
  · simp at hplain
  · obtain ⟨hname, -⟩ := List.cons.inj (List.cons.inj hcount).2
    apply hc.free
    rw [hc.address_eq, hname]
    exact knows_of_concept? he

theorem Fresh.extends_registered : env.Extends (env.registered c) := by
  unfold registered
  split
  · intro a e he
    exact extends_withConcept (hc.free_countOf h) a e (extends_withConcept hc.free a e he)
  · exact extends_withConcept hc.free

/-- Declaring a concept whose name is free succeeds. -/
theorem Fresh.gives_register (line : Nat) :
    Compile.Build.Gives (Compile.register c line) env () (env.registered c) := by
  refine Compile.Build.gives_bind.mpr ⟨(), env.withConcept c,
    Compile.Build.gives_change.mpr (addConcept_of_free hc.free), ?_⟩
  unfold registered
  split
  · exact Compile.Build.gives_change.mpr (addConcept_of_free (hc.free_countOf h))
  · exact Compile.Build.gives_pure.mpr ⟨rfl, rfl⟩

theorem Fresh.flat_registered : (env.registered c).Flat where
  space := by
    unfold registered
    split
    · exact h.space
    · exact h.space
  rows := (hc.extends_registered h).knows h.rows
  named := by
    intro a ha
    cases he : (env.registered c).concept? a with
    | none => exact absurd ha (concept?_eq_none_iff.mp he)
    | some e =>
      have hself : (env.registered c).concept? (Dotted.qualify localSpace c.name) = some c :=
        hc.address_eq ▸ hc.has_registered.1
      rcases registered_cases he with hold | ⟨rfl, rfl⟩ | ⟨hkey, rfl, rfl⟩
      · rcases h.named a (knows_of_concept? hold) with hrows | ⟨d, hd, hrest⟩
        · exact .inl hrows
        · exact .inr ⟨d, hc.extends_registered h _ _ hd, hrest⟩
      · exact .inr ⟨e, hself, hc.named, .inl hc.segments_address⟩
      · exact .inr ⟨c, hself, hc.named, .inr ⟨hkey, hc.segments_countOf⟩⟩
  counted := by
    intro e he hkey
    rcases registered_cases he with hold | ⟨-, rfl⟩ | ⟨-, -, rfl⟩
    · exact (hc.extends_registered h).knows (h.counted e hold hkey)
    · rw [← hc.countOf_eq]
      exact knows_of_concept? (hc.has_registered.2 hkey)
    · cases hkey

end Fresh

theorem flat_initial : initial.Flat where
  space := rfl
  rows := by
    rw [Dotted.join_cons_cons, Dotted.join_singleton]
    exact List.mem_singleton.mpr rfl
  named := by
    intro a ha
    obtain rfl := List.mem_singleton.mp ha
    exact .inl (by decide)
  counted := by
    intro c hc hkey
    have hmem := Catalog.mem_entries_of_get? hc
    obtain ⟨-, rfl⟩ := Prod.mk.inj (List.mem_singleton.mp hmem)
    cases hkey

end Environment

namespace Compile
open Environment

/-- The plain name that a concept statement declares; that of a property is behind the name of
its parent. -/
def declaredName? (node : Tree Leaf) : Option String :=
  node.identifiers.head?.bind fun leaf =>
    match node.kind with
    | .propertyDeclaration => (Dotted.splitLast? leaf.text).map Prod.snd
    | .conceptDeclaration | .conceptDerivation =>
      if Dotted.isDotted leaf.text then none else some leaf.text
    | _ => none

/-- Concept statements that declare plain names, each once, and not that of the namespace. -/
structure Plain (nodes : List (Tree Leaf)) : Prop where
  named : ∀ node ∈ nodes, ∃ name, declaredName? node = some name ∧ name ≠ localSpace
  distinct : (nodes.map declaredName?).Nodup

theorem plain_iff {nodes : List (Tree Leaf)} : Plain nodes ↔
    (∀ node ∈ nodes, declaredName? node ≠ none ∧ declaredName? node ≠ some localSpace) ∧
      (nodes.map declaredName?).Nodup := by
  constructor
  · rintro ⟨hnamed, hdistinct⟩
    refine ⟨fun node hnode => ?_, hdistinct⟩
    obtain ⟨name, hname, hlocal⟩ := hnamed node hnode
    simp [hname, hlocal]
  · rintro ⟨hnamed, hdistinct⟩
    refine ⟨fun node hnode => ?_, hdistinct⟩
    obtain ⟨hsome, hlocal⟩ := hnamed node hnode
    obtain ⟨name, hname⟩ := Option.ne_none_iff_exists'.mp hsome
    exact ⟨name, hname, fun heq => hlocal (heq ▸ hname)⟩

instance (nodes : List (Tree Leaf)) : Decidable (Plain nodes) :=
  decidable_of_iff _ plain_iff.symm

section Names
variable {env : Environment} {lines : List (List Char)} {node : Tree Leaf} {name : String}
  {c : Concept}

theorem Plain.perm {nodes nodes' : List (Tree Leaf)} (h : Plain nodes) (hperm : nodes.Perm nodes') :
    Plain nodes' where
  named node hnode := h.named node (hperm.mem_iff.mpr hnode)
  distinct := (hperm.map declaredName?).nodup_iff.mp h.distinct

/-- A property is named behind its parent, any other concept just so. -/
theorem declaredName?_cases (h : declaredName? node = some name) :
    ∃ leaf, node.identifiers.head? = some leaf ∧
      (node.kind = .propertyDeclaration ∧
          (∃ parent, Dotted.splitLast? leaf.text = some (parent, name)) ∨
        (node.kind = .conceptDeclaration ∨ node.kind = .conceptDerivation) ∧
          leaf.text = name ∧ Dotted.isDotted name = false) := by
  obtain ⟨leaf, hleaf, h⟩ := Option.bind_eq_some_iff.mp h
  have hplain : (if Dotted.isDotted leaf.text then none else some leaf.text) = some name →
      leaf.text = name ∧ Dotted.isDotted name = false := by
    intro hname
    split at hname
    · cases hname
    · rename_i hdotted
      obtain rfl := Option.some.inj hname
      exact ⟨rfl, Bool.eq_false_iff.mpr hdotted⟩
  refine ⟨leaf, hleaf, ?_⟩
  split at h
  · rename_i hkind
    obtain ⟨⟨parent, last⟩, hsplit, rfl⟩ := Option.map_eq_some_iff.mp h
    exact .inl ⟨hkind, parent, hsplit⟩
  · rename_i hkind
    exact .inr ⟨.inl hkind, hplain h⟩
  · rename_i hkind
    exact .inr ⟨.inr hkind, hplain h⟩
  · cases h

theorem undotted_of_declaredName? (h : declaredName? node = some name) :
    Dotted.isDotted name = false := by
  obtain ⟨leaf, -, ⟨-, parent, hsplit⟩ | ⟨-, -, hname⟩⟩ := declaredName?_cases h
  · exact Dotted.undotted_of_splitLast? hsplit
  · exact hname

theorem kind_of_declaredName? (h : declaredName? node = some name) :
    node.kind = .conceptDeclaration ∨ isConceptNode node = true := by
  obtain ⟨leaf, -, ⟨hkind, -⟩ | ⟨hkind | hkind, -⟩⟩ := declaredName?_cases h
  · exact .inr (by simp [isConceptNode, hkind])
  · exact .inl hkind
  · exact .inr (by simp [isConceptNode, hkind])

theorem name_declaredConcept {leaf : Leaf} (hleaf : node.identifiers.head? = some leaf) :
    Yields (fun c => Concept.name c = leaf.text) (declaredConcept lines env node) := by
  refine (ends_trivial _).bind fun purpose _ => ?_
  refine (ends_need hleaf).bind fun found hfound => ?_
  exact (ends_trivial _).bind fun datatype _ => congrArg Leaf.text hfound

theorem name_propertyConcept {purpose : Purpose} {leaf : Leaf} {parent : String}
    (hsplit : Dotted.splitLast? leaf.text = some (parent, name)) :
    Yields (fun c => Concept.name c = name) (propertyConcept env node purpose leaf) := by
  refine (Ends.orFail (ends_need hsplit)).bind fun found hfound => ?_
  refine (ends_trivial _).bind fun address _ => ?_
  exact (ends_trivial _).bind fun datatype _ => congrArg Prod.snd hfound

theorem name_lineageConcept {purpose : Purpose} {leaf : Leaf} :
    Yields (fun c => Concept.name c = leaf.text) (lineageConcept env node purpose leaf) := by
  refine (ends_trivial _).bind fun lineageNode _ => ?_
  refine (ends_trivial _).bind fun lineage _ => ?_
  dsimp only
  split
  · rfl
  · rfl

/-- What a statement declares has its name. -/
theorem name_of_conceptOf (h : declaredName? node = some name)
    (hc : conceptOf lines env node = .ok c) : c.name = name := by
  obtain ⟨leaf, hleaf, hcases⟩ := declaredName?_cases h
  have hyields : Yields (fun c => Concept.name c = name) (conceptOf lines env node) := by
    unfold conceptOf
    rcases hcases with ⟨hkind, parent, hsplit⟩ | ⟨hkind | hkind, rfl, -⟩
    · rw [if_neg (by simp [hkind])]
      refine (ends_trivial _).bind fun purpose _ => ?_
      refine (Ends.orFail (ends_need hleaf)).bind fun found hfound => ?_
      rw [hfound, if_pos hkind]
      exact (name_propertyConcept hsplit).bind fun _ hname => hname
    · rw [if_pos hkind]
      exact Ends.orFail (name_declaredConcept hleaf)
    · rw [if_neg (by simp [hkind])]
      refine (ends_trivial _).bind fun purpose _ => ?_
      refine (Ends.orFail (ends_need hleaf)).bind fun found hfound => ?_
      rw [hfound, if_neg (by simp [hkind])]
      exact name_lineageConcept.bind fun _ hname => hname
  exact hyields.of_eq_ok hc

theorem space_of_conceptOf (hc : conceptOf lines env node = .ok c) : c.space = env.space := by
  unfold conceptOf at hc
  split at hc
  · have hown : Ends (Own env) (fun _ => True) (orFail (declaredConcept lines env node)) :=
      Ends.orFail (own_declaredConcept lines node)
    exact (hown.of_eq_ok hc).space
  · exact ((own_derivedConcept lines node).of_eq_ok hc).space

theorem fresh_of_conceptOf {names : List (Option String)} (hflat : env.Flat)
    (hnames : env.NamedBy names) (hc : conceptOf lines env node = .ok c)
    (hname : declaredName? node = some c.name) (hlocal : c.name ≠ localSpace)
    (hnew : declaredName? node ∉ names) : env.Fresh c := by
  have hspace : c.space = localSpace := (space_of_conceptOf hc).trans hflat.space
  have hundotted := undotted_of_declaredName? hname
  refine ⟨hspace, hundotted, hlocal, fun hknown => hnew ?_⟩
  rw [hname]
  rw [Concept.address, hspace] at hknown
  exact hnames c.name hundotted hknown

end Names

/-- These statements, one after the other, the last one first, lead to the environment. -/
inductive Declared (lines : List (List Char)) : List (Tree Leaf) → Environment → Prop where
  | none : Declared lines [] .initial
  | more {done env node c} (h : Declared lines done env) (hc : conceptOf lines env node = .ok c)
      (hname : declaredName? node = some c.name) (hlocal : c.name ≠ localSpace)
      (hnew : declaredName? node ∉ done.map declaredName?) :
      Declared lines (node :: done) (env.registered c)

namespace Declared
variable {lines : List (List Char)} {done done' : List (Tree Leaf)} {env env' : Environment}
  {node : Tree Leaf} {c : Concept}

/-- The names in the environment are those of the statements. -/
theorem named (h : Declared lines done env) : env.Flat ∧ env.NamedBy (done.map declaredName?) := by
  induction h with
  | none =>
    refine ⟨flat_initial, fun name hname hknown => ?_⟩
    have hsegments : Dotted.segments (Dotted.qualify localSpace name) =
        Dotted.segments allRows.address := by
      rw [List.mem_singleton.mp hknown]
    rw [Dotted.segments_qualify] at hsegments
    exact absurd (List.cons.inj hsegments).1 (by decide)
  | @more done env node c h hc hname hlocal hnew ih =>
    obtain ⟨hflat, hnames⟩ := ih
    have hfresh : env.Fresh c := fresh_of_conceptOf hflat hnames hc hname hlocal hnew
    refine ⟨hfresh.flat_registered hflat, fun name hplain hknown => ?_⟩
    cases he : (env.registered c).concept? (Dotted.qualify localSpace name) with
    | none => exact absurd hknown (concept?_eq_none_iff.mp he)
    | some e =>
      have hsegments : Dotted.segments (Dotted.qualify localSpace name) = [localSpace, name] := by
        rw [Dotted.segments_qualify, Dotted.segments_of_undotted hplain]
        rfl
      rcases registered_cases he with hold | ⟨haddress, -⟩ | ⟨-, haddress, -⟩
      · exact List.mem_cons_of_mem _ (hnames name hplain (knows_of_concept? hold))
      · rw [haddress, hfresh.segments_address] at hsegments
        obtain ⟨rfl, -⟩ := List.cons.inj (List.cons.inj hsegments).2
        rw [List.map_cons, hname]
        exact List.mem_cons_self
      · rw [haddress, hfresh.segments_countOf] at hsegments
        simp at hsegments

theorem flat (h : Declared lines done env) : env.Flat :=
  h.named.1

theorem fresh (h : Declared lines done env) (hc : conceptOf lines env node = .ok c)
    (hname : declaredName? node = some c.name) (hlocal : c.name ≠ localSpace)
    (hnew : declaredName? node ∉ done.map declaredName?) : env.Fresh c :=
  fresh_of_conceptOf h.flat h.named.2 hc hname hlocal hnew

/-- What a statement declared is still what it declares, and it is there. -/
theorem has (h : Declared lines done env) (hnode : node ∈ done) :
    ∃ c, conceptOf lines env node = .ok c ∧ env.Has c := by
  induction h with
  | none => cases hnode
  | @more done env last c h hc hname hlocal hnew ih =>
    have hfresh := h.fresh hc hname hlocal hnew
    have hextends := hfresh.extends_registered h.flat
    have hkeeps : ∀ {node d}, conceptOf lines env node = .ok d →
        conceptOf lines (env.registered c) node = .ok d := fun {node d} hd =>
      (defers_conceptOf h.flat (hfresh.flat_registered h.flat) hextends lines node).eq_of_ok hd
    rcases List.mem_cons.mp hnode with rfl | hnode
    · exact ⟨c, hkeeps hc, hfresh.has_registered⟩
    · obtain ⟨d, hd, hhas⟩ := ih hnode
      exact ⟨d, hkeeps hd, hextends.has hhas⟩

/-- More statements declare more, in whatever order. -/
theorem extends_of_subset (h : Declared lines done env) (h' : Declared lines done' env')
    (hsubset : ∀ node ∈ done, node ∈ done') : env.Extends env' := by
  induction h with
  | none =>
    clear hsubset
    intro a e he
    induction h' with
    | none => exact he
    | more h hc hname hlocal hnew ih =>
      exact (h.fresh hc hname hlocal hnew).extends_registered h.flat a e ih
  | @more done env last c h hc hname hlocal hnew ih =>
    obtain ⟨hlast, hdone⟩ := List.forall_mem_cons.mp hsubset
    have hextends := ih hdone
    obtain ⟨d, hd, hhas⟩ := h'.has hlast
    have hsame := (defers_conceptOf h.flat h'.flat hextends lines last).eq_of_ok hc
    obtain rfl : c = d := Except.ok.inj (hsame.symm.trans hd)
    intro a e he
    rcases registered_cases he with hold | ⟨rfl, rfl⟩ | ⟨hkey, rfl, rfl⟩
    · exact hextends a e hold
    · exact hhas.1
    · exact hhas.2 hkey

end Declared

end Compile
end ConceptQuery
