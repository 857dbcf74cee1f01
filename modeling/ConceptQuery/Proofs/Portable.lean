import Mathlib.SetTheory.Cardinal.Arithmetic
import ConceptQuery.Proofs.ImportGraph
import ConceptQuery.Proofs.Renaming
import ConceptQuery.Proofs.Strays

/-! # Imports as renamings

An import puts the concepts and datasources of a module under a namespace. The addresses
of concepts, the mentions of addresses and the identifiers of datasources are rewritten
by three rules. `Takes` says that they fit together: one injective renaming stands behind
them, and nothing is lost or merged. They fit exactly for modules that are `Portable`;
the namespace matters only if it is that of the document itself.
-/
namespace ConceptQuery

/-- What an import puts behind its namespace for a concept. -/
def Concept.tail (c : Concept) : String :=
  if c.space = localSpace then c.name else c.address

/-- What an import puts behind its namespace for the mention of an address. -/
def tailOf (address : String) : String :=
  (Dotted.under? localSpace address).getD address

namespace Environment

/-- The addresses that a module mentions in what it hands over. -/
def mentioned (module : Environment) : List String :=
  module.userConcepts.flatMap Concept.mentions ++
    module.datasources.values.flatMap Datasource.mentions

/-- What a module hands over keeps apart and together what was so: its concepts, the
mentions, the mentions and the concepts they are of, and its datasources. -/
structure Portable (module : Environment) : Prop where
  concepts : (module.userConcepts.map Concept.tail).Nodup
  mentions : ∀ a ∈ module.mentioned, ∀ b ∈ module.mentioned, tailOf a = tailOf b → a = b
  agree : ∀ c ∈ module.userConcepts, ∀ a ∈ module.mentioned, c.tail = tailOf a ↔ c.address = a
  datasources : (module.datasources.values.map Datasource.name).Nodup

instance (module : Environment) : Decidable module.Portable :=
  decidable_of_iff
    ((module.userConcepts.map Concept.tail).Nodup ∧
      (∀ a ∈ module.mentioned, ∀ b ∈ module.mentioned, tailOf a = tailOf b → a = b) ∧
      (∀ c ∈ module.userConcepts, ∀ a ∈ module.mentioned, c.tail = tailOf a ↔ c.address = a) ∧
      (module.datasources.values.map Datasource.name).Nodup)
    ⟨fun ⟨hc, hm, ha, hd⟩ => ⟨hc, hm, ha, hd⟩,
      fun h => ⟨h.concepts, h.mentions, h.agree, h.datasources⟩⟩

/-- The second environment is the first with a module taken over under a namespace: one
concept for each that users may see and one datasource for each, all at places of their
own, with every address of the module under one injective renaming. -/
structure Takes (rename : String → String) (space : String) (module env env' : Environment) :
    Prop where
  injective : Function.Injective rename
  concepts : env'.concepts.entries = env.concepts.entries ++
    module.userConcepts.map fun c => (rename c.address, c.renamed rename space)
  addresses : (module.userConcepts.map fun c => rename c.address).Nodup
  datasources : env'.datasources.entries = env.datasources.entries ++
    module.datasources.values.map fun d =>
      ((d.renamed rename space).identifier, d.renamed rename space)
  identifiers :
    (module.datasources.values.map fun d => (d.renamed rename space).identifier).Nodup

end Environment

section Tails
variable {c : Concept} {space a b : String}

theorem qualify_inj : Dotted.qualify space a = Dotted.qualify space b ↔ a = b := by
  constructor
  · intro h
    have hlist := congrArg String.toList h
    rw [Dotted.toList_qualify, Dotted.toList_qualify, List.append_cancel_left_eq] at hlist
    exact String.toList_injective (List.cons.inj hlist).2
  · rintro rfl
    rfl

theorem Concept.address_moved : (c.moved space).address = Dotted.qualify space c.tail := by
  have haddress : (c.moved space).address =
      Dotted.qualify (requalifySpace space c.space) c.name := rfl
  rw [haddress, requalifySpace, tail]
  split
  · rfl
  · rw [Concept.address, Dotted.qualify, Dotted.qualify, Dotted.qualify, Dotted.qualify]
    simp only [String.append_assoc]

theorem requalify_eq : requalify space a = Dotted.qualify space (tailOf a) := by
  unfold requalify tailOf
  cases Dotted.under? localSpace a with
  | none => rfl
  | some rest => rfl

theorem qualify_injective (space : String) : Function.Injective (Dotted.qualify space) :=
  fun _ _ h => qualify_inj.mp h

/-- Within one namespace, datasources are told apart by their names. -/
theorem nodup_identifiers {ds : List Datasource} {rename : String → String} :
    (ds.map fun d => (d.renamed rename space).identifier).Nodup ↔ (ds.map Datasource.name).Nodup := by
  by_cases hspace : space = localSpace
  · have hname : ∀ d ∈ ds, (d.renamed rename space).identifier = d.name := fun d _ => if_pos hspace
    rw [List.map_congr_left hname]
  · have hname : ∀ d ∈ ds, (d.renamed rename space).identifier =
        (Dotted.qualify space ∘ Datasource.name) d := fun d _ => if_neg hspace
    rw [List.map_congr_left hname, ← List.map_map, List.nodup_map_iff (qualify_injective space)]

end Tails

/-- Finitely many names can be renamed injectively along with all others. -/
theorem exists_rename {f : String → String} {names : List String}
    (h : ∀ a ∈ names, ∀ b ∈ names, f a = f b → a = b) :
    ∃ rename, Function.Injective rename ∧ ∀ a ∈ names, rename a = f a := by
  let kept : {a | a ∈ names} ↪ String :=
    ⟨fun a => f a.1, fun a b hab => Subtype.ext (h a.1 a.2 b.1 b.2 hab)⟩
  have hinfinite : Infinite String := by
    apply Infinite.of_injective String.ofList
    intro a b hab
    simpa using congrArg String.toList hab
  have hfew : Cardinal.mk {a | a ∈ names} < Cardinal.mk String :=
    (Cardinal.mk_lt_aleph0_iff.mpr (List.finite_toSet names)).trans_le (Cardinal.aleph0_le_mk String)
  obtain ⟨rename, hrename⟩ := Cardinal.extend_function_of_lt kept hfew ⟨Equiv.refl String⟩
  exact ⟨rename, rename.injective, fun a ha => hrename ⟨a, ha⟩⟩

namespace Compile
open Environment Build
variable {module env env' : Environment} {space : String} {line : Nat}

section Absorbing

/-- A concept at its address in the importing document. -/
def movedEntry (space : String) (c : Concept) : String × Concept :=
  ((c.moved space).address, c.moved space)

def movedSource (space : String) (d : Datasource) : String × Datasource :=
  ((d.requalified space).identifier, d.requalified space)

/-- Concepts that move over go to the end, those left out that are there already. -/
theorem absorbConcepts_entries {cs : List Concept} {u : PUnit}
    (h : Gives (cs.forM fun c => Build.change fun env =>
      env.addConcept (c.moved space) line) env u env') :
    env'.datasources = env.datasources ∧
    ∃ added, added.Sublist (cs.map (movedEntry space)) ∧
      env'.concepts.entries = env.concepts.entries ++ added := by
  induction cs generalizing env with
  | nil =>
    obtain ⟨-, rfl⟩ := gives_pure.mp h
    exact ⟨rfl, [], .slnil, (List.append_nil _).symm⟩
  | cons c cs ih =>
    obtain ⟨_, between, hadd, hrest⟩ := gives_forM_cons.mp h
    obtain ⟨hsources, added, hsub, hentries⟩ := ih hrest
    rcases addConcept_cases (gives_change.mp hadd) with ⟨rfl, -⟩ | ⟨rfl, hnew⟩
    · exact ⟨hsources, added, hsub.cons _, hentries⟩
    · have hfirst : (env.withConcept (c.moved space)).concepts.entries =
          env.concepts.entries ++ [movedEntry space c] := Catalog.entries_insert hnew
      refine ⟨hsources, movedEntry space c :: added, hsub.cons_cons _, ?_⟩
      rw [hentries, hfirst, List.append_assoc]
      rfl

/-- Concepts that are all new all go to the end. -/
theorem absorbConcepts_new {cs : List Concept}
    (hnew : ∀ c ∈ cs, ¬ env.Knows (c.moved space).address)
    (hnodup : (cs.map fun c => (c.moved space).address).Nodup) :
    Gives (cs.forM fun c => Build.change fun env => env.addConcept (c.moved space) line) env ()
      { env with concepts := ⟨env.concepts.entries ++ cs.map (movedEntry space)⟩ } := by
  induction cs generalizing env with
  | nil =>
    rw [List.map_nil, List.append_nil]
    exact gives_pure.mpr ⟨rfl, rfl⟩
  | cons c cs ih =>
    rw [List.forall_mem_cons] at hnew
    rw [List.map_cons, List.nodup_cons] at hnodup
    have hentries : (env.withConcept (c.moved space)).concepts.entries =
        env.concepts.entries ++ [movedEntry space c] := Catalog.entries_insert hnew.1
    have hrest : ∀ e ∈ cs, ¬ (env.withConcept (c.moved space)).Knows (e.moved space).address := by
      intro e he hknown
      rcases (knows_withConcept hnew.1).mp hknown with hold | hsame
      · exact hnew.2 e he hold
      · exact hnodup.1 (List.mem_map.mpr ⟨e, he, hsame⟩)
    have hmore := ih hrest hnodup.2
    rw [hentries, List.append_assoc] at hmore
    exact gives_forM_cons.mpr ⟨(), _, gives_change.mpr (addConcept_of_free hnew.1), hmore⟩

/-- Datasources that moved over were all new, and all went to the end. -/
theorem absorbDatasources_entries {ds : List Datasource} {u : PUnit}
    (h : Gives (ds.forM fun d => Build.change fun env =>
      env.addDatasource (d.requalified space) line) env u env') :
    env' = { env with
      datasources := ⟨env.datasources.entries ++ ds.map (movedSource space)⟩ } ∧
    (∀ d ∈ ds, (d.requalified space).identifier ∉ env.datasources.keys) := by
  induction ds generalizing env with
  | nil =>
    obtain ⟨-, rfl⟩ := gives_pure.mp h
    exact ⟨by simp, by simp⟩
  | cons d ds ih =>
    obtain ⟨_, between, hadd, hrest⟩ := gives_forM_cons.mp h
    obtain ⟨rfl, hnew⟩ := addDatasource_cases (gives_change.mp hadd)
    obtain ⟨rfl, hmore⟩ := ih hrest
    have hentries : (env.withDatasource (d.requalified space)).datasources.entries =
        env.datasources.entries ++ [movedSource space d] := Catalog.entries_insert hnew
    refine ⟨?_, List.forall_mem_cons.mpr ⟨hnew, fun e he hold => hmore e he ?_⟩⟩
    · rw [hentries, List.append_assoc]
      rfl
    · rw [Catalog.keys, hentries, List.map_append]
      exact List.mem_append_left _ hold

/-- Datasources that are all new all go to the end. -/
theorem absorbDatasources_new {ds : List Datasource}
    (hnew : ∀ d ∈ ds, (d.requalified space).identifier ∉ env.datasources.keys)
    (hnodup : (ds.map fun d => (d.requalified space).identifier).Nodup) :
    Gives (ds.forM fun d => Build.change fun env => env.addDatasource (d.requalified space) line)
      env () { env with
        datasources := ⟨env.datasources.entries ++ ds.map (movedSource space)⟩ } := by
  induction ds generalizing env with
  | nil =>
    rw [List.map_nil, List.append_nil]
    exact gives_pure.mpr ⟨rfl, rfl⟩
  | cons d ds ih =>
    rw [List.forall_mem_cons] at hnew
    rw [List.map_cons, List.nodup_cons] at hnodup
    have hadd : env.addDatasource (d.requalified space) line =
        .ok (env.withDatasource (d.requalified space)) := by
      unfold addDatasource
      rw [if_neg fun hcontains => hnew.1 (Catalog.contains_iff.mp hcontains)]
      rfl
    have hentries : (env.withDatasource (d.requalified space)).datasources.entries =
        env.datasources.entries ++ [movedSource space d] := Catalog.entries_insert hnew.1
    have hrest : ∀ e ∈ ds, (e.requalified space).identifier ∉
        (env.withDatasource (d.requalified space)).datasources.keys := by
      intro e he hknown
      rw [Catalog.keys, hentries, List.map_append, List.mem_append] at hknown
      rcases hknown with hold | hsame
      · exact hnew.2 e he hold
      · exact hnodup.1 (List.mem_map.mpr ⟨e, he, List.mem_singleton.mp hsame⟩)
    have hmore := ih hrest hnodup.2
    rw [hentries, List.append_assoc] at hmore
    exact gives_forM_cons.mpr ⟨(), _, gives_change.mpr hadd, hmore⟩

end Absorbing

section Taking

/-- A module whose renaming fits together keeps apart and together what it has to. -/
theorem portable_of_takes {rename : String → String} {u : Unit}
    (habsorb : Gives (absorb module space line) env u env')
    (h : Takes rename space module env env') :
    module.Portable ∧
      ∀ d ∈ module.datasources.values, (d.requalified space).identifier ∉ env.datasources.keys := by
  obtain ⟨_, between, hconcepts, hsources⟩ := gives_bind.mp habsorb
  obtain ⟨hsame, added, hsub, hentries⟩ := absorbConcepts_entries hconcepts
  obtain ⟨rfl, hnew⟩ := absorbDatasources_entries hsources
  -- as many concepts as the module has were added, so all of them were
  have hadded : added = module.userConcepts.map fun c => (rename c.address, c.renamed rename space) :=
    List.append_cancel_left (hentries.symm.trans h.concepts)
  have hall : added = module.userConcepts.map (movedEntry space) :=
    hsub.eq_of_length (by rw [hadded, List.length_map, List.length_map])
  have hconcept : ∀ c ∈ module.userConcepts,
      movedEntry space c = (rename c.address, c.renamed rename space) :=
    List.map_inj_left.mp (hall.symm.trans hadded)
  have hsource : ∀ d ∈ module.datasources.values,
      movedSource space d = ((d.renamed rename space).identifier, d.renamed rename space) := by
    have hds := h.datasources
    dsimp only at hds
    rw [hsame] at hds
    exact List.map_inj_left.mp (List.append_cancel_left hds)
  have htail : ∀ c ∈ module.userConcepts, Dotted.qualify space c.tail = rename c.address := by
    intro c hc
    rw [← Concept.address_moved]
    exact congrArg Prod.fst (hconcept c hc)
  have hmention : ∀ a ∈ module.mentioned, Dotted.qualify space (tailOf a) = rename a := by
    intro a ha
    rw [← requalify_eq]
    rcases List.mem_append.mp ha with ha | ha
    · obtain ⟨c, hc, hmem⟩ := List.mem_flatMap.mp ha
      have hrenamed : c.renamed rename space = c.renamed (requalify space) space :=
        (congrArg Prod.snd (hconcept c hc)).symm
      exact (Concept.eq_of_renamed h.injective hrenamed a hmem).symm
    · obtain ⟨d, hd, hmem⟩ := List.mem_flatMap.mp ha
      have hrenamed : d.renamed rename space = d.renamed (requalify space) space :=
        (congrArg Prod.snd (hsource d hd)).symm
      exact (Datasource.eq_of_renamed hrenamed a hmem).symm
  refine ⟨⟨?_, ?_, ?_, ?_⟩, fun d hd => hsame ▸ hnew d hd⟩
  · have hnodup := h.addresses
    rw [← List.map_congr_left htail] at hnodup
    exact List.Nodup.of_map (Dotted.qualify space) (by rw [List.map_map]; exact hnodup)
  · intro a ha b hb hab
    apply h.injective
    rw [← hmention a ha, ← hmention b hb, hab]
  · intro c hc a ha
    have hsides : c.address = a ↔ Dotted.qualify space c.tail = Dotted.qualify space (tailOf a) := by
      rw [htail c hc, hmention a ha, h.injective.eq_iff]
    rw [hsides, qualify_inj]
  · exact nodup_identifiers.mp h.identifiers

/-- What an import puts behind its namespace for any name of a module: for the addresses of
its concepts what these get, for any other what a mention gets. -/
def placeOf (module : Environment) (a : String) : String :=
  ((module.userConcepts.find? fun c => c.address = a).map Concept.tail).getD (tailOf a)

theorem placeOf_address (ht : module.Tidy) {c : Concept} (hc : c ∈ module.userConcepts) :
    placeOf module c.address = c.tail := by
  unfold placeOf
  cases hfind : module.userConcepts.find? fun d => d.address = c.address with
  | none =>
    have hnone := List.find?_eq_none.mp hfind c hc
    simp at hnone
  | some d =>
    have haddress : d.address = c.address := by simpa using List.find?_some hfind
    have hd : d ∈ module.userConcepts := List.mem_of_find?_eq_some hfind
    -- two concepts under one address are the same
    have hsame : d = c := by
      have hfound := ht.concept?_address (mem_userConcepts_iff.mp hd).1
      rw [haddress, ht.concept?_address (mem_userConcepts_iff.mp hc).1] at hfound
      exact (Option.some.inj hfound).symm
    rw [hsame]
    rfl

theorem placeOf_mention (h : module.Portable) {a : String} (ha : a ∈ module.mentioned) :
    placeOf module a = tailOf a := by
  unfold placeOf
  cases hfind : module.userConcepts.find? fun d => d.address = a with
  | none => rfl
  | some d =>
    have haddress : d.address = a := by simpa using List.find?_some hfind
    exact (h.agree d (List.mem_of_find?_eq_some hfind) a ha).mpr haddress

/-- Places of a portable module tell its names apart. -/
theorem placeOf_injective (ht : module.Tidy) (h : module.Portable) :
    ∀ a ∈ module.userConcepts.map Concept.address ++ module.mentioned,
    ∀ b ∈ module.userConcepts.map Concept.address ++ module.mentioned,
      placeOf module a = placeOf module b → a = b := by
  intro a ha b hb hab
  rcases List.mem_append.mp ha with ha | ha
  · obtain ⟨c, hc, rfl⟩ := List.mem_map.mp ha
    rw [placeOf_address ht hc] at hab
    rcases List.mem_append.mp hb with hb | hb
    · obtain ⟨d, hd, rfl⟩ := List.mem_map.mp hb
      rw [placeOf_address ht hd] at hab
      rw [List.inj_on_of_nodup_map h.concepts hc hd hab]
    · rw [placeOf_mention h hb] at hab
      exact (h.agree c hc b hb).mp hab
  · rw [placeOf_mention h ha] at hab
    rcases List.mem_append.mp hb with hb | hb
    · obtain ⟨d, hd, rfl⟩ := List.mem_map.mp hb
      rw [placeOf_address ht hd] at hab
      exact ((h.agree d hd a ha).mp hab.symm).symm
    · rw [placeOf_mention h hb] at hab
      exact h.mentions a ha b hb hab

/-- A portable module is taken over by an environment that has nothing in its way. -/
theorem takes_of_portable (line : Nat) (ht : module.Tidy) (h : module.Portable)
    (hconcepts : ∀ a ∈ env.concepts.keys, Dotted.under? space a = none)
    (hsources : ∀ d ∈ module.datasources.values,
      (d.requalified space).identifier ∉ env.datasources.keys) :
    ∃ env' rename, Gives (absorb module space line) env () env' ∧
      Takes rename space module env env' := by
  obtain ⟨place, hinjective, hplace⟩ := exists_rename (placeOf_injective ht h)
  let rename := fun a => Dotted.qualify space (place a)
  have hrename : Function.Injective rename := fun a b hab => hinjective (qualify_inj.mp hab)
  have haddress : ∀ c ∈ module.userConcepts, (c.moved space).address = rename c.address := by
    intro c hc
    have hmem : c.address ∈ module.userConcepts.map Concept.address := List.mem_map_of_mem hc
    rw [Concept.address_moved, ← placeOf_address ht hc, ← hplace _ (List.mem_append_left _ hmem)]
  have hmention : ∀ a ∈ module.mentioned, requalify space a = rename a := by
    intro a ha
    rw [requalify_eq, ← placeOf_mention h ha, ← hplace a (List.mem_append_right _ ha)]
  have hconcept : ∀ c ∈ module.userConcepts,
      movedEntry space c = (rename c.address, c.renamed rename space) := by
    intro c hc
    have hmoved : c.moved space = c.renamed rename space := by
      rw [Concept.moved_eq_renamed]
      apply Concept.renamed_congr
      intro a ha
      exact hmention a (List.mem_append_left _ (List.mem_flatMap.mpr ⟨c, hc, ha⟩))
    exact Prod.ext (haddress c hc) hmoved
  have hsource : ∀ d ∈ module.datasources.values,
      movedSource space d = ((d.renamed rename space).identifier, d.renamed rename space) := by
    intro d hd
    have hmoved : d.requalified space = d.renamed rename space := by
      rw [Datasource.requalified_eq_renamed]
      apply Datasource.renamed_congr
      intro a ha
      exact hmention a (List.mem_append_right _ (List.mem_flatMap.mpr ⟨d, hd, ha⟩))
    rw [movedSource, hmoved]
  have hnew : ∀ c ∈ module.userConcepts, ¬ env.Knows (c.moved space).address := by
    intro c hc hknown
    have hunder := hconcepts _ hknown
    rw [Dotted.under?_eq_some_iff.mpr Concept.address_moved] at hunder
    cases hunder
  have haddresses : (module.userConcepts.map fun c => (c.moved space).address).Nodup := by
    have hnodup := h.concepts.map (qualify_injective space)
    rw [List.map_map] at hnodup
    rw [List.map_congr_left fun c _ => Concept.address_moved]
    exact hnodup
  have hidentifiers :
      (module.datasources.values.map fun d => (d.requalified space).identifier).Nodup :=
    nodup_identifiers.mpr h.datasources
  refine ⟨_, rename, gives_bind.mpr ⟨(), _, absorbConcepts_new hnew haddresses,
    absorbDatasources_new hsources hidentifiers⟩, hrename, ?_, ?_, ?_, ?_⟩
  · exact congrArg (env.concepts.entries ++ ·) (List.map_congr_left hconcept)
  · rw [← List.map_congr_left haddress]
    exact haddresses
  · exact congrArg (env.datasources.entries ++ ·) (List.map_congr_left hsource)
  · exact hidentifiers

end Taking

section Stacks
variable {load : Loader} {paths stack stack' : List String} {path text : String} {tree : Tree Leaf}
  {depth : Nat} (hserves : ∀ p text, load p = .ok text → p ∈ paths)
include hserves

/-- A module that compiles does so behind any paths that it does not lead to. -/
theorem compileModule_stack (hroom : ∀ stack, room paths stack ≤ depth)
    (h : compileModule load depth stack path = .ok module)
    (hstack : ∀ s ∈ stack', ¬ Relation.ReflTransGen load.Imports path s) :
    compileModule load depth stack' path = .ok module := by
  have hacc := (acyclic_of_compileModule h).1
  induction hacc generalizing stack stack' module with
  | intro path _ ih =>
    obtain ⟨hacc, -⟩ := acyclic_of_compileModule h
    rw [compileModule_eq hserves (hroom stack)] at h
    rw [compileModule_eq hserves (hroom stack')]
    cases hopen : openModule load stack path with
    | error e =>
      rw [hopen] at h
      cases h
    | ok opened =>
      obtain ⟨text, tree⟩ := opened
      obtain ⟨-, hload, hparse⟩ := openModule_ok.mp hopen
      have hopen' : openModule load stack' path = .ok (text, tree) :=
        openModule_ok.mpr ⟨fun hmem => hstack path hmem .refl, hload, hparse⟩
      rw [hopen] at h
      rw [hopen', ← h]
      apply compileText_congr
      intro q hq
      have himports : load.Imports path q := ⟨text, tree, hload, hparse, hq⟩
      obtain ⟨nested, hnested⟩ := imports_of_compileText h q hq
      change compileModule load depth (stack' ++ [path]) q = compileModule load depth (stack ++ [path]) q
      rw [hnested]
      apply ih q himports hnested
      intro s hs hreach
      rcases List.mem_append.mp hs with hs | hs
      · exact hstack s hs (.head himports hreach)
      · rw [List.mem_singleton.mp hs] at hreach
        exact not_circle_of_acc hacc (Relation.TransGen.head' himports hreach)

/-- A module that compiles by itself compiles the same way when it is imported, unless a
path being compiled comes up again. -/
theorem compileModule_of_compileText (hroom : ∀ stack, room paths stack ≤ depth)
    (hload : load path = .ok text) (hparse : parse text = .ok tree)
    (h : compileText (compileModule load depth []) text tree = .ok module)
    (hstack : ∀ s ∈ stack, ¬ Relation.ReflTransGen load.Imports path s) :
    compileModule load depth stack path = .ok module := by
  have hopen : openModule load stack path = .ok (text, tree) :=
    openModule_ok.mpr ⟨fun hmem => hstack path hmem .refl, hload, hparse⟩
  rw [compileModule_eq hserves (hroom stack), hopen, ← h]
  apply compileText_congr
  intro q hq
  have himports : load.Imports path q := ⟨text, tree, hload, hparse, hq⟩
  obtain ⟨nested, hnested⟩ := imports_of_compileText h q hq
  change compileModule load depth (stack ++ [path]) q = compileModule load depth [] q
  rw [hnested]
  apply compileModule_stack hserves hroom hnested
  intro s hs hreach
  rcases List.mem_append.mp hs with hs | hs
  · exact hstack s hs (.head himports hreach)
  · rw [List.mem_singleton.mp hs] at hreach
    have hacc := acc_of_reaches (acyclic_of_compileModule hnested).1 hreach
    exact not_circle_of_acc hacc (Relation.TransGen.head' himports hreach)

end Stacks

/-- An import statement takes over what its importer gives. -/
theorem importStatement_gives {importer : Importer} {node : Tree Leaf} {path : Leaf}
    {s : Statement} (hpath : node.identifiers.head? = some path)
    (himport : importer path.text = .ok module) :
    Gives (importStatement importer node) env s env' ↔
      ∃ between, Gives (absorb module
          (ImportRecord.space ⟨path.text, node.identifiers[1]?.map Leaf.text⟩) (lineOf node))
          env () between ∧
        env' = between.addImport ⟨path.text, node.identifiers[1]?.map Leaf.text⟩ ∧
        s = .imported ⟨path.text, node.identifiers[1]?.map Leaf.text⟩ (startLine? node) := by
  have hneed : need "import_statement" (lineOf node) "missing path" node.identifiers.head? =
      .ok path := by
    rw [hpath]
    rfl
  constructor
  · intro h
    obtain ⟨leaf, _, hlift, hrest⟩ := gives_bind.mp h
    obtain ⟨hleaf, rfl⟩ := gives_lift.mp hlift
    rw [hneed] at hleaf
    cases hleaf
    obtain ⟨found, _, hlift, hrest⟩ := gives_bind.mp hrest
    obtain ⟨hfound, rfl⟩ := gives_lift.mp hlift
    rw [show importer path.text = .ok found from hfound] at himport
    cases himport
    obtain ⟨_, between, habsorb, hrest⟩ := gives_bind.mp hrest
    obtain ⟨_, after, hmodify, hpure⟩ := gives_bind.mp hrest
    obtain rfl := gives_modify.mp hmodify
    obtain ⟨rfl, rfl⟩ := gives_pure.mp hpure
    exact ⟨between, habsorb, rfl, rfl⟩
  · rintro ⟨between, habsorb, rfl, rfl⟩
    refine gives_bind.mpr ⟨path, env, gives_lift.mpr ⟨hneed, rfl⟩, ?_⟩
    refine gives_bind.mpr ⟨module, env, gives_lift.mpr ⟨himport, rfl⟩, ?_⟩
    refine gives_bind.mpr ⟨(), between, habsorb, ?_⟩
    exact gives_bind.mpr ⟨(), _, gives_modify.mpr rfl, gives_pure.mpr ⟨rfl, rfl⟩⟩

/-- A module that compiles by itself is taken over faithfully by an import statement if and
only if it is portable, and, for an import into the namespace of the document itself, no
datasource is there already by the name of one of its own. -/
theorem importStatement_takes_iff {load : Loader} {paths : List String}
    (hserves : ∀ path text, load path = .ok text → path ∈ paths) {depth : Nat}
    (hdepth : paths.length ≤ depth) {stack : List String} {path : Leaf} {text : String}
    {tree node : Tree Leaf} {module env : Environment}
    (hpath : node.identifiers.head? = some path) (hload : load path.text = .ok text)
    (hparse : parse text = .ok tree)
    (hmodule : compileText (compileModule load depth []) text tree = .ok module)
    (hstack : ∀ s ∈ stack, ¬ Relation.ReflTransGen load.Imports path.text s)
    {space : String}
    (hspace : space = ImportRecord.space ⟨path.text, node.identifiers[1]?.map Leaf.text⟩)
    (hfree : ∀ a ∈ env.concepts.keys ++ env.datasources.keys, Dotted.under? space a = none) :
    (∃ s env' rename,
      Gives (importStatement (compileModule load depth stack) node) env s env' ∧
      Takes rename space module env env') ↔
    module.Portable ∧
      (space = localSpace → ∀ d ∈ module.datasources.values, d.name ∉ env.datasources.keys) := by
  have himport : compileModule load depth stack path.text = .ok module :=
    compileModule_of_compileText hserves (fun _ => room_le.trans hdepth) hload hparse hmodule hstack
  have htidy : module.Tidy := (steps_of_compileText hmodule).tidy tidy_initial
  rw [List.forall_mem_append] at hfree
  constructor
  · rintro ⟨s, env', rename, hgives, htakes⟩
    obtain ⟨between, habsorb, rfl, rfl⟩ := (importStatement_gives hpath himport).mp hgives
    rw [← hspace] at habsorb
    have hbetween : Takes rename space module env between :=
      ⟨htakes.injective, htakes.concepts, htakes.addresses, htakes.datasources, htakes.identifiers⟩
    obtain ⟨hportable, hnew⟩ := portable_of_takes habsorb hbetween
    refine ⟨hportable, fun hlocal d hd => ?_⟩
    have hidentifier : (d.requalified space).identifier = d.name := if_pos hlocal
    rw [← hidentifier]
    exact hnew d hd
  · rintro ⟨hportable, hlocal⟩
    have hnew : ∀ d ∈ module.datasources.values,
        (d.requalified space).identifier ∉ env.datasources.keys := by
      intro d hd hmem
      by_cases hs : space = localSpace
      · have hidentifier : (d.requalified space).identifier = d.name := if_pos hs
        exact hlocal hs d hd (hidentifier ▸ hmem)
      · have hidentifier : (d.requalified space).identifier = Dotted.qualify space d.name :=
          if_neg hs
        have hunder := hfree.2 _ hmem
        rw [Dotted.under?_eq_some_iff.mpr hidentifier] at hunder
        cases hunder
    obtain ⟨between, rename, habsorb, htakes⟩ :=
      takes_of_portable (lineOf node) htidy hportable hfree.1 hnew
    rw [hspace] at habsorb
    refine ⟨_, _, rename, (importStatement_gives hpath himport).mpr ⟨between, habsorb, rfl, rfl⟩, ?_⟩
    exact ⟨htakes.injective, htakes.concepts, htakes.addresses, htakes.datasources,
      htakes.identifiers⟩

/-- A module that imports two others with a datasource each, the second under this name. -/
def bothSources (second : String) : Library :=
  ⟨[("a", "key x int;\nproperty x.p string;\ndatasource d (x, p) grain (x) address t;"),
    ("b", "key y int;\nauto z <- y + 1;\ndatasource " ++ second ++ " (y) address u;"),
    ("m", "import a;\nimport b;")], fun _ => "missing"⟩

/-- As long as the names of the datasources differ, an import takes the module over. -/
theorem importStatement_takes_iff_bothSources :
    ∃ tree module document node, parse "import a;\nimport b;" = .ok tree ∧
      compileText (bothSources "e").importer "import a;\nimport b;" tree = .ok module ∧
      parse "import m as n;" = .ok document ∧ document.nodes = [node] ∧
      ∃ s env' rename, Gives (importStatement (bothSources "e").importer node) .initial s env' ∧
        Takes rename "n" module .initial env' := by
  obtain ⟨tree, hparse, hcomputed⟩ : ∃ tree, parse "import a;\nimport b;" = .ok tree ∧
      ((compileText (bothSources "e").importer "import a;\nimport b;" tree).toOption.map
        fun module => decide module.Portable) = some true := by
    apply exists_tree
    decide +kernel
  obtain ⟨document, hdocument, hnames⟩ : ∃ document, parse "import m as n;" = .ok document ∧
      some (document.nodes.map fun node => node.identifiers.map Leaf.text) =
        some [["m", "n"]] := by
    apply exists_tree
    decide +kernel
  obtain ⟨node, hnode, hwords⟩ := List.map_eq_singleton_iff.mp (Option.some.inj hnames)
  obtain ⟨path, rest, hidentifiers, hpath, hrest⟩ := List.map_eq_cons_iff.mp hwords
  obtain ⟨name, hname, htext⟩ := List.map_eq_singleton_iff.mp hrest
  have hhead : node.identifiers.head? = some path := by rw [hidentifiers]; rfl
  have hspace : "n" = ImportRecord.space ⟨path.text, node.identifiers[1]?.map Leaf.text⟩ := by
    rw [hidentifiers, hname, ← htext]
    rfl
  cases hmodule : compileText (bothSources "e").importer "import a;\nimport b;" tree with
  | error e =>
    rw [hmodule] at hcomputed
    cases hcomputed
  | ok module =>
    rw [hmodule] at hcomputed
    have hportable : module.Portable := of_decide_eq_true (Option.some.inj hcomputed)
    have hload : (bothSources "e").load path.text = .ok "import a;\nimport b;" := by
      rw [hpath]
      rfl
    have hfree : ∀ a ∈ Environment.initial.concepts.keys ++ Environment.initial.datasources.keys,
        Dotted.under? "n" a = none := by decide
    have hstack : ∀ s ∈ ([] : List String),
        ¬ Relation.ReflTransGen (bothSources "e").load.Imports path.text s := by simp
    have htakes := (importStatement_takes_iff (fun _ _ h => Library.serves h)
      (by rw [List.length_map]) hhead hload hparse hmodule hstack hspace hfree).mpr
      ⟨hportable, fun h => absurd h (by decide)⟩
    exact ⟨tree, module, document, node, hparse, hmodule, hdocument, hnode, htakes⟩

/-- Two datasources that the module tells apart by the namespaces of its own imports get
one identifier, and the import fails. -/
theorem importStatement_fails_bothSources :
    ∃ tree module document, parse "import a;\nimport b;" = .ok tree ∧
      compileText (bothSources "d").importer "import a;\nimport b;" tree = .ok module ∧
      parse "import m;" = .ok document ∧
      (∀ a ∈ Environment.initial.concepts.keys ++ Environment.initial.datasources.keys,
        Dotted.under? "m" a = none) ∧
      (Compilation.run (bothSources "d").importer .initial "import m;" document).error =
        some (.duplicateDatasource "m.d" 1) := by
  obtain ⟨tree, hparse, hcomputed⟩ : ∃ tree, parse "import a;\nimport b;" = .ok tree ∧
      ((compileText (bothSources "d").importer "import a;\nimport b;" tree).toOption.map
        fun _ => ()) = some () := by
    apply exists_tree
    decide +kernel
  obtain ⟨document, hdocument, herror⟩ : ∃ document, parse "import m;" = .ok document ∧
      (Compilation.run (bothSources "d").importer .initial "import m;" document).error =
        some (.duplicateDatasource "m.d" 1) := by
    apply exists_tree
    decide +kernel
  cases hmodule : compileText (bothSources "d").importer "import a;\nimport b;" tree with
  | error e =>
    rw [hmodule] at hcomputed
    cases hcomputed
  | ok module =>
    exact ⟨tree, module, document, hparse, hmodule, hdocument, by decide, herror⟩

end Compile
end ConceptQuery
