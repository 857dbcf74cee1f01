import ConceptQuery.Proofs.Strays

/-! # Compiling only adds

Whatever a step of the compiler does to an environment, it enters concepts and
datasources under names that were free, or records an import. This holds of a step
that fails as well: what it entered before stays, and nothing else is touched. So the
environment before a step heads the one after it, and if every entry had the name that
it gives itself before, every entry has afterwards. Whatever compiling adds could also have
been asked of the environment, one `Environment.Request` after another.
-/
namespace ConceptQuery
namespace Environment

/-- One thing entered under a name that was free, or one import recorded. -/
inductive Addition : Environment → Environment → Prop where
  | concept {env c} (hnew : ¬ env.Knows c.address) : Addition env (env.withConcept c)
  | datasource {env d} (hnew : d.identifier ∉ env.datasources.keys) :
      Addition env (env.withDatasource d)
  | imported {env r} : Addition env (env.addImport r)

abbrev Additions : Environment → Environment → Prop :=
  Relation.ReflTransGen Addition

/-- All concepts and all datasources of the one stand in front in the other, under the
same names and in the same order. -/
structure Heads (env env' : Environment) : Prop where
  concepts : env.concepts.entries <+: env'.concepts.entries
  datasources : env.datasources.entries <+: env'.datasources.entries

/-- Every concept is kept under its address and every datasource under its identifier,
and no name is used twice. -/
structure Filed (env : Environment) : Prop extends env.Tidy where
  identified : ∀ {key d}, (key, d) ∈ env.datasources.entries → key = d.identifier
  nodup_datasources : env.datasources.keys.Nodup

variable {env env' env'' : Environment}

theorem Heads.refl (env : Environment) : env.Heads env :=
  ⟨List.prefix_refl _, List.prefix_refl _⟩

theorem Heads.trans (h : env.Heads env') (h' : env'.Heads env'') : env.Heads env'' :=
  ⟨h.concepts.trans h'.concepts, h.datasources.trans h'.datasources⟩

theorem Addition.heads (h : Addition env env') : env.Heads env' := by
  cases h with
  | concept hnew =>
    refine ⟨?_, List.prefix_refl _⟩
    rw [withConcept, Catalog.entries_insert hnew]
    exact List.prefix_append _ _
  | datasource hnew =>
    refine ⟨List.prefix_refl _, ?_⟩
    rw [withDatasource, Catalog.entries_insert hnew]
    exact List.prefix_append _ _
  | imported => exact ⟨List.prefix_refl _, List.prefix_refl _⟩

theorem Additions.heads (h : Additions env env') : env.Heads env' := by
  induction h with
  | refl => exact .refl _
  | tail _ hlast ih => exact ih.trans hlast.heads

theorem filed_initial : Filed initial where
  toTidy := tidy_initial
  identified hmem := by cases hmem
  nodup_datasources := List.nodup_nil

theorem Filed.withDatasource {d : Datasource} (h : env.Filed)
    (hnew : d.identifier ∉ env.datasources.keys) : (env.withDatasource d).Filed where
  toTidy := ⟨h.named, h.nodup⟩
  identified hmem := by
    rcases (Catalog.mem_entries_insert hnew).mp hmem with hold | hlast
    · exact h.identified hold
    · obtain ⟨rfl, rfl⟩ := Prod.mk.inj hlast
      rfl
  nodup_datasources := Catalog.nodup_insert hnew h.nodup_datasources

theorem Addition.filed (h : Addition env env') (hf : env.Filed) : env'.Filed := by
  cases h with
  | concept hnew => exact ⟨hf.toTidy.withConcept hnew, hf.identified, hf.nodup_datasources⟩
  | datasource hnew => exact hf.withDatasource hnew
  | imported => exact ⟨⟨hf.named, hf.nodup⟩, hf.identified, hf.nodup_datasources⟩

theorem Additions.filed (h : Additions env env') (hf : env.Filed) : env'.Filed := by
  induction h with
  | refl => exact hf
  | tail _ hlast ih => exact hlast.filed ih

theorem additions_addConcept {c : Concept} {line : Nat} (h : env.addConcept c line = .ok env') :
    Additions env env' := by
  rcases addConcept_cases h with ⟨rfl, -⟩ | ⟨rfl, hnew⟩
  · exact .refl
  · exact .single (.concept hnew)

theorem additions_addDatasource {d : Datasource} {line : Nat}
    (h : env.addDatasource d line = .ok env') : Additions env env' := by
  obtain ⟨rfl, hnew⟩ := addDatasource_cases h
  exact .single (.datasource hnew)

theorem addDatasource_of_free {d : Datasource} {line : Nat}
    (h : d.identifier ∉ env.datasources.keys) :
    env.addDatasource d line = .ok (env.withDatasource d) :=
  if_neg fun htaken => h (Catalog.contains_iff.mp htaken)

section Requests

/-- What can be asked of an environment. Nothing else changes one. -/
inductive Request where
  | space (name : String)
  | concept (c : Concept) (line : Nat)
  | datasource (d : Datasource) (line : Nat)
  | imported (r : ImportRecord)

/-- The environment after a request. One that is refused changes nothing. -/
def answer (env : Environment) : Request → Environment
  | .space name => { env with space := name }
  | .concept c line => (env.addConcept c line).toOption.getD env
  | .datasource d line => (env.addDatasource d line).toOption.getD env
  | .imported r => env.addImport r

/-- The environment after some requests, in their order. -/
def after (env : Environment) (requests : List Request) : Environment :=
  requests.foldl answer env

theorem Filed.answer (h : env.Filed) (request : Request) : (env.answer request).Filed := by
  cases request with
  | space name => exact ⟨⟨h.named, h.nodup⟩, h.identified, h.nodup_datasources⟩
  | concept c line =>
    rw [Environment.answer]
    cases hadd : env.addConcept c line with
    | ok env' => exact (additions_addConcept hadd).filed h
    | error e => exact h
  | datasource d line =>
    rw [Environment.answer]
    cases hadd : env.addDatasource d line with
    | ok env' => exact (additions_addDatasource hadd).filed h
    | error e => exact h
  | imported r => exact Addition.imported.filed h

/-- Whatever is asked, no name is used twice. -/
theorem Filed.after (h : env.Filed) (requests : List Request) : (env.after requests).Filed := by
  induction requests generalizing env with
  | nil => exact h
  | cons request requests ih => exact ih (h.answer request)

/-- What compiling adds could have been asked for. -/
theorem Additions.exists_requests (h : Additions env env') :
    ∃ requests, env' = env.after requests := by
  induction h with
  | refl => exact ⟨[], rfl⟩
  | @tail between last _ hlast ih =>
    obtain ⟨requests, rfl⟩ := ih
    have hmore : ∀ request, (env.after requests).answer request =
        env.after (requests ++ [request]) := fun request => by
      rw [after, after, List.foldl_append, List.foldl_cons, List.foldl_nil]
    cases hlast with
    | @concept c hnew =>
      refine ⟨requests ++ [.concept c 0], ?_⟩
      rw [← hmore, answer, addConcept_of_free hnew]
      rfl
    | @datasource d hnew =>
      refine ⟨requests ++ [.datasource d 0], ?_⟩
      rw [← hmore, answer, addDatasource_of_free hnew]
      rfl
    | @imported r => exact ⟨requests ++ [Request.imported r], hmore (.imported r)⟩

end Requests
end Environment

namespace Compile
open Environment

namespace Build
variable {α β : Type}

/-- However the step ends, the environment that it leaves has only been added to. -/
def Adds (step : Build α) : Prop :=
  ∀ env, Additions env (step.run.run env).2

theorem adds_pure (a : α) : Adds (pure a : Build α) :=
  fun _ => .refl

theorem adds_throw (e : CompileError) : Adds (throw e : Build α) :=
  fun _ => .refl

theorem adds_get : Adds (get : Build Environment) :=
  fun _ => .refl

theorem adds_lift (result : Environment → Except CompileError α) : Adds (Build.lift result) := by
  intro env
  rw [run_lift]

theorem adds_change {result : Environment → Except CompileError Environment}
    (h : ∀ env env', result env = .ok env' → Additions env env') : Adds (Build.change result) := by
  intro env
  rw [run_change]
  cases hresult : result env with
  | ok env' => exact h env env' hresult
  | error e => exact .refl

theorem Adds.bind {step : Build α} {next : α → Build β} (h : Adds step)
    (hnext : ∀ a, Adds (next a)) : Adds (step >>= next) := by
  intro env
  have hstep := h env
  rw [run_bind]
  rcases hrun : step.run.run env with ⟨result, between⟩
  rw [hrun] at hstep
  cases result with
  | ok a => exact hstep.trans (hnext a between)
  | error e => exact hstep

theorem Adds.map {step : Build α} (h : Adds step) (f : α → β) : Adds (f <$> step) :=
  h.bind fun a => adds_pure (f a)

theorem adds_forM {xs : List α} {body : α → Build PUnit} (h : ∀ x, Adds (body x)) :
    Adds (xs.forM body) := by
  induction xs with
  | nil => exact adds_pure _
  | cons x xs ih => exact (h x).bind fun _ => ih

theorem adds_mapM {xs : List α} {body : α → Build β} (h : ∀ x, Adds (body x)) :
    Adds (xs.mapM body) := by
  induction xs with
  | nil => exact adds_pure _
  | cons x xs ih =>
    rw [List.mapM_cons]
    exact (h x).bind fun _ => ih.map _

end Build

open Build
variable {importer : Importer} {lines : List (List Char)}

section Declaring

theorem adds_register (c : Concept) (line : Nat) : Adds (register c line) := by
  refine (adds_change fun _ _ => additions_addConcept).bind fun _ => ?_
  split
  · exact adds_change fun _ _ => additions_addConcept
  · exact adds_pure _

/-- This also holds of a module that stops moving over half way. -/
theorem adds_absorb (module : Environment) (space : String) (line : Nat) :
    Adds (absorb module space line) := by
  have hconcepts : ∀ c : Concept, Adds (Build.change fun env => env.addConcept c line) :=
    fun _ => adds_change fun _ _ => additions_addConcept
  have hdatasources : ∀ d : Datasource, Adds (Build.change fun env => env.addDatasource d line) :=
    fun _ => adds_change fun _ _ => additions_addDatasource
  exact (adds_forM fun _ => hconcepts _).bind fun _ => adds_forM fun _ => hdatasources _

theorem adds_importStatement (importer : Importer) (node : Tree Leaf) :
    Adds (importStatement importer node) := by
  have hrecord : ∀ record : ImportRecord,
      Adds (modify fun env => env.addImport record : Build Unit) :=
    fun _ _ => .single .imported
  refine (adds_lift _).bind fun path => (adds_lift _).bind fun module => ?_
  exact (adds_absorb module _ _).bind fun _ => (hrecord _).bind fun _ => adds_pure _

theorem adds_tryConcept (lines : List (List Char)) (node : Tree Leaf) :
    Adds (tryConcept lines node) := by
  refine adds_get.bind fun env => ?_
  split
  · exact (adds_register _ _).bind fun _ => adds_pure _
  · exact adds_pure _
  · exact adds_throw _

theorem adds_firstPass (importer : Importer) (lines : List (List Char)) (node : Tree Leaf) :
    Adds (firstPass importer lines node) := by
  by_cases hconcept : isConceptNode node = true
  · rw [firstPass_of_concept hconcept]
    exact (adds_tryConcept lines node).map _
  · unfold firstPass
    split
    · exact (adds_lift _).bind fun c => (adds_register c _).bind fun _ => adds_pure _
    · exact absurd (by simp [isConceptNode, *]) hconcept
    · exact absurd (by simp [isConceptNode, *]) hconcept
    · exact (adds_importStatement importer node).bind fun _ => adds_pure _
    · exact (adds_lift _).bind fun _ => adds_pure _
    · exact adds_pure _
    · exact adds_pure _
    · exact adds_pure _
    · exact adds_pure _
    · exact adds_throw _

end Declaring

section Resolving

theorem adds_sweep (lines : List (List Char)) (slots : List Slot) : Adds (sweep lines slots) := by
  induction slots with
  | nil => exact adds_pure _
  | cons slot slots ih =>
    cases slot with
    | ready statement => exact ih.bind fun _ => adds_pure _
    | pending node =>
      rw [sweep]
      split
      · refine (adds_tryConcept lines node).bind fun result => ?_
        split
        · exact ih.bind fun _ => adds_pure _
        · exact ih.bind fun _ => adds_pure _
      · exact ih.bind fun _ => adds_pure _

theorem adds_resolvePending (lines : List (List Char)) (fuel : Nat) (slots : List Slot) :
    Adds (resolvePending lines fuel slots) := by
  induction fuel generalizing slots with
  | zero => exact adds_pure _
  | succ fuel ih =>
    refine (adds_sweep lines slots).bind fun round => ?_
    split
    · exact adds_pure _
    · split
      · exact ih _
      · exact adds_throw _

theorem adds_datasource (node : Tree Leaf) : Adds (datasource node) := by
  refine (adds_lift _).bind fun d => ?_
  exact (adds_change fun _ _ => additions_addDatasource).bind fun _ => adds_pure _

theorem adds_bindDatasources (slots : List Slot) : Adds (bindDatasources slots) := by
  induction slots with
  | nil => exact adds_pure _
  | cons slot slots ih =>
    cases slot with
    | ready statement => exact ih.bind fun _ => adds_pure _
    | pending node =>
      have hrest : ∀ slot, Adds (do return slot :: (← bindDatasources slots) : Build (List Slot)) :=
        fun _ => ih.bind fun _ => adds_pure _
      rw [bindDatasources]
      split
      · exact ((adds_datasource node).map _).bind hrest
      · exact hrest _

/-- The concepts that a select declares on the way are the only thing queries add. -/
theorem adds_selectItem (line : Nat) (item : Tree Leaf) : Adds (selectItem line item) := by
  unfold selectItem
  dsimp only
  split
  · exact (adds_lift _).bind fun _ => adds_pure _
  · exact (adds_lift _).bind fun c => (adds_register c _).bind fun _ => adds_pure _
  · exact adds_throw _

theorem adds_select (node : Tree Leaf) : Adds (select node) := by
  have hitems : ∀ line items, Adds (selectItems line items) := by
    intro line items
    rw [selectItems_eq_mapM]
    exact adds_mapM (adds_selectItem line)
  refine (hitems _ _).bind fun items => ?_
  exact (adds_lift _).bind fun _ => (adds_lift _).bind fun _ => (adds_lift _).bind fun _ =>
    adds_pure _

theorem adds_query (node : Tree Leaf) : Adds (query node) := by
  unfold query
  split
  · exact (adds_select node).map _
  · have hparts : ∀ nodes, Adds (selects nodes) := by
      intro nodes
      rw [selects_eq_mapM]
      exact adds_mapM adds_select
    exact (hparts _).bind fun _ => (adds_lift _).bind fun _ => adds_pure _
  · exact (adds_lift _).bind fun _ => (adds_select _).bind fun _ => adds_pure _
  · exact adds_throw _

theorem adds_finish (slots : List Slot) : Adds (finish slots) := by
  induction slots with
  | nil => exact adds_pure _
  | cons slot slots ih =>
    cases slot with
    | ready statement => exact ih.bind fun _ => adds_pure _
    | pending node => exact (adds_query node).bind fun _ => ih.bind fun _ => adds_pure _

theorem adds_secondPass (lines : List (List Char)) (slots : List Slot) :
    Adds (secondPass lines slots) := by
  refine (adds_resolvePending lines _ slots).bind fun slots => ?_
  exact (adds_bindDatasources slots).bind adds_finish

end Resolving
end Compile
end ConceptQuery
