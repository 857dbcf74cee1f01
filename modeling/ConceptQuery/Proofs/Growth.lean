import Mathlib.Logic.Relation
import ConceptQuery.Compile.Pass
import ConceptQuery.Proofs.Known

/-! # How an environment grows

Compiling does only a few things to an environment, and `Environment.Step` says
which: it adds a concept or a datasource of the document, whose mentions are known
by then; it moves one over from a module, after those that come before it there;
or it records an import. Every pass is a run of such steps, and every statement
that it returns mentions only what is known in the end.
-/
namespace ConceptQuery

namespace Environment

def withConcept (env : Environment) (c : Concept) : Environment :=
  { env with concepts := env.concepts.insert c.address c }

def withDatasource (env : Environment) (d : Datasource) : Environment :=
  { env with datasources := env.datasources.insert d.identifier d }

/-- One thing that compiling does to an environment. -/
inductive Step (importer : Compile.Importer) : Environment → Environment → Prop where
  | concept {env c} (hnew : ¬ env.Knows c.address) (hown : Compile.Own env c) :
      Step importer env (env.withConcept c)
  | moved {env path module space front c back} (himport : importer path = .ok module)
      (hsplit : module.userConcepts = front ++ c :: back)
      (hfront : ∀ e ∈ front, env.Knows (e.moved space).address)
      (hnew : ¬ env.Knows (c.moved space).address) :
      Step importer env (env.withConcept (c.moved space))
  | datasource {env d} (hnew : d.identifier ∉ env.datasources.keys)
      (hknown : env.KnowsAll d.mentions) : Step importer env (env.withDatasource d)
  | movedDatasource {env path module space d} (himport : importer path = .ok module)
      (hmem : d ∈ module.datasources.values)
      (hall : ∀ e ∈ module.userConcepts, env.Knows (e.moved space).address)
      (hnew : (d.requalified space).identifier ∉ env.datasources.keys) :
      Step importer env (env.withDatasource (d.requalified space))
  | imported {env r} : Step importer env (env.addImport r)

/-- Any number of such things, one after the other. -/
abbrev Steps (importer : Compile.Importer) : Environment → Environment → Prop :=
  Relation.ReflTransGen (Step importer)

variable {importer : Compile.Importer} {env env' : Environment} {a : String}

theorem keys_withConcept {c : Concept} (h : ¬ env.Knows c.address) :
    (env.withConcept c).concepts.keys = env.concepts.keys ++ [c.address] :=
  Catalog.keys_insert h

theorem knows_withConcept {c : Concept} (h : ¬ env.Knows c.address) :
    (env.withConcept c).Knows a ↔ env.Knows a ∨ a = c.address := by
  rw [Knows, keys_withConcept h, List.mem_append, List.mem_singleton]
  rfl

theorem Step.knows (h : Step importer env env') (ha : env.Knows a) : env'.Knows a := by
  cases h with
  | concept hnew hown => exact (knows_withConcept hnew).mpr (.inl ha)
  | moved himport hsplit hfront hnew => exact (knows_withConcept hnew).mpr (.inl ha)
  | datasource hnew hknown => exact ha
  | movedDatasource himport hmem hall hnew => exact ha
  | imported => exact ha

theorem Steps.knows (h : Steps importer env env') (ha : env.Knows a) : env'.Knows a := by
  induction h with
  | refl => exact ha
  | tail _ hstep ih => exact hstep.knows ih

theorem Steps.knowsAll {addresses : List String} (h : Steps importer env env')
    (ha : env.KnowsAll addresses) : env'.KnowsAll addresses :=
  fun a hmem => h.knows (ha a hmem)

theorem Step.space_eq (h : Step importer env env') : env'.space = env.space := by
  cases h <;> rfl

theorem Steps.space_eq (h : Steps importer env env') : env'.space = env.space := by
  induction h with
  | refl => rfl
  | tail _ hstep ih => exact hstep.space_eq.trans ih

/-- A concept is added, or it is there already. -/
theorem addConcept_cases {c : Concept} {line : Nat} (h : env.addConcept c line = .ok env') :
    env' = env ∧ env.Knows c.address ∨ env' = env.withConcept c ∧ ¬ env.Knows c.address := by
  unfold addConcept at h
  split at h
  · rename_i existing hexisting
    split at h
    · exact .inl ⟨(Except.ok.inj h).symm, knows_of_concept? hexisting⟩
    · cases h
  · rename_i hnone
    exact .inr ⟨(Except.ok.inj h).symm, concept?_eq_none_iff.mp hnone⟩

theorem addConcept_of_free {c : Concept} {line : Nat} (h : ¬ env.Knows c.address) :
    env.addConcept c line = .ok (env.withConcept c) := by
  unfold addConcept
  rw [concept?_eq_none_iff.mpr h]
  rfl

theorem addDatasource_cases {d : Datasource} {line : Nat}
    (h : env.addDatasource d line = .ok env') :
    env' = env.withDatasource d ∧ d.identifier ∉ env.datasources.keys := by
  unfold addDatasource at h
  split at h
  · cases h
  · rename_i hnew
    exact ⟨(Except.ok.inj h).symm, fun hmem => hnew (Catalog.contains_iff.mpr hmem)⟩

end Environment

namespace Compile
open Environment Build
variable {importer : Importer} {env env' : Environment} {line : Nat}

section Adding

theorem steps_addConcept {c : Concept} (hc : Own env c) (h : env.addConcept c line = .ok env') :
    Steps importer env env' ∧ env'.Knows c.address := by
  rcases addConcept_cases h with ⟨rfl, hknown⟩ | ⟨rfl, hnew⟩
  · exact ⟨.refl, hknown⟩
  · exact ⟨.single (.concept hnew hc), (knows_withConcept hnew).mpr (.inr rfl)⟩

theorem own_countOf {key : Concept} (hspace : key.space = env.space)
    (hkey : env.Knows key.address) : Own env (countOf key) := by
  refine ⟨hspace, ?_, Concept.classified_derived rfl rfl⟩
  intro a ha
  have : a = key.address := by
    simpa [countOf, Concept.derived, Concept.mentions, Concept.uses, Expr.mentions,
      Expr.mentionsAll] using ha
  rw [this]
  exact hkey

theorem steps_register {c : Concept} {u : Unit} (hc : Own env c)
    (h : Gives (register c line) env u env') :
    Steps importer env env' ∧ env'.Knows c.address := by
  obtain ⟨_, between, hadd, hcount⟩ := gives_bind.mp h
  obtain ⟨hsteps, hknown⟩ : Steps importer env between ∧ between.Knows c.address :=
    steps_addConcept hc (gives_change.mp hadd)
  split at hcount
  · have hspace : c.space = between.space := hc.space.trans hsteps.space_eq.symm
    obtain ⟨hmore, -⟩ : Steps importer between env' ∧ _ :=
      steps_addConcept (own_countOf hspace hknown) (gives_change.mp hcount)
    exact ⟨hsteps.trans hmore, hmore.knows hknown⟩
  · obtain ⟨-, rfl⟩ := gives_pure.mp hcount
    exact ⟨hsteps, hknown⟩

theorem gives_forM_cons {α : Type} {x : α} {xs : List α} {body : α → Build PUnit} {u : PUnit} :
    Gives ((x :: xs).forM body) env u env' ↔
      ∃ v between, Gives (body x) env v between ∧ Gives (xs.forM body) between u env' :=
  gives_bind

/-- The concepts of a module move over in their order. -/
theorem steps_absorbConcepts {path space : String} {module : Environment} {u : PUnit}
    (himport : importer path = .ok module) {front back : List Concept}
    (hsplit : module.userConcepts = front ++ back)
    (hfront : ∀ e ∈ front, env.Knows (e.moved space).address)
    (h : Gives (back.forM fun c => Build.change fun env =>
      env.addConcept (c.moved space) line) env u env') :
    Steps importer env env' ∧ ∀ e ∈ module.userConcepts, env'.Knows (e.moved space).address := by
  induction back generalizing front env with
  | nil =>
    obtain ⟨-, rfl⟩ := gives_pure.mp h
    rw [List.append_nil] at hsplit
    exact ⟨.refl, hsplit ▸ hfront⟩
  | cons c back ih =>
    obtain ⟨_, between, hadd, hrest⟩ := gives_forM_cons.mp h
    have hstep : Steps importer env between ∧ between.Knows (c.moved space).address := by
      rcases addConcept_cases (gives_change.mp hadd) with ⟨rfl, hknown⟩ | ⟨rfl, hnew⟩
      · exact ⟨.refl, hknown⟩
      · exact ⟨.single (.moved himport hsplit hfront hnew), (knows_withConcept hnew).mpr (.inr rfl)⟩
    have hnext : ∀ e ∈ front ++ [c], between.Knows (e.moved space).address := by
      intro e he
      rcases List.mem_append.mp he with he | he
      · exact hstep.1.knows (hfront e he)
      · rw [List.mem_singleton.mp he]
        exact hstep.2
    obtain ⟨hmore, hall⟩ := ih (by rw [hsplit, List.append_assoc]; rfl) hnext hrest
    exact ⟨hstep.1.trans hmore, hall⟩

theorem steps_absorbDatasources {path space : String} {module : Environment} {u : PUnit}
    (himport : importer path = .ok module)
    (hall : ∀ e ∈ module.userConcepts, env.Knows (e.moved space).address)
    {sources : List Datasource} (hmem : ∀ d ∈ sources, d ∈ module.datasources.values)
    (h : Gives (sources.forM fun d => Build.change fun env =>
      env.addDatasource (d.requalified space) line) env u env') :
    Steps importer env env' := by
  induction sources generalizing env with
  | nil =>
    obtain ⟨-, rfl⟩ := gives_pure.mp h
    exact .refl
  | cons d sources ih =>
    obtain ⟨_, between, hadd, hrest⟩ := gives_forM_cons.mp h
    obtain ⟨rfl, hnew⟩ := addDatasource_cases (gives_change.mp hadd)
    have hstep : Step importer env _ :=
      .movedDatasource himport (hmem d (by simp)) hall hnew
    exact .head hstep (ih (fun e he => hstep.knows (hall e he))
      (fun e he => hmem e (by simp [he])) hrest)

theorem steps_absorb {path space : String} {module : Environment} {u : Unit}
    (himport : importer path = .ok module) (h : Gives (absorb module space line) env u env') :
    Steps importer env env' := by
  obtain ⟨_, between, hconcepts, hsources⟩ := gives_bind.mp h
  have hsplit : module.userConcepts = [] ++ module.userConcepts := rfl
  obtain ⟨hsteps, hall⟩ := steps_absorbConcepts himport hsplit (by simp) hconcepts
  exact hsteps.trans (steps_absorbDatasources himport hall (fun _ hd => hd) hsources)

end Adding

/-- The environment grew, and in the end it has what was mentioned on the way. -/
structure Brings (importer : Importer) (env env' : Environment) (mentioned : List String) :
    Prop where
  steps : Steps importer env env'
  known : env'.KnowsAll mentioned

theorem Brings.append {between : Environment} {xs ys : List String}
    (h : Brings importer env between xs) (h' : Brings importer between env' ys) :
    Brings importer env env' (xs ++ ys) :=
  ⟨h.steps.trans h'.steps, knowsAll_append.mpr ⟨h'.steps.knowsAll h.known, h'.known⟩⟩

section Selects

theorem known_named (name? : Option Leaf) : Yields env.Knows (do
    let leaf ← need "select_item" line "missing concept" name?
    resolveNow env leaf.text (leafLine leaf line)) :=
  (ends_trivial _).bind fun leaf _ => known_resolveNow leaf.text

theorem brings_selectItem {item : Tree Leaf} {i : SelectItem}
    (h : Gives (selectItem line item) env i env') : Brings importer env env' [i.concept] := by
  unfold selectItem at h
  dsimp only at h
  split at h
  · obtain ⟨concept, between, hlift, hpure⟩ := gives_bind.mp h
    obtain ⟨hresolve, rfl⟩ := gives_lift.mp hlift
    obtain ⟨rfl, rfl⟩ := gives_pure.mp hpure
    exact ⟨.refl, by simpa [KnowsAll] using (known_named _).of_eq_ok hresolve⟩
  · obtain ⟨c, between, hlift, hrest⟩ := gives_bind.mp h
    obtain ⟨hc, rfl⟩ := gives_lift.mp hlift
    obtain ⟨_, between, hregister, hpure⟩ := gives_bind.mp hrest
    obtain ⟨rfl, rfl⟩ := gives_pure.mp hpure
    obtain ⟨hsteps, hknown⟩ : Steps importer env between ∧ between.Knows c.address :=
      steps_register ((own_transformedConcept _).of_eq_ok hc) hregister
    exact ⟨hsteps, by simpa [KnowsAll] using hknown⟩
  · exact absurd h not_gives_throw

/-- The mentions of steps in a row. -/
theorem brings_mapM {α β : Type} {xs : List α} {body : α → Build β} {mentions : β → List String}
    {bs : List β} (hbody : ∀ {x env b env'}, Gives (body x) env b env' →
      Brings importer env env' (mentions b))
    (h : Gives (xs.mapM body) env bs env') : Brings importer env env' (bs.flatMap mentions) := by
  induction xs generalizing env bs with
  | nil =>
    obtain ⟨rfl, rfl⟩ := gives_pure.mp h
    exact ⟨.refl, by simp [KnowsAll]⟩
  | cons x xs ih =>
    obtain ⟨b, between, more, hfirst, hmore, rfl⟩ := gives_mapM_cons.mp h
    rw [List.flatMap_cons]
    exact (hbody hfirst).append (ih hmore)

theorem brings_selectItems {nodes : List (Tree Leaf)} {items : List SelectItem}
    (h : Gives (selectItems line nodes) env items env') :
    Brings importer env env' (items.map SelectItem.concept) := by
  rw [selectItems_eq_mapM] at h
  rw [List.map_eq_flatMap]
  exact brings_mapM brings_selectItem h

theorem brings_select {node : Tree Leaf} {s : Select} (h : Gives (select node) env s env') :
    Brings importer env env' s.mentions := by
  obtain ⟨items, between, hitems, hrest⟩ := gives_bind.mp h
  obtain ⟨condition, _, hlift, hrest⟩ := gives_bind.mp hrest
  obtain ⟨hcondition, rfl⟩ := gives_lift.mp hlift
  obtain ⟨orderBy, _, hlift, hrest⟩ := gives_bind.mp hrest
  obtain ⟨horderBy, rfl⟩ := gives_lift.mp hlift
  obtain ⟨limit, _, hlift, hpure⟩ := gives_bind.mp hrest
  obtain ⟨-, rfl⟩ := gives_lift.mp hlift
  obtain ⟨rfl, rfl⟩ := gives_pure.mp hpure
  have hclauses : Brings importer between between
      ((condition.toList ++ orderBy.map OrderItem.expr).flatMap Expr.mentions) := by
    refine ⟨.refl, ?_⟩
    rw [List.flatMap_append, knowsAll_append]
    exact ⟨(closed_conditionOf node).of_eq_ok hcondition,
      (closed_orderingOf node).of_eq_ok horderBy⟩
  exact (brings_selectItems hitems).append hclauses

theorem brings_selects {nodes : List (Tree Leaf)} {parts : List Select}
    (h : Gives (selects nodes) env parts env') :
    Brings importer env env' (parts.flatMap Select.mentions) := by
  rw [selects_eq_mapM] at h
  exact brings_mapM brings_select h

theorem brings_query {node : Tree Leaf} {s : Statement} (h : Gives (query node) env s env') :
    Brings importer env env' s.mentions := by
  unfold query at h
  split at h
  · obtain ⟨found, hselect, rfl⟩ := gives_map.mp h
    exact brings_select hselect
  · obtain ⟨parts, between, hparts, hrest⟩ := gives_bind.mp h
    obtain ⟨align, _, hlift, hpure⟩ := gives_bind.mp hrest
    obtain ⟨halign, rfl⟩ := gives_lift.mp hlift
    obtain ⟨rfl, rfl⟩ := gives_pure.mp hpure
    exact (brings_selects hparts).append ⟨.refl, (known_alignment _ node).of_eq_ok halign⟩
  · obtain ⟨⟨target, table, selectNode⟩, _, hlift, hrest⟩ := gives_bind.mp h
    obtain ⟨-, rfl⟩ := gives_lift.mp hlift
    obtain ⟨found, between, hselect, hpure⟩ := gives_bind.mp hrest
    obtain ⟨rfl, rfl⟩ := gives_pure.mp hpure
    exact brings_select hselect
  · exact absurd h not_gives_throw

end Selects

section Statements
variable {lines : List (List Char)} {node : Tree Leaf}

theorem brings_datasource {s : Statement} (h : Gives (datasource node) env s env') :
    Brings importer env env' s.mentions := by
  obtain ⟨d, _, hlift, hrest⟩ := gives_bind.mp h
  obtain ⟨hd, rfl⟩ := gives_lift.mp hlift
  obtain ⟨_, between, hadd, hpure⟩ := gives_bind.mp hrest
  obtain ⟨rfl, rfl⟩ := gives_pure.mp hpure
  obtain ⟨rfl, hnew⟩ := addDatasource_cases (gives_change.mp hadd)
  have hknown := (known_datasourceOf node).of_eq_ok hd
  exact ⟨.single (.datasource hnew hknown), hknown⟩

theorem brings_register {c : Concept} {u : Unit} (hc : Own env c)
    (h : Gives (register c line) env u env') :
    Brings importer env env' (c.address :: c.mentions) := by
  obtain ⟨hsteps, hknown⟩ : Steps importer env env' ∧ _ := steps_register hc h
  refine ⟨hsteps, ?_⟩
  intro a ha
  rcases List.mem_cons.mp ha with rfl | ha
  · exact hknown
  · exact hsteps.knows (hc.known a ha)

/-- What a concept that may have to wait brings, if it need not. -/
def attempted : Except (String × Nat) Statement → List String
  | .ok s => s.mentions
  | .error _ => []

theorem brings_tryConcept {result : Except (String × Nat) Statement}
    (h : Gives (tryConcept lines node) env result env') :
    Brings importer env env' (attempted result) := by
  obtain ⟨_, _, hget, hrest⟩ := gives_bind.mp h
  obtain ⟨rfl, rfl⟩ := gives_get.mp hget
  cases hc : derivedConcept lines env node with
  | ok c =>
    simp only [hc] at hrest
    obtain ⟨_, between, hregister, hpure⟩ := gives_bind.mp hrest
    obtain ⟨rfl, rfl⟩ := gives_pure.mp hpure
    exact brings_register ((own_derivedConcept lines node).of_eq_ok hc) hregister
  | error b =>
    simp only [hc] at hrest
    cases b with
    | unresolved name line =>
      obtain ⟨rfl, rfl⟩ := gives_pure.mp hrest
      exact ⟨.refl, by simp [attempted, KnowsAll]⟩
    | failed e => exact absurd hrest not_gives_throw

theorem brings_importStatement {s : Statement}
    (h : Gives (importStatement importer node) env s env') :
    Brings importer env env' s.mentions := by
  obtain ⟨path, _, hlift, hrest⟩ := gives_bind.mp h
  obtain ⟨-, rfl⟩ := gives_lift.mp hlift
  obtain ⟨module, _, hlift, hrest⟩ := gives_bind.mp hrest
  obtain ⟨himport, rfl⟩ := gives_lift.mp hlift
  obtain ⟨_, between, habsorb, hrest⟩ := gives_bind.mp hrest
  obtain ⟨_, after, hmodify, hpure⟩ := gives_bind.mp hrest
  obtain rfl := gives_modify.mp hmodify
  obtain ⟨rfl, rfl⟩ := gives_pure.mp hpure
  have hsteps : Steps importer env between := steps_absorb himport habsorb
  exact ⟨hsteps.tail .imported, by simp [Statement.mentions, KnowsAll]⟩

theorem mentions_rawSql (node : Tree Leaf) : Yields (fun s => s.mentions = []) (rawSql node) :=
  (ends_trivial _).bind fun _ _ => rfl

/-- What the statement in a slot mentions, if it is compiled. -/
def Slot.mentions : Slot → List String
  | .ready s => s.mentions
  | .pending _ => []

theorem brings_firstPass {slot : Slot} (h : Gives (firstPass importer lines node) env slot env') :
    Brings importer env env' slot.mentions := by
  have hwaits : isConceptNode node = true → Brings importer env env' slot.mentions := by
    intro hk
    rw [firstPass_of_concept hk] at h
    obtain ⟨result, htry, rfl⟩ := gives_map.mp h
    have hbrings : Brings importer env env' (attempted result) := brings_tryConcept htry
    cases result with
    | ok s => exact hbrings
    | error name => exact hbrings
  have hleft : Gives (pure (Slot.pending node)) env slot env' →
      Brings importer env env' slot.mentions := by
    intro h
    obtain ⟨rfl, rfl⟩ := gives_pure.mp h
    exact ⟨.refl, by simp [Slot.mentions, KnowsAll]⟩
  unfold firstPass at h
  split at h
  · obtain ⟨c, _, hlift, hrest⟩ := gives_bind.mp h
    obtain ⟨hc, rfl⟩ := gives_lift.mp hlift
    obtain ⟨_, between, hregister, hpure⟩ := gives_bind.mp hrest
    obtain ⟨rfl, rfl⟩ := gives_pure.mp hpure
    exact brings_register ((own_declaredConcept lines node).of_eq_ok hc) hregister
  · rename_i hk
    exact hwaits (by simp [isConceptNode, hk])
  · rename_i hk
    exact hwaits (by simp [isConceptNode, hk])
  · obtain ⟨s, between, himport, hpure⟩ := gives_bind.mp h
    obtain ⟨rfl, rfl⟩ := gives_pure.mp hpure
    exact brings_importStatement himport
  · obtain ⟨s, _, hlift, hpure⟩ := gives_bind.mp h
    obtain ⟨hs, rfl⟩ := gives_lift.mp hlift
    obtain ⟨rfl, rfl⟩ := gives_pure.mp hpure
    refine ⟨.refl, ?_⟩
    rw [Slot.mentions, (mentions_rawSql node).of_eq_ok hs]
    simp [KnowsAll]
  · exact hleft h
  · exact hleft h
  · exact hleft h
  · exact hleft h
  · exact absurd h not_gives_throw

end Statements
end Compile
end ConceptQuery
