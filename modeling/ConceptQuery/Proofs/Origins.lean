import ConceptQuery.Proofs.Declared
import ConceptQuery.Proofs.Portable
import ConceptQuery.Proofs.Slots

/-! # Where the concepts of a document come from

Each concept that a document knows in the end was declared by one of its statements,
or was there from the start. `Sourced` says so of the slots at any moment of both passes.
A slot that is filled declares what the environment gains by it, so the invariant
holds at the end as well: `Compilation.sourced_of_run`.
-/
namespace ConceptQuery

open Compile (countOf) in
/-- What a statement can bring into the environment: a declaration its concept and the
count of a key, an import what lies under its namespace, a query derived concepts. -/
def Statement.Declares : Statement → Concept → Prop
  | .concept p _, e => e = p ∨ e = countOf p
  | .imported r _, e => ∃ rest, e.address = Dotted.qualify r.space rest
  | .select _, e | .multiSelect _ _ _, e | .persist _ _ _ _, e => e.lineage.isSome = true
  | _, _ => False

namespace Compile
open Environment Build
variable {importer : Importer} {lines : List (List Char)} {env env' : Environment} {line : Nat}

def Slot.Declares : Slot → Concept → Prop
  | .ready s, e => s.Declares e
  | .pending _, _ => False

/-- Every concept was there from the start, or one of the slots declares it. -/
def Sourced (env : Environment) (slots : List Slot) : Prop :=
  ∀ a e, env.concept? a = some e → e = allRows ∨ ∃ slot ∈ slots, slot.Declares e

/-- All concepts that the environment gained are of this kind. -/
def Gains (P : Concept → Prop) (env env' : Environment) : Prop :=
  ∀ a e, env'.concept? a = some e → env.concept? a = some e ∨ P e

section Gaining
variable {P : Concept → Prop} {between : Environment}

theorem Gains.refl : Gains P env env :=
  fun _ _ h => .inl h

theorem Gains.trans (h : Gains P env between) (h' : Gains P between env') : Gains P env env' := by
  intro a e he
  rcases h' a e he with hbetween | hP
  · exact h a e hbetween
  · exact .inr hP

theorem gains_addConcept {c : Concept} (hc : P c) (h : env.addConcept c line = .ok env') :
    Gains P env env' := by
  rcases addConcept_cases h with ⟨rfl, -⟩ | ⟨rfl, -⟩
  · exact .refl
  · intro a e he
    rcases withConcept_cases he with hold | ⟨-, rfl⟩
    · exact .inl hold
    · exact .inr hc

theorem gains_register {c : Concept} {u : Unit} (hc : P c) (hcount : P (countOf c))
    (h : Gives (register c line) env u env') : Gains P env env' := by
  obtain ⟨_, between, hadd, hrest⟩ := gives_bind.mp h
  have hfirst : Gains P env between := gains_addConcept hc (gives_change.mp hadd)
  split at hrest
  · exact hfirst.trans (gains_addConcept hcount (gives_change.mp hrest))
  · obtain ⟨-, rfl⟩ := gives_pure.mp hrest
    exact hfirst

theorem gains_forM {α : Type} {xs : List α} {body : α → Build PUnit} {u : PUnit}
    (hbody : ∀ x ∈ xs, ∀ {env v env'}, Gives (body x) env v env' → Gains P env env')
    (h : Gives (xs.forM body) env u env') : Gains P env env' := by
  induction xs generalizing env with
  | nil =>
    obtain ⟨-, rfl⟩ := gives_pure.mp h
    exact .refl
  | cons x xs ih =>
    obtain ⟨_, between, hfirst, hrest⟩ := gives_forM_cons.mp h
    exact (hbody x List.mem_cons_self hfirst).trans
      (ih (fun y hy => hbody y (List.mem_cons_of_mem x hy)) hrest)

theorem gains_mapM {α β : Type} {xs : List α} {body : α → Build β} {bs : List β}
    (hbody : ∀ x ∈ xs, ∀ {env b env'}, Gives (body x) env b env' → Gains P env env')
    (h : Gives (xs.mapM body) env bs env') : Gains P env env' := by
  induction xs generalizing env bs with
  | nil =>
    obtain ⟨-, rfl⟩ := gives_pure.mp h
    exact .refl
  | cons x xs ih =>
    obtain ⟨b, between, more, hfirst, hmore, rfl⟩ := gives_mapM_cons.mp h
    exact (hbody x List.mem_cons_self hfirst).trans
      (ih (fun y hy => hbody y (List.mem_cons_of_mem x hy)) hmore)

end Gaining

section Statements
variable {node : Tree Leaf} {s : Statement}

theorem gains_absorb {module : Environment} {space : String} {u : Unit}
    (h : Gives (absorb module space line) env u env') :
    Gains (fun e => ∃ rest, e.address = Dotted.qualify space rest) env env' := by
  obtain ⟨_, between, hconcepts, hsources⟩ := gives_bind.mp h
  refine (gains_forM (fun c _ => ?_) hconcepts).trans (gains_forM (fun d _ => ?_) hsources)
  · intro env u env' hchange
    exact gains_addConcept ⟨c.tail, Concept.address_moved⟩ (gives_change.mp hchange)
  · intro env u env' hchange
    obtain ⟨rfl, -⟩ := addDatasource_cases (gives_change.mp hchange)
    exact .refl

theorem gains_importStatement (h : Gives (importStatement importer node) env s env') :
    Gains s.Declares env env' := by
  obtain ⟨record, module, between, -, rfl, habsorb, rfl⟩ := importStatement_cases h
  -- recording the import leaves the concepts alone
  exact (gains_absorb habsorb : Gains _ env between)

/-- A concept that has to wait changes nothing, any other adds what it declares. -/
theorem gains_tryConcept {result : Except (String × Nat) Statement}
    (h : Gives (tryConcept lines node) env result env') :
    Gains (Slot.ofAttempt node result).Declares env env' := by
  obtain ⟨c, -, rfl, hregister⟩ | ⟨⟨waits, rfl⟩, rfl⟩ := tryConcept_cases h
  · exact gains_register (.inl rfl) (.inr rfl) hregister
  · exact .refl

theorem gains_firstPass {slot : Slot} (h : Gives (firstPass importer lines node) env slot env') :
    Gains slot.Declares env env' := by
  obtain ⟨c, -, rfl, hregister⟩ | ⟨result, rfl, htry⟩ | ⟨s, rfl, himport⟩ | ⟨s, rfl, -, rfl⟩ |
    ⟨rfl, rfl⟩ := firstPass_cases h
  · exact gains_register (.inl rfl) (.inr rfl) hregister
  · exact gains_tryConcept htry
  · exact gains_importStatement himport
  · exact .refl
  · exact .refl

theorem gains_datasource (h : Gives (datasource node) env s env') : Gains s.Declares env env' := by
  intro a e he
  rw [(concept?_of_datasource h).1] at he
  exact .inl he

theorem lineage_transformedConcept :
    Yields (fun c : Concept => c.lineage.isSome = true) (transformedConcept env node) := by
  refine (ends_trivial _).bind fun exprNode _ => ?_
  refine (ends_trivial _).bind fun name _ => ?_
  exact (ends_trivial _).bind fun lineage _ => rfl

theorem gains_select {found : Select} (h : Gives (select node) env found env') :
    Gains (fun c => c.lineage.isSome = true) env env' := by
  refine gains_mapM (fun item _ {_ _ _} hitem => ?_) (select_cases h).1
  obtain rfl | ⟨transform, c, -, hc, hregister⟩ := selectItem_cases hitem
  · exact .refl
  · exact gains_register (lineage_transformedConcept.of_eq_ok hc) rfl hregister

theorem gains_query (h : Gives (query node) env s env') : Gains s.Declares env env' := by
  obtain ⟨hquery, nodes, -, hselects⟩ := query_cases h
  have hgains := gains_mapM (fun _ _ => gains_select) hselects
  cases s with
  | select found => exact hgains
  | multiSelect selects align line => exact hgains
  | persist target table found line => exact hgains
  | _ => cases hquery

end Statements

/-- A slot that is filled, or still waits, declares what came about by it. -/
theorem Sourced.filled {before after : Slot} {done rest : List Slot}
    (h : Sourced env (done ++ before :: rest)) (hbefore : ∀ e, ¬ before.Declares e)
    (hgains : Gains after.Declares env env') : Sourced env' (done ++ [after] ++ rest) := by
  intro a e he
  rcases hgains a e he with hold | hnew
  · rcases h a e hold with hstart | ⟨slot, hslot, hdeclares⟩
    · exact .inl hstart
    · refine .inr ⟨slot, ?_, hdeclares⟩
      have hne : slot ≠ before := fun heq => hbefore e (heq ▸ hdeclares)
      simp only [List.mem_append, List.mem_cons, hne, false_or] at hslot
      rcases hslot with hdone | hrest
      · simp [hdone]
      · simp [hrest]
  · exact .inr ⟨after, by simp, hnew⟩

theorem carried_sourced : Carried importer lines (fun _ => True) Sourced where
  first {node slot slots env env'} _ h hgives := by
    intro a e he
    rcases gains_firstPass hgives a e he with hold | hnew
    · rcases h a e hold with hstart | ⟨s, hs, hdeclares⟩
      · exact .inl hstart
      · exact .inr ⟨s, List.mem_append_left _ hs, hdeclares⟩
    · exact .inr ⟨slot, by simp, hnew⟩
  concept h hgives := h.filled (fun _ => id) (gains_tryConcept hgives)
  datasource h hgives := h.filled (fun _ => id) (gains_datasource hgives)
  query h hgives := h.filled (fun _ => id) (gains_query hgives)

end Compile

open Compile Environment

/-- Whatever a document knows in the end is declared by one of its statements, but for
what is there from the start. -/
theorem Compilation.sourced_of_run {importer : Importer} {text : String} {tree : Tree Leaf}
    (h : (Compilation.run importer .initial text tree).error = none) {a : String} {e : Concept}
    (he : (Compilation.run importer .initial text tree).env.concept? a = some e) :
    e = allRows ∨ ∃ s ∈ (Compilation.run importer .initial text tree).statements, s.Declares e := by
  have hstart : Sourced initial [] := by
    intro a e he
    obtain ⟨-, rfl⟩ := Prod.mk.inj (List.mem_singleton.mp (Catalog.mem_entries_of_get? he))
    exact .inl rfl
  have hsourced := Compilation.carried_of_run carried_sourced (fun _ _ => trivial) hstart h
  rcases hsourced a e he with hall | ⟨slot, hslot, hdeclares⟩
  · exact .inl hall
  · obtain ⟨s, hs, rfl⟩ := List.mem_map.mp hslot
    exact .inr ⟨s, hs, hdeclares⟩

end ConceptQuery
