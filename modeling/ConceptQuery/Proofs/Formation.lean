import ConceptQuery.Proofs.Formed
import ConceptQuery.Proofs.Origins

/-! # The expressions of a document are formed

Statements are compiled of trees in which every expression is formed, and nothing that the
passes do takes the form away: a concept that waits keeps its tree, the count of a key
calls a known function, and a concept that moves in from a module has the lineage that it
had there, over renamed concepts. So all lineages that a document knows in the end are
formed, and all expressions of its queries: `Compilation.formed_of_run`.
-/
namespace ConceptQuery

def Concept.Formed (c : Concept) : Prop :=
  ∀ lineage, c.lineage = some lineage → lineage.Formed

def Environment.Formed (env : Environment) : Prop :=
  ∀ a c, env.concept? a = some c → c.Formed

/-- What a select writes: its items, its condition and its orderings. -/
def Select.exprs (s : Select) : List Expr :=
  s.items.map (fun i => .concept i.concept) ++ (s.condition.toList ++ s.orderBy.map OrderItem.expr)

def Select.Formed (s : Select) : Prop :=
  ∀ e ∈ s.exprs, e.Formed

theorem Concept.Formed.moved {c : Concept} (h : c.Formed) (space : String) :
    (c.moved space).Formed := by
  intro lineage hlineage
  have hmap : c.lineage.map (Expr.mapConcepts (requalify space)) = some lineage := hlineage
  obtain ⟨original, horiginal, rfl⟩ := Option.map_eq_some_iff.mp hmap
  exact Expr.Formed.mapConcepts original (h original horiginal)

theorem Environment.formed_initial : Formed initial := by
  intro a c hc lineage hlineage
  obtain ⟨-, rfl⟩ := Prod.mk.inj (List.mem_singleton.mp (Catalog.mem_entries_of_get? hc))
  obtain rfl := Option.some.inj hlineage
  have hone : IsNumeral "1".toList := by
    refine ⟨by decide, fun c hc => .inl ?_⟩
    obtain rfl := List.mem_singleton.mp hc
    decide
  exact ⟨by decide, hone, trivial⟩

theorem Environment.Formed.gains {env env' : Environment} (h : env.Formed)
    (hgains : Compile.Gains Concept.Formed env env') : env'.Formed :=
  fun a c hc => (hgains a c hc).elim (h a c) id

namespace Compile
open Build
variable {importer : Importer} {lines : List (List Char)} {node : Tree Leaf}
  {env env' : Environment} {line : Nat}

section Concepts

theorem formed_countOf (key : Concept) : (countOf key).Formed := by
  intro lineage hlineage
  have hcall : some (Expr.call "count" [.concept key.address]) = some lineage := hlineage
  obtain rfl := Option.some.inj hcall
  exact ⟨by decide, trivial, trivial⟩

theorem yields_need {α : Type} {rule message : String} {value : Option α} :
    Yields (fun a => value = some a) (need rule line message value) := by
  cases value with
  | none => trivial
  | some a => rfl

theorem FormedTree.expr (h : FormedTree node) : Yields Expr.Formed (expr env node) :=
  ends_of_ok fun _ he => h node .here he

theorem FormedTree.exprNow (h : FormedTree node) : Yields Expr.Formed (exprNow env node) :=
  Ends.mapError h.expr

theorem formed_declaredConcept : Yields Concept.Formed (declaredConcept lines env node) := by
  refine (ends_trivial _).bind fun purpose _ => (ends_trivial _).bind fun name _ => ?_
  refine (ends_trivial _).bind fun datatype _ => ?_
  intro lineage hlineage
  cases hlineage

theorem formed_propertyConcept {purpose : Purpose} {name : Leaf} :
    Yields Concept.Formed (propertyConcept env node purpose name) := by
  refine (ends_trivial _).bind fun parts _ => (ends_trivial _).bind fun parent _ => ?_
  refine (ends_trivial _).bind fun datatype _ => ?_
  intro lineage hlineage
  cases hlineage

theorem formed_lineageConcept {purpose : Purpose} {name : Leaf} (h : FormedTree node) :
    Yields Concept.Formed (lineageConcept env node purpose name) := by
  refine (Ends.orFail yields_need).bind fun child hchild => ?_
  have htree : FormedTree child := h.node (List.mem_of_mem_head? hchild)
  refine htree.expr.bind fun lineage hlineage => ?_
  intro found hfound
  have hsome : some lineage = some found := by
    rw [← hfound]
    split <;> rfl
  obtain rfl := Option.some.inj hsome
  exact hlineage

theorem formed_derivedConcept (h : FormedTree node) :
    Yields Concept.Formed (derivedConcept lines env node) := by
  refine (ends_trivial _).bind fun purpose _ => (ends_trivial _).bind fun name _ => ?_
  have hdescribed : ∀ c : Concept, c.Formed → (described lines node c).Formed := fun _ hc => hc
  dsimp only
  split
  · exact formed_propertyConcept.bind fun c hc => hdescribed c hc
  · exact (formed_lineageConcept h).bind fun c hc => hdescribed c hc

theorem formed_transformedConcept (h : FormedTree node) :
    Yields Concept.Formed (transformedConcept env node) := by
  refine yields_need.bind fun child hchild => (ends_trivial _).bind fun name _ => ?_
  have htree : FormedTree child := h.node (List.mem_of_mem_head? hchild)
  refine htree.exprNow.bind fun lineage hlineage => ?_
  intro found hfound
  obtain rfl := Option.some.inj hfound
  exact hlineage

end Concepts

section Passes
open Environment

theorem formed_register {c : Concept} {u : Unit} (hc : c.Formed)
    (h : Gives (register c line) env u env') : Gains Concept.Formed env env' :=
  gains_register hc (formed_countOf c) h

theorem formed_tryConcept {result : Except (String × Nat) Statement} (hnode : FormedTree node)
    (h : Gives (tryConcept lines node) env result env') : Gains Concept.Formed env env' := by
  obtain ⟨c, hc, rfl, hregister⟩ | ⟨-, rfl⟩ := tryConcept_cases h
  · exact formed_register ((formed_derivedConcept hnode).of_eq_ok hc) hregister
  · exact .refl

theorem formed_absorb {module : Environment} {space : String} {u : Unit} (htidy : module.Tidy)
    (hmodule : module.Formed) (h : Gives (absorb module space line) env u env') :
    Gains Concept.Formed env env' := by
  obtain ⟨_, between, hconcepts, hsources⟩ := gives_bind.mp h
  refine (gains_forM (fun c hc => ?_) hconcepts).trans (gains_forM (fun d _ => ?_) hsources)
  · intro env u env' hchange
    have hformed : c.Formed :=
      hmodule c.address c (htidy.concept?_address (mem_userConcepts_iff.mp hc).1)
    exact gains_addConcept (hformed.moved space) (gives_change.mp hchange)
  · intro env u env' hchange
    obtain ⟨rfl, -⟩ := addDatasource_cases (gives_change.mp hchange)
    exact .refl

theorem formed_conditionOf (hnode : FormedTree node) :
    Yields (fun found => ∀ e ∈ found, e.Formed) (conditionOf env node) := by
  unfold conditionOf
  split
  · rename_i condition hcondition
    obtain ⟨clause, hclause, hhead⟩ := Option.bind_eq_some_iff.mp hcondition
    have htree : FormedTree condition :=
      (hnode.node (List.mem_of_find?_eq_some hclause)).node (List.mem_of_mem_head? hhead)
    refine Ends.map (htree.exprNow.weaken (fun e he => ?_) fun _ h => h)
    intro e' he'
    obtain rfl := Option.some.inj he'
    exact he
  · intro e he
    cases he

theorem formed_orderItem (hnode : FormedTree node) :
    Yields (fun o => o.expr.Formed) (orderItem env line node) := by
  refine yields_need.bind fun child hchild => ?_
  have htree : FormedTree child := hnode.node (List.mem_of_mem_head? hchild)
  exact htree.exprNow.bind fun e he => he

theorem formed_orderingOf (hnode : FormedTree node) :
    Yields (fun found => ∀ o ∈ found, o.expr.Formed) (orderingOf env line node) := by
  unfold orderingOf
  split
  · rename_i clause hclause
    refine Ends.inSequence fun x hx => ?_
    obtain ⟨item, hitem, rfl⟩ := List.mem_map.mp hx
    exact formed_orderItem ((hnode.node (List.mem_of_find?_eq_some hclause)).node hitem)
  · intro o ho
    cases ho

/-- Each select compiled of a formed tree is formed, and so is what it declares. -/
theorem formed_select {found : Select} (hnode : FormedTree node)
    (h : Gives (select node) env found env') : Gains Concept.Formed env env' ∧ found.Formed := by
  obtain ⟨hitems, hcondition, hordering⟩ := select_cases h
  constructor
  · refine gains_mapM (fun item hitem => ?_) hitems
    intro env i env' hgives
    obtain rfl | ⟨transform, c, hchild, hc, hregister⟩ := selectItem_cases hgives
    · exact .refl
    · have htransform : FormedTree transform :=
        (hnode.node (List.mem_filter.mp hitem).1).node (List.mem_of_find?_eq_some hchild)
      exact formed_register ((formed_transformedConcept htransform).of_eq_ok hc) hregister
  · intro e he
    simp only [Select.exprs, List.mem_append, List.mem_map, Option.mem_toList] at he
    obtain ⟨i, -, rfl⟩ | he | ⟨o, ho, rfl⟩ := he
    · trivial
    · exact (formed_conditionOf hnode).of_eq_ok hcondition e he
    · exact (formed_orderingOf hnode).of_eq_ok hordering o ho

theorem mem_of_gives_mapM {α β : Type} {xs : List α} {body : α → Build β} {bs : List β} {b : β}
    (h : Gives (xs.mapM body) env bs env') (hb : b ∈ bs) :
    ∃ x ∈ xs, ∃ before after, Gives (body x) before b after := by
  induction xs generalizing env bs with
  | nil =>
    obtain ⟨rfl, -⟩ := gives_pure.mp h
    cases hb
  | cons x xs ih =>
    obtain ⟨first, between, more, hfirst, hmore, rfl⟩ := gives_mapM_cons.mp h
    rcases List.mem_cons.mp hb with rfl | hb
    · exact ⟨x, List.mem_cons_self, env, between, hfirst⟩
    · obtain ⟨y, hy, hbody⟩ := ih hmore hb
      exact ⟨y, List.mem_cons_of_mem x hy, hbody⟩

/-- A statement has formed selects, and what waits is a formed tree. -/
def Slot.Formed : Slot → Prop
  | .ready s => ∀ q ∈ s.selects, q.Formed
  | .pending node => FormedTree node

theorem formed_query {s : Statement} (hnode : FormedTree node)
    (h : Gives (query node) env s env') :
    Gains Concept.Formed env env' ∧ (Slot.ready s).Formed := by
  obtain ⟨-, nodes, hnodes, hselects⟩ := query_cases h
  have htree : ∀ n ∈ nodes, FormedTree n := by
    intro n hn
    rcases hnodes n hn with rfl | hchild
    · exact hnode
    · exact hnode.node hchild
  constructor
  · refine gains_mapM (fun n hn => ?_) hselects
    intro env found env' hgives
    exact (formed_select (htree n hn) hgives).1
  · intro q hq
    obtain ⟨n, hn, before, after, hgives⟩ := mem_of_gives_mapM hselects hq
    exact (formed_select (htree n hn) hgives).2

theorem formed_ofAttempt {result : Except (String × Nat) Statement} (hnode : FormedTree node)
    (h : Gives (tryConcept lines node) env result env') : (Slot.ofAttempt node result).Formed := by
  obtain ⟨c, -, rfl, -⟩ | ⟨⟨waits, rfl⟩, -⟩ := tryConcept_cases h
  · intro q hq
    cases hq
  · exact hnode

theorem formed_firstPass {slot : Slot}
    (hmodules : ∀ path module, importer path = .ok module → module.Tidy ∧ module.Formed)
    (hnode : FormedTree node) (h : Gives (firstPass importer lines node) env slot env') :
    Gains Concept.Formed env env' ∧ slot.Formed := by
  obtain ⟨c, hc, rfl, hregister⟩ | ⟨result, rfl, htry⟩ | ⟨s, rfl, himport⟩ | ⟨s, rfl, hs, rfl⟩ |
    ⟨rfl, rfl⟩ := firstPass_cases h
  · refine ⟨formed_register (formed_declaredConcept.of_eq_ok hc) hregister, fun q hq => ?_⟩
    cases hq
  · exact ⟨formed_tryConcept hnode htry, formed_ofAttempt hnode htry⟩
  · obtain ⟨record, module, between, hmodule, rfl, habsorb, rfl⟩ := importStatement_cases himport
    obtain ⟨htidy, hformed⟩ := hmodules record.path module hmodule
    -- recording the import leaves the concepts alone
    refine ⟨(formed_absorb htidy hformed habsorb : Gains _ env between), fun q hq => ?_⟩
    cases hq
  · refine ⟨.refl, fun q hq => ?_⟩
    have hselects : s.selects = [] :=
      (Ends.bind (ends_trivial _) fun _ _ => rfl : Yields (fun s : Statement => s.selects = [])
        (rawSql node)).of_eq_ok hs
    rw [hselects] at hq
    cases hq
  · exact ⟨.refl, hnode⟩

/-- What the passes keep: formed lineages, formed selects, formed trees of what waits. -/
def AllFormed (env : Environment) (slots : List Slot) : Prop :=
  env.Formed ∧ ∀ slot ∈ slots, slot.Formed

theorem AllFormed.pending {done rest : List Slot} (h : AllFormed env (done ++ .pending node :: rest)) :
    FormedTree node :=
  h.2 (.pending node) (by simp)

theorem AllFormed.filled {before after : Slot} {done rest : List Slot}
    (h : AllFormed env (done ++ before :: rest)) (hgains : Gains Concept.Formed env env')
    (hafter : after.Formed) : AllFormed env' (done ++ [after] ++ rest) := by
  refine ⟨h.1.gains hgains, fun slot hslot => ?_⟩
  simp only [List.mem_append, List.mem_singleton] at hslot
  obtain (hdone | rfl) | hrest := hslot
  · exact h.2 slot (by simp [hdone])
  · exact hafter
  · exact h.2 slot (by simp [hrest])

theorem carried_formed
    (hmodules : ∀ path module, importer path = .ok module → module.Tidy ∧ module.Formed) :
    Carried importer lines FormedTree AllFormed where
  first {node slot slots env env'} hnode h hgives := by
    obtain ⟨hgains, hslot⟩ := formed_firstPass hmodules hnode hgives
    refine ⟨h.1.gains hgains, fun s hs => ?_⟩
    rcases List.mem_append.mp hs with hold | hnew
    · exact h.2 s hold
    · rwa [List.mem_singleton.mp hnew]
  concept h hgives :=
    h.filled (formed_tryConcept h.pending hgives) (formed_ofAttempt h.pending hgives)
  datasource {m s done rest env env'} h hgives := by
    obtain ⟨hconcepts, hselects⟩ := concept?_of_datasource hgives
    refine h.filled (fun a c hc => .inl (hconcepts ▸ hc)) fun q hq => ?_
    rw [hselects] at hq
    cases hq
  query h hgives := by
    obtain ⟨hgains, hslot⟩ := formed_query h.pending hgives
    exact h.filled hgains hslot

theorem allFormed_initial : AllFormed .initial [] :=
  ⟨formed_initial, fun _ h => absurd h List.not_mem_nil⟩

end Passes

theorem formed_compileModule {load : Loader} {depth : Nat} {stack : List String} {path : String}
    {module : Environment} (h : compileModule load depth stack path = .ok module) :
    module.Tidy ∧ module.Formed := by
  induction depth generalizing stack path module with
  | zero =>
    rw [compileModule] at h
    split at h
    · cases h
    · cases h
  | succ depth ih =>
    rw [compileModule] at h
    split at h
    · cases h
    · rename_i text tree hopen
      obtain ⟨-, -, hparse⟩ := openModule_ok.mp hopen
      obtain ⟨statements, hformed⟩ := carried_of_compileText (carried_formed fun _ _ => ih)
        (formedTree_of_parse hparse) allFormed_initial h
      exact ⟨(steps_of_compileText h).tidy Environment.tidy_initial, hformed.1⟩

end Compile

open Compile in
/-- All lineages that a document knows in the end are formed, and so are its queries. -/
theorem Compilation.formed_of_run {load : Loader} {depth : Nat} {stack : List String}
    {text : String} {tree : Tree Leaf} (hparse : parse text = .ok tree)
    (h : (Compilation.run (compileModule load depth stack) .initial text tree).error = none) :
    (Compilation.run (compileModule load depth stack) .initial text tree).env.Formed ∧
      ∀ st ∈ (Compilation.run (compileModule load depth stack) .initial text tree).statements,
        ∀ s ∈ st.selects, s.Formed := by
  have hall := Compilation.carried_of_run (carried_formed fun _ _ => formed_compileModule)
    (formedTree_of_parse hparse) allFormed_initial h
  exact ⟨hall.1, fun st hst => hall.2 (.ready st) (List.mem_map_of_mem hst)⟩

end ConceptQuery
