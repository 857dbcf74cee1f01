import ConceptQuery.Proofs.Rounds

/-! # Invariants of the environment and the slots

A property of the environment together with all slots is `Carried` if it survives each
moment at which a slot changes: when the first pass adds one, when a concept is tried
again, and when a datasource or a query takes its place. Then it holds at the end of both
passes, with the statements in the slots: `Compilation.carried_of_run`. What can happen at
these moments is said once for each of them.
-/
namespace ConceptQuery

/-- The selects of a statement. -/
def Statement.selects : Statement → List Select
  | select s | persist _ _ s _ => [s]
  | multiSelect selects _ _ => selects
  | concept _ _ | datasource _ _ | imported _ _ | rawSql _ _ => []

namespace Compile
open Environment Build

section Moments
variable {importer : Importer} {lines : List (List Char)} {node : Tree Leaf}
  {env env' : Environment} {line : Nat}

/-- A concept is registered, or it waits and nothing changes. -/
theorem tryConcept_cases {result : Except (String × Nat) Statement}
    (h : Gives (tryConcept lines node) env result env') :
    (∃ c, derivedConcept lines env node = .ok c ∧ result = .ok (.concept c (startLine? node)) ∧
      Gives (register c (lineOf node)) env () env') ∨
    (∃ waits, result = .error waits) ∧ env' = env := by
  obtain ⟨_, _, hget, hrest⟩ := gives_bind.mp h
  obtain ⟨rfl, rfl⟩ := gives_get.mp hget
  cases hc : derivedConcept lines env node with
  | ok c =>
    simp only [hc] at hrest
    obtain ⟨_, between, hregister, hpure⟩ := gives_bind.mp hrest
    obtain ⟨rfl, rfl⟩ := gives_pure.mp hpure
    exact .inl ⟨c, rfl, rfl, hregister⟩
  | error b =>
    simp only [hc] at hrest
    cases b with
    | unresolved name line =>
      obtain ⟨rfl, rfl⟩ := gives_pure.mp hrest
      exact .inr ⟨⟨_, rfl⟩, rfl⟩
    | failed e => exact absurd hrest not_gives_throw

/-- In the first pass a statement declares, tries to, imports, or is left. -/
theorem firstPass_cases {slot : Slot} (h : Gives (firstPass importer lines node) env slot env') :
    (∃ c, declaredConcept lines env node = .ok c ∧
      slot = .ready (.concept c (startLine? node)) ∧ Gives (register c (lineOf node)) env () env') ∨
    (∃ result, slot = Slot.ofAttempt node result ∧
      Gives (tryConcept lines node) env result env') ∨
    (∃ s, slot = .ready s ∧ Gives (importStatement importer node) env s env') ∨
    (∃ s, slot = .ready s ∧ rawSql node = .ok s ∧ env' = env) ∨
    slot = .pending node ∧ env' = env := by
  have hwaits : isConceptNode node = true → ∃ result, slot = Slot.ofAttempt node result ∧
      Gives (tryConcept lines node) env result env' := by
    intro hk
    rw [firstPass_of_concept hk] at h
    obtain ⟨result, htry, rfl⟩ := gives_map.mp h
    exact ⟨result, rfl, htry⟩
  have hleft : Gives (pure (Slot.pending node)) env slot env' →
      slot = .pending node ∧ env' = env := by
    intro h
    obtain ⟨rfl, rfl⟩ := gives_pure.mp h
    exact ⟨rfl, rfl⟩
  unfold firstPass at h
  split at h
  · obtain ⟨c, _, hlift, hrest⟩ := gives_bind.mp h
    obtain ⟨hc, rfl⟩ := gives_lift.mp hlift
    obtain ⟨_, between, hregister, hpure⟩ := gives_bind.mp hrest
    obtain ⟨rfl, rfl⟩ := gives_pure.mp hpure
    exact .inl ⟨c, hc, rfl, hregister⟩
  · rename_i hk
    exact .inr (.inl (hwaits (by simp [isConceptNode, hk])))
  · rename_i hk
    exact .inr (.inl (hwaits (by simp [isConceptNode, hk])))
  · obtain ⟨s, between, himport, hpure⟩ := gives_bind.mp h
    obtain ⟨rfl, rfl⟩ := gives_pure.mp hpure
    exact .inr (.inr (.inl ⟨s, rfl, himport⟩))
  · obtain ⟨s, _, hlift, hpure⟩ := gives_bind.mp h
    obtain ⟨hs, rfl⟩ := gives_lift.mp hlift
    obtain ⟨rfl, rfl⟩ := gives_pure.mp hpure
    exact .inr (.inr (.inr (.inl ⟨s, rfl, hs, rfl⟩)))
  · exact .inr (.inr (.inr (.inr (hleft h))))
  · exact .inr (.inr (.inr (.inr (hleft h))))
  · exact .inr (.inr (.inr (.inr (hleft h))))
  · exact .inr (.inr (.inr (.inr (hleft h))))
  · exact absurd h not_gives_throw

theorem importStatement_cases {s : Statement}
    (h : Gives (importStatement importer node) env s env') :
    ∃ record module between, importer record.path = .ok module ∧
      s = .imported record (startLine? node) ∧
      Gives (absorb module record.space (lineOf node)) env () between ∧
      env' = between.addImport record := by
  obtain ⟨path, _, hlift, hrest⟩ := gives_bind.mp h
  obtain ⟨-, rfl⟩ := gives_lift.mp hlift
  obtain ⟨module, _, hlift, hrest⟩ := gives_bind.mp hrest
  obtain ⟨hmodule, rfl⟩ := gives_lift.mp hlift
  obtain ⟨_, between, habsorb, hrest⟩ := gives_bind.mp hrest
  obtain ⟨_, after, hmodify, hpure⟩ := gives_bind.mp hrest
  obtain rfl := gives_modify.mp hmodify
  obtain ⟨rfl, rfl⟩ := gives_pure.mp hpure
  exact ⟨_, module, between, hmodule, rfl, habsorb, rfl⟩

/-- A datasource changes no concept. -/
theorem concept?_of_datasource {s : Statement} (h : Gives (datasource node) env s env') :
    env'.concept? = env.concept? ∧ s.selects = [] := by
  obtain ⟨d, _, hlift, hrest⟩ := gives_bind.mp h
  obtain ⟨-, rfl⟩ := gives_lift.mp hlift
  obtain ⟨_, between, hadd, hpure⟩ := gives_bind.mp hrest
  obtain ⟨rfl, rfl⟩ := gives_pure.mp hpure
  obtain ⟨rfl, -⟩ := addDatasource_cases (gives_change.mp hadd)
  exact ⟨rfl, rfl⟩

theorem selectItem_cases {item : Tree Leaf} {i : SelectItem}
    (h : Gives (selectItem line item) env i env') :
    env' = env ∨ ∃ transform c, item.child? .selectTransform = some transform ∧
      transformedConcept env transform = .ok c ∧
      Gives (register c (lineOf transform)) env () env' := by
  unfold selectItem at h
  dsimp only at h
  split at h
  · obtain ⟨concept, between, hlift, hpure⟩ := gives_bind.mp h
    obtain ⟨-, rfl⟩ := gives_lift.mp hlift
    obtain ⟨-, rfl⟩ := gives_pure.mp hpure
    exact .inl rfl
  · rename_i transform hassignment htransform
    obtain ⟨c, between, hlift, hrest⟩ := gives_bind.mp h
    obtain ⟨hc, rfl⟩ := gives_lift.mp hlift
    obtain ⟨_, between, hregister, hpure⟩ := gives_bind.mp hrest
    obtain ⟨-, rfl⟩ := gives_pure.mp hpure
    exact .inr ⟨transform, c, htransform, hc, hregister⟩
  · exact absurd h not_gives_throw

/-- A select compiles its items one after the other, the rest with all they declared. -/
theorem select_cases {found : Select} (h : Gives (select node) env found env') :
    Gives ((node.nodes.filter fun n => n.kind = .selectItem).mapM (selectItem (lineOf node))) env
      found.items env' ∧
    conditionOf env' node = .ok found.condition ∧
    orderingOf env' (lineOf node) node = .ok found.orderBy := by
  obtain ⟨items, between, hitems, hrest⟩ := gives_bind.mp h
  obtain ⟨condition, _, hlift, hrest⟩ := gives_bind.mp hrest
  obtain ⟨hcondition, rfl⟩ := gives_lift.mp hlift
  obtain ⟨orderBy, _, hlift, hrest⟩ := gives_bind.mp hrest
  obtain ⟨hordering, rfl⟩ := gives_lift.mp hlift
  obtain ⟨limit, _, hlift, hpure⟩ := gives_bind.mp hrest
  obtain ⟨-, rfl⟩ := gives_lift.mp hlift
  obtain ⟨rfl, rfl⟩ := gives_pure.mp hpure
  rw [selectItems_eq_mapM] at hitems
  exact ⟨hitems, hcondition, hordering⟩

theorem gives_mapM_singleton {found : Select} (h : Gives (select node) env found env') :
    Gives ([node].mapM select) env [found] env' :=
  gives_mapM_cons.mpr ⟨found, env', [], h, gives_pure.mpr ⟨rfl, rfl⟩, rfl⟩

/-- A query compiles the selects in it one after the other. -/
theorem query_cases {s : Statement} (h : Gives (query node) env s env') :
    s.isQuery = true ∧ ∃ nodes : List (Tree Leaf), (∀ n ∈ nodes, n = node ∨ n ∈ node.nodes) ∧
      Gives (nodes.mapM select) env s.selects env' := by
  unfold query at h
  split at h
  · obtain ⟨found, hselect, rfl⟩ := gives_map.mp h
    exact ⟨rfl, [node], by simp, gives_mapM_singleton hselect⟩
  · obtain ⟨parts, between, hparts, hrest⟩ := gives_bind.mp h
    obtain ⟨align, _, hlift, hpure⟩ := gives_bind.mp hrest
    obtain ⟨-, rfl⟩ := gives_lift.mp hlift
    obtain ⟨rfl, rfl⟩ := gives_pure.mp hpure
    rw [selects_eq_mapM] at hparts
    exact ⟨rfl, _, fun n hn => .inr (List.mem_filter.mp hn).1, hparts⟩
  · obtain ⟨⟨target, table, selected⟩, _, hlift, hrest⟩ := gives_bind.mp h
    obtain ⟨hneed, rfl⟩ := gives_lift.mp hlift
    obtain ⟨found, between, hselect, hpure⟩ := gives_bind.mp hrest
    obtain ⟨rfl, rfl⟩ := gives_pure.mp hpure
    have hchild : node.child? .selectStatement = some selected := by
      refine @Ends.of_eq_ok _ (Leaf × Leaf × Tree Leaf)
        (fun parts => node.child? .selectStatement = some parts.2.2) (fun _ => True) _ _ ?_ hneed
      refine (ends_trivial _).bind fun _ _ => (ends_trivial _).bind fun _ _ => ?_
      refine Ends.bind (ends_of_ok fun child hchild => ?_) fun child hchild => hchild
      cases hc : node.child? .selectStatement with
      | none =>
        rw [hc] at hchild
        cases hchild
      | some found =>
        rw [hc] at hchild
        cases hchild
        rfl
    refine ⟨rfl, [selected], fun n hn => .inr ?_, gives_mapM_singleton hselect⟩
    rw [List.mem_singleton.mp hn]
    exact List.mem_of_find?_eq_some hchild
  · exact absurd h not_gives_throw

end Moments

/-- A property of the environment and the slots that the passes over good statements keep. -/
structure Carried (importer : Importer) (lines : List (List Char)) (good : Tree Leaf → Prop)
    (I : Environment → List Slot → Prop) : Prop where
  first : ∀ {node slot slots env env'}, good node → I env slots →
    Gives (firstPass importer lines node) env slot env' → I env' (slots ++ [slot])
  concept : ∀ {m result done rest env env'}, I env (done ++ .pending m :: rest) →
    Gives (tryConcept lines m) env result env' → I env' (done ++ [Slot.ofAttempt m result] ++ rest)
  datasource : ∀ {m s done rest env env'}, I env (done ++ .pending m :: rest) →
    Gives (datasource m) env s env' → I env' (done ++ [.ready s] ++ rest)
  query : ∀ {m s done rest env env'}, I env (done ++ .pending m :: rest) →
    Gives (query m) env s env' → I env' (done ++ [.ready s] ++ rest)

namespace Carried
variable {importer : Importer} {lines : List (List Char)} {good : Tree Leaf → Prop}
  {I : Environment → List Slot → Prop} {env env' : Environment} {done slots : List Slot}
variable (hI : Carried importer lines good I)
include hI

theorem sweep {round : Round} (h : I env (done ++ slots))
    (hgives : Gives (sweep lines slots) env round env') : I env' (done ++ round.slots) := by
  -- `done` takes over each slot that the round has passed
  induction slots generalizing env done round with
  | nil =>
    obtain ⟨rfl, rfl⟩ := gives_pure.mp hgives
    exact h
  | cons slot slots ih =>
    have hpass : ∀ {next env round}, I env (done ++ [next] ++ slots) →
        Gives (Compile.sweep lines slots) env round env' → I env' (done ++ next :: round.slots) := by
      intro next env round hnext hmore
      have hdone := ih hnext hmore
      rwa [List.append_assoc] at hdone
    cases slot with
    | ready s =>
      obtain ⟨more, between, hmore, hpure⟩ := gives_bind.mp hgives
      obtain ⟨rfl, rfl⟩ := gives_pure.mp hpure
      exact hpass (by rwa [List.append_assoc]) hmore
    | pending m =>
      rw [Compile.sweep] at hgives
      split at hgives
      · obtain ⟨result, between, htry, hrest⟩ := gives_bind.mp hgives
        have htried := hI.concept h htry
        cases result with
        | ok s =>
          obtain ⟨more, after, hmore, hpure⟩ := gives_bind.mp hrest
          obtain ⟨rfl, rfl⟩ := gives_pure.mp hpure
          exact hpass htried hmore
        | error name =>
          obtain ⟨more, after, hmore, hpure⟩ := gives_bind.mp hrest
          obtain ⟨rfl, rfl⟩ := gives_pure.mp hpure
          exact hpass htried hmore
      · obtain ⟨more, between, hmore, hpure⟩ := gives_bind.mp hgives
        obtain ⟨rfl, rfl⟩ := gives_pure.mp hpure
        exact hpass (by rwa [List.append_assoc]) hmore

theorem resolvePending {fuel : Nat} {slots' : List Slot} (h : I env slots)
    (hgives : Gives (resolvePending lines fuel slots) env slots' env') : I env' slots' := by
  induction fuel generalizing env slots with
  | zero =>
    obtain ⟨rfl, rfl⟩ := gives_pure.mp hgives
    exact h
  | succ fuel ih =>
    obtain ⟨round, between, hround, hrest⟩ := gives_bind.mp hgives
    have hslots : I env ([] ++ slots) := h
    have hnext : I between round.slots := hI.sweep hslots hround
    split at hrest
    · obtain ⟨rfl, rfl⟩ := gives_pure.mp hrest
      exact hnext
    · split at hrest
      · exact ih hnext hrest
      · exact absurd hrest not_gives_throw

theorem bindDatasources {slots' : List Slot} (h : I env (done ++ slots))
    (hgives : Gives (bindDatasources slots) env slots' env') : I env' (done ++ slots') := by
  induction slots generalizing env done slots' with
  | nil =>
    obtain ⟨rfl, rfl⟩ := gives_pure.mp hgives
    exact h
  | cons slot slots ih =>
    have hpass : ∀ {next env slots'}, I env (done ++ [next] ++ slots) →
        Gives (Compile.bindDatasources slots) env slots' env' → I env' (done ++ next :: slots') := by
      intro next env slots' hnext hmore
      have hdone := ih hnext hmore
      rwa [List.append_assoc] at hdone
    cases slot with
    | ready s =>
      obtain ⟨more, between, hmore, hpure⟩ := gives_bind.mp hgives
      obtain ⟨rfl, rfl⟩ := gives_pure.mp hpure
      exact hpass (by rwa [List.append_assoc]) hmore
    | pending m =>
      rw [Compile.bindDatasources] at hgives
      dsimp only at hgives
      split at hgives
      · obtain ⟨slot, between, hslot, hrest⟩ := gives_bind.mp hgives
        obtain ⟨s, hsource, rfl⟩ := gives_map.mp hslot
        obtain ⟨more, after, hmore, hpure⟩ := gives_bind.mp hrest
        obtain ⟨rfl, rfl⟩ := gives_pure.mp hpure
        exact hpass (hI.datasource h hsource) hmore
      · obtain ⟨slot, between, hpending, hrest⟩ := gives_bind.mp hgives
        obtain ⟨rfl, rfl⟩ := gives_pure.mp hpending
        obtain ⟨more, after, hmore, hpure⟩ := gives_bind.mp hrest
        obtain ⟨rfl, rfl⟩ := gives_pure.mp hpure
        exact hpass (by rwa [List.append_assoc]) hmore

theorem finish {statements : List Statement} (h : I env (done ++ slots))
    (hgives : Gives (finish slots) env statements env') :
    I env' (done ++ statements.map .ready) := by
  induction slots generalizing env done statements with
  | nil =>
    obtain ⟨rfl, rfl⟩ := gives_pure.mp hgives
    exact h
  | cons slot slots ih =>
    have hpass : ∀ {s env statements}, I env (done ++ [.ready s] ++ slots) →
        Gives (Compile.finish slots) env statements env' →
          I env' (done ++ (s :: statements).map .ready) := by
      intro s env statements hnext hmore
      have hdone := ih hnext hmore
      rwa [List.append_assoc] at hdone
    cases slot with
    | ready s =>
      obtain ⟨more, between, hmore, hpure⟩ := gives_bind.mp hgives
      obtain ⟨rfl, rfl⟩ := gives_pure.mp hpure
      exact hpass (by rwa [List.append_assoc]) hmore
    | pending m =>
      obtain ⟨s, between, hquery, hrest⟩ := gives_bind.mp hgives
      obtain ⟨more, after, hmore, hpure⟩ := gives_bind.mp hrest
      obtain ⟨rfl, rfl⟩ := gives_pure.mp hpure
      exact hpass (hI.query h hquery) hmore

theorem secondPass {statements : List Statement} (h : I env slots)
    (hgives : Gives (secondPass lines slots) env statements env') :
    I env' (statements.map .ready) := by
  obtain ⟨resolved, between, hresolve, hrest⟩ := gives_bind.mp hgives
  obtain ⟨bound, after, hbind, hfinish⟩ := gives_bind.mp hrest
  have hresolved : I between ([] ++ resolved) := hI.resolvePending h hresolve
  have hbound : I after ([] ++ bound) := hI.bindDatasources hresolved hbind
  exact hI.finish hbound hfinish

theorem firstPasses {nodes : List (Tree Leaf)} {b b' : Builder} {u : Unit}
    (hnodes : ∀ node ∈ nodes, good node) (hlines : b.lines = lines) (h : I b.env b.slots)
    (hpasses : Builder.firstPasses importer nodes b = (.ok u, b')) :
    I b'.env b'.slots ∧ b'.lines = lines ∧ b'.prepared = b.prepared := by
  induction nodes generalizing b with
  | nil =>
    obtain ⟨-, rfl⟩ := Prod.mk.inj hpasses
    exact ⟨h, hlines, rfl⟩
  | cons node nodes ih =>
    rw [Builder.firstPasses] at hpasses
    split at hpasses
    · rename_i slot env hfirst
      rw [hlines] at hfirst
      have hnext := hI.first (hnodes node List.mem_cons_self) h hfirst
      exact ih (b := { b with env, slots := b.slots ++ [slot] })
        (fun n hn => hnodes n (List.mem_cons_of_mem node hn)) hlines hnext hpasses
    · cases (Prod.mk.inj hpasses).1

end Carried

/-- Both passes over the statements of a tree. -/
theorem Carried.passes {importer : Importer} {text : String} {tree : Tree Leaf}
    {good : Tree Leaf → Prop} {I : Environment → List Slot → Prop} {env : Environment}
    {b b' : Builder} {u : Unit} {statements : List Statement}
    (hI : Carried importer (linesOf text) good I) (hnodes : ∀ node ∈ tree.nodes, good node)
    (hstart : I env []) (hfirst : (starting env text).transform importer tree = (.ok u, b))
    (hsecond : b.runSecondPass = (.ok statements, b')) :
    I b'.env (statements.map .ready) := by
  have hpasses : Builder.firstPasses importer tree.nodes (starting env text) = (.ok u, b) := hfirst
  obtain ⟨hslots, hlines, hprepared⟩ := hI.firstPasses hnodes rfl hstart hpasses
  have hready : b.prepared = true := hprepared
  rw [Builder.runSecondPass, if_pos hready, hlines] at hsecond
  obtain ⟨hresult, rfl⟩ := Prod.mk.inj hsecond
  have hgives : Gives (Compile.secondPass (linesOf text) b.slots) b.env statements
      ((Compile.secondPass (linesOf text) b.slots).run.run b.env).2 := Prod.ext hresult rfl
  exact hI.secondPass hslots hgives

theorem carried_of_compileText {importer : Importer} {text : String} {tree : Tree Leaf}
    {good : Tree Leaf → Prop} {I : Environment → List Slot → Prop} {env : Environment}
    (hI : Carried importer (linesOf text) good I) (hnodes : ∀ node ∈ tree.nodes, good node)
    (hstart : I .initial []) (h : compileText importer text tree = .ok env) :
    ∃ statements : List Statement, I env (statements.map .ready) := by
  unfold compileText at h
  dsimp only at h
  split at h
  · cases h
  · rename_i u b hfirst
    split at h
    · cases h
    · rename_i statements b' hsecond
      rw [← Except.ok.inj h]
      exact ⟨statements, hI.passes hnodes hstart hfirst hsecond⟩

end Compile

open Compile

theorem Compilation.carried_of_run {importer : Importer} {text : String} {tree : Tree Leaf}
    {good : Tree Leaf → Prop} {I : Environment → List Slot → Prop} {env : Environment}
    (hI : Carried importer (linesOf text) good I) (hnodes : ∀ node ∈ tree.nodes, good node)
    (hstart : I env []) (h : (Compilation.run importer env text tree).error = none) :
    I (Compilation.run importer env text tree).env
      ((Compilation.run importer env text tree).statements.map .ready) := by
  obtain ⟨u, b, statements, b', hfirst, hsecond, hrun⟩ := Compilation.passes_of_run h
  rw [hrun]
  exact hI.passes hnodes hstart hfirst hsecond

end ConceptQuery
