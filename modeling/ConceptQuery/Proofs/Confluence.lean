import ConceptQuery.Proofs.Declared
import ConceptQuery.Proofs.Passes
import ConceptQuery.Proofs.Rounds

/-! # The order of concept statements does not matter

In a document of concept statements some are compiled at once and others wait for names
that come later, so another order takes another way through the passes. Each step leaves
the statements as `Underway`: some are declared, one after the other, and the rest is left.
A statement that fails would fail in any order, and if all that is left waits, no order
gets any further. So a document compiles if and only if its statements can be declared in
some order: `ends_compileText`.
-/
namespace ConceptQuery.Compile
open Environment Build

/-- Of all statements, these are left, and the others led to the environment. -/
def Underway (lines : List (List Char)) (all left : List (Tree Leaf)) (env : Environment) : Prop :=
  ∃ done, Declared lines done env ∧ (done ++ left).Perm all

/-- The statements can be declared in some order. -/
def Declarable (lines : List (List Char)) (all : List (Tree Leaf)) : Prop :=
  ∃ env, Underway lines all [] env

/-- The statement mentions a name that is not known yet. -/
def Waits (lines : List (List Char)) (env : Environment) (node : Tree Leaf) : Prop :=
  ∃ name line, conceptOf lines env node = .error (.unresolved name line)

namespace Underway
variable {lines : List (List Char)} {all left left' : List (Tree Leaf)} {env env' : Environment}
  {node : Tree Leaf} {c : Concept}

theorem perm (h : Underway lines all left env) (hperm : left.Perm left') :
    Underway lines all left' env := by
  obtain ⟨done, hdone, hall⟩ := h
  exact ⟨done, hdone, (hperm.symm.append_left done).trans hall⟩

/-- The map of concepts is the same whatever the order. -/
theorem concept?_eq (h : Underway lines all [] env) (h' : Underway lines all [] env') (a : String) :
    env.concept? a = env'.concept? a := by
  obtain ⟨done, hdone, hall⟩ := h
  obtain ⟨done', hdone', hall'⟩ := h'
  rw [List.append_nil] at hall hall'
  have hsame := hall.trans hall'.symm
  have hextends := hdone.extends_of_subset hdone' fun _ hnode => hsame.mem_iff.mp hnode
  have hextends' := hdone'.extends_of_subset hdone fun _ hnode => hsame.mem_iff.mpr hnode
  cases hc : env.concept? a with
  | some c => exact (hextends a c hc).symm
  | none =>
    cases hc' : env'.concept? a with
    | none => rfl
    | some c =>
      rw [hextends' a c hc'] at hc
      cases hc

/-- A statement that fails at any time keeps all from being declared. -/
theorem not_declarable_of_failed {e : CompileError} (h : Underway lines all (node :: left) env)
    (hfailed : conceptOf lines env node = .error (.failed e)) : ¬ Declarable lines all := by
  rintro ⟨env', done', hdone', hall'⟩
  obtain ⟨done, hdone, hall⟩ := h
  rw [List.append_nil] at hall'
  have hmem : ∀ n ∈ done ++ node :: left, n ∈ done' := fun n hn =>
    hall'.mem_iff.mpr (hall.mem_iff.mp hn)
  have hextends := hdone.extends_of_subset hdone' fun n hn => hmem n (by simp [hn])
  obtain ⟨c, hc, -⟩ := hdone'.has (hmem node (by simp))
  rcases defers_conceptOf hdone.flat hdone'.flat hextends lines node with ⟨name, line, hwaits⟩ | hsame
  · rw [hfailed] at hwaits
    cases hwaits
  · rw [hfailed, hc] at hsame
    cases hsame

section Steps
variable (hplain : Plain all)
include hplain

/-- A statement that is ready is declared. -/
theorem declare (h : Underway lines all (node :: left) env)
    (hc : conceptOf lines env node = .ok c) (line : Nat) :
    Gives (register c line) env () (env.registered c) ∧
      Underway lines all left (env.registered c) := by
  obtain ⟨done, hdone, hall⟩ := h
  have hnode : node ∈ all := hall.mem_iff.mp (by simp)
  obtain ⟨name, hname, hlocal⟩ := hplain.named node hnode
  obtain rfl := name_of_conceptOf hname hc
  have hnew : declaredName? node ∉ done.map declaredName? := by
    have hnodup := (hall.map declaredName?).nodup_iff.mpr hplain.distinct
    rw [List.map_append, List.nodup_append] at hnodup
    intro hmem
    exact hnodup.2.2 _ hmem _ (by simp) rfl
  have hfresh := hdone.fresh hc hname hlocal hnew
  refine ⟨hfresh.gives_register hdone.flat line, node :: done, hdone.more hc hname hlocal hnew, ?_⟩
  exact List.perm_middle.symm.trans hall

/-- So does it if each statement that is left waits for others. -/
theorem not_declarable_of_waits (h : Underway lines all left env) (hleft : left ≠ [])
    (hwaits : ∀ node ∈ left, Waits lines env node) : ¬ Declarable lines all := by
  rintro ⟨env', done', hdone', hall'⟩
  obtain ⟨done, hdone, hall⟩ := h
  rw [List.append_nil] at hall'
  -- whatever is declared in another order has been declared before anything had to wait
  have hearlier : ∀ {others env'}, Declared lines others env' → (∀ n ∈ others, n ∈ all) →
      ∀ n ∈ others, n ∈ done := by
    intro others env' hothers
    induction hothers with
    | none => simp
    | @more others env' last c hothers hc hname hlocal hnew ih =>
      intro hmem
      obtain ⟨hlast, hmem⟩ := List.forall_mem_cons.mp hmem
      have hsubset := ih hmem
      refine List.forall_mem_cons.mpr ⟨?_, hsubset⟩
      have hextends := hothers.extends_of_subset hdone hsubset
      have hready := (defers_conceptOf hothers.flat hdone.flat hextends lines last).eq_of_ok hc
      refine (List.mem_append.mp (hall.mem_iff.mpr hlast)).resolve_right fun hlater => ?_
      obtain ⟨name, line, hblocked⟩ := hwaits last hlater
      rw [hready] at hblocked
      cases hblocked
  obtain ⟨node, rest, rfl⟩ := List.exists_cons_of_ne_nil hleft
  have hnode : node ∈ done := by
    apply hearlier hdone' fun n hn => hall'.mem_iff.mp hn
    exact hall'.mem_iff.mpr (hall.mem_iff.mp (by simp))
  have hnodup := (hall.map declaredName?).nodup_iff.mpr hplain.distinct
  rw [List.map_append, List.nodup_append] at hnodup
  exact hnodup.2.2 _ (List.mem_map_of_mem hnode) _ (List.mem_cons_self) rfl

end Steps
end Underway

/-- The statement in a slot that is not filled. -/
def Slot.node? : Slot → Option (Tree Leaf)
  | .ready _ => none
  | .pending node => some node

/-- The statements that are left. -/
def leftIn (slots : List Slot) : List (Tree Leaf) :=
  slots.filterMap Slot.node?

section Passes
variable {importer : Importer} {lines : List (List Char)} {all left : List (Tree Leaf)}
  {slots : List Slot} {start : Environment} {node : Tree Leaf} (hplain : Plain all)

theorem conceptOf_of_concept (hk : isConceptNode node = true) :
    conceptOf lines start node = derivedConcept lines start node := by
  apply if_neg
  intro hkind
  rw [isConceptNode, hkind] at hk
  cases hk

/-- After a round: what is left, that it is less after progress and nothing if no name
blocks, and that without progress all that is left waits. -/
structure Swept (lines : List (List Char)) (all : List (Tree Leaf)) (slots : List Slot)
    (left : List (Tree Leaf)) (start : Environment) (r : Round) (env : Environment) : Prop where
  underway : Underway lines all (leftIn r.slots ++ left) env
  sublist : (leftIn r.slots).Sublist (leftIn slots)
  fewer : r.progressed = true → (leftIn r.slots).length < (leftIn slots).length
  free : r.blocked = none ↔ leftIn r.slots = []
  stuck : r.progressed = false → env = start ∧ ∀ node ∈ leftIn slots, Waits lines start node

include hplain

theorem ensures_tryConcept (hk : isConceptNode node = true)
    (h : Underway lines all (node :: left) start) :
    Ensures (fun env => env = start) (tryConcept lines node)
      (fun result env => match result with
        | .ok _ => Underway lines all left env
        | .error _ => env = start ∧ Waits lines start node)
      (fun _ => ¬ Declarable lines all) := by
  refine ensures_get.bind fun env => ?_
  rintro _ ⟨rfl, rfl⟩
  rw [← conceptOf_of_concept hk]
  cases hc : conceptOf lines env node with
  | ok c =>
    obtain ⟨hregister, hnext⟩ := h.declare hplain hc (lineOf node)
    dsimp only
    rw [run_bind, hregister]
    exact hnext
  | error b =>
    cases b with
    | unresolved name line => exact ⟨rfl, name, line, hc⟩
    | failed e => exact h.not_declarable_of_failed hc

theorem ensures_sweep (hk : ∀ node ∈ leftIn slots, isConceptNode node = true)
    (h : Underway lines all (leftIn slots ++ left) start) :
    Ensures (fun env => env = start) (sweep lines slots) (Swept lines all slots left start)
      (fun _ => ¬ Declarable lines all) := by
  induction slots generalizing left start with
  | nil =>
    refine ensures_pure fun env henv => ?_
    subst henv
    exact ⟨h, .refl _, by simp, by simp [leftIn], by simp [leftIn]⟩
  | cons slot slots ih =>
    cases slot with
    | ready s =>
      refine (ih hk h).bind fun r => ensures_pure fun env hr => ?_
      exact ⟨hr.underway, hr.sublist, hr.fewer, hr.free, hr.stuck⟩
    | pending node =>
      have hleft : leftIn (.pending node :: slots) = node :: leftIn slots := rfl
      rw [hleft] at hk h
      obtain ⟨hnode, hk⟩ := List.forall_mem_cons.mp hk
      rw [sweep, if_pos hnode]
      refine (ensures_tryConcept hplain hnode h).bind fun result => ?_
      cases result with
      | ok s =>
        intro env henv
        refine ((ih hk henv).bind fun r => ensures_pure fun env' hr => ?_) env rfl
        refine ⟨hr.underway, hr.sublist.cons node, fun _ => ?_, hr.free, by simp⟩
        exact Nat.lt_succ_of_le hr.sublist.length_le
      | error name =>
        rintro env ⟨rfl, hwaits⟩
        have hnext : Underway lines all (leftIn slots ++ node :: left) env :=
          h.perm List.perm_middle.symm
        refine ((ih hk hnext).bind fun r => ensures_pure fun env' hr => ?_) env rfl
        refine ⟨hr.underway.perm List.perm_middle, hr.sublist.cons_cons node, fun hp => ?_,
          by simp [leftIn, Slot.node?], fun hp => ?_⟩
        · exact Nat.succ_lt_succ (hr.fewer hp)
        · obtain ⟨hsame, hall⟩ := hr.stuck hp
          exact ⟨hsame, List.forall_mem_cons.mpr ⟨hwaits, hall⟩⟩

theorem ensures_resolvePending {fuel : Nat}
    (hk : ∀ node ∈ leftIn slots, isConceptNode node = true)
    (hfuel : (leftIn slots).length < fuel) :
    Ensures (Underway lines all (leftIn slots)) (resolvePending lines fuel slots)
      (fun slots env => leftIn slots = [] ∧ Underway lines all [] env)
      (fun _ => ¬ Declarable lines all) := by
  induction fuel generalizing slots with
  | zero => omega
  | succ fuel ih =>
    intro start hstart
    rw [← List.append_nil (leftIn slots)] at hstart
    refine ((ensures_sweep hplain hk hstart).bind fun r => ?_) start rfl
    intro env hr
    have hunderway := hr.underway
    rw [List.append_nil] at hunderway
    cases hb : r.blocked with
    | none =>
      have hnone := hr.free.mp hb
      exact ⟨hnone, hnone ▸ hunderway⟩
    | some name =>
      have hsome : leftIn r.slots ≠ [] := fun hnil => by
        rw [hr.free.mpr hnil] at hb
        cases hb
      by_cases hp : r.progressed = true
      · have hfewer := hr.fewer hp
        simp only [hp, if_true]
        exact ih (fun n hn => hk n (hr.sublist.mem hn)) (by omega) env hunderway
      · obtain ⟨rfl, hwaits⟩ := hr.stuck (Bool.eq_false_iff.mpr hp)
        simp only [hp]
        exact hunderway.not_declarable_of_waits hplain hsome fun n hn =>
          hwaits n (hr.sublist.mem hn)

omit hplain in
/-- Once every slot is filled, nothing more happens. -/
theorem ensures_rest {P : Environment → Prop} {fails : CompileError → Prop}
    (h : leftIn slots = []) :
    Ensures P (bindDatasources slots >>= finish) (fun _ => P) fails := by
  have hbind : Ensures P (bindDatasources slots) (fun slots env => leftIn slots = [] ∧ P env) fails := by
    induction slots with
    | nil => exact ensures_pure fun _ henv => ⟨rfl, henv⟩
    | cons slot slots ih =>
      cases slot with
      | ready s => exact (ih h).bind fun more => ensures_pure fun _ hmore => hmore
      | pending node => cases h
  have hfinish : ∀ slots, leftIn slots = [] → Ensures P (finish slots) (fun _ => P) fails := by
    intro slots hslots
    induction slots with
    | nil => exact ensures_pure fun _ henv => henv
    | cons slot slots ih =>
      cases slot with
      | ready s => exact (ih hslots).bind fun more => ensures_pure fun _ hmore => hmore
      | pending node => cases hslots
  exact hbind.bind fun bound env hbound => hfinish bound hbound.1 env hbound.2

theorem ensures_secondPass (hk : ∀ node ∈ leftIn slots, isConceptNode node = true) :
    Ensures (Underway lines all (leftIn slots)) (secondPass lines slots)
      (fun _ => Underway lines all []) (fun _ => ¬ Declarable lines all) := by
  have hfuel : (leftIn slots).length < slots.length + 1 :=
    Nat.lt_succ_of_le (List.length_filterMap_le _ _)
  refine (ensures_resolvePending hplain hk hfuel).bind fun resolved => ?_
  intro env henv
  exact ensures_rest henv.1 env henv.2

theorem ensures_firstPass (h : Underway lines all (node :: left) start) :
    Ensures (fun env => env = start) (firstPass importer lines node)
      (fun slot env => Underway lines all (leftIn [slot] ++ left) env ∧
        ∀ n ∈ leftIn [slot], isConceptNode n = true)
      (fun _ => ¬ Declarable lines all) := by
  have hmem : node ∈ all := by
    obtain ⟨done, -, hall⟩ := h
    exact hall.mem_iff.mp (by simp)
  obtain ⟨name, hname, -⟩ := hplain.named node hmem
  rcases kind_of_declaredName? hname with hkind | hk
  · have hpass : firstPass importer lines node = Build.lift (fun env => declaredConcept lines env node)
        >>= fun c => register c (lineOf node) >>= fun _ =>
          pure (.ready (.concept c (startLine? node))) := by
      unfold firstPass
      rw [hkind]
    rintro env rfl
    rw [hpass, run_bind, run_lift]
    have hconcept : conceptOf lines env node = orFail (declaredConcept lines env node) := if_pos hkind
    cases hc : declaredConcept lines env node with
    | ok c =>
      rw [hc] at hconcept
      obtain ⟨hregister, hnext⟩ := h.declare hplain hconcept (lineOf node)
      dsimp only
      rw [run_bind, hregister]
      exact ⟨hnext, by simp [leftIn, Slot.node?]⟩
    | error e =>
      rw [hc] at hconcept
      exact h.not_declarable_of_failed hconcept
  · rw [firstPass_of_concept hk]
    apply Ensures.map
    refine (ensures_tryConcept hplain hk h).weaken (fun _ henv => henv) fun result env hresult => ?_
    cases result with
    | ok s => exact ⟨hresult, by simp [Slot.ofAttempt, leftIn, Slot.node?]⟩
    | error name =>
      obtain ⟨rfl, -⟩ := hresult
      exact ⟨h, List.forall_mem_singleton.mpr hk⟩

/-- After the first pass the slots hold what is left. -/
theorem firstPasses_underway {nodes : List (Tree Leaf)} {b : Builder}
    (h : Underway b.lines all (leftIn b.slots ++ nodes) b.env)
    (hk : ∀ node ∈ leftIn b.slots, isConceptNode node = true) :
    match Builder.firstPasses importer nodes b with
    | (.ok _, b') => b'.lines = b.lines ∧ b'.prepared = b.prepared ∧
        Underway b.lines all (leftIn b'.slots) b'.env ∧
        ∀ node ∈ leftIn b'.slots, isConceptNode node = true
    | (.error _, _) => ¬ Declarable b.lines all := by
  induction nodes generalizing b with
  | nil =>
    rw [List.append_nil] at h
    exact ⟨rfl, rfl, h, hk⟩
  | cons node nodes ih =>
    have hnext : Underway b.lines all (node :: (leftIn b.slots ++ nodes)) b.env :=
      h.perm List.perm_middle
    have hpass : Ensures (fun env => env = b.env) (firstPass importer b.lines node) _ _ :=
      ensures_firstPass hplain hnext
    have hrun := hpass b.env rfl
    rw [Builder.firstPasses]
    rcases hr : (firstPass importer b.lines node).run.run b.env with ⟨result, env⟩
    rw [hr] at hrun
    cases result with
    | error e => exact hrun
    | ok slot =>
      obtain ⟨hunderway, hslot⟩ := hrun
      have hslots : leftIn (b.slots ++ [slot]) = leftIn b.slots ++ leftIn [slot] :=
        List.filterMap_append
      refine @ih { b with env, slots := b.slots ++ [slot] } ?_ ?_
      · dsimp only
        rw [hslots, List.append_assoc]
        exact hunderway.perm (List.perm_append_comm_assoc _ _ _)
      · dsimp only
        rw [hslots]
        exact List.forall_mem_append.mpr ⟨hk, hslot⟩

end Passes

/-- A document of plain concept statements compiles if and only if they can be declared in some
order, and to what that order leads to. -/
theorem ends_compileText {tree : Tree Leaf} (hplain : Plain tree.nodes) (importer : Importer)
    (text : String) :
    Ends (Underway (linesOf text) tree.nodes []) (fun _ => ¬ Declarable (linesOf text) tree.nodes)
      (compileText importer text tree) := by
  have hstart : Underway (linesOf text) tree.nodes tree.nodes .initial :=
    ⟨[], .none, .refl _⟩
  have hfirst := @firstPasses_underway importer _ hplain tree.nodes (starting .initial text) hstart nofun
  have htransform : (({ env := .initial : Builder }.setText text).prepare).transform importer tree =
      Builder.firstPasses importer tree.nodes (starting .initial text) := if_pos rfl
  unfold compileText
  dsimp only
  rw [htransform]
  rcases hpasses : Builder.firstPasses importer tree.nodes (starting .initial text) with ⟨result, b⟩
  rw [hpasses] at hfirst
  cases result with
  | error e => exact hfirst
  | ok u =>
    obtain ⟨hlines, hprepared, hunderway, hk⟩ := hfirst
    have hready : b.prepared = true := hprepared
    have hlines : b.lines = linesOf text := hlines
    have hsecond := ensures_secondPass hplain hk b.env hunderway
    dsimp only
    rw [Builder.runSecondPass, if_pos hready, hlines]
    rcases hrun : (secondPass (linesOf text) b.slots).run.run b.env with ⟨result, env⟩
    rw [show (starting .initial text).lines = linesOf text from rfl, hrun] at hsecond
    cases result with
    | error e => exact hsecond
    | ok statements => exact hsecond

/-- Concept statements that declare plain names, each once, compile in every order or in none,
and in every order to the same concepts. -/
theorem compileText_perm {tree tree' : Tree Leaf} (hplain : Plain tree.nodes)
    (hperm : tree.nodes.Perm tree'.nodes) (importer : Importer) (text : String) :
    ((∃ env, compileText importer text tree = .ok env) ↔
      ∃ env', compileText importer text tree' = .ok env') ∧
    ∀ env env', compileText importer text tree = .ok env →
      compileText importer text tree' = .ok env' → ∀ a, env.concept? a = env'.concept? a := by
  have hends := ends_compileText hplain importer text
  have hends' := ends_compileText (hplain.perm hperm) importer text
  have hsame : ∀ env, Underway (linesOf text) tree.nodes [] env ↔
      Underway (linesOf text) tree'.nodes [] env := fun env =>
    ⟨fun ⟨done, hdone, hall⟩ => ⟨done, hdone, hall.trans hperm⟩,
      fun ⟨done, hdone, hall⟩ => ⟨done, hdone, hall.trans hperm.symm⟩⟩
  cases hc : compileText importer text tree with
  | error e =>
    rw [hc] at hends
    cases hc' : compileText importer text tree' with
    | error e' => exact ⟨⟨nofun, nofun⟩, nofun⟩
    | ok env' =>
      rw [hc'] at hends'
      exact absurd ⟨env', (hsame env').mpr hends'⟩ hends
  | ok env =>
    rw [hc] at hends
    cases hc' : compileText importer text tree' with
    | error e' =>
      rw [hc'] at hends'
      exact absurd ⟨env, (hsame env).mp hends⟩ hends'
    | ok env' =>
      rw [hc'] at hends'
      refine ⟨⟨fun _ => ⟨env', rfl⟩, fun _ => ⟨env, rfl⟩⟩, ?_⟩
      rintro _ _ ⟨⟩ ⟨⟩
      exact Underway.concept?_eq hends ((hsame env').mpr hends')

/-- A metric before the property that it sums up, and that before its key. -/
def forwardText : String :=
  "metric total <- sum(id.price);\nproperty id.price float;\nkey shop string;\nkey id int; # order"

/-- As it is written the metric and the property have to wait, the other way round nothing
does. The concepts come in another order then, but they are the same. -/
theorem compileText_perm_forward :
    ∃ tree env env', parse forwardText = .ok tree ∧
      compileText (fun path => .error (.circularImport path)) forwardText tree = .ok env ∧
      compileText (fun path => .error (.circularImport path)) forwardText
        (.node tree.kind tree.nodes.reverse) = .ok env' ∧
      env.concepts.keys ≠ env'.concepts.keys ∧ ∀ a, env.concept? a = env'.concept? a := by
  obtain ⟨tree, hparse, hcomputed⟩ : ∃ tree, parse forwardText = .ok tree ∧
      some (decide (Plain tree.nodes),
        (compileText (fun path => .error (.circularImport path)) forwardText tree).toOption.map
          fun env => env.concepts.keys,
        (compileText (fun path => .error (.circularImport path)) forwardText
          (.node tree.kind tree.nodes.reverse)).toOption.map fun env => env.concepts.keys) =
      some (true,
        some ["__preql_internal.all_rows", "local.shop", "local.shop.count", "local.id",
          "local.id.count", "local.price", "local.total"],
        some ["__preql_internal.all_rows", "local.id", "local.id.count", "local.shop",
          "local.shop.count", "local.price", "local.total"]) := by
    apply exists_tree
    decide +kernel
  obtain ⟨hplain, hkeys⟩ := Prod.mk.inj (Option.some.inj hcomputed)
  obtain ⟨hwritten, hreversed⟩ := Prod.mk.inj hkeys
  have hnodes : (Tree.node tree.kind tree.nodes.reverse).nodes = tree.nodes.reverse := by
    apply List.filter_eq_self.mpr
    intro node hnode
    exact (List.mem_filter.mp (List.mem_reverse.mp hnode)).2
  have hperm : tree.nodes.Perm (Tree.node tree.kind tree.nodes.reverse).nodes := by
    rw [hnodes]
    exact (List.reverse_perm _).symm
  cases hc : compileText (fun path => .error (.circularImport path)) forwardText tree with
  | error e =>
    rw [hc] at hwritten
    cases hwritten
  | ok env =>
    cases hc' : compileText (fun path => .error (.circularImport path)) forwardText
        (.node tree.kind tree.nodes.reverse) with
    | error e =>
      rw [hc'] at hreversed
      cases hreversed
    | ok env' =>
      rw [hc] at hwritten
      rw [hc'] at hreversed
      refine ⟨tree, env, env', hparse, hc, hc', ?_, ?_⟩
      · rw [show env.concepts.keys = _ from Option.some.inj hwritten,
          show env'.concepts.keys = _ from Option.some.inj hreversed]
        decide
      · exact (compileText_perm (of_decide_eq_true hplain) hperm _ forwardText).2 env env' hc hc'

end ConceptQuery.Compile
