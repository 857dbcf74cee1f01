import Mathlib.Data.List.Forall2
import ConceptQuery.Compile.Builder

/-! # Results and steps under assumptions

`Ends` says what holds of the value of a result, and what of its error. `Ensures`
says it of a step that may change the environment: from an environment with one
property it ends with a value and an environment that fit together, or with an
error of a given sort. There is one rule for each way to put steps together.
`Gives` is the other way round: it takes a step that succeeded apart. The steps of the
compiler that recurse for themselves are brought into such a form below: expressions by
`expr_induction`, the items of a select and merged selects as steps of a list.
-/
namespace ConceptQuery

theorem exists_mem_of_forall₂ {α β : Type} {R : α → β → Prop} {as : List α} {bs : List β}
    (h : List.Forall₂ R as bs) {b : β} (hb : b ∈ bs) : ∃ a ∈ as, R a b := by
  induction h with
  | nil => cases hb
  | cons hr _ ih =>
    rcases List.mem_cons.mp hb with rfl | hb
    · exact ⟨_, List.mem_cons_self, hr⟩
    · obtain ⟨a, ha, hr⟩ := ih hb
      exact ⟨a, List.mem_cons_of_mem _ ha, hr⟩

namespace Compile

/-- The value, or else the error, has this property. -/
def Ends {ε α : Type} (good : α → Prop) (bad : ε → Prop) : Except ε α → Prop
  | .ok a => good a
  | .error e => bad e

section Results
variable {ε δ α β : Type} {good : α → Prop} {then' : β → Prop} {bad : ε → Prop}

theorem Ends.weaken {x : Except ε α} {good' : α → Prop} {bad' : ε → Prop} (h : Ends good bad x)
    (hg : ∀ a, good a → good' a) (hb : ∀ e, bad e → bad' e) : Ends good' bad' x := by
  cases x with
  | ok a => exact hg a h
  | error e => exact hb e h

theorem Ends.bind {x : Except ε α} {f : α → Except ε β} (hx : Ends good bad x)
    (hf : ∀ a, good a → Ends then' bad (f a)) : Ends then' bad (x >>= f) := by
  cases x with
  | ok a => exact hf a hx
  | error e => exact hx

theorem Ends.map {x : Except ε α} {f : α → β} (hx : Ends (fun a => then' (f a)) bad x) :
    Ends then' bad (x.map f) := by
  cases x with
  | ok a => exact hx
  | error e => exact hx

theorem ends_of_ok {x : Except ε α} (h : ∀ a, x = .ok a → good a) :
    Ends good (fun _ => True) x := by
  cases x with
  | ok a => exact h a rfl
  | error e => trivial

theorem ends_trivial (x : Except ε α) : Ends (fun _ => True) (fun _ => True) x :=
  ends_of_ok fun _ _ => trivial

theorem Ends.of_eq_ok {x : Except ε α} {a : α} (h : Ends good bad x) (hx : x = .ok a) : good a := by
  rw [hx] at h
  exact h

/-- What is known of the value otherwise. -/
theorem Ends.of_ok {x : Except ε α} {good' : α → Prop} (h : Ends good bad x)
    (hok : ∀ a, x = .ok a → good' a) : Ends good' bad x := by
  cases x with
  | ok a => exact hok a rfl
  | error e => exact h

theorem Ends.mapError {x : Except ε α} {f : ε → δ} {worse : δ → Prop}
    (hx : Ends good (fun e => worse (f e)) x) : Ends good worse (x.mapError f) := by
  cases x with
  | ok a => exact hx
  | error e => exact hx

/-- Results in sequence give a value for each of them. -/
theorem Ends.inSequence_forall₂ {f : β → Except ε α} {R : β → α → Prop} {bs : List β}
    (h : ∀ b ∈ bs, Ends (R b) bad (f b)) :
    Ends (List.Forall₂ R bs) bad (Compile.inSequence (bs.map f)) := by
  induction bs with
  | nil => exact .nil
  | cons b bs ih =>
    have hb := h b List.mem_cons_self
    have hbs := ih fun c hc => h c (List.mem_cons_of_mem b hc)
    rw [List.map_cons]
    cases hf : f b with
    | error e =>
      rw [hf] at hb
      exact hb
    | ok a =>
      rw [hf] at hb
      rw [Compile.inSequence]
      cases hs : Compile.inSequence (bs.map f) with
      | error e =>
        rw [hs] at hbs
        exact hbs
      | ok as =>
        rw [hs] at hbs
        exact .cons hb hbs

theorem Ends.inSequence {xs : List (Except ε α)} (h : ∀ x ∈ xs, Ends good bad x) :
    Ends (fun as => ∀ a ∈ as, good a) bad (inSequence xs) := by
  have hall : Ends (List.Forall₂ (fun _ => good) xs) bad (Compile.inSequence (xs.map id)) :=
    Ends.inSequence_forall₂ h
  rw [List.map_id] at hall
  refine hall.weaken (fun as has a ha => ?_) fun _ hbad => hbad
  obtain ⟨x, -, hgood⟩ := exists_mem_of_forall₂ has ha
  exact hgood

theorem ends_inSequence {xs : List (Except ε α)} (h : ∀ x ∈ xs, Ends (fun _ => True) bad x) :
    Ends (fun _ => True) bad (inSequence xs) :=
  (Ends.inSequence h).weaken (fun _ _ => trivial) fun _ hbad => hbad

theorem length_inSequence {xs : List (Except ε α)} {as : List α}
    (h : Compile.inSequence xs = .ok as) : as.length = xs.length := by
  have hall : Ends (List.Forall₂ (fun _ _ => True) xs) (fun _ => True)
      (Compile.inSequence (xs.map id)) := Ends.inSequence_forall₂ fun x _ => ends_trivial x
  rw [List.map_id] at hall
  exact (hall.of_eq_ok h).length_eq.symm

/-- What holds of each part if it has a value holds of all if they all have one. -/
theorem Ends.inSequence_map {f : β → Except ε α} {P : β → Prop} {bs : List β}
    (h : ∀ b ∈ bs, Ends (fun _ => P b) bad (f b)) :
    Ends (fun _ => ∀ b ∈ bs, P b) bad (Compile.inSequence (bs.map f)) := by
  refine (Ends.inSequence_forall₂ h).weaken (fun as has b hb => ?_) fun _ hbad => hbad
  obtain ⟨a, -, hP⟩ := exists_mem_of_forall₂ has.flip hb
  exact hP

theorem Ends.orFail {x : Except CompileError α} {bad : Blocker → Prop}
    (h : Ends good (fun e => bad (.failed e)) x) : Ends good bad (orFail x) := by
  cases x with
  | ok a => exact h
  | error e => exact h

end Results

namespace Build
variable {α β : Type} {fails : CompileError → Prop}

/-- From an environment with the first property, the step ends with a value and an
environment with the second, or with an error of this sort. -/
def Ensures (pre : Environment → Prop) (step : Build α) (post : α → Environment → Prop)
    (fails : CompileError → Prop) : Prop :=
  ∀ env, pre env → match step.run.run env with
    | (.ok a, env') => post a env'
    | (.error e, _) => fails e

variable {pre : Environment → Prop} {post : α → Environment → Prop}

theorem Ensures.weaken {step : Build α} {pre' : Environment → Prop}
    {post' : α → Environment → Prop} (h : Ensures pre step post fails)
    (hpre : ∀ env, pre' env → pre env) (hpost : ∀ a env, post a env → post' a env) :
    Ensures pre' step post' fails := by
  intro env henv
  have hrun := h env (hpre env henv)
  rcases hr : step.run.run env with ⟨result, env'⟩
  rw [hr] at hrun
  cases result with
  | ok a => exact hpost a env' hrun
  | error e => exact hrun

theorem ensures_pure {a : α} (h : ∀ env, pre env → post a env) :
    Ensures pre (pure a : Build α) post fails :=
  fun env henv => h env henv

theorem ensures_throw {e : CompileError} (h : fails e) :
    Ensures pre (throw e : Build α) post fails :=
  fun _ _ => h

theorem run_bind (step : Build α) (next : α → Build β) (env : Environment) :
    (step >>= next).run.run env = match step.run.run env with
      | (.ok a, env') => (next a).run.run env'
      | (.error e, env') => (.error e, env') := by
  rw [ExceptT.run_bind, StateT.run_bind]
  generalize step.run.run env = outcome
  obtain ⟨result, env'⟩ := outcome
  cases result with
  | ok a => rfl
  | error e => rfl

theorem run_lift (result : Environment → Except CompileError α) (env : Environment) :
    (Build.lift result).run.run env = (result env, env) := by
  have hget : (get : Build Environment).run.run env = (.ok env, env) := rfl
  rw [Build.lift, run_bind, hget]
  cases h : result env with
  | ok a =>
    simp only [h]
    rfl
  | error e =>
    simp only [h]
    rfl

theorem run_change (result : Environment → Except CompileError Environment) (env : Environment) :
    (Build.change result).run.run env = match result env with
      | .ok env' => (.ok (), env')
      | .error e => (.error e, env) := by
  have hget : (get : Build Environment).run.run env = (.ok env, env) := rfl
  rw [Build.change, run_bind, hget]
  cases h : result env with
  | ok a =>
    simp only [h]
    rfl
  | error e =>
    simp only [h]
    rfl

theorem Ensures.bind {step : Build α} {next : α → Build β} {post' : β → Environment → Prop}
    (h : Ensures pre step post fails) (hnext : ∀ a, Ensures (post a) (next a) post' fails) :
    Ensures pre (step >>= next) post' fails := by
  intro env henv
  have hrun := h env henv
  rw [run_bind]
  rcases hr : step.run.run env with ⟨result, env'⟩
  rw [hr] at hrun
  cases result with
  | ok a => exact hnext a env' hrun
  | error e => exact hrun

theorem Ensures.map {step : Build α} {f : α → β} {post' : β → Environment → Prop}
    (h : Ensures pre step (fun a => post' (f a)) fails) :
    Ensures pre (f <$> step) post' fails := by
  have hbind : f <$> step = step >>= fun a => pure (f a) := rfl
  rw [hbind]
  exact h.bind fun a => ensures_pure fun _ henv => henv

theorem ensures_get : Ensures pre (get : Build Environment) (fun a env => a = env ∧ pre env) fails :=
  fun _ henv => ⟨rfl, henv⟩

theorem ensures_modify {f : Environment → Environment} {post : Unit → Environment → Prop}
    (h : ∀ env, pre env → post () (f env)) : Ensures pre (modify f : Build Unit) post fails :=
  fun env henv => h env henv

theorem ensures_lift {result : Environment → Except CompileError α}
    (h : ∀ env, pre env → Ends (fun a => post a env) fails (result env)) :
    Ensures pre (Build.lift result) post fails := by
  intro env henv
  have hends := h env henv
  rw [run_lift]
  cases hr : result env with
  | ok a =>
    rw [hr] at hends
    exact hends
  | error e =>
    rw [hr] at hends
    exact hends

theorem ensures_change {result : Environment → Except CompileError Environment}
    {post : Unit → Environment → Prop}
    (h : ∀ env, pre env → Ends (fun env' => post () env') fails (result env)) :
    Ensures pre (Build.change result) post fails := by
  intro env henv
  have hends := h env henv
  rw [run_change]
  cases hr : result env with
  | ok env' =>
    rw [hr] at hends
    exact hends
  | error e =>
    rw [hr] at hends
    exact hends

/-- What each step of a list keeps, all of them keep. -/
theorem ensures_forM {xs : List α} {body : α → Build PUnit}
    (h : ∀ x ∈ xs, Ensures pre (body x) (fun _ => pre) fails) :
    Ensures pre (xs.forM body) (fun _ => pre) fails := by
  induction xs with
  | nil => exact ensures_pure fun _ henv => henv
  | cons x xs ih =>
    have hcons : (x :: xs).forM body = body x >>= fun _ => xs.forM body := rfl
    rw [hcons]
    exact (h x (by simp)).bind fun _ => ih fun y hy => h y (by simp [hy])

/-- Likewise for the values of the steps, one for each. -/
theorem ensures_length_mapM {xs : List α} {body : α → Build β}
    (h : ∀ x ∈ xs, Ensures pre (body x) (fun _ => pre) fails) :
    Ensures pre (xs.mapM body) (fun bs env => bs.length = xs.length ∧ pre env) fails := by
  induction xs with
  | nil => exact ensures_pure fun _ henv => ⟨rfl, henv⟩
  | cons x xs ih =>
    rw [List.mapM_cons]
    refine (h x (by simp)).bind fun b => ?_
    refine (ih fun y hy => h y (by simp [hy])).bind fun bs => ensures_pure fun _ hbs => ?_
    exact ⟨congrArg Nat.succ hbs.1, hbs.2⟩

theorem ensures_mapM {xs : List α} {body : α → Build β}
    (h : ∀ x ∈ xs, Ensures pre (body x) (fun _ => pre) fails) :
    Ensures pre (xs.mapM body) (fun _ => pre) fails :=
  (ensures_length_mapM h).weaken (fun _ henv => henv) fun _ _ hbs => hbs.2

/-- The step succeeds with this value and turns one environment into the other. -/
def Gives (step : Build α) (env : Environment) (a : α) (env' : Environment) : Prop :=
  step.run.run env = (.ok a, env')

section Gives
variable {env env' : Environment}

theorem gives_bind {step : Build α} {next : α → Build β} {b : β} :
    Gives (step >>= next) env b env' ↔
      ∃ a between, Gives step env a between ∧ Gives (next a) between b env' := by
  unfold Gives
  rw [run_bind]
  constructor
  · intro h
    split at h
    · rename_i a between hstep
      exact ⟨a, between, hstep, h⟩
    · cases h
  · rintro ⟨a, between, hstep, hnext⟩
    rw [hstep]
    exact hnext

theorem gives_pure {a b : α} : Gives (pure a) env b env' ↔ a = b ∧ env = env' := by
  unfold Gives
  constructor
  · intro h
    have heq : (Except.ok a, env) = ((.ok b : Except CompileError α), env') := h
    obtain ⟨hab, henv⟩ := Prod.mk.inj heq
    exact ⟨Except.ok.inj hab, henv⟩
  · rintro ⟨rfl, rfl⟩
    rfl

theorem not_gives_throw {e : CompileError} {a : α} : ¬ Gives (throw e) env a env' := by
  intro h
  have heq : (Except.error e, env) = ((.ok a : Except CompileError α), env') := h
  cases (Prod.mk.inj heq).1

theorem gives_get {a : Environment} :
    Gives (get : Build Environment) env a env' ↔ env = a ∧ env = env' :=
  gives_pure

theorem gives_modify {f : Environment → Environment} {u : Unit} :
    Gives (modify f : Build Unit) env u env' ↔ f env = env' := by
  unfold Gives
  constructor
  · intro h
    have heq : (Except.ok (), f env) = ((.ok u : Except CompileError Unit), env') := h
    exact (Prod.mk.inj heq).2
  · rintro rfl
    rfl

theorem gives_lift {result : Environment → Except CompileError α} {a : α} :
    Gives (Build.lift result) env a env' ↔ result env = .ok a ∧ env = env' := by
  rw [Gives, run_lift, Prod.mk.injEq]

theorem gives_change {result : Environment → Except CompileError Environment} {u : Unit} :
    Gives (Build.change result) env u env' ↔ result env = .ok env' := by
  rw [Gives, run_change]
  cases result env with
  | ok found =>
    rw [Except.ok.injEq]
    exact ⟨fun h => (Prod.mk.inj h).2, fun h => h ▸ rfl⟩
  | error e =>
    constructor
    · intro h
      cases (Prod.mk.inj h).1
    · intro h
      cases h

theorem gives_map {step : Build α} {f : α → β} {b : β} :
    Gives (f <$> step) env b env' ↔ ∃ a, Gives step env a env' ∧ f a = b := by
  have hbind : f <$> step = step >>= fun a => pure (f a) := rfl
  rw [hbind, gives_bind]
  constructor
  · rintro ⟨a, between, hstep, hpure⟩
    obtain ⟨rfl, rfl⟩ := gives_pure.mp hpure
    exact ⟨a, hstep, rfl⟩
  · rintro ⟨a, hstep, rfl⟩
    exact ⟨a, env', hstep, gives_pure.mpr ⟨rfl, rfl⟩⟩

theorem gives_mapM_cons {x : α} {xs : List α} {body : α → Build β} {bs : List β} :
    Gives ((x :: xs).mapM body) env bs env' ↔ ∃ b between more,
      Gives (body x) env b between ∧ Gives (xs.mapM body) between more env' ∧ b :: more = bs := by
  rw [List.mapM_cons]
  constructor
  · intro h
    obtain ⟨b, between, hfirst, hrest⟩ := gives_bind.mp h
    obtain ⟨more, _, hmore, hpure⟩ := gives_bind.mp hrest
    obtain ⟨rfl, rfl⟩ := gives_pure.mp hpure
    exact ⟨b, between, more, hfirst, hmore, rfl⟩
  · rintro ⟨b, between, more, hfirst, hmore, rfl⟩
    exact gives_bind.mpr ⟨b, between, hfirst,
      gives_bind.mpr ⟨more, env', hmore, gives_pure.mpr ⟨rfl, rfl⟩⟩⟩

end Gives
end Build

section Expressions
variable {env : Environment} {line : Nat} {P : Except Blocker Expr → Prop}
  {cs : List (Tree Leaf)}

theorem nodeExprs_eq (env : Environment) (cs : List (Tree Leaf)) :
    nodeExprs env cs = (cs.filter Tree.isNode).map (expr env) := by
  induction cs with
  | nil => simp [nodeExprs]
  | cons c cs ih =>
    cases c with
    | leaf l => simp [nodeExprs, Tree.isNode, ih]
    | node k ds => rw [nodeExprs, ih, List.filter_cons_of_pos rfl, List.map_cons]

/-- The nodes of the first argument list. -/
def argumentNodes : List (Tree Leaf) → List (Tree Leaf)
  | [] => []
  | c :: rest => if c.kind = .argumentList then c.nodes else argumentNodes rest

theorem argumentExprs_eq (env : Environment) (cs : List (Tree Leaf)) :
    argumentExprs env cs = (argumentNodes cs).map (expr env) := by
  induction cs with
  | nil => simp [argumentExprs, argumentNodes]
  | cons c cs ih =>
    cases c with
    | leaf l => rw [argumentExprs, ih, argumentNodes, if_neg (by simp [Tree.kind])]
    | node k ds =>
      rw [argumentExprs, argumentNodes, Tree.kind]
      split
      · exact nodeExprs_eq env ds
      · exact ih

theorem exists_of_mem_argumentNodes {t : Tree Leaf} (h : t ∈ argumentNodes cs) :
    ∃ c ∈ cs, t ∈ c.children := by
  induction cs with
  | nil => cases h
  | cons c cs ih =>
    rw [argumentNodes] at h
    split at h
    · exact ⟨c, List.mem_cons_self, (List.mem_filter.mp h).1⟩
    · obtain ⟨d, hd, ht⟩ := ih h
      exact ⟨d, List.mem_cons_of_mem c hd, ht⟩

theorem sizeOf_lt_of_mem_children {t u : Tree Leaf} (h : u ∈ t.children) : sizeOf u < sizeOf t := by
  cases t with
  | leaf l => cases h
  | node k cs =>
    have hlt : sizeOf u < sizeOf cs := List.sizeOf_lt_of_mem h
    rw [Tree.node.sizeOf_spec]
    omega

/-- Induction on an expression. What it is made of are the nodes below it and those of
its arguments. -/
@[elab_as_elim]
theorem expr_induction {motive : Tree Leaf → Prop} (leaf : ∀ l, motive (.leaf l))
    (node : ∀ kind cs, (∀ t ∈ cs.filter Tree.isNode, motive t) →
      (∀ t ∈ argumentNodes cs, motive t) → motive (.node kind cs)) (t : Tree Leaf) : motive t := by
  induction hsize : sizeOf t using Nat.strongRecOn generalizing t with
  | ind n ih =>
    subst hsize
    cases t with
    | leaf l => exact leaf l
    | node kind cs =>
      have hchild : ∀ u ∈ cs, sizeOf u < sizeOf (Tree.node kind cs) :=
        fun u hu => sizeOf_lt_of_mem_children hu
      apply node
      · intro u hu
        exact ih _ (hchild u (List.mem_filter.mp hu).1) u rfl
      · intro u hu
        obtain ⟨c, hc, hmem⟩ := exists_of_mem_argumentNodes hu
        exact ih _ (Nat.lt_trans (sizeOf_lt_of_mem_children hmem) (hchild c hc)) u rfl

theorem forall_nodeExprs (h : ∀ t ∈ cs.filter Tree.isNode, P (expr env t)) :
    ∀ x ∈ nodeExprs env cs, P x := by
  rw [nodeExprs_eq]
  exact List.forall_mem_map.mpr h

theorem forall_argumentExprs (h : ∀ t ∈ argumentNodes cs, P (expr env t)) :
    ∀ x ∈ argumentExprs env cs, P x := by
  rw [argumentExprs_eq]
  exact List.forall_mem_map.mpr h

theorem operand_of_forall {operands : List (Except Blocker Expr)} (h : ∀ x ∈ operands, P x)
    (hmissing : P (.error (.failed (.malformed "expression" line "missing operand"))))
    (i : Nat) : P (operand line operands i) := by
  unfold operand
  split
  · rename_i result hresult
    exact h result (List.mem_of_getElem? hresult)
  · exact hmissing

end Expressions

theorem selectItems_eq_mapM (line : Nat) (items : List (Tree Leaf)) :
    selectItems line items = items.mapM (selectItem line) := by
  induction items with
  | nil => rfl
  | cons item items ih => rw [selectItems, ih, List.mapM_cons]

theorem selects_eq_mapM (nodes : List (Tree Leaf)) : selects nodes = nodes.mapM select := by
  induction nodes with
  | nil => rfl
  | cons node nodes ih => rw [selects, ih, List.mapM_cons]

/-- A concept that got done, or waits as it is. -/
def Slot.ofAttempt (node : Tree Leaf) : Except (String × Nat) Statement → Slot
  | .ok s => .ready s
  | .error _ => .pending node

/-- The first pass tries to declare a concept that mentions others. -/
theorem firstPass_of_concept {importer : Importer} {lines : List (List Char)} {node : Tree Leaf}
    (h : isConceptNode node = true) :
    firstPass importer lines node = Slot.ofAttempt node <$> tryConcept lines node := by
  have hbind : Slot.ofAttempt node <$> tryConcept lines node =
      tryConcept lines node >>= fun result => pure (Slot.ofAttempt node result) := rfl
  rw [isConceptNode, Bool.or_eq_true, decide_eq_true_iff, decide_eq_true_iff] at h
  rw [hbind]
  unfold firstPass
  rcases h with h | h
  all_goals
    rw [h]
    dsimp only
    congr 1
    funext result
    cases result with
    | ok s => rfl
    | error name => rfl

end Compile
end ConceptQuery
