import Mathlib.Data.List.Forall2
import ConceptQuery.Proofs.Known

/-! # What stays as an environment grows

In a document that declares concepts under plain names only, every address is `local`
with a name behind it, or with the name of a key and `count`. In such an environment a
name that is resolved keeps its meaning when more concepts come in. So a declaration
that is compiled in a smaller environment either waits there, or gives what it gives in
the larger one: `Defers`.
-/
namespace ConceptQuery

namespace Environment

/-- Every concept of the first environment is in the second, under the same address. -/
def Extends (env env' : Environment) : Prop :=
  ∀ a c, env.concept? a = some c → env'.concept? a = some c

/-- All concepts are declared by the document itself, under undotted names other than that of
its namespace, and every key has its count. -/
structure Flat (env : Environment) : Prop where
  space : env.space = localSpace
  rows : env.Knows (Dotted.join [internalSpace, "all_rows"])
  named : ∀ a, env.Knows a → Dotted.segments a = [internalSpace, "all_rows"] ∨
    ∃ c, env.concept? (Dotted.qualify localSpace c.name) = some c ∧ c.name ≠ localSpace ∧
      (Dotted.segments a = [localSpace, c.name] ∨
        c.purpose = .key ∧ Dotted.segments a = [localSpace, c.name, "count"])
  counted : ∀ c, env.concept? (Dotted.qualify localSpace c.name) = some c → c.purpose = .key →
    env.Knows (Dotted.join [localSpace, c.name, "count"])

section Resolving
variable {env env' : Environment} {a : String}

theorem Extends.knows (h : env.Extends env') (ha : env.Knows a) : env'.Knows a := by
  cases hc : env.concept? a with
  | none => exact absurd ha (concept?_eq_none_iff.mp hc)
  | some c => exact knows_of_concept? (h a c hc)

theorem Extends.concept?_eq (h : env.Extends env') (ha : env.Knows a) :
    env'.concept? a = env.concept? a := by
  cases hc : env.concept? a with
  | none => exact absurd ha (concept?_eq_none_iff.mp hc)
  | some c => exact h a c hc

theorem Extends.propertyOf? (h : env.Extends env') {parent name : String}
    (hparent : env.Knows parent) (hproperty : env.propertyOf? parent name = some a) :
    env'.propertyOf? parent name = some a := by
  have hspace : ((env'.concept? parent).map Concept.space).getD env'.space =
      ((env.concept? parent).map Concept.space).getD env.space := by
    rw [h.concept?_eq hparent]
    cases hc : env.concept? parent with
    | none => exact absurd hparent (concept?_eq_none_iff.mp hc)
    | some c => rfl
  have hknown := knows_of_propertyOf? hproperty
  unfold Environment.propertyOf? at hproperty ⊢
  dsimp only at hproperty ⊢
  rw [hspace]
  split at hproperty
  · rename_i keys hkeys
    obtain ⟨c, hc, hk⟩ := Option.bind_eq_some_iff.mp hkeys
    rw [h _ c hc, Option.bind_some, hk]
    exact hproperty
  · cases hproperty

section Segments
variable {last : String} {parents : List String}

theorem resolveSegments?_of_raw (h : env.Knows (Dotted.join (last :: parents).reverse)) :
    env.resolveSegments? (last :: parents) = some (Dotted.join (last :: parents).reverse) :=
  if_pos (knows_iff_contains.mp h)

theorem resolveSegments?_of_own (hraw : ¬ env.Knows (Dotted.join (last :: parents).reverse))
    (h : env.Knows (Dotted.qualify env.space (Dotted.join (last :: parents).reverse))) :
    env.resolveSegments? (last :: parents) =
      some (Dotted.qualify env.space (Dotted.join (last :: parents).reverse)) :=
  (if_neg fun hcontains => hraw (knows_iff_contains.mpr hcontains)).trans
    (if_pos (knows_iff_contains.mp h))

theorem resolveSegments?_of_parent (hraw : ¬ env.Knows (Dotted.join (last :: parents).reverse))
    (hown : ¬ env.Knows (Dotted.qualify env.space (Dotted.join (last :: parents).reverse))) :
    env.resolveSegments? (last :: parents) =
      (env.resolveSegments? parents).bind fun parent => env.propertyOf? parent last := by
  rw [resolveSegments?, if_neg fun hcontains => hraw (knows_iff_contains.mpr hcontains),
    if_neg fun hcontains => hown (knows_iff_contains.mpr hcontains)]
  cases env.resolveSegments? parents with
  | none => rfl
  | some parent => rfl

end Segments

namespace Flat

theorem named_join (h : env.Flat) {path : List String} (hne : path ≠ [])
    (hundotted : ∀ s ∈ path, Dotted.isDotted s = false) (hknown : env.Knows (Dotted.join path)) :
    path = [internalSpace, "all_rows"] ∨
    ∃ c, env.concept? (Dotted.qualify localSpace c.name) = some c ∧ c.name ≠ localSpace ∧
      (path = [localSpace, c.name] ∨ c.purpose = .key ∧ path = [localSpace, c.name, "count"]) := by
  have hnamed := h.named _ hknown
  rw [Dotted.segments_join hne hundotted] at hnamed
  exact hnamed

/-- A name in the namespace of the document is a plain one, or the count of a key. -/
theorem named_own (h : env.Flat) {path : List String} (hne : path ≠ [])
    (hundotted : ∀ s ∈ path, Dotted.isDotted s = false)
    (hknown : env.Knows (Dotted.qualify env.space (Dotted.join path))) :
    ∃ c, env.concept? (Dotted.qualify localSpace c.name) = some c ∧ c.name ≠ localSpace ∧
      (path = [c.name] ∨ c.purpose = .key ∧ path = [c.name, "count"]) := by
  have hpath : Dotted.qualify env.space (Dotted.join path) = Dotted.join (localSpace :: path) := by
    obtain ⟨first, rest, rfl⟩ := List.exists_cons_of_ne_nil hne
    rw [h.space, Dotted.join_cons_cons]
  rw [hpath] at hknown
  have hall : ∀ s ∈ localSpace :: path, Dotted.isDotted s = false :=
    List.forall_mem_cons.mpr ⟨by decide, hundotted⟩
  rcases h.named_join (by simp) hall hknown with hrows | ⟨c, hc, hname, hplain | ⟨hkey, hcount⟩⟩
  · exact absurd (List.cons.inj hrows).1 (by decide)
  · exact ⟨c, hc, hname, .inl (List.cons.inj hplain).2⟩
  · exact ⟨c, hc, hname, .inr ⟨hkey, (List.cons.inj hcount).2⟩⟩

/-- A name of the document itself is no address. -/
theorem not_raw_of_own (h : env.Flat) {path : List String} (hne : path ≠ [])
    (hundotted : ∀ s ∈ path, Dotted.isDotted s = false)
    (hown : env.Knows (Dotted.qualify env.space (Dotted.join path))) :
    ¬ env.Knows (Dotted.join path) := by
  intro hraw
  obtain ⟨c, -, hname, rfl | ⟨-, rfl⟩⟩ := h.named_own hne hundotted hown
  · rcases h.named_join hne hundotted hraw with hrows | ⟨d, -, -, hplain | ⟨-, hcount⟩⟩
    · simp at hrows
    · simp at hplain
    · simp at hcount
  · rcases h.named_join hne hundotted hraw with hrows | ⟨d, -, -, hplain | ⟨-, hcount⟩⟩
    · simp at hrows
    · exact hname (List.cons.inj hplain).1
    · simp at hcount

/-- The namespace of the document is no name in it. -/
theorem not_own_local (h : env.Flat) {rest : List String}
    (hundotted : ∀ s ∈ rest, Dotted.isDotted s = false) :
    ¬ env.Knows (Dotted.qualify env.space (Dotted.join (localSpace :: rest))) := by
  intro hknown
  have hall : ∀ s ∈ localSpace :: rest, Dotted.isDotted s = false :=
    List.forall_mem_cons.mpr ⟨by decide, hundotted⟩
  obtain ⟨c, -, hname, hplain | ⟨-, hcount⟩⟩ := h.named_own (by simp) hall hknown
  · exact hname (List.cons.inj hplain).1.symm
  · exact hname (List.cons.inj hcount).1.symm

theorem not_knows_undotted (h : env.Flat) {name : String} (hname : Dotted.isDotted name = false) :
    ¬ env.Knows (Dotted.join [name]) := by
  intro hknown
  have hall : ∀ s ∈ [name], Dotted.isDotted s = false := List.forall_mem_singleton.mpr hname
  rcases h.named_join (by simp) hall hknown with hrows | ⟨c, -, -, hplain | ⟨-, hcount⟩⟩
  · simp at hrows
  · simp at hplain
  · simp at hcount

/-- A plain name that is resolved is that of a concept. -/
theorem knows_of_plain (h : env.Flat) {name : String} (hname : Dotted.isDotted name = false)
    (hresolve : env.resolveSegments? [name] = some a) : env.Knows (Dotted.qualify localSpace name) := by
  have hraw : ¬ env.Knows (Dotted.join [name].reverse) := h.not_knows_undotted hname
  by_contra hnot
  have hown : ¬ env.Knows (Dotted.qualify env.space (Dotted.join [name].reverse)) := by
    rw [h.space, List.reverse_singleton, Dotted.join_singleton]
    exact hnot
  rw [resolveSegments?_of_parent hraw hown] at hresolve
  cases hresolve

theorem resolve_local (h : env.Flat) : env.resolveSegments? [localSpace] = none := by
  cases hresolve : env.resolveSegments? [localSpace] with
  | none => rfl
  | some a =>
    have hknown := h.knows_of_plain (by decide) hresolve
    have hself : ¬ env.Knows (Dotted.qualify env.space (Dotted.join [localSpace])) :=
      h.not_own_local (by simp)
    rw [h.space, Dotted.join_singleton] at hself
    exact absurd hknown hself

/-- Likewise for a name behind the namespace of the document. -/
theorem knows_of_local (h : env.Flat) {name : String} (hname : Dotted.isDotted name = false)
    (hresolve : env.resolveSegments? [name, localSpace] = some a) :
    env.Knows (Dotted.qualify localSpace name) := by
  by_contra hnot
  have hraw : ¬ env.Knows (Dotted.join [name, localSpace].reverse) := by
    rw [List.reverse_cons, List.reverse_singleton, List.singleton_append, Dotted.join_cons_cons,
      Dotted.join_singleton]
    exact hnot
  have hown : ¬ env.Knows (Dotted.qualify env.space (Dotted.join [name, localSpace].reverse)) :=
    h.not_own_local (List.forall_mem_singleton.mpr hname)
  rw [resolveSegments?_of_parent hraw hown, h.resolve_local] at hresolve
  cases hresolve

/-- A key that is known has its count already, also if it is only later that one asks. -/
theorem knows_count (h : env.Flat) (hextends : env.Extends env') {c : Concept}
    (hc : env'.concept? (Dotted.qualify localSpace c.name) = some c) (hkey : c.purpose = .key)
    (hknown : env.Knows (Dotted.qualify localSpace c.name)) :
    env.Knows (Dotted.join [localSpace, c.name, "count"]) := by
  rw [hextends.concept?_eq hknown] at hc
  exact h.counted c hc hkey

section Later
variable {last parent : String} {parents : List String} (h : env.Flat) (h' : env'.Flat)
  (hextends : env.Extends env')
  (hundotted : ∀ s ∈ last :: parents, Dotted.isDotted s = false)
  (hparent : env.resolveSegments? parents = some parent)
include h h' hextends hundotted hparent

/-- A name whose parent is resolved does not become an address later. -/
theorem not_raw_later (hraw : ¬ env.Knows (Dotted.join (last :: parents).reverse)) :
    ¬ env'.Knows (Dotted.join (last :: parents).reverse) := by
  intro hknown
  have hall : ∀ s ∈ (last :: parents).reverse, Dotted.isDotted s = false :=
    fun s hs => hundotted s (List.mem_reverse.mp hs)
  rcases h'.named_join (by simp) hall hknown with hrows | ⟨c, hc, -, hplain | ⟨hkey, hcount⟩⟩
  · rw [hrows] at hraw
    exact hraw h.rows
  · obtain ⟨-, rfl⟩ := List.cons.inj (List.reverse_eq_iff.mp hplain)
    rw [h.resolve_local] at hparent
    cases hparent
  · obtain ⟨-, rfl⟩ := List.cons.inj (List.reverse_eq_iff.mp hcount)
    have hname : Dotted.isDotted c.name = false := hundotted c.name (by simp)
    rw [hcount] at hraw
    exact hraw (h.knows_count hextends hc hkey (h.knows_of_local hname hparent))

/-- Nor does it become a name of the document itself. -/
theorem not_own_later
    (hown : ¬ env.Knows (Dotted.qualify env.space (Dotted.join (last :: parents).reverse))) :
    ¬ env'.Knows (Dotted.qualify env'.space (Dotted.join (last :: parents).reverse)) := by
  intro hknown
  have hall : ∀ s ∈ (last :: parents).reverse, Dotted.isDotted s = false :=
    fun s hs => hundotted s (List.mem_reverse.mp hs)
  obtain ⟨c, hc, -, hplain | ⟨hkey, hcount⟩⟩ := h'.named_own (by simp) hall hknown
  · obtain ⟨-, rfl⟩ := List.cons.inj (List.reverse_eq_iff.mp hplain)
    cases hparent
  · obtain ⟨-, rfl⟩ := List.cons.inj (List.reverse_eq_iff.mp hcount)
    have hname : Dotted.isDotted c.name = false := hundotted c.name (by simp)
    have hknowsCount := h.knows_count hextends hc hkey (h.knows_of_plain hname hparent)
    rw [hcount, h.space, ← Dotted.join_cons_cons] at hown
    exact hown hknowsCount

end Later

/-- A resolved name keeps its meaning. -/
theorem resolveSegments?_extends (h : env.Flat) (h' : env'.Flat) (hextends : env.Extends env')
    {reversed : List String} (hundotted : ∀ s ∈ reversed, Dotted.isDotted s = false)
    (hresolve : env.resolveSegments? reversed = some a) :
    env'.resolveSegments? reversed = some a := by
  induction reversed generalizing a with
  | nil => cases hresolve
  | cons last parents ih =>
    have hne : (last :: parents).reverse ≠ [] := by simp
    have hall : ∀ s ∈ (last :: parents).reverse, Dotted.isDotted s = false :=
      fun s hs => hundotted s (List.mem_reverse.mp hs)
    by_cases hraw : env.Knows (Dotted.join (last :: parents).reverse)
    · rw [resolveSegments?_of_raw hraw] at hresolve
      rw [resolveSegments?_of_raw (hextends.knows hraw)]
      exact hresolve
    by_cases hown : env.Knows (Dotted.qualify env.space (Dotted.join (last :: parents).reverse))
    · have hown' := hextends.knows hown
      rw [h.space, ← h'.space] at hown'
      rw [resolveSegments?_of_own hraw hown, h.space] at hresolve
      rw [resolveSegments?_of_own (h'.not_raw_of_own hne hall hown') hown', h'.space]
      exact hresolve
    rw [resolveSegments?_of_parent hraw hown] at hresolve
    obtain ⟨parent, hparent, hproperty⟩ := Option.bind_eq_some_iff.mp hresolve
    have hparent' := ih (fun s hs => hundotted s (List.mem_cons_of_mem last hs)) hparent
    rw [resolveSegments?_of_parent (not_raw_later h h' hextends hundotted hparent hraw)
      (not_own_later h h' hextends hundotted hparent hown), hparent', Option.bind_some]
    exact hextends.propertyOf? (knows_of_resolveSegments? hparent) hproperty

theorem resolve?_extends (h : env.Flat) (h' : env'.Flat) (hextends : env.Extends env')
    {name : String} (hresolve : env.resolve? name = some a) : env'.resolve? name = some a :=
  h.resolveSegments?_extends h' hextends
    (fun _ hs => Dotted.undotted_of_mem_segments (List.mem_reverse.mp hs)) hresolve

end Flat
end Resolving
end Environment

section Types
variable {f g : String → Option DataType}

namespace Expr
mutual
theorem inferType_congr (e : Expr) (h : ∀ a ∈ e.mentions, f a = g a) :
    e.inferType f = e.inferType g := by
  cases e with
  | concept address =>
    rw [inferType, inferType, h address (by simp [mentions])]
  | literal value => rfl
  | type datatype => rfl
  | call function arguments =>
    rw [mentions] at h
    rw [inferType, inferType, inferFirst_congr arguments h]
  | binary op lhs rhs =>
    rw [mentions, List.forall_mem_append] at h
    rw [inferType, inferType, inferType_congr lhs h.1, inferType_congr rhs h.2]
  | unary op operand =>
    rw [mentions] at h
    cases op with
    | not => rw [inferType, inferType]
    | neg => rw [inferType, inferType, inferType_congr operand h]
  | isNull operand negated => rw [inferType, inferType]
  | inList operand items negated => rw [inferType, inferType]
  | paren inner =>
    rw [mentions] at h
    rw [inferType, inferType, inferType_congr inner h]

theorem inferFirst_congr (es : List Expr) (h : ∀ a ∈ mentionsAll es, f a = g a) :
    inferFirst f es = inferFirst g es := by
  cases es with
  | nil => rfl
  | cons e es =>
    rw [mentionsAll, List.forall_mem_append] at h
    rw [inferFirst, inferFirst, inferType_congr e h.1]
end
end Expr
end Types

namespace Compile
open Environment

/-- The first result waits for a name, or the two are the same. -/
def Defers {α : Type} (x y : Except Blocker α) : Prop :=
  (∃ name line, x = .error (.unresolved name line)) ∨ x = y

section Results
variable {α β : Type} {x y : Except Blocker α}

theorem Defers.refl (x : Except Blocker α) : Defers x x :=
  .inr rfl

theorem Defers.eq_of_ok {a : α} (h : Defers x y) (hx : x = .ok a) : y = .ok a := by
  rcases h with ⟨name, line, hwaits⟩ | rfl
  · rw [hx] at hwaits
    cases hwaits
  · exact hx

theorem Defers.bind {f g : α → Except Blocker β} (h : Defers x y)
    (hnext : ∀ a, x = .ok a → Defers (f a) (g a)) : Defers (x >>= f) (y >>= g) := by
  rcases h with ⟨name, line, rfl⟩ | rfl
  · exact .inl ⟨name, line, rfl⟩
  · cases x with
    | error e => exact .inr rfl
    | ok a => exact hnext a rfl

theorem Defers.inSequence {xs ys : List (Except Blocker α)} (h : List.Forall₂ Defers xs ys) :
    Defers (inSequence xs) (inSequence ys) := by
  induction h with
  | nil => exact .refl _
  | @cons x y xs ys hfirst hrest ih =>
    rcases hfirst with ⟨name, line, rfl⟩ | rfl
    · exact .inl ⟨name, line, rfl⟩
    · cases x with
      | error e => exact .inr rfl
      | ok a =>
        rw [Compile.inSequence, Compile.inSequence]
        rcases ih with ⟨name, line, hwaits⟩ | hsame
        · rw [hwaits]
          exact .inl ⟨name, line, rfl⟩
        · rw [hsame]
          exact .refl _

theorem Defers.operand {line : Nat} {xs ys : List (Except Blocker Expr)}
    (h : List.Forall₂ Defers xs ys) (index : Nat) :
    Defers (operand line xs index) (operand line ys index) := by
  induction h generalizing index with
  | nil => exact .refl _
  | cons hfirst hrest ih =>
    cases index with
    | zero => exact hfirst
    | succ index => exact ih index

end Results

section Expressions
variable {env env' : Environment}

/-- As far as names are concerned, the first environment waits where it differs. -/
def NamesDefer (env env' : Environment) : Prop :=
  ∀ name line, Defers (resolveLater env name line) (resolveLater env' name line)

theorem forall₂_exprs {ts : List (Tree Leaf)} (h : ∀ t ∈ ts, Defers (expr env t) (expr env' t)) :
    List.Forall₂ Defers (ts.map (expr env)) (ts.map (expr env')) := by
  rw [List.forall₂_map_left_iff, List.forall₂_map_right_iff, List.forall₂_same]
  exact h

theorem defers_expr (h : NamesDefer env env') (t : Tree Leaf) : Defers (expr env t) (expr env' t) := by
  induction t using expr_induction with
  | leaf leaf =>
    rw [expr, expr]
    exact .refl _
  | node kind children hnodes harguments =>
    have hnodes : List.Forall₂ Defers (nodeExprs env children) (nodeExprs env' children) := by
      rw [nodeExprs_eq, nodeExprs_eq]
      exact forall₂_exprs hnodes
    have harguments : List.Forall₂ Defers (argumentExprs env children)
        (argumentExprs env' children) := by
      rw [argumentExprs_eq, argumentExprs_eq]
      exact forall₂_exprs harguments
    rw [expr.eq_def, expr.eq_def]
    dsimp only
    split
    · refine (Defers.refl _).bind fun leaf _ => ?_
      exact (h _ _).bind fun _ _ => .refl _
    · exact .refl _
    · exact .refl _
    · refine (Defers.refl _).bind fun function _ => ?_
      exact (Defers.inSequence harguments).bind fun _ _ => .refl _
    · exact (Defers.operand hnodes 0).bind fun _ _ => .refl _
    · refine (Defers.refl _).bind fun op _ => ?_
      refine (Defers.operand hnodes 0).bind fun lhs _ => ?_
      exact (Defers.operand hnodes 1).bind fun _ _ => .refl _
    · exact (Defers.operand hnodes 0).bind fun _ _ => .refl _
    · exact (Defers.operand hnodes 0).bind fun _ _ => .refl _
    · have htail : List.Forall₂ Defers (nodeExprs env children).tail (nodeExprs env' children).tail := by
        simpa using List.forall₂_drop 1 hnodes
      refine (Defers.operand hnodes 0).bind fun first _ => ?_
      exact (Defers.inSequence htail).bind fun _ _ => .refl _
    · exact .refl _

theorem keysOf_extends (hextends : env.Extends env') {lineage : Expr}
    (hknown : env.KnowsAll lineage.mentions) : keysOf env' lineage = keysOf env lineage := by
  have hfilter : (lineage.concepts.filter fun a => (env'.concept? a).any fun c => c.purpose = .key) =
      lineage.concepts.filter fun a => (env.concept? a).any fun c => c.purpose = .key := by
    apply List.filter_congr
    intro a ha
    rw [hextends.concept?_eq (hknown a (Expr.mem_concepts.mp ha))]
  unfold keysOf
  rw [hfilter]

end Expressions

section Growing
variable {env env' : Environment} {lines : List (List Char)} (h : env.Flat) (h' : env'.Flat)
  (hextends : env.Extends env')
include h h' hextends

theorem namesDefer : NamesDefer env env' := by
  intro name line
  unfold resolveLater
  cases hresolve : env.resolve? name with
  | none => exact .inl ⟨name, line, rfl⟩
  | some a =>
    rw [h.resolve?_extends h' hextends hresolve]
    exact .refl _

theorem defers_propertyConcept (node : Tree Leaf) (purpose : Purpose) (name : Leaf) :
    Defers (propertyConcept env node purpose name) (propertyConcept env' node purpose name) := by
  unfold propertyConcept
  rw [h.space, h'.space]
  refine (Defers.refl _).bind fun ⟨parent, short⟩ _ => ?_
  exact (namesDefer h h' hextends _ _).bind fun _ _ => .refl _

theorem defers_lineageConcept (node : Tree Leaf) (purpose : Purpose) (name : Leaf) :
    Defers (lineageConcept env node purpose name) (lineageConcept env' node purpose name) := by
  unfold lineageConcept
  rw [h.space, h'.space]
  refine (Defers.refl _).bind fun lineageNode _ => ?_
  refine (defers_expr (namesDefer h h' hextends) lineageNode).bind fun lineage hlineage => ?_
  -- what is mentioned is known by now, so types and keys do not change any more
  have hknown : env.KnowsAll lineage.mentions := (closed_expr lineageNode).of_eq_ok hlineage
  have htype : lineage.inferType env'.typeOf = lineage.inferType env.typeOf := by
    apply Expr.inferType_congr
    intro a ha
    rw [typeOf, typeOf, hextends.concept?_eq (hknown a ha)]
  rw [htype, keysOf_extends hextends hknown]
  exact .refl _

theorem defers_derivedConcept (node : Tree Leaf) :
    Defers (derivedConcept lines env node) (derivedConcept lines env' node) := by
  refine (Defers.refl _).bind fun purpose _ => ?_
  refine (Defers.refl _).bind fun name _ => ?_
  dsimp only
  split
  · exact (defers_propertyConcept h h' hextends node purpose name).bind fun _ _ => .refl _
  · exact (defers_lineageConcept h h' hextends node purpose name).bind fun _ _ => .refl _

end Growing

/-- The concept that a statement declares, as far as the environment tells. -/
def conceptOf (lines : List (List Char)) (env : Environment) (node : Tree Leaf) :
    Except Blocker Concept :=
  if node.kind = .conceptDeclaration then orFail (declaredConcept lines env node)
  else derivedConcept lines env node

theorem defers_conceptOf {env env' : Environment} (h : env.Flat) (h' : env'.Flat)
    (hextends : env.Extends env') (lines : List (List Char)) (node : Tree Leaf) :
    Defers (conceptOf lines env node) (conceptOf lines env' node) := by
  unfold conceptOf
  split
  · unfold declaredConcept
    rw [h.space, h'.space]
    exact .refl _
  · exact defers_derivedConcept h h' hextends node

end Compile
end ConceptQuery
