import Mathlib.Data.List.Basic
import ConceptQuery.Proofs.Mentions

/-! # Renaming what is mentioned

A map of names acts on concepts and datasources through what these mention. Two maps
that agree on the mentions do the same, and an injective map that does the same as
another agrees with it on every mention. Keys are kept once each, at their first place;
this is where injectivity is needed. Any map at all commutes with what is read off an
expression: `Expr.mapConcepts_homomorphism`.
-/
namespace ConceptQuery

section Places
variable {names : List String} {f g : String → String}

theorem firstPlaces_sublist (names : List String) : (firstPlaces names).Sublist names := by
  induction names with
  | nil => exact .slnil
  | cons name rest ih => exact (List.filter_sublist.trans ih).cons_cons name

theorem firstPlaces_filter (p : String → Bool) (names : List String) :
    firstPlaces (names.filter p) = (firstPlaces names).filter p := by
  induction names with
  | nil => rfl
  | cons name rest ih =>
    by_cases hp : p name = true
    · rw [List.filter_cons_of_pos hp, firstPlaces, firstPlaces, List.filter_cons_of_pos hp, ih,
        List.filter_filter, List.filter_filter]
      simp only [Bool.and_comm]
    · rw [List.filter_cons_of_neg hp, firstPlaces, List.filter_cons_of_neg hp, ih,
        List.filter_filter]
      apply List.filter_congr
      intro other _
      by_cases hother : other = name
      · simp [hother, hp]
      · simp [hother]

theorem firstPlaces_map (hf : Function.Injective f) :
    firstPlaces (names.map f) = (firstPlaces names).map f := by
  induction names with
  | nil => rfl
  | cons name rest ih =>
    rw [List.map_cons, firstPlaces, firstPlaces, ih, List.map_cons, List.filter_map]
    congr 2
    apply List.filter_congr
    intro other _
    simp [hf.eq_iff]

/-- Only first places matter for the first places of the images. -/
theorem firstPlaces_map_firstPlaces :
    firstPlaces ((firstPlaces names).map g) = firstPlaces (names.map g) := by
  induction names with
  | nil => rfl
  | cons name rest ih =>
    have hfilter : (((firstPlaces rest).filter (· ≠ name)).map g).filter (· ≠ g name) =
        ((firstPlaces rest).map g).filter (· ≠ g name) := by
      rw [List.filter_map, List.filter_map, List.filter_filter]
      congr 1
      apply List.filter_congr
      intro other _
      by_cases hother : other = name
      · simp [hother]
      · simp [hother]
    rw [firstPlaces, List.map_cons, List.map_cons, firstPlaces, firstPlaces, ← ih]
    congr 1
    calc (firstPlaces (((firstPlaces rest).filter (· ≠ name)).map g)).filter (· ≠ g name)
      _ = firstPlaces ((((firstPlaces rest).filter (· ≠ name)).map g).filter (· ≠ g name)) :=
        (firstPlaces_filter _ _).symm
      _ = firstPlaces (((firstPlaces rest).map g).filter (· ≠ g name)) := by rw [hfilter]
      _ = (firstPlaces ((firstPlaces rest).map g)).filter (· ≠ g name) := firstPlaces_filter _ _

/-- Images under an injective map come in as many places as there are, so another map with
the same images agrees with it everywhere. -/
theorem eq_of_firstPlaces_map (hf : Function.Injective f)
    (h : firstPlaces (names.map f) = firstPlaces (names.map g)) : ∀ a ∈ names, f a = g a := by
  have hplaces : (firstPlaces names).map f = (firstPlaces names).map g := by
    rw [firstPlaces_map hf, ← firstPlaces_map_firstPlaces] at h
    have hsub := firstPlaces_sublist ((firstPlaces names).map g)
    rw [← h] at hsub
    exact hsub.eq_of_length (by rw [List.length_map, List.length_map])
  intro a ha
  exact List.map_inj_left.mp hplaces a (mem_firstPlaces.mpr ha)

end Places

section Mapping
variable {f g : String → String}

namespace Expr
mutual
theorem mapConcepts_congr (e : Expr) (h : ∀ a ∈ e.mentions, f a = g a) :
    e.mapConcepts f = e.mapConcepts g := by
  cases e with
  | concept address => simp [mapConcepts, h address (by simp [mentions])]
  | literal value => rfl
  | type datatype => rfl
  | call function arguments =>
    rw [mentions] at h
    rw [mapConcepts, mapConcepts, mapConceptsAll_congr arguments h]
  | binary op lhs rhs =>
    rw [mentions, List.forall_mem_append] at h
    rw [mapConcepts, mapConcepts, mapConcepts_congr lhs h.1, mapConcepts_congr rhs h.2]
  | unary op operand =>
    rw [mentions] at h
    rw [mapConcepts, mapConcepts, mapConcepts_congr operand h]
  | isNull operand negated =>
    rw [mentions] at h
    rw [mapConcepts, mapConcepts, mapConcepts_congr operand h]
  | inList operand items negated =>
    rw [mentions, List.forall_mem_append] at h
    rw [mapConcepts, mapConcepts, mapConcepts_congr operand h.1, mapConceptsAll_congr items h.2]
  | paren inner =>
    rw [mentions] at h
    rw [mapConcepts, mapConcepts, mapConcepts_congr inner h]

theorem mapConceptsAll_congr (es : List Expr) (h : ∀ a ∈ mentionsAll es, f a = g a) :
    mapConceptsAll f es = mapConceptsAll g es := by
  cases es with
  | nil => rfl
  | cons e es =>
    rw [mentionsAll, List.forall_mem_append] at h
    rw [mapConceptsAll, mapConceptsAll, mapConcepts_congr e h.1, mapConceptsAll_congr es h.2]
end

/-- Two maps that do the same to an expression do the same to what it mentions. -/
theorem eq_of_mapConcepts {e : Expr} (h : e.mapConcepts f = e.mapConcepts g) :
    ∀ a ∈ e.mentions, f a = g a := by
  have hmentions := congrArg mentions h
  rw [mentions_mapConcepts, mentions_mapConcepts] at hmentions
  exact List.map_inj_left.mp hmentions

end Expr

/-- A concept in the namespace that an import gives it, with its mentions renamed. -/
def Concept.renamed (c : Concept) (rename : String → String) (space : String) : Concept :=
  { c with
    space := requalifySpace space c.space
    lineage := c.lineage.map (Expr.mapConcepts rename)
    keys := c.keys.map fun keys => firstPlaces (keys.map rename)
    site := {} }

def Datasource.renamed (d : Datasource) (rename : String → String) (space : String) :
    Datasource :=
  { d with
    space
    columns := d.columns.map fun b => { b with concept := rename b.concept }
    grain := d.grain.map rename }

theorem Concept.moved_eq_renamed (c : Concept) (space : String) :
    c.moved space = c.renamed (requalify space) space := rfl

theorem Datasource.requalified_eq_renamed (d : Datasource) (space : String) :
    d.requalified space = d.renamed (requalify space) space := rfl

theorem Concept.renamed_congr {c : Concept} {space : String} (h : ∀ a ∈ c.mentions, f a = g a) :
    c.renamed f space = c.renamed g space := by
  rw [Concept.mentions, List.forall_mem_append] at h
  unfold renamed
  congr 1
  · cases hlineage : c.lineage with
    | none => rfl
    | some e =>
      have he : ∀ a ∈ e.mentions, f a = g a := by simpa [Concept.uses, hlineage] using h.1
      rw [Option.map_some, Option.map_some, Expr.mapConcepts_congr e he]
  · cases hkeys : c.keys with
    | none => rfl
    | some keys =>
      have hk : ∀ a ∈ keys, f a = g a := by simpa [hkeys] using h.2
      rw [Option.map_some, Option.map_some, List.map_congr_left hk]

theorem Concept.eq_of_renamed {c : Concept} {space : String} (hf : Function.Injective f)
    (h : c.renamed f space = c.renamed g space) : ∀ a ∈ c.mentions, f a = g a := by
  rw [Concept.mentions, List.forall_mem_append]
  constructor
  · have hlineage : c.lineage.map (Expr.mapConcepts f) = c.lineage.map (Expr.mapConcepts g) :=
      congrArg Concept.lineage h
    unfold Concept.uses
    cases hl : c.lineage with
    | none => simp
    | some e =>
      rw [hl, Option.map_some, Option.map_some] at hlineage
      exact Expr.eq_of_mapConcepts (Option.some.inj hlineage)
  · have hkeys : c.keys.map (fun keys => firstPlaces (keys.map f)) =
        c.keys.map (fun keys => firstPlaces (keys.map g)) := congrArg Concept.keys h
    cases hk : c.keys with
    | none => simp
    | some keys =>
      rw [hk, Option.map_some, Option.map_some] at hkeys
      exact eq_of_firstPlaces_map hf (Option.some.inj hkeys)

theorem Datasource.renamed_congr {d : Datasource} {space : String}
    (h : ∀ a ∈ d.mentions, f a = g a) : d.renamed f space = d.renamed g space := by
  rw [Datasource.mentions, List.forall_mem_append] at h
  have hcolumns : ∀ b ∈ d.columns, ({ b with concept := f b.concept } : ColumnBinding) =
      { b with concept := g b.concept } := by
    intro b hb
    rw [h.1 b.concept (List.mem_map_of_mem hb)]
  unfold renamed
  rw [List.map_congr_left hcolumns, List.map_congr_left h.2]

theorem Datasource.eq_of_renamed {d : Datasource} {space : String}
    (h : d.renamed f space = d.renamed g space) : ∀ a ∈ d.mentions, f a = g a := by
  have hcolumns : d.columns.map (fun b => ({ b with concept := f b.concept } : ColumnBinding)) =
      d.columns.map (fun b => { b with concept := g b.concept }) := congrArg Datasource.columns h
  rw [Datasource.mentions, List.forall_mem_append]
  constructor
  · intro a ha
    obtain ⟨b, hb, rfl⟩ := List.mem_map.mp ha
    exact congrArg ColumnBinding.concept (List.map_inj_left.mp hcolumns b hb)
  · exact List.map_inj_left.mp (congrArg Datasource.grain h)

end Mapping

section Laws
variable {names : List String} {f g : String → String} {typeOf : String → Option DataType}

/-- Keeping first places is dropping all that came before. -/
theorem firstPlaces_eq_eraseDups (names : List String) : firstPlaces names = names.eraseDups := by
  induction hn : names.length using Nat.strongRecOn generalizing names with
  | ind n ih =>
    cases names with
    | nil => rfl
    | cons name rest =>
      have hshorter : (rest.filter (· ≠ name)).length < n := by
        rw [← hn, List.length_cons]
        exact Nat.lt_succ_of_le (List.length_filter_le _ _)
      rw [firstPlaces, ← firstPlaces_filter, ih _ hshorter _ rfl, List.eraseDups_cons]
      congr 3
      funext other
      by_cases hother : other = name <;> simp [hother]

namespace Expr

theorem concepts_mapConcepts (e : Expr) :
    (e.mapConcepts f).concepts = (e.concepts.map f).eraseDups := by
  rw [concepts, mentions_mapConcepts, ← firstPlaces_map_firstPlaces, firstPlaces_eq_eraseDups]
  rfl

/-- Only a type in second place matters, and types are no concepts. -/
theorem callType_mapConceptsAll (function : String) (arguments : List Expr) (first : DataType) :
    callType function (mapConceptsAll f arguments) first = callType function arguments first := by
  rcases arguments with _ | ⟨a, _ | ⟨b, rest⟩⟩
  · rfl
  · rfl
  · cases b <;> rfl

mutual
theorem inferType_mapConcepts (e : Expr) :
    (e.mapConcepts f).inferType typeOf = e.inferType (typeOf ∘ f) := by
  cases e with
  | concept address => rfl
  | literal value => rfl
  | type datatype => rfl
  | call function arguments =>
    rw [mapConcepts, inferType, inferType, callType_mapConceptsAll, inferFirst_mapConceptsAll]
  | binary op lhs rhs =>
    rw [mapConcepts, inferType, inferType, inferType_mapConcepts lhs, inferType_mapConcepts rhs]
  | unary op operand =>
    cases op with
    | not => rfl
    | neg => exact inferType_mapConcepts operand
  | isNull operand negated => rfl
  | inList operand items negated => rfl
  | paren inner => exact inferType_mapConcepts inner

theorem inferFirst_mapConceptsAll (es : List Expr) :
    inferFirst typeOf (mapConceptsAll f es) = inferFirst (typeOf ∘ f) es := by
  cases es with
  | nil => rfl
  | cons e es => exact inferType_mapConcepts e
end

mutual
theorem mapConcepts_mapConcepts (e : Expr) :
    (e.mapConcepts f).mapConcepts g = e.mapConcepts (g ∘ f) := by
  cases e with
  | concept address => rfl
  | literal value => rfl
  | type datatype => rfl
  | call function arguments =>
    rw [mapConcepts, mapConcepts, mapConcepts, mapConceptsAll_mapConceptsAll arguments]
  | binary op lhs rhs =>
    rw [mapConcepts, mapConcepts, mapConcepts, mapConcepts_mapConcepts lhs,
      mapConcepts_mapConcepts rhs]
  | unary op operand => rw [mapConcepts, mapConcepts, mapConcepts, mapConcepts_mapConcepts operand]
  | isNull operand negated =>
    rw [mapConcepts, mapConcepts, mapConcepts, mapConcepts_mapConcepts operand]
  | inList operand items negated =>
    rw [mapConcepts, mapConcepts, mapConcepts, mapConcepts_mapConcepts operand,
      mapConceptsAll_mapConceptsAll items]
  | paren inner => rw [mapConcepts, mapConcepts, mapConcepts, mapConcepts_mapConcepts inner]

theorem mapConceptsAll_mapConceptsAll (es : List Expr) :
    mapConceptsAll g (mapConceptsAll f es) = mapConceptsAll (g ∘ f) es := by
  cases es with
  | nil => rfl
  | cons e es =>
    rw [mapConceptsAll, mapConceptsAll, mapConceptsAll, mapConcepts_mapConcepts e,
      mapConceptsAll_mapConceptsAll es]
end

theorem isEmpty_concepts_mapConcepts (e : Expr) :
    (e.mapConcepts f).concepts.isEmpty = e.concepts.isEmpty := by
  rw [concepts_mapConcepts]
  cases e.concepts with
  | nil => rfl
  | cons a rest =>
    rw [List.map_cons, List.eraseDups_cons]
    rfl

end Expr

theorem Concept.derivationOf_mapConcepts (e : Expr) :
    derivationOf (e.mapConcepts f) = derivationOf e := by
  rw [derivationOf, derivationOf, Expr.hasAggregate_mapConcepts, Expr.isEmpty_concepts_mapConcepts]

/-- The derivation of a computed concept is what its lineage says. -/
def Concept.Consistent (c : Concept) : Prop :=
  ∀ lineage, c.lineage = some lineage → c.derivation = derivationOf lineage

theorem Concept.consistent_requalified {c : Concept} {into : String} :
    (c.requalified into).Consistent ↔ c.Consistent := by
  have hlineage : (c.requalified into).lineage =
      c.lineage.map (Expr.mapConcepts (requalify into)) := rfl
  have hderivation : (c.requalified into).derivation = c.derivation := rfl
  unfold Consistent
  rw [hlineage, hderivation]
  cases c.lineage with
  | none => simp
  | some lineage => simp [derivationOf_mapConcepts]

theorem Concept.requalified_derived (name space into : String) (purpose : Purpose)
    (datatype : DataType) (lineage : Expr) :
    (derived name space purpose datatype lineage).requalified into =
      derived name (requalifySpace into space) purpose datatype
        (lineage.mapConcepts (requalify into)) := by
  rw [derived, derived, derivationOf_mapConcepts]
  rfl

/-- Renaming commutes with all that is read off an expression: its concepts, up to those
that a renaming makes equal, whether it aggregates, and its type. So a concept that moves
into another namespace still derives as its lineage says. -/
theorem Expr.mapConcepts_homomorphism :
    (∀ (f : String → String) (e : Expr),
      (e.mapConcepts f).concepts = (e.concepts.map f).eraseDups) ∧
    (∀ (f : String → String) (e : Expr), (e.mapConcepts f).hasAggregate = e.hasAggregate) ∧
    (∀ (f : String → String) (typeOf : String → Option DataType) (e : Expr),
      (e.mapConcepts f).inferType typeOf = e.inferType (typeOf ∘ f)) ∧
    (∀ (f g : String → String) (e : Expr),
      (e.mapConcepts f).mapConcepts g = e.mapConcepts (g ∘ f)) ∧
    (∀ (c : Concept) (into : String), (c.requalified into).Consistent ↔ c.Consistent) ∧
    ∀ (name space into : String) (purpose : Purpose) (datatype : DataType) (lineage : Expr),
      (Concept.derived name space purpose datatype lineage).requalified into =
        .derived name (requalifySpace into space) purpose datatype
          (lineage.mapConcepts (requalify into)) :=
  ⟨fun _ => concepts_mapConcepts, hasAggregate_mapConcepts, fun _ _ => inferType_mapConcepts,
    fun _ _ => mapConcepts_mapConcepts, fun _ _ => Concept.consistent_requalified,
    Concept.requalified_derived⟩

end Laws
end ConceptQuery
