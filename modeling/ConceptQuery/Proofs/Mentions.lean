import ConceptQuery.Model.Statement
import ConceptQuery.Proofs.Catalogs
import ConceptQuery.Proofs.Names

/-! # Which concepts are mentioned

Concepts mention others in their lineage and among their keys, datasources in
their columns and their grain, statements wherever they name one. A concept that
moves into another namespace takes along what it mentions; whether a name moves
the way its concept does depends on the namespace of the concept alone.
-/
namespace ConceptQuery

namespace Expr

mutual
theorem mentions_mapConcepts (rename : String → String) (e : Expr) :
    (e.mapConcepts rename).mentions = e.mentions.map rename := by
  cases e with
  | concept address => simp [mapConcepts, mentions]
  | literal value => simp [mapConcepts, mentions]
  | type datatype => simp [mapConcepts, mentions]
  | call function arguments =>
    simp [mapConcepts, mentions, mentionsAll_mapConceptsAll rename arguments]
  | binary op lhs rhs =>
    simp [mapConcepts, mentions, mentions_mapConcepts rename lhs, mentions_mapConcepts rename rhs]
  | unary op operand => simp [mapConcepts, mentions, mentions_mapConcepts rename operand]
  | isNull operand negated => simp [mapConcepts, mentions, mentions_mapConcepts rename operand]
  | inList operand items negated =>
    simp [mapConcepts, mentions, mentions_mapConcepts rename operand,
      mentionsAll_mapConceptsAll rename items]
  | paren inner => simp [mapConcepts, mentions, mentions_mapConcepts rename inner]

theorem mentionsAll_mapConceptsAll (rename : String → String) (es : List Expr) :
    mentionsAll (mapConceptsAll rename es) = (mentionsAll es).map rename := by
  cases es with
  | nil => simp [mapConceptsAll, mentionsAll]
  | cons e es =>
    simp [mapConceptsAll, mentionsAll, mentions_mapConcepts rename e,
      mentionsAll_mapConceptsAll rename es]
end

theorem mem_mentionsAll {es : List Expr} {a : String} :
    a ∈ mentionsAll es ↔ ∃ e ∈ es, a ∈ e.mentions := by
  induction es with
  | nil => simp [mentionsAll]
  | cons e es ih => simp [mentionsAll, ih]

theorem mem_concepts {e : Expr} {a : String} : a ∈ e.concepts ↔ a ∈ e.mentions :=
  mem_firstPlaces

mutual
theorem hasAggregate_mapConcepts (rename : String → String) (e : Expr) :
    (e.mapConcepts rename).hasAggregate = e.hasAggregate := by
  cases e with
  | concept address => rfl
  | literal value => rfl
  | type datatype => rfl
  | call function arguments =>
    simp [mapConcepts, hasAggregate, anyAggregate_mapConceptsAll rename arguments]
  | binary op lhs rhs =>
    simp [mapConcepts, hasAggregate, hasAggregate_mapConcepts rename lhs,
      hasAggregate_mapConcepts rename rhs]
  | unary op operand => simp [mapConcepts, hasAggregate, hasAggregate_mapConcepts rename operand]
  | isNull operand negated =>
    simp [mapConcepts, hasAggregate, hasAggregate_mapConcepts rename operand]
  | inList operand items negated =>
    simp [mapConcepts, hasAggregate, hasAggregate_mapConcepts rename operand,
      anyAggregate_mapConceptsAll rename items]
  | paren inner => simp [mapConcepts, hasAggregate, hasAggregate_mapConcepts rename inner]

theorem anyAggregate_mapConceptsAll (rename : String → String) (es : List Expr) :
    anyAggregate (mapConceptsAll rename es) = anyAggregate es := by
  cases es with
  | nil => rfl
  | cons e es =>
    simp [mapConceptsAll, anyAggregate, hasAggregate_mapConcepts rename e,
      anyAggregate_mapConceptsAll rename es]
end

end Expr

/-- What the lineage of a concept mentions. -/
def Concept.uses (c : Concept) : List String :=
  (c.lineage.map Expr.mentions).getD []

def Concept.mentions (c : Concept) : List String :=
  c.uses ++ c.keys.getD []

def Datasource.mentions (d : Datasource) : List String :=
  d.columns.map ColumnBinding.concept ++ d.grain

def Select.mentions (s : Select) : List String :=
  s.items.map SelectItem.concept ++
    (s.condition.toList ++ s.orderBy.map OrderItem.expr).flatMap Expr.mentions

def Statement.mentions : Statement → List String
  | concept c _ => c.address :: c.mentions
  | datasource d _ => d.mentions
  | select s => s.mentions
  | multiSelect selects align _ =>
    selects.flatMap Select.mentions ++ align.flatMap AlignItem.concepts
  | persist _ _ s _ => s.mentions
  | imported _ _ | rawSql _ _ => []

/-- A concept as another document gets it through an import. -/
def Concept.moved (c : Concept) (space : String) : Concept :=
  { c.requalified space with site := {} }

/-- The concept counts as an aggregate exactly if its lineage calls an aggregate function. -/
def Concept.Classified (c : Concept) : Prop :=
  c.derivation = .aggregate ↔ ∃ lineage, c.lineage = some lineage ∧ lineage.hasAggregate = true

theorem Concept.classified_declared {c : Concept} (hlineage : c.lineage = none)
    (hderivation : c.derivation = .root) : c.Classified := by
  simp [Classified, hlineage, hderivation]

theorem Concept.classified_derived {c : Concept} {lineage : Expr}
    (hlineage : c.lineage = some lineage) (hderivation : c.derivation = derivationOf lineage) :
    c.Classified := by
  unfold Classified
  rw [hlineage, hderivation, derivationOf]
  split
  · next haggregate => simp [haggregate]
  · next hplain =>
    split
    · simp [hplain]
    · simp [hplain]

section Moving
variable {c : Concept} {space a : String}

theorem Concept.Classified.moved (h : c.Classified) : (c.moved space).Classified := by
  unfold Classified at h ⊢
  have hderivation : (c.moved space).derivation = c.derivation := rfl
  have hlineage : (c.moved space).lineage =
      c.lineage.map (Expr.mapConcepts (requalify space)) := rfl
  rw [hderivation, h, hlineage]
  cases c.lineage with
  | none => simp
  | some lineage => simp [Expr.hasAggregate_mapConcepts]

theorem Concept.uses_moved : (c.moved space).uses = c.uses.map (requalify space) := by
  unfold moved requalified uses
  cases c.lineage with
  | none => rfl
  | some e => exact Expr.mentions_mapConcepts _ e

theorem Concept.mem_mentions_moved :
    a ∈ (c.moved space).mentions ↔ ∃ b ∈ c.mentions, requalify space b = a := by
  have hkeys : a ∈ (c.moved space).keys.getD [] ↔ ∃ b ∈ c.keys.getD [], requalify space b = a := by
    unfold moved requalified
    cases c.keys with
    | none => simp
    | some keys => simp [mem_firstPlaces]
  simp only [mentions, uses_moved, List.mem_append, hkeys, List.mem_map, or_and_right, exists_or]

theorem Datasource.mem_mentions_requalified {d : Datasource} :
    a ∈ (d.requalified space).mentions ↔ ∃ b ∈ d.mentions, requalify space b = a := by
  simp only [mentions, requalified, List.map_map, List.mem_append, List.mem_map, Function.comp,
    or_and_right, exists_or, exists_exists_and_eq_and]

/-- Unless its namespace lies below that of the document, the name of a concept
moves the way the concept does. -/
theorem requalify_address (h : Dotted.under? localSpace c.space = none) :
    requalify space c.address = (c.moved space).address := by
  have haddress : (c.moved space).address =
      Dotted.qualify (requalifySpace space c.space) c.name := rfl
  rw [haddress, requalify, requalifySpace]
  by_cases hspace : c.space = localSpace
  · have hunder : Dotted.under? localSpace c.address = some c.name := by
      rw [Dotted.under?_eq_some_iff, Concept.address, hspace]
    rw [hunder, if_pos hspace]
  · have hunder : Dotted.under? localSpace c.address = none := by
      rw [Option.eq_none_iff_forall_ne_some]
      intro rest hrest
      rw [Dotted.under?_eq_some_iff, Concept.address] at hrest
      rcases Dotted.qualify_eq_qualify (by decide) hrest with ⟨heq, -⟩ | ⟨more, hmore⟩
      · exact hspace heq
      · rw [Dotted.under?_eq_some_iff.mpr hmore] at h
        cases h
    rw [hunder, if_neg hspace]
    simp [Concept.address, Dotted.qualify, String.append_assoc]

end Moving
end ConceptQuery
