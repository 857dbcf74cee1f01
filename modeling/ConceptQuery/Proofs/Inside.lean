import ConceptQuery.Proofs.Placed
import ConceptQuery.Proofs.Sentence

/-! # What lies inside of statements

A property of nodes holds everywhere in a tree if every node has it, at any depth. The
nodes inside of a statement are phrases and the parts of clauses. So what holds of these
holds everywhere inside of it: `everywhereAll_sentence`.
-/
namespace ConceptQuery

namespace Tree
variable {text : List Char}

/-- A tree or some part of it, at any depth. -/
inductive Inside {α : Type} (u : Tree α) : Tree α → Prop where
  | here : Inside u u
  | child {k cs t} (ht : t ∈ cs) (h : Inside u t) : Inside u (.node k cs)

theorem mem_placedAll {parent : NodeKind} {cs : List (Tree Token)} {c : Tree Leaf}
    (h : c ∈ placedAll text parent cs) : (∃ l, c = .leaf l) ∨ ∃ t ∈ cs, c = t.placed text := by
  induction cs with
  | nil => simp [placedAll] at h
  | cons t cs ih =>
    have hmore : c ∈ placedAll text parent cs →
        (∃ l, c = .leaf l) ∨ ∃ u ∈ t :: cs, c = u.placed text := fun h =>
      (ih h).imp_right fun ⟨u, hu, heq⟩ => ⟨u, List.mem_cons_of_mem t hu, heq⟩
    cases t with
    | leaf u =>
      rw [placedAll] at h
      split at h
      · exact hmore h
      · rcases List.mem_cons.mp h with rfl | h
        · exact .inl ⟨_, rfl⟩
        · exact hmore h
    | node k ds =>
      rw [placedAll] at h
      rcases List.mem_cons.mp h with rfl | h
      · exact .inr ⟨_, List.mem_cons_self, rfl⟩
      · exact hmore h

theorem inside_leaf {α : Type} {u : Tree α} {l : α} (h : Inside u (.leaf l)) : u = .leaf l := by
  cases h
  rfl

theorem inside_placed {t : Tree Token} {u : Tree Leaf} (h : Inside u (t.placed text)) :
    (∃ l, u = .leaf l) ∨ ∃ v, Inside v t ∧ u = v.placed text := by
  generalize ht : t.placed text = placed at h
  induction h generalizing t with
  | here => exact .inr ⟨t, .here, ht.symm⟩
  | @child k cs c hc h ih =>
    cases t with
    | leaf t => cases ht
    | node k' ds =>
      obtain ⟨rfl, rfl⟩ := Tree.node.inj ht
      rcases mem_placedAll hc with ⟨l, rfl⟩ | ⟨d, hd, rfl⟩
      · exact .inl ⟨l, inside_leaf h⟩
      · exact (ih rfl).imp_right fun ⟨v, hv, heq⟩ => ⟨v, .child hd hv, heq⟩

end Tree

namespace Grammar
open ConceptQuery.Tree Rule

/-- Every node of the tree, at any depth, has the property. -/
def Everywhere (P : NodeKind → List (Tree Token) → Prop) (t : Tree Token) : Prop :=
  ∀ k cs, Inside (.node k cs) t → P k cs

def EverywhereAll (P : NodeKind → List (Tree Token) → Prop) (ts : List (Tree Token)) : Prop :=
  ∀ t ∈ ts, Everywhere P t

/-- The nodes inside of statements that are no phrases. -/
def parts : List NodeKind :=
  [.datatype, .columnList, .columnAlias, .grainClause, .addressClause, .queryClause,
   .selectStatement, .selectItem, .selectTransform, .conceptAssignment, .whereClause,
   .orderByClause, .orderItem, .limitClause, .alignClause, .alignItem, .conceptLiteral,
   .argumentList]

/-- All phrases have the property, and all parts of clauses. -/
structure Common (P : NodeKind → List (Tree Token) → Prop) : Prop where
  phrase : ∀ {l k cs}, Phrase l (.node k cs) → P k cs
  part : ∀ {k cs}, k ∈ parts → P k cs

section Trees
variable {P : NodeKind → List (Tree Token) → Prop} {k : NodeKind} {t : Tree Token}
  {cs ts us : List (Tree Token)}

@[simp]
theorem everywhere_leaf (u : Token) : Everywhere P (.leaf u) := by
  intro k cs h
  cases inside_leaf h

@[simp]
theorem everywhereAll_nil : EverywhereAll P [] :=
  List.forall_mem_nil _

@[simp]
theorem everywhereAll_cons : EverywhereAll P (t :: ts) ↔ Everywhere P t ∧ EverywhereAll P ts :=
  List.forall_mem_cons

@[simp]
theorem everywhereAll_append :
    EverywhereAll P (ts ++ us) ↔ EverywhereAll P ts ∧ EverywhereAll P us :=
  List.forall_mem_append

theorem everywhere_node : Everywhere P (.node k cs) ↔ P k cs ∧ EverywhereAll P cs := by
  constructor
  · exact fun h => ⟨h k cs .here, fun t ht k' cs' hinside => h k' cs' (.child ht hinside)⟩
  · rintro ⟨hnode, hcs⟩ k' cs' hinside
    cases hinside with
    | here => exact hnode
    | child ht hinside => exact hcs _ ht k' cs' hinside

theorem everywhereAll_maybe {kind : TokenKind} (h : Maybe kind ts) : EverywhereAll P ts := by
  rcases h with rfl | ⟨t, -, rfl⟩
  · simp
  · simp

theorem everywhereAll_words (us : List Token) : EverywhereAll P (us.map .leaf) := by
  intro c hc
  obtain ⟨u, -, rfl⟩ := List.mem_map.mp hc
  exact everywhere_leaf u

theorem everywhereAll_strung {first : Tree Token} {more : List (Token × Tree Token)}
    (hfirst : Everywhere P first) (hmore : ∀ p ∈ more, Everywhere P p.2) :
    EverywhereAll P (strung first more) := by
  refine everywhereAll_cons.mpr ⟨hfirst, fun c hc => ?_⟩
  obtain ⟨p, hp, hc⟩ := List.mem_flatMap.mp hc
  rcases List.mem_cons.mp hc with rfl | hc
  · exact everywhere_leaf _
  · rw [List.mem_singleton.mp hc]
    exact hmore p hp

theorem everywhereAll_listed {separator : TokenKind} {Item : List (Tree Token) → Prop}
    (h : Listed separator Item ts) (hi : ∀ ys, Item ys → EverywhereAll P ys) :
    EverywhereAll P ts := by
  induction h with
  | one h => exact hi _ h
  | more front hc h ih => simp [ih, hi _ h]

theorem everywhereAll_one {Q : Tree Token → Prop} (hQ : ∀ t, Q t → Everywhere P t)
    (xs : List (Tree Token)) (h : One Q xs) : EverywhereAll P xs := by
  obtain ⟨t, rfl, ht⟩ := h
  simp [hQ t ht]

theorem everywhereAll_atMostOne {Q : Tree Token → Prop} (hQ : ∀ t, Q t → Everywhere P t)
    (h : AtMostOne Q ts) : EverywhereAll P ts := by
  rcases h with rfl | h
  · simp
  · exact everywhereAll_one hQ ts h

end Trees

section Statements
variable {P : NodeKind → List (Tree Token) → Prop} (hP : Common P)
include hP

theorem everywhere_part {k : NodeKind} {cs : List (Tree Token)} (hk : k ∈ parts) :
    Everywhere P (.node k cs) ↔ EverywhereAll P cs := by
  rw [everywhere_node, and_iff_right (hP.part hk)]

theorem everywhere_phrase {l : Level} {t : Tree Token} (h : Phrase l t) : Everywhere P t := by
  induction h with
  | tighter h p ih => exact ih
  | chain h ho lhs rhs iha ihb =>
    exact everywhere_node.mpr ⟨hP.phrase (.chain h ho lhs rhs), by simp [iha, ihb]⟩
  | not ht p ih => exact everywhere_node.mpr ⟨hP.phrase (.not ht p), by simp [ih]⟩
  | compare ho lhs rhs iha ihb =>
    exact everywhere_node.mpr ⟨hP.phrase (.compare ho lhs rhs), by simp [iha, ihb]⟩
  | isNull p hi hn hz ih =>
    refine everywhere_node.mpr ⟨hP.phrase (.isNull p hi hn hz), ?_⟩
    simp [ih, everywhereAll_maybe hn]
  | member p hn hi hl hfirst hcomma hmore hr ih ihfirst ihmore =>
    refine everywhere_node.mpr ⟨hP.phrase (.member p hn hi hl hfirst hcomma hmore hr), ?_⟩
    simp [enclosed, ih, everywhereAll_maybe hn, everywhereAll_strung ihfirst ihmore]
  | minus ht p ih => exact everywhere_node.mpr ⟨hP.phrase (.minus ht p), by simp [ih]⟩
  | literal ht => exact everywhere_node.mpr ⟨hP.phrase (.literal ht), by simp⟩
  | paren hl p hr ih => exact everywhere_node.mpr ⟨hP.phrase (.paren hl p hr), by simp [ih]⟩
  | call hf hl hfirst hcomma hmore hr ihfirst ihmore =>
    refine everywhere_node.mpr ⟨hP.phrase (.call hf hl hfirst hcomma hmore hr), ?_⟩
    simp (disch := decide) [everywhere_part hP, enclosed, everywhereAll_strung ihfirst ihmore]
  | callNothing hf hl hr =>
    refine everywhere_node.mpr ⟨hP.phrase (.callNothing hf hl hr), ?_⟩
    simp (disch := decide) [everywhere_part hP, enclosed]
  | type ht hn => exact everywhere_node.mpr ⟨hP.phrase (.type ht hn), by simp⟩
  | concept ht hn => exact everywhere_node.mpr ⟨hP.phrase (.concept ht hn), by simp⟩

theorem everywhere_selectItem (t : Tree Token) (h : SelectItem t) : Everywhere P t := by
  cases h with
  | plain hh ht => simp (disch := decide) [everywhere_part hP, everywhereAll_words]
  | transform hh ha harrow hname =>
    simp (disch := decide) [everywhere_part hP, everywhereAll_words, everywhere_phrase hP ha]

theorem everywhere_whereClause (t : Tree Token) (h : WhereClause t) : Everywhere P t := by
  cases h with
  | intro hw ha => simp (disch := decide) [everywhere_part hP, everywhere_phrase hP ha]

theorem everywhere_orderItem (t : Tree Token) (h : OrderItem t) : Everywhere P t := by
  cases h with
  | intro ha hd =>
    rcases hd with rfl | ⟨d, -, rfl⟩
    · simp (disch := decide) [everywhere_part hP, everywhere_phrase hP ha]
    · simp (disch := decide) [everywhere_part hP, everywhere_phrase hP ha]

theorem everywhere_orderByClause (t : Tree Token) (h : OrderByClause t) : Everywhere P t := by
  cases h with
  | intro ho hb hi =>
    have hitems := everywhereAll_listed hi (everywhereAll_one (everywhere_orderItem hP))
    simp (disch := decide) [everywhere_part hP, hitems]

theorem everywhere_limitClause (t : Tree Token) (h : LimitClause t) : Everywhere P t := by
  cases h with
  | intro hl hc => simp (disch := decide) [everywhere_part hP]

theorem everywhereAll_selectBody {xs : List (Tree Token)} (h : SelectBody xs) :
    EverywhereAll P xs := by
  cases h with
  | intro hs hi hc hw ho hl =>
    have hitems := everywhereAll_listed hi (everywhereAll_one (everywhere_selectItem hP))
    simp [hitems, everywhereAll_maybe hc, everywhereAll_atMostOne (everywhere_whereClause hP) hw,
      everywhereAll_atMostOne (everywhere_orderByClause hP) ho,
      everywhereAll_atMostOne (everywhere_limitClause hP) hl]

theorem everywhere_alignItem (t : Tree Token) (h : AlignItem t) : Everywhere P t := by
  cases h with
  | intro hn hc hi =>
    have hconcepts : EverywhereAll P _ := everywhereAll_listed hi fun ys hys => by
      obtain ⟨t, -, rfl⟩ := hys
      simp (disch := decide) [everywhere_part hP]
    simp (disch := decide) [everywhere_part hP, hconcepts]

theorem everywhere_alignClause (t : Tree Token) (h : AlignClause t) : Everywhere P t := by
  cases h with
  | intro ha hi =>
    have hitems := everywhereAll_listed hi (everywhereAll_one (everywhere_alignItem hP))
    simp (disch := decide) [everywhere_part hP, hitems]

theorem everywhereAll_column (xs : List (Tree Token)) (h : Column xs) : EverywhereAll P xs := by
  cases h with
  | plain ht => simp
  | named hr hc ht => simp (disch := decide) [everywhere_part hP]

theorem everywhere_columnList {t : Tree Token} (h : ColumnList t) : Everywhere P t := by
  cases h with
  | intro hi hc =>
    have hcolumns := everywhereAll_listed hi (everywhereAll_column hP)
    simp (disch := decide) [everywhere_part hP, hcolumns, everywhereAll_maybe hc]

theorem everywhere_grainClause (t : Tree Token) (h : GrainClause t) : Everywhere P t := by
  cases h with
  | intro hg hl hi hr =>
    have hconcepts : EverywhereAll P _ := everywhereAll_listed hi fun ys hys => by
      obtain ⟨t, -, rfl⟩ := hys
      simp
    simp (disch := decide) [everywhere_part hP, enclosed, hconcepts]

theorem everywhere_source {t : Tree Token} (h : Source t) : Everywhere P t := by
  cases h with
  | table ha ht => simp (disch := decide) [everywhere_part hP]
  | query hq ht => simp (disch := decide) [everywhere_part hP]

theorem everywhereAll_merged {selects : List (Token × List (Tree Token))}
    (hp : ∀ p ∈ selects, SelectBody p.2) : EverywhereAll P (merged selects) := by
  intro t ht
  obtain ⟨p, hmem, ht⟩ := List.mem_flatMap.mp ht
  rcases List.mem_cons.mp ht with rfl | ht
  · exact everywhere_leaf _
  · rw [List.mem_singleton.mp ht]
    simp (disch := decide) [everywhere_part hP, everywhereAll_selectBody hP (hp p hmem)]

/-- Inside of a statement there is nothing but phrases and parts of clauses. -/
theorem everywhereAll_sentence {k : NodeKind} {cs : List (Tree Token)} (h : Sentence (.node k cs)) :
    EverywhereAll P cs := by
  cases h with
  | declaration hk hconst hname hdot htype hn hs =>
    simp (disch := decide) [everywhere_part hP, declared, everywhereAll_maybe hn]
  | property hk hname hdot htype hn hs =>
    simp (disch := decide) [everywhere_part hP, declared, everywhereAll_maybe hn]
  | derivation hk hname harrow ha hs => simp [everywhere_phrase hP ha]
  | datasource hroot hd hname hl hc hr hg hsource hs =>
    simp [everywhereAll_maybe hroot, everywhere_columnList hP hc,
      everywhereAll_atMostOne (everywhere_grainClause hP) hg, everywhere_source hP hsource]
  | importing hi hpath has hs =>
    rcases has with rfl | ⟨a, name, -, -, rfl⟩
    · simp
    · simp
  | select hb hs => simp [everywhereAll_selectBody hP hb]
  | merge hb hne hm hp ha hs =>
    simp (disch := decide) [everywhere_part hP, everywhereAll_selectBody hP hb,
      everywhereAll_merged hP hp, everywhereAll_atMostOne (everywhere_alignClause hP) ha]
  | persist hp ht hi htable hf hb hs =>
    simp (disch := decide) [everywhere_part hP, everywhereAll_selectBody hP hb]
  | rawSql hw hl ht hr hs => simp

end Statements

end Grammar
end ConceptQuery
