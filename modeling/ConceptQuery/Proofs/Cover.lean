import Mathlib.Logic.Relation
import Mathlib.Order.WellFounded
import ConceptQuery.Plan.Source
import ConceptQuery.Proofs.Additions

/-! # Sources that cover and hang together

Datasources are chosen in rounds. `Round` is one of them; each leaves fewer roots
missing, so the rounds come to an end, and the end decides: every root is covered, or
one is missing that no datasource can be added for (`Choice.Stuck`). What one round keeps
(`Choice.Connected`) holds in the end and also where choosing is stuck.
-/
namespace ConceptQuery

namespace Datasource
variable {d : Datasource} {a : String}

theorem columnFor?_eq_some {b : ColumnBinding} (h : d.columnFor? a = some b) :
    b ∈ d.columns ∧ b.concept = a :=
  ⟨List.mem_of_find?_eq_some h, by simpa using List.find?_some h⟩

theorem binds_iff : d.binds a = true ↔ ∃ b, d.columnFor? a = some b :=
  Option.isSome_iff_exists

theorem binds_of_mem {b : ColumnBinding} (h : b ∈ d.columns) : d.binds b.concept = true := by
  rw [binds, columnFor?, List.find?_isSome]
  exact ⟨b, h, decide_eq_true rfl⟩

end Datasource

theorem Environment.Filed.nodup_identifiers {env : Environment} (h : env.Filed) :
    (env.datasources.values.map Datasource.identifier).Nodup := by
  have hkeys : env.datasources.values.map Datasource.identifier = env.datasources.keys := by
    rw [Catalog.values, Catalog.keys, List.map_map]
    exact List.map_congr_left fun entry hentry => (h.identified hentry).symm
  rw [hkeys]
  exact h.nodup_datasources

namespace Plan
open Datasource

/-- The column of a concept in a datasource, as text. -/
def columnIn (a : String) (d : Datasource) : Option String :=
  (d.columnFor? a).map fun b => columnRef (aliasFor d) b.column

theorem columnIn_eq_some {a text : String} {d : Datasource} : columnIn a d = some text ↔
    ∃ b, d.columnFor? a = some b ∧ columnRef (aliasFor d) b.column = text :=
  Option.map_eq_some_iff

theorem binds_iff_columnIn {a : String} {d : Datasource} :
    d.binds a = true ↔ ∃ text, columnIn a d = some text := by
  rw [binds, ← Option.isSome_iff_exists, columnIn, Option.isSome_map]

section Joining
variable {partner d : Datasource} {chosen : List Datasource} {a : String}

theorem mem_shared : a ∈ shared partner d ↔ partner.binds a = true ∧ d.binds a = true := by
  rw [shared, List.mem_map]
  constructor
  · rintro ⟨b, hb, rfl⟩
    obtain ⟨hb, hd⟩ := List.mem_filter.mp hb
    exact ⟨binds_of_mem hb, hd⟩
  · rintro ⟨hpartner, hd⟩
    obtain ⟨b, hb⟩ := binds_iff.mp hpartner
    obtain ⟨hmem, rfl⟩ := columnFor?_eq_some hb
    exact ⟨b, List.mem_filter.mpr ⟨hmem, hd⟩, rfl⟩

theorem joinPartner?_eq_some (h : joinPartner? chosen d = some partner) :
    partner ∈ chosen ∧ ∃ a, partner.binds a = true ∧ d.binds a = true := by
  refine ⟨List.mem_of_find?_eq_some h, ?_⟩
  have hshared := List.find?_some h
  simp only [Bool.not_eq_true', List.isEmpty_eq_false_iff_exists_mem, mem_shared] at hshared
  exact hshared

/-- A join equates the columns of every concept that the datasource shares with its
partner, and no others. -/
theorem mem_joinColumns {left right : String} : (left, right) ∈ joinColumns chosen d ↔
    ∃ partner a, joinPartner? chosen d = some partner ∧
      columnIn a partner = some left ∧ columnIn a d = some right := by
  unfold joinColumns
  cases hpartner : joinPartner? chosen d with
  | none => simp
  | some partner =>
    simp only [List.mem_filterMap]
    constructor
    · rintro ⟨a, -, hpair⟩
      split at hpair
      · rename_i b b' hb hb'
        obtain ⟨rfl, rfl⟩ := Prod.mk.inj (Option.some.inj hpair)
        exact ⟨partner, a, rfl, columnIn_eq_some.mpr ⟨b, hb, rfl⟩,
          columnIn_eq_some.mpr ⟨b', hb', rfl⟩⟩
      · cases hpair
    · rintro ⟨_, a, hsame, hleft, hright⟩
      obtain rfl := Option.some.inj hsame
      refine ⟨a, mem_shared.mpr ⟨binds_iff_columnIn.mpr ⟨left, hleft⟩,
        binds_iff_columnIn.mpr ⟨right, hright⟩⟩, ?_⟩
      obtain ⟨b, hb, rfl⟩ := columnIn_eq_some.mp hleft
      obtain ⟨b', hb', rfl⟩ := columnIn_eq_some.mp hright
      rw [hb, hb']

end Joining

section Binding
variable {d : Datasource} {bindings : Catalog String}

/-- A concept keeps the column that it has, and else gets its column in the datasource. -/
theorem get?_bindColumns (a : String) :
    (bindColumns d bindings).get? a = (bindings.get? a).or (columnIn a d) := by
  unfold bindColumns columnIn columnFor?
  induction d.columns generalizing bindings with
  | nil => simp
  | cons b rest ih =>
    rw [List.foldl_cons, ih, List.find?_cons]
    by_cases hb : bindings.contains b.concept = true
    · rw [if_pos hb]
      by_cases ha : b.concept = a
      · obtain ⟨sql, hsql⟩ := Option.isSome_iff_exists.mp (ha ▸ hb)
        simp [hsql]
      · simp [ha]
    · rw [if_neg hb, Catalog.get?_insert]
      by_cases ha : b.concept = a
      · have hnone : bindings.get? a = none := by
          simpa [Catalog.contains, ha] using hb
        simp [ha, hnone]
      · simp [ha]

end Binding

@[simp]
theorem Choice.chosen_add (choice : Choice) (d : Datasource) :
    (choice.add d).chosen = choice.chosen ++ [d] :=
  rfl

section Rounds
variable {env : Environment} {roots : List String}

/-- The roots that no chosen datasource binds. -/
def missing (roots : List String) (chosen : List Datasource) : List String :=
  roots.filter fun r => !chosen.any fun d => d.binds r

theorem mem_missing {chosen : List Datasource} {r : String} :
    r ∈ missing roots chosen ↔ r ∈ roots ∧ ∀ d ∈ chosen, d.binds r = false := by
  simp [missing]

theorem missing_concat (chosen : List Datasource) (d : Datasource) :
    missing roots (chosen ++ [d]) = (missing roots chosen).filter fun r => !d.binds r := by
  simp [missing, List.filter_filter, Bool.and_comm]

/-- One round: a datasource is added that covers some of what is missing. -/
def Round (env : Environment) (roots : List String) (before after : Choice) : Prop :=
  ∃ d, next? env before.chosen (missing roots before.chosen) = some d ∧ after = before.add d

abbrev Rounds (env : Environment) (roots : List String) : Choice → Choice → Prop :=
  Relation.ReflTransGen (Round env roots)

theorem best?_eq_some {uncovered : List String} {ds : List Datasource} {found : Option Datasource}
    {d : Datasource} (h : best? uncovered ds found = some d) : d ∈ ds ∨ found = some d := by
  fun_induction best? uncovered ds found with
  | case1 found => exact .inr h
  | case2 e rest ih => grind
  | case3 e rest found hmore ih => grind
  | case4 e rest found hmore ih => grind

/-- A datasource of the environment, not chosen yet, that is joined to one of those
chosen, if there are any, and covers a missing root. -/
structure Candidate (env : Environment) (chosen : List Datasource) (uncovered : List String)
    (d : Datasource) : Prop where
  known : d ∈ env.datasources.values
  other : ∀ c ∈ chosen, c.identifier ≠ d.identifier
  joinable : chosen = [] ∨ ∃ partner, joinPartner? chosen d = some partner
  covers : ∃ r ∈ uncovered, d.binds r = true

theorem mem_candidates {chosen : List Datasource} {uncovered : List String} {d : Datasource} :
    d ∈ env.datasources.values.filter (isCandidate chosen uncovered) ↔
      Candidate env chosen uncovered d := by
  have hcoverage : coverage uncovered d ≠ 0 ↔ ∃ r ∈ uncovered, d.binds r = true := by
    rw [coverage, ne_eq, List.length_eq_zero_iff, List.filter_eq_nil_iff]
    simp
  rw [List.mem_filter]
  simp only [isCandidate, Bool.and_eq_true, Bool.not_eq_true', List.any_eq_false,
    decide_eq_true_eq, Bool.or_eq_true, List.isEmpty_iff, Option.isSome_iff_exists, bne_iff_ne,
    hcoverage]
  exact ⟨fun ⟨hknown, ⟨hother, hjoin⟩, hcovers⟩ => ⟨hknown, hother, hjoin, hcovers⟩,
    fun h => ⟨h.known, ⟨h.other, h.joinable⟩, h.covers⟩⟩

theorem candidate_of_next? {chosen : List Datasource} {uncovered : List String} {d : Datasource}
    (h : next? env chosen uncovered = some d) : Candidate env chosen uncovered d := by
  rcases best?_eq_some h with hmem | hnone
  · exact mem_candidates.mp hmem
  · cases hnone

theorem length_missing_concat {chosen : List Datasource} {d : Datasource}
    (h : Candidate env chosen (missing roots chosen) d) :
    (missing roots (chosen ++ [d])).length < (missing roots chosen).length := by
  obtain ⟨r, hr, hbinds⟩ := h.covers
  rw [missing_concat]
  exact List.length_filter_lt_length_iff_exists.mpr ⟨r, hr, by simp [hbinds]⟩

/-- Choosing goes on in rounds until nothing is missing or nothing can be added. -/
theorem cover_ends {fuel : Nat} {choice : Choice}
    (hfuel : (missing roots choice.chosen).length ≤ fuel) :
    ∃ last, Rounds env roots choice last ∧
      (missing roots last.chosen = [] ∧
          cover env fuel choice (missing roots choice.chosen) = .ok last ∨
        ∃ first rest, missing roots last.chosen = first :: rest ∧
          next? env last.chosen (first :: rest) = none ∧
          cover env fuel choice (missing roots choice.chosen) = .error (notCovered env first)) := by
  induction fuel generalizing choice with
  | zero =>
    have hnone : missing roots choice.chosen = [] := List.length_eq_zero_iff.mp (by omega)
    exact ⟨choice, .refl, .inl ⟨hnone, by rw [hnone, cover]⟩⟩
  | succ fuel ih =>
    cases hmissing : missing roots choice.chosen with
    | nil => exact ⟨choice, .refl, .inl ⟨hmissing, by rw [cover]⟩⟩
    | cons first rest =>
      cases hnext : next? env choice.chosen (first :: rest) with
      | none =>
        refine ⟨choice, .refl, .inr ⟨first, rest, hmissing, hnext, ?_⟩⟩
        rw [cover, hnext]
      | some d =>
        have hround : Round env roots choice (choice.add d) := ⟨d, hmissing ▸ hnext, rfl⟩
        have hfewer := length_missing_concat (candidate_of_next? (hmissing ▸ hnext))
        have hstep : cover env (fuel + 1) choice (first :: rest) =
            cover env fuel (choice.add d) (missing roots (choice.add d).chosen) := by
          rw [cover, hnext, Choice.chosen_add, missing_concat, hmissing]
        have hleft : (missing roots (choice.add d).chosen).length ≤ fuel := by
          rw [Choice.chosen_add]
          omega
        obtain ⟨last, hrounds, hend⟩ := ih hleft
        rw [hstep]
        exact ⟨last, .head hround hrounds, hend⟩

end Rounds

/-- How a datasource is joined to those in front of it: the first not at all, any other
to one of them, on columns that are bound to the same concept. -/
structure Joined (front : List Datasource) (d : Datasource) (pairs : List (String × String)) :
    Prop where
  first : front = [] → pairs = []
  later : front ≠ [] → pairs ≠ [] ∧ ∃ partner ∈ front, ∀ pair ∈ pairs,
    ∃ left ∈ partner.columns, ∃ right ∈ d.columns, left.concept = right.concept ∧
      pair = (columnRef (aliasFor partner) left.column, columnRef (aliasFor d) right.column)

/-- What holds of the datasources that were chosen for some roots, at any time. -/
structure Choice.Connected (env : Environment) (roots : List String) (choice : Choice) : Prop where
  known : ∀ d ∈ choice.chosen, d ∈ env.datasources.values
  distinct : (choice.chosen.map Datasource.identifier).Nodup
  useful : ∀ {front d back}, choice.chosen = front ++ d :: back →
    ∃ r ∈ roots, d.binds r = true ∧ ∀ e ∈ front, e.binds r = false
  placed : choice.sources.length = choice.chosen.length
  joined : ∀ {front d back}, choice.chosen = front ++ d :: back →
    ∃ source, choice.sources[front.length]? = some source ∧
      source.relation = d.address.text ∧ source.asName = aliasFor d ∧ Joined front d source.joinOn
  bound : ∀ a, choice.bindings.get? a = choice.chosen.findSome? (columnIn a)

/-- The chosen datasources bind every root. -/
structure Choice.Covers (env : Environment) (roots : List String) (choice : Choice) : Prop
    extends Choice.Connected env roots choice where
  covered : ∀ r ∈ roots, ∃ d ∈ choice.chosen, d.binds r = true

section Invariant
variable {env : Environment} {roots : List String} {choice last : Choice} {d : Datasource}

theorem joined_joinColumns {front : List Datasource}
    (h : front = [] ∨ ∃ partner, joinPartner? front d = some partner) :
    Joined front d (joinColumns front d) where
  first := by
    rintro rfl
    rfl
  later hfront := by
    obtain ⟨partner, hpartner⟩ := h.resolve_left hfront
    obtain ⟨hmem, a, hleft, hright⟩ := joinPartner?_eq_some hpartner
    obtain ⟨left, hleft⟩ := binds_iff_columnIn.mp hleft
    obtain ⟨right, hright⟩ := binds_iff_columnIn.mp hright
    refine ⟨?_, partner, hmem, ?_⟩
    · exact List.ne_nil_of_mem (mem_joinColumns.mpr ⟨partner, a, hpartner, hleft, hright⟩)
    · rintro ⟨left, right⟩ hpair
      obtain ⟨_, c, hsame, hleft, hright⟩ := mem_joinColumns.mp hpair
      obtain rfl := Option.some.inj (hpartner.symm.trans hsame)
      obtain ⟨b, hb, rfl⟩ := columnIn_eq_some.mp hleft
      obtain ⟨b', hb', rfl⟩ := columnIn_eq_some.mp hright
      obtain ⟨hmem, hconcept⟩ := columnFor?_eq_some hb
      obtain ⟨hmem', hconcept'⟩ := columnFor?_eq_some hb'
      exact ⟨b, hmem, b', hmem', hconcept.trans hconcept'.symm, rfl⟩

/-- A split of a list with one more member is at that member or in front of it. -/
theorem split_concat {α : Type} {xs front back : List α} {x y : α}
    (h : xs ++ [x] = front ++ y :: back) :
    front = xs ∧ y = x ∨ ∃ back', xs = front ++ y :: back' := by
  rcases List.eq_nil_or_concat back with rfl | ⟨back', z, rfl⟩
  · obtain ⟨rfl, hlast⟩ := List.append_inj' h rfl
    exact .inl ⟨rfl, (List.cons.inj hlast).1.symm⟩
  · refine .inr ⟨back', ?_⟩
    rw [List.concat_eq_append, ← List.cons_append, ← List.append_assoc] at h
    exact (List.append_inj' h rfl).1

theorem Choice.connected_start : ({} : Choice).Connected env roots where
  known := by simp
  distinct := List.nodup_nil
  useful h := by simp at h
  placed := rfl
  joined h := by simp at h
  bound _ := rfl

theorem Choice.Connected.add (h : choice.Connected env roots)
    (hd : Candidate env choice.chosen (missing roots choice.chosen) d) :
    (choice.add d).Connected env roots where
  known := by
    rw [Choice.chosen_add, List.forall_mem_append, List.forall_mem_singleton]
    exact ⟨h.known, hd.known⟩
  distinct := by
    have hnew : d.identifier ∉ choice.chosen.map Datasource.identifier := by
      intro hmem
      obtain ⟨c, hc, hsame⟩ := List.mem_map.mp hmem
      exact hd.other c hc hsame
    rw [Choice.chosen_add, List.map_append, List.map_singleton, ← List.concat_eq_append]
    exact h.distinct.concat hnew
  useful hsplit := by
    rcases split_concat hsplit with ⟨rfl, rfl⟩ | ⟨back, hfront⟩
    · obtain ⟨r, hr, hbinds⟩ := hd.covers
      obtain ⟨hroot, hmissing⟩ := mem_missing.mp hr
      exact ⟨r, hroot, hbinds, hmissing⟩
    · exact h.useful hfront
  placed := by simp [Choice.add, h.placed]
  joined {front e _} hsplit := by
    rcases split_concat hsplit with ⟨rfl, rfl⟩ | ⟨back, hfront⟩
    · refine ⟨⟨e.address.text, aliasFor e, joinColumns choice.chosen e⟩, ?_, rfl, rfl,
        joined_joinColumns hd.joinable⟩
      rw [← h.placed]
      exact List.getElem?_concat_length
    · obtain ⟨source, hsource, hrest⟩ := h.joined hfront
      obtain ⟨hlength, -⟩ := List.getElem?_eq_some_iff.mp hsource
      refine ⟨source, ?_, hrest⟩
      exact (List.getElem?_append_left hlength).trans hsource
  bound a := by
    rw [Choice.chosen_add, List.findSome?_append, ← h.bound a]
    simp [Choice.add, get?_bindColumns]

theorem Choice.Connected.rounds (h : choice.Connected env roots)
    (hrounds : Rounds env roots choice last) : last.Connected env roots := by
  induction hrounds with
  | refl => exact h
  | tail _ hround ih =>
    obtain ⟨d, hd, rfl⟩ := hround
    exact ih.add (candidate_of_next? hd)

/-- Where choosing cannot go on: this root is the first that is missing, and there is no
datasource to add. -/
structure Choice.Stuck (env : Environment) (roots : List String) (choice : Choice)
    (first : String) : Prop extends Choice.Connected env roots choice where
  reached : Rounds env roots {} choice
  blocked : ∃ rest, missing roots choice.chosen = first :: rest ∧
    next? env choice.chosen (first :: rest) = none

/-- The datasource shares no concept with any of those chosen. -/
def Apart (chosen : List Datasource) (d : Datasource) : Prop :=
  ∀ c ∈ chosen, ∀ a, ¬ (c.binds a = true ∧ d.binds a = true)

section Stuck
variable {first : String} (h : choice.Stuck env roots first)
include h

theorem Choice.Stuck.missing : first ∈ roots ∧ ∀ c ∈ choice.chosen, c.binds first = false := by
  obtain ⟨rest, hmissing, -⟩ := h.blocked
  exact mem_missing.mp (hmissing ▸ List.mem_cons_self)

end Stuck

/-- The error names the root if nothing binds it, and else the first datasource that does. -/
theorem notCovered_cases (env : Environment) (first : String) :
    notCovered env first = .noDatasource first ∧
        (∀ d ∈ env.datasources.values, d.binds first = false) ∨
      ∃ d ∈ env.datasources.values, notCovered env first = .noJoinPath d.identifier ∧
        d.binds first = true := by
  unfold notCovered
  split
  · rename_i d hd
    exact .inr ⟨d, List.mem_of_find?_eq_some hd, rfl, by simpa using List.find?_some hd⟩
  · rename_i hnone
    refine .inl ⟨rfl, fun d hd => ?_⟩
    simpa using List.find?_eq_none.mp hnone d hd

end Invariant

/-- Where the rounds end decides what choosing gives. -/
theorem chooseSources_ends (env : Environment) (roots : List String) :
    ∃ last, Rounds env roots {} last ∧
      (missing roots last.chosen = [] ∧ chooseSources env .empty roots = .ok last ∨
        ∃ first rest, missing roots last.chosen = first :: rest ∧
          next? env last.chosen (first :: rest) = none ∧
          chooseSources env .empty roots = .error (notCovered env first)) := by
  have hstart : missing roots ({} : Choice).chosen = roots := by simp [missing]
  have hends := @cover_ends env roots roots.length {} (by rw [hstart])
  rw [hstart] at hends
  exact hends

theorem rounds_of_chooseSources {env : Environment} {roots : List String} {choice : Choice}
    (h : chooseSources env .empty roots = .ok choice) :
    Rounds env roots {} choice ∧ missing roots choice.chosen = [] := by
  obtain ⟨last, hrounds, ⟨hnone, hlast⟩ | ⟨first, rest, -, -, herror⟩⟩ :=
    chooseSources_ends env roots
  · obtain rfl := Except.ok.inj (hlast.symm.trans h)
    exact ⟨hrounds, hnone⟩
  · cases herror.symm.trans h

theorem stuck_of_chooseSources {env : Environment} {roots : List String} {e : RenderError}
    (h : chooseSources env .empty roots = .error e) :
    ∃ stuck : Choice, ∃ first, stuck.Stuck env roots first ∧ e = notCovered env first := by
  obtain ⟨last, hrounds, ⟨-, hlast⟩ | ⟨first, rest, hmissing, hnext, herror⟩⟩ :=
    chooseSources_ends env roots
  · cases hlast.symm.trans h
  · have hconnected : last.Connected env roots := Choice.connected_start.rounds hrounds
    refine ⟨last, first, ⟨hconnected, hrounds, rest, hmissing, hnext⟩, ?_⟩
    exact (Except.error.inj (herror.symm.trans h)).symm

theorem covers_of_chooseSources {env : Environment} {roots : List String} {choice : Choice}
    (h : chooseSources env .empty roots = .ok choice) : choice.Covers env roots := by
  obtain ⟨hrounds, hnone⟩ := rounds_of_chooseSources h
  refine ⟨Choice.connected_start.rounds hrounds, fun r hr => ?_⟩
  by_contra hno
  push Not at hno
  have hmem : r ∈ missing roots choice.chosen :=
    mem_missing.mpr ⟨hr, fun d hd => Bool.eq_false_iff.mpr (hno d hd)⟩
  rw [hnone] at hmem
  cases hmem

end Plan
end ConceptQuery
