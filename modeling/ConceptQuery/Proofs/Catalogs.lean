import Mathlib.Data.List.Nodup
import ConceptQuery.Catalog

/-! # Laws of catalogs

A name that is new goes to the end, so what a catalog had before is in front. As
long as no name occurs twice, looking a name up finds its only entry. Entering and
erasing a name changes what is found under that name only.
-/
namespace ConceptQuery

namespace Catalog
variable {α : Type} {c : Catalog α} {name : String} {value : α}

theorem find_eq_none_iff {entries : List (String × α)} :
    find name entries = none ↔ name ∉ entries.map Prod.fst := by
  induction entries with
  | nil => simp [find]
  | cons entry rest ih =>
    obtain ⟨key, old⟩ := entry
    rw [find]
    split
    · rename_i hkey
      simp [hkey]
    · rename_i hkey
      rw [ih, List.map_cons, List.mem_cons, not_or]
      exact ⟨fun h => ⟨fun heq => hkey heq.symm, h⟩, And.right⟩

theorem mem_of_find {entries : List (String × α)} (h : find name entries = some value) :
    (name, value) ∈ entries := by
  induction entries with
  | nil => cases h
  | cons entry rest ih =>
    obtain ⟨key, old⟩ := entry
    rw [find] at h
    split at h
    · rename_i hkey
      rw [hkey, Option.some.inj h]
      exact List.mem_cons_self
    · exact List.mem_cons_of_mem _ (ih h)

theorem find_of_mem {entries : List (String × α)} (hnodup : (entries.map Prod.fst).Nodup)
    (h : (name, value) ∈ entries) : find name entries = some value := by
  induction entries with
  | nil => cases h
  | cons entry rest ih =>
    obtain ⟨key, old⟩ := entry
    rw [List.map_cons, List.nodup_cons] at hnodup
    rw [find]
    rcases List.mem_cons.mp h with heq | hrest
    · obtain ⟨rfl, rfl⟩ := Prod.mk.inj heq
      rw [if_pos rfl]
    · have hne : key ≠ name := by
        rintro rfl
        exact hnodup.1 (List.mem_map.mpr ⟨_, hrest, rfl⟩)
      rw [if_neg hne]
      exact ih hnodup.2 hrest

theorem get?_eq_none_iff : c.get? name = none ↔ name ∉ c.keys :=
  find_eq_none_iff

theorem contains_iff : c.contains name = true ↔ name ∈ c.keys := by
  rw [contains, ← not_iff_not, Bool.not_eq_true, Option.isSome_eq_false_iff,
    Option.isNone_iff_eq_none]
  exact get?_eq_none_iff

theorem mem_entries_of_get? (h : c.get? name = some value) : (name, value) ∈ c.entries :=
  mem_of_find h

theorem get?_of_mem (hnodup : c.keys.Nodup) (h : (name, value) ∈ c.entries) :
    c.get? name = some value :=
  find_of_mem hnodup h

theorem mem_keys_of_mem (h : (name, value) ∈ c.entries) : name ∈ c.keys :=
  List.mem_map_of_mem h

theorem put_of_not_mem {entries : List (String × α)} (h : name ∉ entries.map Prod.fst) :
    put name value entries = entries ++ [(name, value)] := by
  induction entries with
  | nil => rfl
  | cons entry rest ih =>
    obtain ⟨key, old⟩ := entry
    rw [List.map_cons, List.mem_cons, not_or] at h
    rw [put, if_neg fun heq => h.1 heq.symm, ih h.2, List.cons_append]

theorem entries_insert (h : name ∉ c.keys) :
    (c.insert name value).entries = c.entries ++ [(name, value)] :=
  put_of_not_mem h

theorem keys_insert (h : name ∉ c.keys) : (c.insert name value).keys = c.keys ++ [name] := by
  rw [keys, entries_insert h, List.map_append]
  rfl

/-- What is in a catalog after a new name is entered. -/
theorem values_insert (h : name ∉ c.keys) : (c.insert name value).values = c.values ++ [value] := by
  rw [values, entries_insert h, List.map_append]
  rfl

theorem mem_entries_insert (h : name ∉ c.keys) {entry : String × α} :
    entry ∈ (c.insert name value).entries ↔ entry ∈ c.entries ∨ entry = (name, value) := by
  rw [entries_insert h, List.mem_append, List.mem_singleton]

theorem nodup_insert (h : name ∉ c.keys) (hnodup : c.keys.Nodup) :
    (c.insert name value).keys.Nodup := by
  rw [keys_insert h, ← List.concat_eq_append]
  exact hnodup.concat h

/-- Looking up behind an entry finds the entry under its name and else what was there. -/
theorem find_put (other : String) (entries : List (String × α)) :
    find other (put name value entries) = if name = other then some value else find other entries := by
  induction entries with
  | nil => rfl
  | cons entry rest ih =>
    obtain ⟨key, old⟩ := entry
    rw [put, find]
    by_cases hkey : key = name
    · rw [if_pos hkey, find, hkey]
      split
      · rfl
      · rfl
    · rw [if_neg hkey, find, ih]
      by_cases hother : key = other
      · rw [if_pos hother, if_pos hother, if_neg fun heq => hkey (hother.trans heq.symm)]
      · rw [if_neg hother, if_neg hother]

theorem get?_insert (other : String) :
    (c.insert name value).get? other = if name = other then some value else c.get? other :=
  find_put other c.entries

theorem get?_erase (other : String) :
    (c.erase name).get? other = if name = other then none else c.get? other := by
  obtain ⟨entries⟩ := c
  unfold erase get?
  dsimp only
  induction entries with
  | nil => simp [find]
  | cons entry rest ih =>
    obtain ⟨key, old⟩ := entry
    by_cases hkey : key = name
    · rw [List.filter_cons_of_neg (by simpa using hkey), ih, find, hkey]
      split
      · rfl
      · rfl
    · rw [List.filter_cons_of_pos (by simpa using hkey), find, find, ih]
      by_cases hother : key = other
      · rw [if_pos hother, if_pos hother, if_neg fun heq => hkey (hother.trans heq.symm)]
      · rw [if_neg hother, if_neg hother]

/-- Erasing a name only if it has a certain value. -/
theorem get?_eraseIf [DecidableEq α] (other : String) :
    (if c.get? name = some value then c.erase name else c).get? other =
      if name = other ∧ c.get? other = some value then none else c.get? other := by
  split
  · rename_i hvalue
    rw [get?_erase]
    by_cases hother : name = other
    · rw [if_pos hother, if_pos ⟨hother, hother ▸ hvalue⟩]
    · rw [if_neg hother, if_neg fun hboth => hother hboth.1]
  · rename_i hvalue
    rw [if_neg]
    rintro ⟨rfl, hother⟩
    exact hvalue hother

/-- A catalog in which nothing is found is empty. -/
theorem eq_empty_of_get? (h : ∀ name, c.get? name = none) : c = empty := by
  obtain ⟨entries⟩ := c
  cases entries with
  | nil => rfl
  | cons entry rest =>
    have hfound := h entry.1
    rw [get?_eq_none_iff] at hfound
    exact absurd List.mem_cons_self hfound

/-- Entries whose names all differ make a catalog of just these entries. -/
theorem entries_ofList {entries : List (String × α)} (h : (entries.map Prod.fst).Nodup) :
    (ofList entries).entries = entries := by
  have hfold : ∀ (later : List (String × α)) (c : Catalog α),
      ((c.entries ++ later).map Prod.fst).Nodup →
      (later.foldl (fun c entry => c.insert entry.1 entry.2) c).entries = c.entries ++ later := by
    intro later
    induction later with
    | nil => simp
    | cons entry later ih =>
      intro c hc
      have hnew : entry.1 ∉ c.keys := by
        intro hmem
        rw [List.map_append, List.map_cons] at hc
        exact List.nodup_append.mp hc |>.2.2 _ hmem _ List.mem_cons_self rfl
      have hentries : (c.insert entry.1 entry.2).entries = c.entries ++ [(entry.1, entry.2)] :=
        entries_insert hnew
      rw [List.foldl_cons, ih _ (by rw [hentries]; simpa using hc), hentries, List.append_assoc]
      rfl
  have hempty : (empty : Catalog α).entries ++ entries = entries := rfl
  rw [ofList, hfold entries empty (by rw [hempty]; exact h), hempty]

end Catalog

theorem mem_firstPlaces {a : String} {names : List String} :
    a ∈ firstPlaces names ↔ a ∈ names := by
  induction names with
  | nil => simp [firstPlaces]
  | cons name rest ih =>
    by_cases ha : a = name
    · simp [firstPlaces, ha]
    · simp [firstPlaces, ha, ih]

end ConceptQuery
