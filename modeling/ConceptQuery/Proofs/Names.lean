import ConceptQuery.Text.Dotted

/-! # Laws of dotted names

Splitting and joining undo each other, and a name with a dot has a parent and a
last segment.
-/
namespace ConceptQuery.Dotted

theorem splitOn_ne_nil (separator : Char) (cs : List Char) : splitOn separator cs ≠ [] := by
  cases cs with
  | nil => simp [splitOn]
  | cons c rest =>
    rw [splitOn]
    split
    · simp
    · split <;> simp

theorem length_splitOn (separator : Char) (cs : List Char) :
    (splitOn separator cs).length = cs.count separator + 1 := by
  induction cs with
  | nil => rfl
  | cons c rest ih =>
    rw [splitOn]
    split
    · rename_i hc
      simp [hc, ih]
    · rename_i hc
      split
      · rename_i hnil
        exact absurd hnil (splitOn_ne_nil separator rest)
      · rename_i piece pieces hp
        rw [hp] at ih
        simpa [List.count_cons, hc] using ih

theorem length_segments (name : String) :
    (segments name).length = name.toList.count '.' + 1 := by
  rw [segments, List.length_map, length_splitOn]

/-- A dotted name can be taken apart at its last dot. -/
theorem splitLast?_isSome {name : String} (h : isDotted name = true) :
    ∃ parent last, splitLast? name = some (parent, last) := by
  have hlength := length_segments name
  have hcount : 0 < name.toList.count '.' := List.count_pos_iff.mpr (by simpa [isDotted] using h)
  unfold splitLast?
  split
  · exact ⟨_, _, rfl⟩
  · rename_i hshort
    exfalso
    rw [← List.length_reverse] at hlength
    match hr : (segments name).reverse with
    | [] => simp [hr] at hlength
    | [s] =>
      rw [hr, List.length_singleton] at hlength
      omega
    | last :: parent :: more => exact hshort last parent more hr

@[simp] theorem toList_qualify (space name : String) :
    (qualify space name).toList = space.toList ++ '.' :: name.toList := by
  simp [qualify]

theorem under?_eq_some_iff {space name rest : String} :
    under? space name = some rest ↔ name = qualify space rest := by
  unfold under?
  dsimp only
  constructor
  · intro h
    split at h
    · rename_i hfront
      obtain ⟨back, hback⟩ := List.isPrefixOf_iff_prefix.mp hfront
      have hrest : String.ofList back = rest := by
        rw [← hback, List.drop_left] at h
        exact Option.some.inj h
      apply String.toList_injective
      rw [toList_qualify, ← hrest, String.toList_ofList, ← hback, List.append_assoc]
      rfl
    · cases h
  · rintro rfl
    have hsplit : (qualify space rest).toList = (space.toList ++ ['.']) ++ rest.toList := by
      rw [toList_qualify, List.append_assoc]
      rfl
    have hfront : (space.toList ++ ['.']).isPrefixOf (qualify space rest).toList = true := by
      rw [hsplit]
      exact List.isPrefixOf_iff_prefix.mpr (List.prefix_append _ _)
    rw [if_pos hfront, hsplit, List.drop_left, String.ofList_toList]

/-- A name that starts with an undotted namespace is split right behind it, or the
other namespace goes on there. -/
theorem qualify_eq_qualify {space other name rest : String} (hs : isDotted space = false)
    (h : qualify other rest = qualify space name) :
    other = space ∧ rest = name ∨ ∃ more, other = qualify space more := by
  have hlist : space.toList ++ '.' :: name.toList = other.toList ++ '.' :: rest.toList := by
    rw [← toList_qualify, ← toList_qualify, h]
  have hsame : ∀ back, '.' :: name.toList = back ++ '.' :: rest.toList →
      other.toList = space.toList ++ back →
      other = space ∧ rest = name ∨ ∃ more, other = qualify space more := by
    intro back hback hother
    cases back with
    | nil =>
      rw [List.append_nil] at hother
      exact .inl ⟨String.toList_injective hother,
        String.toList_injective (List.cons.inj hback).2.symm⟩
    | cons d more =>
      obtain ⟨rfl, -⟩ := List.cons.inj hback
      refine .inr ⟨String.ofList more, String.toList_injective ?_⟩
      rw [toList_qualify, String.toList_ofList, hother]
  rcases List.append_eq_append_iff.mp hlist with ⟨back, hother, hback⟩ | ⟨back, hspace, hback⟩
  · exact hsame back hback hother
  · cases back with
    | nil =>
      apply hsame [] hback.symm
      rw [hspace, List.append_nil, List.append_nil]
    | cons d more =>
      -- the dot would lie inside the undotted namespace
      obtain ⟨rfl, -⟩ := List.cons.inj hback
      simp [isDotted, hspace] at hs

theorem splitOn_append (separator : Char) (xs ys : List Char) :
    splitOn separator (xs ++ separator :: ys) = splitOn separator xs ++ splitOn separator ys := by
  induction xs with
  | nil => simp [splitOn]
  | cons x xs ih =>
    rw [List.cons_append, splitOn, splitOn, ih]
    split
    · rfl
    · cases hx : splitOn separator xs with
      | nil => exact absurd hx (splitOn_ne_nil separator xs)
      | cons piece pieces => rfl

theorem segments_ne_nil (name : String) : segments name ≠ [] := by
  simp [segments, splitOn_ne_nil]

theorem segments_qualify (space name : String) :
    segments (qualify space name) = segments space ++ segments name := by
  rw [segments, toList_qualify, splitOn_append, List.map_append]
  rfl

theorem splitOn_of_not_mem {separator : Char} {cs : List Char} (h : separator ∉ cs) :
    splitOn separator cs = [cs] := by
  induction cs with
  | nil => rfl
  | cons c cs ih =>
    rw [List.mem_cons, not_or] at h
    rw [splitOn, if_neg fun heq => h.1 heq.symm, ih h.2]

theorem segments_of_undotted {name : String} (h : isDotted name = false) :
    segments name = [name] := by
  have hnot : '.' ∉ name.toList := by simpa [isDotted] using h
  rw [segments, splitOn_of_not_mem hnot, List.map_singleton, String.ofList_toList]

theorem lastSegment_qualify (space name : String) :
    lastSegment (qualify space name) = lastSegment name := by
  have hlast := List.getLast?_eq_some_getLast (segments_ne_nil name)
  rw [lastSegment, lastSegment, segments_qualify, List.getLastD_eq_getLast?,
    List.getLastD_eq_getLast?, List.getLast?_append, hlast]
  rfl

theorem lastSegment_of_undotted {name : String} (h : isDotted name = false) :
    lastSegment name = name := by
  rw [lastSegment, segments_of_undotted h]
  rfl

@[simp] theorem isDotted_qualify (space name : String) : isDotted (qualify space name) = true := by
  simp [isDotted]

theorem exists_qualify {name : String} (h : isDotted name = true) :
    ∃ first rest, isDotted first = false ∧ name = qualify first rest := by
  have hmem : '.' ∈ name.toList := by simpa [isDotted] using h
  obtain ⟨front, back, hsplit, hnot⟩ := List.eq_append_cons_of_mem hmem
  refine ⟨String.ofList front, String.ofList back, by simpa [isDotted] using hnot, ?_⟩
  apply String.toList_injective
  rw [toList_qualify, String.toList_ofList, String.toList_ofList, hsplit]

theorem intercalate_splitOn (separator : Char) (cs : List Char) :
    [separator].intercalate (splitOn separator cs) = cs := by
  induction cs with
  | nil => rfl
  | cons c cs ih =>
    rw [splitOn]
    cases hs : splitOn separator cs with
    | nil => exact absurd hs (splitOn_ne_nil separator cs)
    | cons piece pieces =>
      rw [hs] at ih
      split
      · rename_i hc
        rw [List.intercalate_cons_cons, ih, hc]
        rfl
      · cases pieces with
        | nil => simpa using ih
        | cons next pieces =>
          rw [List.intercalate_cons_cons] at ih ⊢
          simp [← ih]

/-- Splitting a name and joining the segments gives the name. -/
theorem join_segments (name : String) : join (segments name) = name := by
  apply String.toList_injective
  rw [join, segments, String.toList_intercalate, List.map_map]
  have hid : String.toList ∘ String.ofList = id := funext fun cs => String.toList_ofList
  rw [hid, List.map_id]
  exact intercalate_splitOn '.' name.toList

theorem not_mem_of_mem_splitOn {separator : Char} {cs piece : List Char}
    (h : piece ∈ splitOn separator cs) : separator ∉ piece := by
  induction cs generalizing piece with
  | nil => simp_all [splitOn]
  | cons c cs ih =>
    rw [splitOn] at h
    split at h
    · rcases List.mem_cons.mp h with rfl | hrest
      · simp
      · exact ih hrest
    · rename_i hc
      cases hs : splitOn separator cs with
      | nil => exact absurd hs (splitOn_ne_nil separator cs)
      | cons first rest =>
        rw [hs] at h ih
        rcases List.mem_cons.mp h with rfl | hrest
        · rw [List.mem_cons, not_or]
          exact ⟨fun heq => hc heq.symm, ih List.mem_cons_self⟩
        · exact ih (List.mem_cons_of_mem first hrest)

theorem undotted_of_mem_segments {name segment : String} (h : segment ∈ segments name) :
    isDotted segment = false := by
  obtain ⟨piece, hpiece, rfl⟩ := List.mem_map.mp h
  simpa [isDotted] using not_mem_of_mem_splitOn hpiece

theorem join_singleton (name : String) : join [name] = name := by
  apply String.toList_injective
  simp [join]

theorem join_cons_cons (first second : String) (rest : List String) :
    join (first :: second :: rest) = qualify first (join (second :: rest)) := by
  apply String.toList_injective
  rw [toList_qualify, join, join, String.toList_intercalate, String.toList_intercalate,
    List.map_cons, List.map_cons, List.intercalate_cons_cons]
  simp

/-- Joining undotted segments and splitting gives the segments. -/
theorem segments_join {path : List String} (hne : path ≠ [])
    (h : ∀ s ∈ path, isDotted s = false) : segments (join path) = path := by
  induction path with
  | nil => exact absurd rfl hne
  | cons first rest ih =>
    rw [List.forall_mem_cons] at h
    cases rest with
    | nil => rw [join_singleton, segments_of_undotted h.1]
    | cons second rest =>
      rw [join_cons_cons, segments_qualify, segments_of_undotted h.1, ih (by simp) h.2]
      rfl

theorem undotted_of_splitLast? {text parent last : String}
    (h : splitLast? text = some (parent, last)) : isDotted last = false := by
  unfold splitLast? at h
  split at h
  · rename_i found next more hsegments
    obtain ⟨-, rfl⟩ := Prod.mk.inj (Option.some.inj h)
    apply undotted_of_mem_segments
    rw [← List.mem_reverse, hsegments]
    exact List.mem_cons_self
  · cases h

end ConceptQuery.Dotted
