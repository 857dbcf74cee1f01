import ConceptQuery.Plan.Basic

/-! # Reading quoted names back

In a quoted text every quote is written twice, so the first one that is not followed
by another ends it. What is read back is the text that was quoted, whatever follows;
hence two columns that are written alike are the same column.
-/
namespace ConceptQuery

/-- The text up to the quote that ends it, and what follows that quote. -/
def readQuoted (quote : Char) : List Char → Option (List Char × List Char)
  | [] => none
  | [c] => if c = quote then some ([], []) else none
  | c :: c' :: rest =>
    if c ≠ quote then (readQuoted quote (c' :: rest)).map fun read => (c :: read.1, read.2)
    else if c' ≠ quote then some ([], c' :: rest)
    else (readQuoted quote rest).map fun read => (quote :: read.1, read.2)

theorem readQuoted_of_ne {quote c : Char} {rest : List Char} (hc : c ≠ quote) :
    readQuoted quote (c :: rest) =
      (readQuoted quote rest).map fun read => (c :: read.1, read.2) := by
  cases rest with
  | nil => simp [readQuoted, hc]
  | cons c' rest => rw [readQuoted, if_pos hc]

theorem readQuoted_doubled {quote : Char} {s rest : List Char} (hrest : rest.head? ≠ some quote) :
    readQuoted quote (doubled quote s ++ quote :: rest) = some (s, rest) := by
  induction s with
  | nil =>
    cases rest with
    | nil => simp [doubled, readQuoted]
    | cons c rest =>
      have hc : c ≠ quote := fun h => hrest (congrArg some h)
      simp [doubled, readQuoted, hc]
  | cons c s ih =>
    by_cases hc : c = quote
    · simp [doubled, readQuoted, hc, ih]
    · rw [doubled, if_neg hc, List.cons_append, readQuoted_of_ne hc, ih]
      rfl

theorem toList_columnRef (source column : String) : (columnRef source column).toList =
    '"' :: (doubled '"' source.toList ++ '"' :: '.' :: '"' ::
      (doubled '"' column.toList ++ ['"'])) := by
  simp [columnRef, quoteName, quoted]

theorem columnRef_inj {source column source' column' : String}
    (h : columnRef source column = columnRef source' column') :
    source = source' ∧ column = column' := by
  have hchars := congrArg String.toList h
  rw [toList_columnRef, toList_columnRef] at hchars
  have hsource := congrArg (readQuoted '"') (List.cons.inj hchars).2
  rw [readQuoted_doubled (by simp), readQuoted_doubled (by simp)] at hsource
  obtain ⟨hsame, hrest⟩ := Prod.mk.inj (Option.some.inj hsource)
  have hcolumn := congrArg (readQuoted '"') (List.cons.inj (List.cons.inj hrest).2).2
  rw [readQuoted_doubled (by simp), readQuoted_doubled (by simp)] at hcolumn
  exact ⟨String.toList_injective hsame,
    String.toList_injective (Prod.mk.inj (Option.some.inj hcolumn)).1⟩

end ConceptQuery
