import ConceptQuery.Proofs.ColumnReferences

/-! # Pieces between quotes

String literals, names and columns reach a query between quotes, and every quote in
them is written twice. Reading such a piece off the front of a text accepts exactly what
writing it produces, so no piece ends its quotes early or takes along what follows it.
-/
namespace ConceptQuery

theorem eq_doubled_of_readQuoted {quote : Char} {text s rest : List Char}
    (h : readQuoted quote text = some (s, rest)) :
    text = doubled quote s ++ quote :: rest ∧ rest.head? ≠ some quote := by
  fun_induction readQuoted quote text generalizing s rest with
  | case1 => cases h
  | case2 =>
    obtain ⟨rfl, rfl⟩ := Prod.mk.inj (Option.some.inj h)
    exact ⟨rfl, by simp⟩
  | case3 => cases h
  | case4 c c' more hc ih =>
    obtain ⟨⟨s, rest⟩, hread, heq⟩ := Option.map_eq_some_iff.mp h
    obtain ⟨rfl, rfl⟩ := Prod.mk.inj heq
    obtain ⟨htext, hrest⟩ := ih hread
    exact ⟨by rw [doubled, if_neg hc, List.cons_append, ← htext], hrest⟩
  | case5 c c' more hc hc' =>
    obtain rfl : c = quote := by simpa using hc
    obtain ⟨rfl, rfl⟩ := Prod.mk.inj (Option.some.inj h)
    exact ⟨rfl, by simpa using hc'⟩
  | case6 c c' more hc hc' ih =>
    obtain rfl : c = quote := by simpa using hc
    obtain rfl : c' = c := by simpa using hc'
    obtain ⟨⟨s, rest⟩, hread, heq⟩ := Option.map_eq_some_iff.mp h
    obtain ⟨rfl, rfl⟩ := Prod.mk.inj heq
    obtain ⟨htext, hrest⟩ := ih hread
    exact ⟨by rw [doubled, if_pos rfl, List.cons_append, List.cons_append, ← htext], hrest⟩

theorem readQuoted_eq_some_iff {quote : Char} {text s rest : List Char} :
    readQuoted quote text = some (s, rest) ↔
      text = doubled quote s ++ quote :: rest ∧ rest.head? ≠ some quote := by
  constructor
  · exact eq_doubled_of_readQuoted
  · rintro ⟨rfl, hrest⟩
    exact readQuoted_doubled hrest

namespace Sql
variable {text rest : List Char}

/-- A piece between quotes at the front of a text, and what follows it. -/
def enclosed? (quote : Char) : List Char → Option (String × List Char)
  | [] => none
  | c :: rest =>
    if c = quote then (readQuoted quote rest).map fun read => (String.ofList read.1, read.2)
    else none

theorem enclosed?_eq_some_iff {quote : Char} {s : String} : enclosed? quote text = some (s, rest) ↔
    text = (quoted quote s).toList ++ rest ∧ rest.head? ≠ some quote := by
  have hwritten : (quoted quote s).toList ++ rest =
      quote :: (doubled quote s.toList ++ quote :: rest) := by
    simp [quoted]
  rw [hwritten]
  cases text with
  | nil => simp [enclosed?]
  | cons c more =>
    by_cases hc : c = quote
    · have hread : (readQuoted quote more).map (fun read => (String.ofList read.1, read.2)) =
          some (s, rest) ↔ readQuoted quote more = some (s.toList, rest) := by
        rw [Option.map_eq_some_iff]
        constructor
        · rintro ⟨⟨s', rest'⟩, hread, heq⟩
          obtain ⟨rfl, rfl⟩ := Prod.mk.inj heq
          rw [hread, String.toList_ofList]
        · intro hread
          exact ⟨_, hread, by rw [String.ofList_toList]⟩
      rw [enclosed?, if_pos hc, hread, readQuoted_eq_some_iff, hc, List.cons.injEq]
      simp
    · rw [enclosed?, if_neg hc]
      simp [hc]

/-- A string literal at the front of a text, and what follows it. -/
def stringLiteral? (text : List Char) : Option (String × List Char) :=
  enclosed? '\'' text

theorem quotedName?_eq_enclosed? (text : List Char) : quotedName? text = enclosed? '"' text := by
  cases text with
  | nil => rfl
  | cons c more =>
    by_cases hc : c = '"'
    · rw [hc]
      rfl
    · rw [quotedName?_of_ne hc, enclosed?, if_neg hc]

theorem quotedName?_eq_some_iff {name : String} : quotedName? text = some (name, rest) ↔
    text = (quoteName name).toList ++ rest ∧ rest.head? ≠ some '"' := by
  rw [quotedName?_eq_enclosed?, enclosed?_eq_some_iff]
  rfl

theorem qualified?_eq_some_iff {source column : String} :
    qualified? text = some ((source, column), rest) ↔
      text = (columnRef source column).toList ++ rest ∧ rest.head? ≠ some '"' := by
  have hwritten : (columnRef source column).toList ++ rest =
      (quoteName source).toList ++ '.' :: ((quoteName column).toList ++ rest) := by
    simp [columnRef]
  rw [hwritten]
  constructor
  · intro h
    unfold qualified? at h
    split at h
    · rename_i first more hfirst
      obtain ⟨⟨second, rest'⟩, hsecond, heq⟩ := Option.map_eq_some_iff.mp h
      obtain ⟨hpair, rfl⟩ := Prod.mk.inj heq
      obtain ⟨rfl, rfl⟩ := Prod.mk.inj hpair
      obtain ⟨htext, -⟩ := quotedName?_eq_some_iff.mp hfirst
      obtain ⟨hmore, hrest⟩ := quotedName?_eq_some_iff.mp hsecond
      exact ⟨by rw [htext, hmore], hrest⟩
    · cases h
  · rintro ⟨htext, hrest⟩
    have hfirst : quotedName?
        ((quoteName source).toList ++ '.' :: ((quoteName column).toList ++ rest)) =
          some (source, '.' :: ((quoteName column).toList ++ rest)) :=
      quotedName?_eq_some_iff.mpr ⟨rfl, by simp⟩
    have hsecond : quotedName? ((quoteName column).toList ++ rest) = some (column, rest) :=
      quotedName?_eq_some_iff.mpr ⟨rfl, hrest⟩
    rw [htext, qualified?, hfirst]
    simp only [hsecond, Option.map_some]

/-- A literal, a name or a column is read off the front of a text exactly if it was written
there and its quote does not follow once more. What is read is what was written, and
what is left is what follows. -/
theorem enclosed_exact :
    (∀ (s : String) (text rest : List Char), stringLiteral? text = some (s, rest) ↔
      text = (Plan.literalSql (.string s)).toList ++ rest ∧ rest.head? ≠ some '\'') ∧
    (∀ (name : String) (text rest : List Char), quotedName? text = some (name, rest) ↔
      text = (quoteName name).toList ++ rest ∧ rest.head? ≠ some '"') ∧
    ∀ (source column : String) (text rest : List Char),
      qualified? text = some ((source, column), rest) ↔
        text = (columnRef source column).toList ++ rest ∧ rest.head? ≠ some '"' :=
  ⟨fun _ _ _ => enclosed?_eq_some_iff, fun _ _ _ => quotedName?_eq_some_iff,
    fun _ _ _ _ => qualified?_eq_some_iff⟩

/-- Quotes at both ends of a literal and next to each other inside. -/
example : stringLiteral? "'''a''''b'''; drop".toList = some ("'a''b'", "; drop".toList) := by decide

end Sql
end ConceptQuery
