import ConceptQuery.Proofs.ColumnReferences
import ConceptQuery.Proofs.Expansion

/-! # What merged selects read from their parts

The outer query of a merge puts the columns that an align item names into one, writes all
other columns of the parts by themselves, and joins the parts on the align items. It takes
the names of align items as they are, so it reads a column that no part gives out if an
item names a concept that its select does not show, and a column is not written once if
two items name it or two columns of a part have one name: `Compilation.merge_reads_iff`.
-/
namespace ConceptQuery

namespace DuckDb
open Sql
variable {parts : List Plan} {align : List AlignColumn} {part : Plan} {i : Nat} {name : String}

section Trimming

theorem exists_trimEnd (text : String) :
    ∃ blanks, Quoteless blanks ∧ text.toList = (trimEnd text).toList ++ blanks := by
  refine ⟨(text.toList.reverse.takeWhile Text.isBlank).reverse, fun c hc => ?_, ?_⟩
  · have hblank := List.mem_takeWhile_imp (List.mem_reverse.mp hc)
    rw [Bool.eq_false_iff]
    intro hquote
    simp only [isQuote, Bool.or_eq_true, decide_eq_true_eq] at hquote
    rcases hquote with rfl | rfl <;> exact absurd hblank (by decide)
  · rw [trimEnd, String.toList_ofList, ← List.reverse_append, List.takeWhile_append_dropWhile,
      List.reverse_reverse]

theorem trimEnd_append {front back : String} {c : Char} (hc : c ∈ back.toList)
    (hblank : Text.isBlank c = false) : trimEnd (front ++ back) = front ++ trimEnd back := by
  have hne : back.toList.reverse.dropWhile Text.isBlank ≠ [] := by
    intro hnil
    have hall := List.dropWhile_eq_nil_iff.mp hnil c (List.mem_reverse.mpr hc)
    exact Bool.false_ne_true (hblank.symm.trans hall)
  apply String.toList_injective
  rw [trimEnd, trimEnd, String.toList_ofList, String.toList_append, String.toList_append,
    String.toList_ofList, List.reverse_append, List.dropWhile_append,
    if_neg (by simpa using hne), List.reverse_append, List.reverse_reverse]

end Trimming

section Columns

theorem partAlias_inj {j : Nat} : partAlias i = partAlias j ↔ i = j := by
  refine ⟨fun h => ?_, congrArg partAlias⟩
  have hchars := congrArg String.toList h
  rw [partAlias, partAlias, String.toList_append, String.toList_append] at hchars
  have hnumber := congrArg (fun digits => Nat.ofDigitChars 10 digits 0)
    (List.append_cancel_left hchars)
  simpa [Nat.toString_eq_ofList_toDigits] using hnumber

/-- What the outer query reads for a column of the merge. -/
def alignedRefs (a : AlignColumn) : List (String × String) :=
  a.columns.zipIdx.map fun p => (partAlias p.2, p.1)

/-- What it reads for the columns of a part that no align item takes. -/
def ownRefs (align : List AlignColumn) (index : Nat) (part : Plan) : List (String × String) :=
  ((part.columns.map OutputColumn.name).filter fun name => !isAligned align index name).map
    (Prod.mk (partAlias index))

def selectRefs (parts : List Plan) (align : List AlignColumn) : List (String × String) :=
  align.flatMap alignedRefs ++ parts.zipIdx.flatMap fun p => ownRefs align p.2 p.1

/-- The columns that a part and the first one are joined on. -/
def joinNames (align : List AlignColumn) (index : Nat) : List (String × String) :=
  align.filterMap fun a =>
    match a.columns[0]?, a.columns[index]? with
    | some left, some right => some (left, right)
    | _, _ => none

def joinRefs (align : List AlignColumn) (index : Nat) : List (String × String) :=
  (joinNames align index).flatMap fun p => [(partAlias 0, p.1), (partAlias index, p.2)]

theorem flatten_singletons {α β : Type} (xs : List α) (f : α → β) :
    (xs.map fun x => [f x]).flatten = xs.map f := by
  rw [← List.flatMap_def, ← List.map_eq_flatMap]

theorem finds_alignedColumn (a : AlignColumn) :
    Finds Breaks (alignedColumn a).toList (alignedRefs a) := by
  have hopen : Finds Any "coalesce(".toList [] := finds_quoteless (by decide)
  have hrefs : FindsEach (a.columns.zipIdx.map fun p => columnRef (partAlias p.2) p.1)
      (a.columns.zipIdx.map fun p => [(partAlias p.2, p.1)]) :=
    findsEach_map fun p _ => finds_columnRef (partAlias p.2) p.1
  have hcomma : ∀ rest, Breaks (", ".toList ++ rest) := fun rest => breaks_cons (by decide) _
  have hlist := finds_intercalate (by decide) hcomma hrefs
  have hname : Finds Breaks (") AS ".toList ++ (quoteName a.name).toList) [] :=
    (finds_quoteless (by decide)).append (finds_quoteName a.name) fun _ _ => trivial
  have hall := hopen.append (hlist.append hname fun rest _ => breaks_cons (by decide) _)
    fun _ _ => trivial
  rw [flatten_singletons] at hall
  simpa [alignedColumn, alignedRefs] using hall

theorem findsEach_ownColumns (align : List AlignColumn) (index : Nat) (part : Plan) :
    FindsEach (ownColumns align index part) ((ownRefs align index part).map fun ref => [ref]) := by
  rw [ownColumns, ownRefs, List.filter_map, List.map_map, List.map_map]
  exact findsEach_map fun c _ => finds_columnRef (partAlias index) c.name

theorem findsEach_mergedColumns (parts : List Plan) (align : List AlignColumn) :
    FindsEach (mergedColumns parts align) (align.map alignedRefs ++
      (parts.zipIdx.map fun p => (ownRefs align p.2 p.1).map fun ref => [ref]).flatten) := by
  refine List.rel_append (findsEach_map fun a _ => finds_alignedColumn a) (List.rel_flatten ?_)
  rw [List.forall₂_map_left_iff, List.forall₂_map_right_iff, List.forall₂_same]
  exact fun p _ => findsEach_ownColumns align p.2 p.1

/-- What the select list of the outer query reads. -/
theorem finds_mergedColumns (parts : List Plan) (align : List AlignColumn) :
    Finds Any (listLines (mergedColumns parts align)).toList (selectRefs parts align) := by
  have hrefs : selectRefs parts align = (align.map alignedRefs ++
        (parts.zipIdx.map fun p =>
          (ownRefs align p.2 p.1).map fun ref => [ref]).flatten).flatten := by
    have hown : ∀ refs : List (String × String), (refs.map fun ref => [ref]).flatten = refs :=
      fun refs => (flatten_singletons refs id).trans (List.map_id refs)
    simp [selectRefs, List.flatMap_def, List.flatten_flatten, Function.comp_def, hown]
  rw [hrefs]
  exact finds_listLines (findsEach_mergedColumns parts align)

theorem finds_equation (source source' : String) (p : String × String) :
    Finds Breaks (columnRef source p.1 ++ " = " ++ columnRef source' p.2).toList
      [(source, p.1), (source', p.2)] := by
  have hequals : Finds Any " = ".toList [] := finds_quoteless (by decide)
  have hright := hequals.append (finds_columnRef source' p.2) fun _ _ => trivial
  have hall := (finds_columnRef source p.1).append hright fun rest _ => breaks_cons (by decide) _
  simpa using hall

/-- What the outer query reads to join a part. -/
theorem finds_mergeLine (align : List AlignColumn) (index : Nat) :
    Finds Any (mergeLine align index).toList (joinRefs align index) := by
  have hpairs : (align.filterMap fun a =>
      match a.columns[0]?, a.columns[index]? with
      | some left, some right =>
        some (columnRef (partAlias 0) left, columnRef (partAlias index) right)
      | _, _ => none) = (joinNames align index).map fun p =>
        (columnRef (partAlias 0) p.1, columnRef (partAlias index) p.2) := by
    rw [joinNames, List.map_filterMap]
    refine List.filterMap_congr fun a _ => ?_
    cases a.columns[0]? with
    | none => rfl
    | some left => cases a.columns[index]? <;> rfl
  have hline : mergeLine align index =
      if ((joinNames align index).map fun p =>
          (columnRef (partAlias 0) p.1, columnRef (partAlias index) p.2)).isEmpty then
        indent ++ "CROSS JOIN " ++ quoteName (partAlias index) ++ "\n"
      else indent ++ "FULL JOIN " ++ quoteName (partAlias index) ++ " ON " ++
        equations ((joinNames align index).map fun p =>
          (columnRef (partAlias 0) p.1, columnRef (partAlias index) p.2)) ++ "\n" := by
    rw [← hpairs]
    rfl
  have hend : Finds Any "\n".toList [] := finds_quoteless (by decide)
  have hname : ∀ join : String, Quoteless join.toList →
      Finds Breaks (join.toList ++ (quoteName (partAlias index)).toList) [] := fun join hjoin =>
    (finds_quoteless hjoin).append (finds_quoteName _) fun _ _ => trivial
  rw [hline]
  split
  · rename_i hempty
    have hnone : joinNames align index = [] := by simpa using hempty
    have hall := (hname "    CROSS JOIN " (by decide)).append hend fun rest _ =>
      breaks_cons (by decide) _
    rw [joinRefs, hnone]
    simpa [indent] using hall
  · have hequations : FindsEach ((joinNames align index).map fun p =>
        columnRef (partAlias 0) p.1 ++ " = " ++ columnRef (partAlias index) p.2)
        ((joinNames align index).map fun p => [(partAlias 0, p.1), (partAlias index, p.2)]) :=
      findsEach_map fun p _ => finds_equation (partAlias 0) (partAlias index) p
    have hand : ∀ rest, Breaks (" AND ".toList ++ rest) := fun rest => breaks_cons (by decide) _
    have hon : Finds Any " ON ".toList [] := finds_quoteless (by decide)
    have hlist := (finds_intercalate (by decide) hand hequations).append hend fun rest _ =>
      breaks_cons (by decide) _
    have hall := (hname "    FULL JOIN " (by decide)).append
      (hon.append hlist fun _ _ => trivial) fun rest _ => breaks_cons (by decide) _
    simpa [indent, equations, joinRefs, List.flatMap, Function.comp_def] using hall

end Columns

section Outer

/-- The query over the parts of a merge. -/
def outerQuery (parts : List Plan) (align : List AlignColumn) : String :=
  trimEnd ("SELECT\n" ++ listLines (mergedColumns parts align) ++
    "FROM\n" ++ indent ++ quoteName (partAlias 0) ++ "\n" ++
    String.join ((List.range' 1 (parts.length - 1)).map (mergeLine align)))

theorem printMerge_eq (parts : List Plan) (align : List AlignColumn) :
    printMerge parts align = "WITH\n" ++ partQueries 0 parts ++ outerQuery parts align := by
  rw [outerQuery, ← trimEnd_append (c := 'S') (by simp) (by decide)]
  simp only [printMerge, String.append_assoc]

/-- All columns that the outer query reads. -/
theorem references_outerQuery (parts : List Plan) (align : List AlignColumn) :
    references (outerQuery parts align).toList = selectRefs parts align ++
      (List.range' 1 (parts.length - 1)).flatMap (joinRefs align) := by
  obtain ⟨blanks, hblanks, htext⟩ := exists_trimEnd ("SELECT\n" ++
    listLines (mergedColumns parts align) ++
    "FROM\n" ++ indent ++ quoteName (partAlias 0) ++ "\n" ++
    String.join ((List.range' 1 (parts.length - 1)).map (mergeLine align)))
  rw [outerQuery, ← references_append hblanks, ← htext]
  have hselect : Finds Any "SELECT\n".toList [] := finds_quoteless (by decide)
  have hfrom : Finds Any "FROM\n    ".toList [] := finds_quoteless (by decide)
  have hline : Finds Any "\n".toList [] := finds_quoteless (by decide)
  have hjoins : Finds Any _ ((List.range' 1 (parts.length - 1)).flatMap (joinRefs align)) :=
    finds_join fun index _ => finds_mergeLine align index
  have hfirst := (finds_quoteName (partAlias 0)).append (hline.append hjoins fun _ _ => trivial)
    fun rest _ => breaks_cons (by decide) _
  have hall := hselect.append ((finds_mergedColumns parts align).append
    (hfrom.append hfirst fun _ _ => trivial) fun _ _ => trivial) fun _ _ => trivial
  simpa [indent] using hall.breaking.references_eq

/-- A column that one of the parts gives out. -/
def Produced (parts : List Plan) (ref : String × String) : Prop :=
  ∃ (i : Nat) (part : Plan), parts[i]? = some part ∧ ref.1 = partAlias i ∧
    ref.2 ∈ part.columns.map OutputColumn.name

theorem produced_iff : Produced parts (partAlias i, name) ↔
    ∃ part, parts[i]? = some part ∧ name ∈ part.columns.map OutputColumn.name := by
  constructor
  · rintro ⟨j, part, hpart, hsource, hname⟩
    obtain rfl := partAlias_inj.mp hsource
    exact ⟨part, hpart, hname⟩
  · rintro ⟨part, hpart, hname⟩
    exact ⟨i, part, hpart, rfl, hname⟩

theorem mem_alignedRefs {a : AlignColumn} {ref : String × String} : ref ∈ alignedRefs a ↔
    ∃ i name, a.columns[i]? = some name ∧ ref = (partAlias i, name) := by
  simp only [alignedRefs, List.mem_map, Prod.exists, List.mk_mem_zipIdx_iff_getElem?]
  exact ⟨fun ⟨name, i, h, href⟩ => ⟨i, name, h, href.symm⟩,
    fun ⟨i, name, h, href⟩ => ⟨name, i, h, href.symm⟩⟩

theorem mem_joinRefs {ref : String × String} (h : ref ∈ joinRefs align i) :
    ∃ a ∈ align, ∃ j name, a.columns[j]? = some name ∧ ref = (partAlias j, name) := by
  obtain ⟨⟨left, right⟩, hp, href⟩ := List.mem_flatMap.mp h
  obtain ⟨a, ha, hnames⟩ := List.mem_filterMap.mp hp
  split at hnames
  · rename_i left' right' hleft hright
    obtain ⟨rfl, rfl⟩ := Prod.mk.inj (Option.some.inj hnames)
    simp only [List.mem_cons, List.not_mem_nil, or_false] at href
    rcases href with rfl | rfl
    · exact ⟨a, ha, 0, _, hleft, rfl⟩
    · exact ⟨a, ha, i, _, hright, rfl⟩
  · cases hnames

/-- The outer query reads what its parts give out and nothing else exactly if each align item
names columns of theirs: all other columns it takes from the parts themselves. -/
theorem produced_of_references_iff (parts : List Plan) (align : List AlignColumn) :
    (∀ ref ∈ references (outerQuery parts align).toList, Produced parts ref) ↔
      ∀ a ∈ align, ∀ (i : Nat) (name : String), a.columns[i]? = some name →
        ∃ part : Plan, parts[i]? = some part ∧ name ∈ part.columns.map OutputColumn.name := by
  rw [references_outerQuery]
  constructor
  · intro hall a ha i name hname
    refine produced_iff.mp (hall _ (List.mem_append_left _ (List.mem_append_left _ ?_)))
    exact List.mem_flatMap.mpr ⟨a, ha, mem_alignedRefs.mpr ⟨i, name, hname, rfl⟩⟩
  · intro hall ref href
    have haligned : (∃ a ∈ align, ∃ i name, a.columns[i]? = some name ∧
        ref = (partAlias i, name)) → Produced parts ref := by
      rintro ⟨a, ha, i, name, hname, rfl⟩
      exact produced_iff.mpr (hall a ha i name hname)
    rcases List.mem_append.mp href with href | href
    · rcases List.mem_append.mp href with href | href
      · obtain ⟨a, ha, href⟩ := List.mem_flatMap.mp href
        exact haligned ⟨a, ha, mem_alignedRefs.mp href⟩
      · obtain ⟨⟨part, i⟩, hpart, href⟩ := List.mem_flatMap.mp href
        obtain ⟨name, hname, rfl⟩ := List.mem_map.mp href
        exact ⟨i, part, List.mk_mem_zipIdx_iff_getElem?.mp hpart, rfl, (List.mem_filter.mp hname).1⟩
    · obtain ⟨i, -, href⟩ := List.mem_flatMap.mp href
      exact haligned (mem_joinRefs href)

end Outer

section Counting

/-- How many align items take a column of a part. -/
def takers (align : List AlignColumn) (index : Nat) (name : String) : Nat :=
  align.countP fun a => a.columns[index]? = some name

theorem isAligned_iff : isAligned align i name = true ↔ 0 < takers align i name := by
  rw [isAligned, takers, List.any_eq_true, List.countP_pos_iff]

theorem count_alignedRefs (a : AlignColumn) : (alignedRefs a).count (partAlias i, name) =
    if a.columns[i]? = some name then 1 else 0 := by
  have hinj : Function.Injective fun p : String × Nat => (partAlias p.2, p.1) := by
    rintro ⟨name, i⟩ ⟨name', i'⟩ h
    obtain ⟨hi, hname⟩ := Prod.mk.inj h
    exact Prod.ext hname (partAlias_inj.mp hi)
  have hnodup : a.columns.zipIdx.Nodup := List.Nodup.of_map Prod.snd (by
    rw [List.zipIdx_map_snd]
    exact List.nodup_range')
  have hcount := List.count_map_of_injective a.columns.zipIdx _ hinj (name, i)
  rw [alignedRefs]
  refine hcount.trans ?_
  rw [hnodup.count]
  simp only [List.mk_mem_zipIdx_iff_getElem?]

theorem count_aligned (align : List AlignColumn) :
    (align.flatMap alignedRefs).count (partAlias i, name) = takers align i name := by
  induction align with
  | nil => rfl
  | cons a align ih =>
    rw [List.flatMap_cons, List.count_append, ih, count_alignedRefs, takers, takers,
      List.countP_cons, Nat.add_comm]
    simp only [decide_eq_true_eq]

theorem count_ownRefs (align : List AlignColumn) (part : Plan) :
    (ownRefs align i part).count (partAlias i, name) =
      if takers align i name = 0 then (part.columns.map OutputColumn.name).count name else 0 := by
  rw [ownRefs, List.count_map_of_injective _ _ (Prod.mk_right_injective (partAlias i))]
  split
  · rename_i hfree
    refine List.count_filter ?_
    rw [Bool.not_eq_true', Bool.eq_false_iff, ne_eq, isAligned_iff, hfree]
    exact Nat.lt_irrefl 0
  · rename_i htaken
    refine List.count_eq_zero.mpr fun hmem => ?_
    have hnot := (List.mem_filter.mp hmem).2
    rw [isAligned_iff.mpr (Nat.pos_of_ne_zero htaken)] at hnot
    cases hnot

theorem count_ownRefs_of_ne {index : Nat} (h : i ≠ index) (align : List AlignColumn) (part : Plan) :
    (ownRefs align index part).count (partAlias i, name) = 0 := by
  refine List.count_eq_zero.mpr fun hmem => ?_
  obtain ⟨_, -, href⟩ := List.mem_map.mp hmem
  exact h (partAlias_inj.mp (Prod.mk.inj href).1.symm)

/-- What is read by itself from the part of an index, from `start` on, is all from that part. -/
theorem count_own (start offset : Nat) :
    ((parts.zipIdx start).flatMap fun p => ownRefs align p.2 p.1).count
        (partAlias (start + offset), name) =
      (parts[offset]?.map fun part =>
        (ownRefs align (start + offset) part).count (partAlias (start + offset), name)).getD 0 := by
  induction parts generalizing start offset with
  | nil => rfl
  | cons part rest ih =>
    rw [List.zipIdx_cons, List.flatMap_cons, List.count_append]
    cases offset with
    | zero =>
      -- all other parts have other aliases
      have hlater : ((rest.zipIdx (start + 1)).flatMap fun p => ownRefs align p.2 p.1).count
          (partAlias (start + 0), name) = 0 := by
        rw [List.count_flatMap, List.sum_eq_zero]
        intro n hn
        obtain ⟨⟨part', j⟩, hmem, rfl⟩ := List.mem_map.mp hn
        have hle := (List.mem_zipIdx hmem).1
        exact count_ownRefs_of_ne (by omega) align part'
      rw [hlater]
      rfl
    | succ offset =>
      have hmore := ih (start + 1) offset
      rw [Nat.add_right_comm, Nat.add_assoc] at hmore
      rw [count_ownRefs_of_ne (by omega), Nat.zero_add, hmore, List.getElem?_cons_succ]

/-- How often the outer select list reads a column of a part. -/
theorem count_selectRefs (hpart : parts[i]? = some part) :
    (selectRefs parts align).count (partAlias i, name) = takers align i name +
      if takers align i name = 0 then (part.columns.map OutputColumn.name).count name else 0 := by
  have hown := @count_own parts align name 0 i
  rw [Nat.zero_add, hpart, Option.map_some, Option.getD_some, count_ownRefs] at hown
  rw [selectRefs, List.count_append, count_aligned, hown]

/-- A column of a part is read once and for itself exactly if at most one align item takes it,
and no other column of the part has its name. -/
theorem count_eq_one_iff (hpart : parts[i]? = some part)
    (hname : name ∈ part.columns.map OutputColumn.name) :
    ((selectRefs parts align).count (partAlias i, name) = 1 ∧
        (part.columns.map OutputColumn.name).count name = 1) ↔
      takers align i name ≤ 1 ∧ (part.columns.map OutputColumn.name).count name = 1 := by
  have hpos := List.count_pos_iff.mpr hname
  rw [count_selectRefs hpart]
  split <;> omega

end Counting

/-- The select list of the outer query reads each column of each part once, and no other
column of that part is meant by it. -/
def ReadsOnce (parts : List Plan) (align : List AlignColumn) : Prop :=
  ∀ (i : Nat) (part : Plan), parts[i]? = some part → ∀ column ∈ part.columns,
    (references (listLines (mergedColumns parts align)).toList).count
        (partAlias i, column.name) = 1 ∧
      (part.columns.map OutputColumn.name).count column.name = 1

theorem readsOnce_iff (parts : List Plan) (align : List AlignColumn) : ReadsOnce parts align ↔
    ∀ (i : Nat) (part : Plan), parts[i]? = some part →
      (∀ name ∈ part.columns.map OutputColumn.name, takers align i name ≤ 1) ∧
        (part.columns.map OutputColumn.name).Nodup := by
  rw [ReadsOnce, (finds_mergedColumns parts align).breaking.references_eq]
  refine forall₂_congr fun i part => forall_congr' fun hpart => ?_
  rw [List.nodup_iff_count_eq_one, ← forall₂_and, List.forall_mem_map]
  exact forall₂_congr fun column hcolumn =>
    count_eq_one_iff hpart (List.mem_map_of_mem hcolumn)

end DuckDb

open Compile Plan

section Alignment

/-- Each align item of a merge has a concept for each of the selects. -/
def Statement.Aligned : Statement → Prop
  | .multiSelect selects align _ => ∀ item ∈ align, item.concepts.length = selects.length
  | _ => True

def Compile.Slot.Aligned : Slot → Prop
  | .ready s => s.Aligned
  | .pending _ => True

namespace Compile
open Build
variable {importer : Importer} {lines : List (List Char)} {node : Tree Leaf} {line : Nat}
  {env env' : Environment}

theorem aligned_alignment (count : Nat) (node : Tree Leaf) :
    Yields (fun items => ∀ item ∈ items, item.concepts.length = count)
      (alignment env line count node) := by
  unfold alignment
  split
  · refine Ends.inSequence fun x hx => ?_
    obtain ⟨item, -, rfl⟩ := List.mem_map.mp hx
    refine (ends_trivial _).bind fun name _ => (ends_trivial _).bind fun concepts _ => ?_
    split
    · assumption
    · trivial
  · simp [Ends]

theorem aligned_query {s : Statement} (h : Gives (query node) env s env') : s.Aligned := by
  unfold query at h
  split at h
  · obtain ⟨found, -, rfl⟩ := gives_map.mp h
    trivial
  · obtain ⟨parts, _, -, hrest⟩ := gives_bind.mp h
    obtain ⟨align, _, hlift, hpure⟩ := gives_bind.mp hrest
    obtain ⟨rfl, -⟩ := gives_pure.mp hpure
    exact (aligned_alignment parts.length node).of_eq_ok (gives_lift.mp hlift).1
  · obtain ⟨parts, _, -, hrest⟩ := gives_bind.mp h
    obtain ⟨found, _, -, hpure⟩ := gives_bind.mp hrest
    obtain ⟨rfl, -⟩ := gives_pure.mp hpure
    trivial
  · exact absurd h not_gives_throw

theorem aligned_tryConcept {result : Except (String × Nat) Statement}
    (h : Gives (tryConcept lines node) env result env') : (Slot.ofAttempt node result).Aligned := by
  obtain ⟨c, -, rfl, -⟩ | ⟨⟨waits, rfl⟩, -⟩ := tryConcept_cases h
  · trivial
  · trivial

theorem aligned_firstPass {slot : Slot} (h : Gives (firstPass importer lines node) env slot env') :
    slot.Aligned := by
  obtain ⟨c, -, rfl, -⟩ | ⟨result, rfl, htry⟩ | ⟨s, rfl, himport⟩ | ⟨s, rfl, hraw, -⟩ | ⟨rfl, -⟩ :=
    firstPass_cases h
  · trivial
  · exact aligned_tryConcept htry
  · obtain ⟨record, module, between, -, rfl, -⟩ := importStatement_cases himport
    trivial
  · obtain ⟨leaf, -, hs⟩ := except_bind_eq_ok.mp hraw
    rw [← Except.ok.inj hs]
    trivial
  · trivial

/-- Only queries have align items, and they are checked when the query is compiled. -/
theorem kept_aligned {start : Environment} :
    Kept importer lines start fun _ slot _ => slot.Aligned where
  step _ h := h
  first _ h := aligned_firstPass h
  concept {_ m s _ _} _ _ _ h := by
    have hfilled : (Slot.ofAttempt m (.ok s)).Aligned := aligned_tryConcept h
    exact hfilled
  datasource _ _ _ h := by
    obtain ⟨d, _, -, hrest⟩ := gives_bind.mp h
    obtain ⟨_, _, -, hpure⟩ := gives_bind.mp hrest
    obtain ⟨rfl, -⟩ := gives_pure.mp hpure
    trivial
  query _ _ h := aligned_query h

end Compile

end Alignment

section Documents
variable {env : Environment}

/-- The names of the columns that a select gives out. -/
def Select.outputNames (env : Environment) (s : Select) : List String :=
  (s.items.filter fun i => !i.hidden).map fun i => columnName env i.concept

/-- An align item takes the column of this name from the select at an index. -/
def AlignItem.Takes (env : Environment) (item : AlignItem) (index : Nat) (name : String) : Prop :=
  (item.concepts[index]?).map (columnName env) = some name

instance (env : Environment) (item : AlignItem) (index : Nat) (name : String) :
    Decidable (item.Takes env index name) :=
  inferInstanceAs (Decidable (_ = _))

/-- The concepts of an align item have, one by one, the names of outputs of the selects. -/
def AlignItem.Shown (env : Environment) (selects : List Select) (item : AlignItem) : Prop :=
  List.Forall₂ (fun a s => columnName env a ∈ s.outputNames env) item.concepts selects

instance (env : Environment) (selects : List Select) (item : AlignItem) :
    Decidable (item.Shown env selects) :=
  decidable_of_iff (item.concepts.length = selects.length ∧
      ∀ p ∈ item.concepts.zip selects, columnName env p.1 ∈ p.2.outputNames env)
    (by rw [AlignItem.Shown, List.forall₂_iff_zip, Prod.forall])

/-- No two align items take one output of a select, and no two of its outputs have one name. -/
def OutputsApart (env : Environment) (selects : List Select) (align : List AlignItem) : Prop :=
  ∀ (i : Nat) (hi : i < selects.length),
    (∀ name ∈ selects[i].outputNames env,
      (align.countP fun item => item.Takes env i name) ≤ 1) ∧
    (selects[i].outputNames env).Nodup

instance (env : Environment) (selects : List Select) (align : List AlignItem) :
    Decidable (OutputsApart env selects align) :=
  inferInstanceAs (Decidable (∀ (i : Nat) (hi : i < selects.length),
    (∀ name ∈ selects[i].outputNames env,
      (align.countP fun item => item.Takes env i name) ≤ 1) ∧
    (selects[i].outputNames env).Nodup))

theorem outputNames_of_generate {s : Select} {part : Plan}
    (h : DuckDb.dialect.generate env [.select s] = .ok [.select part]) :
    part.columns.map OutputColumn.name = s.outputNames env := by
  have hplan := DuckDb.generate_select_eq_ok.mp h
  rw [StateT.run'_eq] at hplan
  obtain ⟨⟨_, p⟩, hrun, rfl⟩ := except_map_eq_ok.mp hplan
  obtain ⟨sources, hover⟩ := planOver_of_planSelect hrun
  obtain ⟨planned, condition, orderBy, hplanned, -, -, hpart⟩ := planOver_eq_ok hover
  rw [hpart, outputColumns, List.map_map, Select.outputNames]
  refine (map_filter_of_forall₂ hplanned (fun h => ?_) fun h => ?_).symm
  · rw [h.hidden]
  · exact h.name.symm

theorem takers_alignColumn (env : Environment) (align : List AlignItem) (i : Nat) (name : String) :
    DuckDb.takers (align.map (alignColumn env)) i name =
      align.countP fun item => item.Takes env i name := by
  rw [DuckDb.takers, List.countP_map]
  refine List.countP_congr fun item _ => ?_
  simp [AlignItem.Takes, alignColumn]

variable {selects : List Select} {parts : List Plan} {align : List AlignItem}

theorem names_of_generate (h : List.Forall₂ (fun s part =>
      DuckDb.dialect.generate env [.select s] = .ok [.select part]) selects parts) {i : Nat}
    (hi : i < selects.length) (hi' : i < parts.length) :
    parts[i].columns.map OutputColumn.name = selects[i].outputNames env :=
  outputNames_of_generate (h.get hi hi')

/-- An align item names columns that are there exactly if its concepts are, one by one, outputs
of the selects. -/
theorem taken_produced_iff (h : List.Forall₂ (fun s part =>
      DuckDb.dialect.generate env [.select s] = .ok [.select part]) selects parts)
    {item : AlignItem} (hlength : item.concepts.length = selects.length) :
    (∀ (i : Nat) (name : String), (alignColumn env item).columns[i]? = some name →
        ∃ part : Plan, parts[i]? = some part ∧ name ∈ part.columns.map OutputColumn.name) ↔
      item.Shown env selects := by
  rw [AlignItem.Shown, List.forall₂_iff_get]
  constructor
  · intro hall
    refine ⟨hlength, fun i hi hi' => ?_⟩
    obtain ⟨part, hpart, hname⟩ := hall i (columnName env item.concepts[i]) (by
      rw [alignColumn, List.getElem?_map, List.getElem?_eq_getElem hi, Option.map_some])
    obtain ⟨hi'', rfl⟩ := List.getElem?_eq_some_iff.mp hpart
    rw [names_of_generate h hi' hi''] at hname
    exact hname
  · rintro ⟨-, hall⟩ i name hname
    rw [alignColumn, List.getElem?_map] at hname
    obtain ⟨a, ha, rfl⟩ := Option.map_eq_some_iff.mp hname
    obtain ⟨hi, rfl⟩ := List.getElem?_eq_some_iff.mp ha
    have hi' : i < selects.length := hlength ▸ hi
    have hi'' : i < parts.length := h.length_eq ▸ hi'
    refine ⟨parts[i], List.getElem?_eq_getElem hi'', ?_⟩
    rw [names_of_generate h hi' hi'']
    exact hall i hi hi'

/-- The parts are read once exactly if at most one align item takes each of their columns, and
the outputs of each select have different names. -/
theorem readsOnce_alignColumn_iff (h : List.Forall₂ (fun s part =>
      DuckDb.dialect.generate env [.select s] = .ok [.select part]) selects parts) :
    DuckDb.ReadsOnce parts (align.map (alignColumn env)) ↔ OutputsApart env selects align := by
  rw [DuckDb.readsOnce_iff]
  simp only [takers_alignColumn]
  constructor
  · intro hall i hi
    have hi' : i < parts.length := h.length_eq ▸ hi
    rw [← names_of_generate h hi hi']
    exact hall i parts[i] (List.getElem?_eq_getElem hi')
  · intro hall i part hpart
    obtain ⟨hi', rfl⟩ := List.getElem?_eq_some_iff.mp hpart
    have hi : i < selects.length := h.length_eq.symm ▸ hi'
    rw [names_of_generate h hi hi']
    exact hall i hi

end Documents

/-- Each align item of a merge that is planned has a concept for each select. What the outer
query reads is given out by its parts exactly if these concepts have the names of outputs. Each
output is read once exactly if no two align items take it and no two outputs of a select have
one name. -/
theorem Compilation.merge_reads_iff {load : Loader} {depth : Nat} {stack : List String}
    {text : String} {tree : Tree Leaf} {c : Compilation}
    (hrun : Compilation.run (compileModule load depth stack) .initial text tree = c)
    (hresolved : c.error = none) {selects : List Select} {align : List AlignItem}
    {line : Option Nat} (hst : Statement.multiSelect selects align line ∈ c.statements)
    {forms : List Form}
    (hplan : DuckDb.dialect.generate c.env [.multiSelect selects align line] = .ok forms) :
    (∀ item ∈ align, item.concepts.length = selects.length) ∧
    ∃ parts columns, forms = [.multiSelect parts columns] ∧
      List.Forall₂ (fun s part =>
        DuckDb.dialect.generate c.env [.select s] = .ok [.select part]) selects parts ∧
      DuckDb.print (.multiSelect parts columns) =
        "WITH\n" ++ DuckDb.partQueries 0 parts ++ DuckDb.outerQuery parts columns ∧
      ((∀ ref ∈ Sql.references (DuckDb.outerQuery parts columns).toList,
          DuckDb.Produced parts ref) ↔ ∀ item ∈ align, item.Shown c.env selects) ∧
      (DuckDb.ReadsOnce parts columns ↔ OutputsApart c.env selects align) := by
  subst hrun
  obtain ⟨-, hkept⟩ := Compilation.kept_of_run kept_aligned hresolved
  obtain ⟨node, -, haligned⟩ := exists_mem_of_forall₂ hkept hst
  obtain ⟨parts, hparts, rfl⟩ := DuckDb.generate_multiSelect_eq_ok.mp hplan
  refine ⟨haligned, parts, _, rfl, hparts, DuckDb.printMerge_eq parts _, ?_,
    readsOnce_alignColumn_iff hparts⟩
  rw [DuckDb.produced_of_references_iff, List.forall_mem_map]
  exact forall₂_congr fun item hitem => taken_produced_iff hparts (haligned item hitem)

/-- Two keys in one datasource, and a query. -/
def keysWith (query : String) : String :=
  "key a int;\nkey b int;\ndatasource d (a, b) address d;\n" ++ query

/-- A merge that is planned, found by computing it. -/
theorem Compilation.exists_merge (query : String)
    (check : Environment → List Select → List AlignItem → List Plan → List AlignColumn → Bool)
    (h : ∃ tree, parse (keysWith query) = .ok tree ∧
      (fun c : Compilation => some (c.error, c.statements.any fun st => match st with
        | .multiSelect selects align line =>
          (DuckDb.dialect.generate c.env [.multiSelect selects align line]).toOption.any
            fun forms => match forms with
              | [.multiSelect parts columns] => check c.env selects align parts columns
              | _ => false
        | _ => false))
        (Compilation.run (compileModule (Library.mk [] id).load 0 []) .initial
          (keysWith query) tree) = some (none, true)) :
    ∃ tree c, parse (keysWith query) = .ok tree ∧
      Compilation.run (compileModule (Library.mk [] id).load 0 []) .initial
        (keysWith query) tree = c ∧
      c.error = none ∧ ∃ selects align line, .multiSelect selects align line ∈ c.statements ∧
        ∃ parts columns, DuckDb.dialect.generate c.env [.multiSelect selects align line] =
            .ok [.multiSelect parts columns] ∧
          check c.env selects align parts columns = true := by
  obtain ⟨tree, hparse, hcomputed⟩ := h
  obtain ⟨hresolved, hstatements⟩ := Prod.mk.inj (Option.some.inj hcomputed)
  obtain ⟨st, hst, hmerge⟩ := List.any_eq_true.mp hstatements
  split at hmerge
  · rename_i selects align line
    obtain ⟨forms, hforms, hcheck⟩ := exists_of_any hmerge
    split at hcheck
    · exact ⟨tree, _, hparse, rfl, hresolved, selects, align, line, hst, _, _, hforms, hcheck⟩
    · cases hcheck
  · cases hmerge

/-- What is written to merge a select of `a` and `b` with one of `a`. -/
def alignedOnA : String :=
  "SELECT\n    coalesce(\"q0\".\"a\", \"q1\".\"a\") AS \"x\",\n    \"q0\".\"b\"\n" ++
    "FROM\n    \"q0\"\n    FULL JOIN \"q1\" ON \"q0\".\"a\" = \"q1\".\"a\""

/-- Two selects that both give out `a`, aligned on it. -/
theorem Compilation.merge_reads_iff_shared :
    ∃ tree c, parse (keysWith "select a, b\nmerge select a\nalign x: a, a;") = .ok tree ∧
      Compilation.run (compileModule (Library.mk [] id).load 0 []) .initial
        (keysWith "select a, b\nmerge select a\nalign x: a, a;") tree = c ∧
      c.error = none ∧ ∃ selects align line, .multiSelect selects align line ∈ c.statements ∧
        ∃ parts columns, DuckDb.dialect.generate c.env [.multiSelect selects align line] =
            .ok [.multiSelect parts columns] ∧
          DuckDb.outerQuery parts columns = alignedOnA ∧
          (∀ ref ∈ Sql.references (DuckDb.outerQuery parts columns).toList,
            DuckDb.Produced parts ref) ∧
          DuckDb.ReadsOnce parts columns := by
  obtain ⟨tree, c, hparse, hrun, hresolved, selects, align, line, hst, parts, columns, hplan,
    hcheck⟩ := Compilation.exists_merge "select a, b\nmerge select a\nalign x: a, a;"
      (fun env selects align parts columns => decide (
        DuckDb.outerQuery parts columns = alignedOnA ∧
        (∀ item ∈ align, item.Shown env selects) ∧ OutputsApart env selects align))
      (by apply exists_tree; decide +kernel)
  obtain ⟨htext, hselected, happart⟩ := of_decide_eq_true hcheck
  obtain ⟨-, parts', columns', hforms, -, -, hproduced, honce⟩ :=
    Compilation.merge_reads_iff hrun hresolved hst hplan
  obtain ⟨rfl, rfl⟩ := Form.multiSelect.inj (List.cons.inj hforms).1
  exact ⟨tree, c, hparse, hrun, hresolved, selects, align, line, hst, parts, columns, hplan, htext,
    hproduced.mpr hselected, honce.mpr happart⟩

/-- What is written to merge a select of `a` with one of `b`, each aligned on the other one's. -/
def alignedCrosswise : String :=
  "SELECT\n    coalesce(\"q0\".\"b\", \"q1\".\"a\") AS \"x\",\n    \"q0\".\"a\",\n" ++
    "    \"q1\".\"b\"\nFROM\n    \"q0\"\n    FULL JOIN \"q1\" ON \"q0\".\"b\" = \"q1\".\"a\""

/-- Each align item has a concept for each select, but none that this select gives out: the
outer query reads two columns that are not there. -/
theorem Compilation.merge_reads_missing :
    ∃ tree c, parse (keysWith "select a\nmerge select b\nalign x: b, a;") = .ok tree ∧
      Compilation.run (compileModule (Library.mk [] id).load 0 []) .initial
        (keysWith "select a\nmerge select b\nalign x: b, a;") tree = c ∧
      c.error = none ∧ ∃ selects align line, .multiSelect selects align line ∈ c.statements ∧
        ∃ parts columns, DuckDb.dialect.generate c.env [.multiSelect selects align line] =
            .ok [.multiSelect parts columns] ∧
          parts.map (fun part => part.columns.map OutputColumn.name) = [["a"], ["b"]] ∧
          DuckDb.outerQuery parts columns = alignedCrosswise ∧
          ("q0", "b") ∈ Sql.references (DuckDb.outerQuery parts columns).toList ∧
          ¬ DuckDb.Produced parts ("q0", "b") := by
  obtain ⟨tree, c, hparse, hrun, hresolved, selects, align, line, hst, parts, columns, hplan,
    hcheck⟩ := Compilation.exists_merge "select a\nmerge select b\nalign x: b, a;"
      (fun _ _ _ parts columns => decide (
        parts.map (fun part => part.columns.map OutputColumn.name) = [["a"], ["b"]] ∧
        DuckDb.outerQuery parts columns = alignedCrosswise))
      (by apply exists_tree; decide +kernel)
  obtain ⟨hnames, htext⟩ := of_decide_eq_true hcheck
  refine ⟨tree, c, hparse, hrun, hresolved, selects, align, line, hst, parts, columns, hplan,
    hnames, htext, ?_, ?_⟩
  · rw [htext]
    decide +kernel
  · intro hproduced
    have hzero : ("q0", "b") = (DuckDb.partAlias 0, "b") := by decide
    rw [hzero] at hproduced
    obtain ⟨part, hpart, hname⟩ := DuckDb.produced_iff.mp hproduced
    have hfirst := congrArg (fun names => names[0]?) hnames
    simp only [List.getElem?_map, hpart, Option.map_some] at hfirst
    rw [Option.some.inj hfirst] at hname
    exact absurd hname (by decide)

end ConceptQuery
