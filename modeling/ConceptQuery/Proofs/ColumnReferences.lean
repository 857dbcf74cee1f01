import ConceptQuery.Proofs.Regrouping

/-! # The columns that a text refers to

A column is written as two names in double quotes with a dot between them.
`Sql.references` finds all columns in a text, passing over names by themselves and text
in single quotes. Pieces of a text are found one after the other (`Finds`), so what an
expression refers to are the columns of the concepts that are read for it:
`Plan.Scope.refers_of_exprSql`.
-/
namespace ConceptQuery

namespace Sql

section Reader

/-- A name in double quotes at the front of a text, and what follows it. -/
def quotedName? : List Char → Option (String × List Char)
  | '"' :: rest => (readQuoted '"' rest).map fun read => (String.ofList read.1, read.2)
  | _ => none

/-- Two such names with a dot between them. -/
def qualified? (text : List Char) : Option ((String × String) × List Char) :=
  match quotedName? text with
  | some (source, '.' :: rest) => (quotedName? rest).map fun read => ((source, read.1), read.2)
  | _ => none

/-- What follows a character that starts no column: a quote takes the text up to the
quote that ends it along. -/
def pass (c : Char) (rest : List Char) : List Char :=
  if isQuote c then ((readQuoted c rest).map Prod.snd).getD rest else rest

/-- The column at the front of a text, if there is one there, and what follows. -/
def cutReference (c : Char) (rest : List Char) : Option (String × String) × List Char :=
  match qualified? (c :: rest) with
  | some (ref, after) => (some ref, after)
  | none => (none, pass c rest)

/-- The columns in a text; every round of `fuel` passes a character. -/
def referencesWithin : (fuel : Nat) → List Char → List (String × String)
  | 0, _ => []
  | _ + 1, [] => []
  | fuel + 1, c :: rest =>
    (cutReference c rest).1.toList ++ referencesWithin fuel (cutReference c rest).2

/-- The columns in a text, each with its source, in order. -/
def references (text : List Char) : List (String × String) :=
  referencesWithin text.length text

theorem length_readQuoted {quote : Char} {text : List Char} {read : List Char × List Char}
    (h : readQuoted quote text = some read) : read.2.length < text.length := by
  fun_induction readQuoted quote text generalizing read with
  | case1 => cases h
  | case2 => cases h; simp
  | case3 => cases h
  | case4 c c' rest hc ih =>
    obtain ⟨inner, hinner, rfl⟩ := Option.map_eq_some_iff.mp h
    have := ih hinner
    simp only [List.length_cons] at this ⊢
    omega
  | case5 => cases h; simp
  | case6 c c' rest hc hc' ih =>
    obtain ⟨inner, hinner, rfl⟩ := Option.map_eq_some_iff.mp h
    have := ih hinner
    simp only [List.length_cons]
    omega

theorem length_quotedName? {text : List Char} {read : String × List Char}
    (h : quotedName? text = some read) : read.2.length < text.length := by
  unfold quotedName? at h
  split at h
  · obtain ⟨inner, hinner, rfl⟩ := Option.map_eq_some_iff.mp h
    exact (length_readQuoted hinner).trans (Nat.lt_succ_self _)
  · cases h

theorem length_cutReference (c : Char) (rest : List Char) :
    (cutReference c rest).2.length ≤ rest.length := by
  unfold cutReference
  split
  · rename_i ref after h
    unfold qualified? at h
    split at h
    · rename_i source inner hsource
      obtain ⟨read, hread, hresult⟩ := Option.map_eq_some_iff.mp h
      obtain ⟨-, rfl⟩ := Prod.mk.inj hresult
      have hfirst := length_quotedName? hsource
      have hsecond := length_quotedName? hread
      simp only [List.length_cons] at hfirst hsecond
      dsimp only
      omega
    · cases h
  · unfold pass
    split
    · cases h : readQuoted c rest with
      | none => exact le_rfl
      | some read => exact (length_readQuoted h).le
    · exact le_rfl

theorem referencesWithin_eq {text : List Char} {n m : Nat} (hn : text.length ≤ n)
    (hm : text.length ≤ m) : referencesWithin n text = referencesWithin m text := by
  induction n generalizing text m with
  | zero =>
    obtain rfl := List.length_eq_zero_iff.mp (Nat.le_zero.mp hn)
    cases m <;> rfl
  | succ n ih =>
    cases text with
    | nil => cases m <;> rfl
    | cons c rest =>
      rw [List.length_cons] at hn hm
      obtain ⟨m, rfl⟩ : ∃ k, m = k + 1 := ⟨m - 1, by omega⟩
      have hlength := length_cutReference c rest
      rw [referencesWithin, referencesWithin, ih (m := m) (by omega) (by omega)]

theorem references_cons (c : Char) (rest : List Char) : references (c :: rest) =
    (cutReference c rest).1.toList ++ references (cutReference c rest).2 := by
  rw [references, List.length_cons, referencesWithin,
    referencesWithin_eq (length_cutReference c rest) le_rfl]
  rfl

theorem references_cons_of_not_quote {c : Char} (h : isQuote c = false) (rest : List Char) :
    references (c :: rest) = references rest := by
  have hc : c ≠ '"' := by
    rintro rfl
    exact absurd h (by decide)
  have hnone : qualified? (c :: rest) = none := by
    simp [qualified?, quotedName?, hc]
  rw [references_cons, cutReference, hnone, pass, h]
  rfl

end Reader

section Pieces

/-- In a text that goes on as asked, these columns are found. -/
def Finds (follow : List Char → Prop) (text : List Char) (refs : List (String × String)) : Prop :=
  ∀ rest, follow rest → references (text ++ rest) = refs ++ references rest

/-- Text without quotes. -/
def Quoteless (text : List Char) : Prop :=
  ∀ c ∈ text, isQuote c = false

instance (text : List Char) : Decidable (Quoteless text) :=
  List.decidableBAll (fun c => isQuote c = false) text

variable {follow follow' : List Char → Prop} {text text' : List Char}
  {refs refs' : List (String × String)}

theorem quoteless_append : Quoteless (text ++ text') ↔ Quoteless text ∧ Quoteless text' :=
  List.forall_mem_append

theorem Finds.append (h : Finds follow text refs) (h' : Finds follow' text' refs')
    (hfollow : ∀ rest, follow' rest → follow (text' ++ rest)) :
    Finds follow' (text ++ text') (refs ++ refs') := by
  intro rest hrest
  rw [List.append_assoc, h _ (hfollow rest hrest), h' rest hrest, List.append_assoc]

theorem Finds.breaking (h : Finds Any text refs) : Finds Breaks text refs :=
  fun rest _ => h rest trivial

theorem Finds.references_eq (h : Finds Breaks text refs) : references text = refs := by
  have hall := h [] (by simp [Breaks])
  rw [List.append_nil] at hall
  exact hall.trans (List.append_nil refs)

theorem finds_quoteless (h : Quoteless text) : Finds Any text [] := by
  intro rest _
  induction text with
  | nil => rfl
  | cons c text ih =>
    rw [List.cons_append, references_cons_of_not_quote (h c List.mem_cons_self)]
    exact ih fun c hc => h c (List.mem_cons_of_mem _ hc)

theorem Breaks.head?_ne {rest : List Char} (h : Breaks rest) {c : Char}
    (hc : (isQuote c || continuesWord c) = true) : rest.head? ≠ some c := by
  intro hhead
  rw [h c hhead] at hc
  cases hc

theorem quotedName?_doubled (name : String) {rest : List Char} (h : rest.head? ≠ some '"') :
    quotedName? ('"' :: (doubled '"' name.toList ++ '"' :: rest)) = some (name, rest) := by
  rw [quotedName?, readQuoted_doubled h]
  simp

theorem toList_quoteName (name : String) :
    (quoteName name).toList = '"' :: (doubled '"' name.toList ++ ['"']) := by
  simp [quoteName, quoted]

/-- A name by itself is no column. -/
theorem finds_quoteName (name : String) : Finds Breaks (quoteName name).toList [] := by
  intro rest hrest
  have hquote : rest.head? ≠ some '"' := hrest.head?_ne (by decide)
  have hdot : rest.head? ≠ some '.' := hrest.head?_ne (by decide)
  have hnone : qualified? ('"' :: (doubled '"' name.toList ++ '"' :: rest)) = none := by
    rw [qualified?, quotedName?_doubled name hquote]
    split
    · rename_i hread
      rw [(Prod.mk.inj (Option.some.inj hread)).2] at hdot
      exact absurd rfl hdot
    · rfl
  rw [toList_quoteName, List.cons_append, List.append_assoc, List.singleton_append,
    references_cons, cutReference, hnone, pass, if_pos (by decide), readQuoted_doubled hquote]
  rfl

theorem finds_columnRef (source column : String) :
    Finds Breaks (columnRef source column).toList [(source, column)] := by
  intro rest hrest
  have hquote : rest.head? ≠ some '"' := hrest.head?_ne (by decide)
  have hsome : qualified? ('"' :: (doubled '"' source.toList ++ '"' :: '.' :: '"' ::
      (doubled '"' column.toList ++ '"' :: rest))) = some ((source, column), rest) := by
    rw [qualified?, quotedName?_doubled source (by simp)]
    simp only [quotedName?_doubled column hquote, Option.map_some]
  rw [toList_columnRef]
  simp only [List.cons_append, List.append_assoc, List.nil_append]
  rw [references_cons, cutReference, hsome]
  rfl

theorem finds_literal (text : String) : Finds Breaks (quoted '\'' text).toList [] := by
  intro rest hrest
  have hquote : rest.head? ≠ some '\'' := hrest.head?_ne (by decide)
  have hnone : qualified? ('\'' :: (doubled '\'' text.toList ++ '\'' :: rest)) = none := by
    simp [qualified?, quotedName?]
  have htext : (quoted '\'' text).toList ++ rest =
      '\'' :: (doubled '\'' text.toList ++ '\'' :: rest) := by
    simp [quoted]
  rw [htext, references_cons, cutReference, hnone, pass, if_pos (by decide),
    readQuoted_doubled hquote]
  rfl

end Pieces

section Tails
variable {text tail : List Char}

theorem Quoteless.head?_ne (h : Quoteless tail) {quote : Char} (hquote : isQuote quote = true) :
    tail.head? ≠ some quote := by
  intro hhead
  rw [h quote (List.mem_of_mem_head? hhead)] at hquote
  cases hquote

theorem Quoteless.readQuoted_eq_none (h : Quoteless tail) {quote : Char}
    (hquote : isQuote quote = true) : readQuoted quote tail = none := by
  induction tail with
  | nil => rfl
  | cons c tail ih =>
    have hc : c ≠ quote := fun heq => h.head?_ne hquote (congrArg some heq)
    rw [readQuoted_of_ne hc, ih fun c hc => h c (List.mem_cons_of_mem _ hc)]
    rfl

theorem readQuoted_append {quote : Char} (hquote : isQuote quote = true) (h : Quoteless tail) :
    readQuoted quote (text ++ tail) =
      (readQuoted quote text).map fun read => (read.1, read.2 ++ tail) := by
  have hhead := h.head?_ne hquote
  fun_induction readQuoted quote text with
  | case1 => exact h.readQuoted_eq_none hquote
  | case2 =>
    cases tail with
    | nil => simp [readQuoted]
    | cons c tail =>
      have hc : c ≠ quote := fun heq => hhead (congrArg some heq)
      simp [readQuoted, hc]
  | case3 c hc =>
    rw [List.singleton_append, readQuoted_of_ne hc, h.readQuoted_eq_none hquote]
    rfl
  | case4 c c' rest hc ih =>
    rw [List.cons_append, readQuoted_of_ne hc, ih]
    simp [Option.map_map, Function.comp_def]
  | case5 c c' rest hc hc' =>
    obtain rfl := not_not.mp hc
    simp [readQuoted, hc']
  | case6 c c' rest hc hc' ih =>
    obtain rfl := not_not.mp hc
    obtain rfl := not_not.mp hc'
    simp [readQuoted, ih, Option.map_map, Function.comp_def]

theorem quotedName?_of_ne {c : Char} (h : c ≠ '"') (rest : List Char) :
    quotedName? (c :: rest) = none := by
  simp [quotedName?, h]

theorem Quoteless.quotedName?_eq_none (h : Quoteless tail) : quotedName? tail = none := by
  cases tail with
  | nil => rfl
  | cons c rest =>
    have hc : c ≠ '"' := fun hc => h.head?_ne (by decide) (congrArg some hc)
    exact quotedName?_of_ne hc rest

theorem quotedName?_append (h : Quoteless tail) : quotedName? (text ++ tail) =
    (quotedName? text).map fun read => (read.1, read.2 ++ tail) := by
  cases text with
  | nil => exact h.quotedName?_eq_none
  | cons c rest =>
    by_cases hc : c = '"'
    · subst hc
      rw [List.cons_append, quotedName?, quotedName?, readQuoted_append (by decide) h]
      simp [Option.map_map, Function.comp_def]
    · rw [List.cons_append, quotedName?_of_ne hc, quotedName?_of_ne hc]
      rfl

theorem qualified?_append (h : Quoteless tail) : qualified? (text ++ tail) =
    (qualified? text).map fun read => (read.1, read.2 ++ tail) := by
  rw [qualified?, qualified?, quotedName?_append h]
  cases quotedName? text with
  | none => rfl
  | some read =>
    obtain ⟨source, rest⟩ := read
    cases rest with
    | nil =>
      cases tail with
      | nil => rfl
      | cons c tail =>
        have hnone : quotedName? tail = none :=
          Quoteless.quotedName?_eq_none fun c hc => h c (List.mem_cons_of_mem _ hc)
        by_cases hc : c = '.' <;> simp [hc, hnone]
    | cons c rest =>
      by_cases hc : c = '.'
      · subst hc
        simp [quotedName?_append h, Option.map_map, Function.comp_def]
      · simp [hc]

theorem cutReference_append (h : Quoteless tail) (c : Char) (rest : List Char) :
    cutReference c (rest ++ tail) =
      ((cutReference c rest).1, (cutReference c rest).2 ++ tail) := by
  have hpass : pass c (rest ++ tail) = pass c rest ++ tail := by
    unfold pass
    split
    · rename_i hc
      rw [readQuoted_append hc h]
      cases readQuoted c rest <;> rfl
    · rfl
  -- a quote that nothing ends is passed, and so it is if nothing behind the text ends it
  rw [cutReference, cutReference, ← List.cons_append, qualified?_append h]
  cases qualified? (c :: rest) with
  | none => exact Prod.ext rfl hpass
  | some read => rfl

/-- Text without quotes behind a text adds no columns. -/
theorem references_append (h : Quoteless tail) : references (text ++ tail) = references text := by
  induction hlength : text.length using Nat.strong_induction_on generalizing text with
  | _ n ih =>
    cases text with
    | nil => simpa [references, referencesWithin] using finds_quoteless h [] trivial
    | cons c rest =>
      have hshorter : (cutReference c rest).2.length < n := by
        rw [← hlength, List.length_cons]
        exact Nat.lt_succ_of_le (length_cutReference c rest)
      rw [List.cons_append, references_cons, references_cons, cutReference_append h,
        ih _ hshorter rfl]

end Tails

section Lists
variable {texts : List String} {refss : List (List (String × String))} {α : Type}

/-- In each of the texts these columns are found. -/
abbrev FindsEach : List String → List (List (String × String)) → Prop :=
  List.Forall₂ fun text refs => Finds Breaks text.toList refs

theorem findsEach_map {xs : List α} {f : α → String} {g : α → List (String × String)}
    (h : ∀ x ∈ xs, Finds Breaks (f x).toList (g x)) : FindsEach (xs.map f) (xs.map g) := by
  rw [FindsEach, List.forall₂_map_left_iff, List.forall₂_map_right_iff, List.forall₂_same]
  exact h

theorem finds_intercalate {separator : String} (hquotes : Quoteless separator.toList)
    (hbreaks : ∀ rest, Breaks (separator.toList ++ rest)) (h : FindsEach texts refss) :
    Finds Breaks (separator.intercalate texts).toList refss.flatten := by
  induction h with
  | nil => exact (finds_quoteless (by simp [Quoteless])).breaking
  | @cons text refs texts refss hfirst hrest ih =>
    cases hrest with
    | nil => simpa using hfirst
    | cons hnext hmore =>
      rw [String.intercalate_cons_cons, String.append_assoc, String.toList_append,
        String.toList_append]
      exact hfirst.append ((finds_quoteless hquotes).append ih fun _ _ => trivial) fun rest _ => by
        rw [List.append_assoc]
        exact hbreaks _

theorem finds_listLines (h : FindsEach texts refss) :
    Finds Any (DuckDb.listLines texts).toList refss.flatten := by
  have hindent : Quoteless DuckDb.indent.toList := by decide
  induction h with
  | nil => exact finds_quoteless (by decide)
  | @cons text refs texts refss hfirst hrest ih =>
    have hfront := (finds_quoteless hindent).append hfirst fun _ _ => trivial
    cases hrest with
    | nil =>
      have hend : Finds Any ['\n'] [] := finds_quoteless (by decide)
      simpa [DuckDb.listLines] using hfront.append hend fun rest _ => breaks_cons (by decide) rest
    | cons hnext hmore =>
      have hcomma : Finds Any [',', '\n'] [] := finds_quoteless (by decide)
      have hrest := hcomma.append ih fun _ _ => trivial
      simpa [DuckDb.listLines] using hfront.append hrest fun rest _ => breaks_cons (by decide) _

theorem finds_join {xs : List α} {f : α → String} {g : α → List (String × String)}
    (h : ∀ x ∈ xs, Finds Any (f x).toList (g x)) :
    Finds Any (String.join (xs.map f)).toList (xs.flatMap g) := by
  induction xs with
  | nil => exact finds_quoteless (by simp [Quoteless])
  | cons x xs ih =>
    rw [List.map_cons, String.join_cons, String.toList_append, List.flatMap_cons]
    exact (h x List.mem_cons_self).append (ih fun y hy => h y (List.mem_cons_of_mem x hy))
      fun _ _ => trivial

end Lists

section Terms
variable {good : String × String → Prop}

/-- All columns that are found in a text are good. -/
def Refers (good : String × String → Prop) (follow : List Char → Prop) (text : List Char) : Prop :=
  ∃ refs, Finds follow text refs ∧ ∀ ref ∈ refs, good ref

variable {follow follow' : List Char → Prop} {text text' : List Char}

theorem Refers.append (h : Refers good follow text) (h' : Refers good follow' text')
    (hfollow : ∀ rest, follow' rest → follow (text' ++ rest)) :
    Refers good follow' (text ++ text') := by
  obtain ⟨refs, hrefs, hgood⟩ := h
  obtain ⟨refs', hrefs', hgood'⟩ := h'
  exact ⟨refs ++ refs', hrefs.append hrefs' hfollow,
    List.forall_mem_append.mpr ⟨hgood, hgood'⟩⟩

theorem Refers.breaking (h : Refers good Any text) : Refers good Breaks text := by
  obtain ⟨refs, hrefs, hgood⟩ := h
  exact ⟨refs, hrefs.breaking, hgood⟩

theorem Refers.forall_references (h : Refers good Breaks text) :
    ∀ ref ∈ references text, good ref := by
  obtain ⟨refs, hrefs, hgood⟩ := h
  rw [hrefs.references_eq]
  exact hgood

theorem refers_quoteless (h : Quoteless text) : Refers good Any text :=
  ⟨[], finds_quoteless h, by simp⟩

def Head.Quoteless : Head → Prop
  | .named function => Sql.Quoteless function.toList
  | .distinct | .cases => True

mutual
/-- All columns in the values of a term are good, and its functions have no quotes. -/
def Term.Cites (good : String × String → Prop) : Term → Prop
  | .atom text => Refers good Breaks text.toList
  | .nullary function => Quoteless function.toList
  | .call head arguments => head.Quoteless ∧ arguments.Cites good
  | .binary _ lhs rhs => lhs.Cites good ∧ rhs.Cites good
  | .unary _ operand | .isNull operand _ | .paren operand => operand.Cites good
  | .inList operand items _ => operand.Cites good ∧ items.Cites good

def Arguments.Cites (good : String × String → Prop) : Arguments → Prop
  | .last value => value.Cites good
  | .cons value separator more =>
    value.Cites good ∧ separator ∈ dividers ∧ more.Cites good
end

theorem quoteless_operator (op : BinaryOp) : Quoteless (' ' :: (op.sql.toList ++ [' '])) := by
  cases op <;> decide

theorem quoteless_front {head : Head} (h : head.Quoteless) : Quoteless head.front.toList := by
  cases head with
  | named function =>
    have hfunction : Quoteless function.toList := h
    rw [Head.front, String.toList_append]
    exact quoteless_append.mpr ⟨hfunction, by decide⟩
  | distinct => decide
  | cases => decide

theorem quoteless_back (head : Head) : Quoteless head.back.toList := by
  cases head with
  | named function => exact (by decide : Quoteless ")".toList)
  | distinct => decide
  | cases => decide

theorem quoteless_spread {separator : String} (h : separator ∈ dividers) :
    Quoteless (spread separator) := by
  have hall : ∀ separator ∈ dividers, Quoteless (spread separator) := by decide
  exact hall separator h

mutual
theorem Term.refers_chars (t : Term) (h : t.Cites good) : Refers good Breaks t.chars := by
  cases t with
  | atom text => exact h
  | nullary function =>
    have hfunction : Quoteless function.toList := h
    exact (refers_quoteless (quoteless_append.mpr ⟨hfunction, by decide⟩)).breaking
  | call head arguments =>
    have hback : Refers good Breaks head.back.toList :=
      (refers_quoteless (quoteless_back head)).breaking
    have harguments := (arguments.refers_chars h.2).append hback
      fun rest _ => (scans_back head).2 rest
    exact (refers_quoteless (quoteless_front h.1)).append harguments fun _ _ => trivial
  | binary op lhs rhs =>
    have hright := (refers_quoteless (quoteless_operator op)).append (rhs.refers_chars h.2)
      fun _ _ => trivial
    exact (lhs.refers_chars h.1).append hright fun rest _ => breaks_blank _
  | unary op operand =>
    cases op with
    | not =>
      exact (refers_quoteless (by decide)).append (operand.refers_chars h) fun _ _ => trivial
    | neg =>
      have hminus : Refers good Any ['-'] := refers_quoteless (by decide)
      exact hminus.append (operand.refers_chars h) fun _ _ => trivial
  | isNull operand negated =>
    have htest : Refers good Breaks (if negated then " IS NOT NULL" else " IS NULL").toList := by
      cases negated <;> exact (refers_quoteless (by decide)).breaking
    exact (operand.refers_chars h).append htest fun rest _ => by
      cases negated <;> exact breaks_blank _
  | inList operand items negated =>
    have hclose : Refers good Any [')'] := refers_quoteless (by decide)
    have hitems := (items.refers_chars h.2).append hclose.breaking fun rest _ => breaks_close rest
    have htest : Refers good Any (if negated then " NOT IN (" else " IN (").toList := by
      cases negated <;> exact refers_quoteless (by decide)
    exact (operand.refers_chars h.1).append (htest.append hitems fun _ _ => trivial)
      fun rest _ => by cases negated <;> exact breaks_blank _
  | paren inner =>
    have hopen : Refers good Any ['('] := refers_quoteless (by decide)
    have hclose : Refers good Any [')'] := refers_quoteless (by decide)
    have hinner := (inner.refers_chars h).append hclose.breaking fun rest _ => breaks_close rest
    exact hopen.append hinner fun _ _ => trivial

theorem Arguments.refers_chars (a : Arguments) (h : a.Cites good) : Refers good Breaks a.chars := by
  cases a with
  | last value => exact value.refers_chars h
  | cons value separator more =>
    have hmore := (refers_quoteless (quoteless_spread h.2.1)).append (more.refers_chars h.2.2)
      fun _ _ => trivial
    exact (value.refers_chars h.1).append hmore fun rest _ => by
      rw [List.append_assoc]
      exact (scans_spread h.2.1).2 _
end

theorem Arguments.cites_iff {a : Arguments} : a.Cites good ↔
    (∀ t ∈ a.terms, t.Cites good) ∧ ∀ word ∈ a.dividers, word ∈ Sql.dividers := by
  induction a using terms.induct with
  | case1 value => simp [Cites, terms, dividers]
  | case2 value separator more ih =>
    simp only [Cites, terms, dividers, List.forall_mem_cons, ih]
    tauto

theorem cites_callTerm {function : String} {ts : List Term} (hfunction : function ∈ Function.known)
    (h : ∀ t ∈ ts, t.Cites good) : (callTerm function ts).Cites good := by
  have hknown : ∀ name ∈ Function.known, Quoteless (calledAs name).toList := by decide
  obtain ⟨-, a, b, rfl, heq⟩ | ⟨-, word, hword, heq⟩ | ⟨-, heq⟩ |
    ⟨head, a, heq, rfl, hdividers, hhead⟩ := callTerm_cases function ts
  · rw [heq]
    exact ⟨h a (by simp), h b (by simp)⟩
  · rw [heq]
    have hwords : ∀ word ∈ ["current_date", "current_timestamp"], Quoteless word.toList := by decide
    exact (refers_quoteless (hwords word hword)).breaking
  · rw [heq]
    exact hknown function hfunction
  · rw [heq]
    refine ⟨?_, Arguments.cites_iff.mpr ⟨h, fun word hword =>
      head.separators_dividers word (hdividers word hword)⟩⟩
    rcases hhead with rfl | hhead
    · exact hknown function hfunction
    · simp only [List.mem_cons, List.not_mem_nil, or_false] at hhead
      rcases hhead with rfl | rfl | rfl | rfl
      · exact (by decide : Quoteless "count".toList)
      · exact (by decide : Quoteless "CAST".toList)
      · trivial
      · trivial

theorem not_isQuote_numeral {c : Char} (h : Lexer.isDigit c = true ∨ c = '.') :
    isQuote c = false := by
  rw [Bool.eq_false_iff]
  intro hquote
  simp only [isQuote, Bool.or_eq_true, decide_eq_true_eq] at hquote
  rcases hquote with rfl | rfl <;> exact absurd h (by decide)

theorem cites_literal {value : Literal} (h : value.Formed) :
    Refers good Breaks (Plan.literalSql value).toList := by
  cases value with
  | number text =>
    have hnumeral : IsNumeral text.toList := h
    exact (refers_quoteless fun c hc => not_isQuote_numeral (hnumeral.2 c hc)).breaking
  | string text => exact ⟨[], finds_literal text, by simp⟩
  | bool value => cases value <;> exact (refers_quoteless (by decide)).breaking
  | null => exact (refers_quoteless (by decide)).breaking

theorem cites_members {ts : List Term} (h : ts ≠ []) (hts : ∀ t ∈ ts, t.Cites good) :
    (members ts).Cites good := by
  obtain ⟨t, ts, rfl⟩ := List.exists_cons_of_ne_nil h
  obtain ⟨hterms, hdividers⟩ := terms_listed t ts
  rw [members, Arguments.cites_iff, hterms]
  refine ⟨hts, fun word hword => ?_⟩
  rw [hdividers word hword]
  decide

end Terms

end Sql

open Sql

/-- If the columns in the parts of a formed expression are good, so are those in the whole. -/
theorem Expr.cites_term_of_parts {good : String × String → Prop} {f : String → Term} {e : Expr}
    (he : ∀ a, e ≠ .concept a) (h : e.Formed) (hparts : ∀ x ∈ e.parts, (x.term f).Cites good) :
    (e.term f).Cites good := by
  have hterms : ∀ es : List Expr, (∀ x ∈ es, (x.term f).Cites good) →
      ∀ t ∈ terms f es, t.Cites good := by
    intro es hes t ht
    rw [terms_eq_map] at ht
    obtain ⟨x, hx, rfl⟩ := List.mem_map.mp ht
    exact hes x hx
  cases e with
  | concept a => exact absurd rfl (he a)
  | literal value => exact cites_literal h
  | type datatype => cases datatype <;> exact (refers_quoteless (by decide)).breaking
  | call function arguments => exact cites_callTerm h.1 (hterms arguments hparts)
  | binary op lhs rhs => exact ⟨hparts lhs (by simp [parts]), hparts rhs (by simp [parts])⟩
  | unary op operand => exact hparts operand (by simp [parts])
  | isNull operand negated => exact hparts operand (by simp [parts])
  | inList operand items negated =>
    have hitems := hterms items fun x hx => hparts x (List.mem_cons_of_mem operand hx)
    exact ⟨hparts operand (by simp [parts]),
      cites_members (by simpa [terms_eq_map] using h.2.2.1) hitems⟩
  | paren inner => exact hparts inner (by simp [parts])

namespace Plan.Scope
variable {scope : Scope} {good : String × String → Prop} {e : Expr} {sql : String}

theorem cites_enclosed (lineage : Expr) (t : Term) :
    (enclosed lineage t).Cites good ↔ t.Cites good := by
  cases lineage <;> rfl

theorem cites_term (henv : scope.env.Formed)
    (hcolumns : ∀ a text, scope.bindings.get? a = some text → Refers good Breaks text.toList)
    (he : e.Formed) (h : scope.exprSql e = .ok sql) : (scope.term e).Cites good := by
  refine induction_on_lineage (P := fun e => e.Formed → (scope.term e).Cites good) ?_ ?_ ?_ h he
  · intro a text hread _
    rw [term, Expr.term, termWithin_read hread]
    exact hcolumns a text hread
  · intro a c lineage hfree hc hl hterm ih _
    rw [hterm, cites_enclosed]
    exact ih (henv a c hc lineage hl)
  · intro e hne ih hformed
    exact Expr.cites_term_of_parts hne hformed fun x hx => ih x hx (Expr.formed_part hformed hx)

/-- An expression refers to the columns of the concepts that are read for it, and to no other. -/
theorem refers_of_exprSql (hcall : scope.call = DuckDb.call) (henv : scope.env.Formed)
    (hcolumns : ∀ a text, scope.bindings.get? a = some text → Refers good Breaks text.toList)
    (he : e.Formed) (h : scope.exprSql e = .ok sql) : Refers good Breaks sql.toList := by
  have htext : sql.toList = (scope.term e).chars := by
    refine Expr.toList_exprSql (fun a sql ha => toList_conceptSqlWithin hcall ha) e ?_
    rw [← hcall]
    exact h
  rw [htext]
  exact (scope.term e).refers_chars (cites_term henv hcolumns he h)

end Plan.Scope

end ConceptQuery
