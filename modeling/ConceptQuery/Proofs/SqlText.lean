import ConceptQuery.Proofs.SqlOperations
import ConceptQuery.Proofs.Quoting
import ConceptQuery.Token.Lexer

/-! # Written terms as text

A term is written with blanks around most of its words, and `Sql.scan` finds the words
again. Names, numbers and quoted text stick together, two minus signs start a comment.
So the words of a term are found in its text unless one minus is written right in front of
another. If it is, something is lost for good: fewer minus signs are found than were written,
and no grouping of what is left can make up for that.
-/
namespace ConceptQuery.Sql

section Scanner

def isQuote (c : Char) : Bool :=
  c = '"' || c = '\''

def continuesWord (c : Char) : Bool :=
  Lexer.continuesName c || c = '.'

/-- The rest of a word, inside a quoted part or outside, and what follows. -/
def wordTail : (quote : Option Char) → List Char → List Char × List Char
  | _, [] => ([], [])
  | none, c :: rest =>
    if isQuote c then
      let (piece, after) := wordTail (some c) rest
      (c :: piece, after)
    else if continuesWord c then
      let (piece, after) := wordTail none rest
      (c :: piece, after)
    else ([], c :: rest)
  | some quote, c :: rest =>
    let (piece, after) := wordTail (if c = quote then none else some quote) rest
    (c :: piece, after)

/-- Whether two characters are one operator. -/
def isPair (c : Char) (rest : List Char) : Bool :=
  (c = '!' || c = '<' || c = '>') && rest.head? = some '='

/-- The word at the front of a text, if there is one there, and what follows. -/
def cut (c : Char) (rest : List Char) : Option (List Char) × List Char :=
  if isQuote c || continuesWord c then
    let (piece, after) := wordTail none (c :: rest)
    (some piece, after)
  else if Lexer.isSpace c then (none, rest)
  else if c = '-' ∧ rest.head? = some '-' then (none, rest.dropWhile (· ≠ '\n'))
  else if isPair c rest then (some [c, '='], rest.tail)
  else (some [c], rest)

/-- The words of a text; every round of `fuel` passes a character. -/
def scanWithin : (fuel : Nat) → List Char → List String
  | 0, _ => []
  | _ + 1, [] => []
  | fuel + 1, c :: rest =>
    (cut c rest).1.toList.map String.ofList ++ scanWithin fuel (cut c rest).2

def scan (text : List Char) : List String :=
  scanWithin text.length text

/-- The operations that a text is read as. -/
def read (text : String) : Option Term :=
  (read? (scan text.toList)).map Term.bare

theorem wordTail_append (quote : Option Char) (text : List Char) :
    (wordTail quote text).1 ++ (wordTail quote text).2 = text := by
  fun_induction wordTail quote text <;> simp_all

theorem wordTail_cons {c : Char} (h : (isQuote c || continuesWord c) = true) (rest : List Char) :
    ∃ piece, (wordTail none (c :: rest)).1 = c :: piece := by
  rw [wordTail]
  split
  · exact ⟨_, rfl⟩
  · rename_i hquote
    rw [if_pos (by simpa [hquote] using h)]
    exact ⟨_, rfl⟩

/-- A cut takes a word off the text and at most drops what follows it. -/
theorem cut_append (c : Char) (rest : List Char) :
    ∃ dropped, (cut c rest).1.getD [] ++ (dropped ++ (cut c rest).2) = c :: rest ∧
      (cut c rest).2.length ≤ rest.length := by
  unfold cut
  split_ifs with hword hspace hcomment hpair
  · have happend := wordTail_append none (c :: rest)
    obtain ⟨piece, hpiece⟩ := wordTail_cons hword rest
    refine ⟨[], happend, ?_⟩
    have hlength := congrArg List.length happend
    rw [hpiece, List.length_append, List.length_cons, List.length_cons] at hlength
    dsimp only
    omega
  · exact ⟨[c], rfl, le_rfl⟩
  · refine ⟨c :: rest.takeWhile (· ≠ '\n'), ?_, List.length_dropWhile_le _ _⟩
    exact congrArg (c :: ·) List.takeWhile_append_dropWhile
  · simp only [isPair, Bool.and_eq_true, decide_eq_true_eq] at hpair
    obtain ⟨after, rfl⟩ := List.head?_eq_some_iff.mp hpair.2
    exact ⟨[], rfl, Nat.le_succ _⟩
  · exact ⟨[], rfl, le_rfl⟩

theorem scanWithin_eq {text : List Char} {n m : Nat} (hn : text.length ≤ n)
    (hm : text.length ≤ m) : scanWithin n text = scanWithin m text := by
  induction n generalizing text m with
  | zero =>
    obtain rfl := List.length_eq_zero_iff.mp (Nat.le_zero.mp hn)
    cases m <;> rfl
  | succ n ih =>
    cases text with
    | nil => cases m <;> rfl
    | cons c rest =>
      rw [List.length_cons] at hn hm
      obtain ⟨m, rfl⟩ : ∃ k, m = k + 1 := ⟨m - 1, by omega⟩
      obtain ⟨dropped, -, hlength⟩ := cut_append c rest
      rw [scanWithin, scanWithin, ih (m := m) (by omega) (by omega)]

theorem scan_cons (c : Char) (rest : List Char) : scan (c :: rest) =
    (cut c rest).1.toList.map String.ofList ++ scan (cut c rest).2 := by
  obtain ⟨dropped, -, hlength⟩ := cut_append c rest
  rw [scan, List.length_cons, scanWithin, scanWithin_eq hlength le_rfl]
  rfl

end Scanner

section Words

/-- Whether a text is the rest of one word, with all its quoted parts closed. -/
def closesWord : (quote : Option Char) → List Char → Bool
  | quote, [] => quote.isNone
  | none, c :: rest =>
    if isQuote c then closesWord (some c) rest else continuesWord c && closesWord none rest
  | some quote, c :: rest => closesWord (if c = quote then none else some quote) rest

/-- Text that is one word. -/
def IsWord (text : List Char) : Prop :=
  text ≠ [] ∧ closesWord none text = true

instance (text : List Char) : Decidable (IsWord text) :=
  inferInstanceAs (Decidable (_ ∧ _))

/-- Text that goes on with something else than the word before it. -/
def Breaks (text : List Char) : Prop :=
  ∀ c ∈ text.head?, (isQuote c || continuesWord c) = false

theorem wordTail_of_closes {quote : Option Char} {text rest : List Char}
    (h : closesWord quote text = true) (hrest : Breaks rest) :
    wordTail quote (text ++ rest) = (text, rest) := by
  fun_induction closesWord quote text with
  | case1 quote =>
    obtain rfl := Option.isNone_iff_eq_none.mp h
    cases rest with
    | nil => rfl
    | cons c rest =>
      have hc := Bool.or_eq_false_iff.mp (hrest c rfl)
      simp [wordTail, hc]
  | case2 c text hquote ih => simp [wordTail, hquote, ih h]
  | case3 c text hquote ih =>
    obtain ⟨hc, htext⟩ := Bool.and_eq_true_iff.mp h
    simp [wordTail, hquote, hc, ih htext]
  | case4 quote c text ih =>
    rw [List.cons_append, wordTail, ih h]

theorem closesWord_of_all {text : List Char} (h : ∀ c ∈ text, continuesWord c = true) :
    closesWord none text = true := by
  induction text with
  | nil => rfl
  | cons c text ih =>
    have hquote : isQuote c = false := by
      cases hquote : isQuote c with
      | false => rfl
      | true =>
        have hc := h c (List.mem_cons_self)
        simp only [isQuote, Bool.or_eq_true, decide_eq_true_eq] at hquote
        obtain rfl | rfl := hquote <;> revert hc <;> decide
    rw [closesWord, hquote, if_neg (by decide), h c (List.mem_cons_self), Bool.true_and]
    exact ih fun c hc => h c (List.mem_cons_of_mem _ hc)

theorem closesWord_doubled {quote : Char} (hquote : isQuote quote = true) (text rest : List Char) :
    closesWord (some quote) (doubled quote text ++ quote :: rest) = closesWord none rest := by
  induction text with
  | nil => simp [doubled, closesWord]
  | cons c text ih =>
    rw [doubled]
    split
    · rename_i hc
      subst hc
      simp [closesWord, hquote, ih]
    · rename_i hc
      simp [closesWord, hc, ih]

theorem isWord_literal (text : String) : IsWord (quoted '\'' text).toList := by
  have hquote : isQuote '\'' = true := by decide
  refine ⟨by simp [quoted], ?_⟩
  simp [quoted, closesWord, hquote, closesWord_doubled]

theorem isWord_columnRef (source column : String) : IsWord (columnRef source column).toList := by
  have hquote : isQuote '"' = true := by decide
  have hdot : isQuote '.' = false ∧ continuesWord '.' = true := by decide
  rw [toList_columnRef]
  refine ⟨List.cons_ne_nil _ _, ?_⟩
  simp [closesWord, hquote, hdot, closesWord_doubled]

end Words

section Pieces

/-- The minus signs in some words. -/
def minuses (words : List String) : Nat :=
  (words.flatMap String.toList).count '-'

@[simp]
theorem minuses_nil : minuses [] = 0 := rfl

@[simp]
theorem minuses_cons (word : String) (words : List String) :
    minuses (word :: words) = word.toList.count '-' + minuses words := by
  simp [minuses]

@[simp]
theorem minuses_append (words words' : List String) :
    minuses (words ++ words') = minuses words + minuses words' := by
  simp [minuses]

theorem minuses_scan_le (text : List Char) : minuses (scan text) ≤ text.count '-' := by
  induction hn : text.length using Nat.strong_induction_on generalizing text with
  | _ n ih =>
    cases text with
    | nil => exact Nat.zero_le _
    | cons c rest =>
      obtain ⟨dropped, happend, hlength⟩ := cut_append c rest
      rw [List.length_cons] at hn
      have hafter := ih _ (by omega) (cut c rest).2 rfl
      have hcount := congrArg (List.count '-') happend
      rw [List.count_append, List.count_append] at hcount
      have hword : minuses ((cut c rest).1.toList.map String.ofList) =
          ((cut c rest).1.getD []).count '-' := by
        cases (cut c rest).1 <;> simp
      rw [scan_cons, minuses_append, hword]
      omega

/-- In a text that goes on as asked, some words are found, if it is safe to write it
that way; if not, minus signs are lost. -/
structure Scans (follow : List Char → Prop) (text : List Char) (words : List String)
    (safe : Prop) : Prop where
  count : minuses words = text.count '-'
  found : safe → ∀ rest, follow rest → scan (text ++ rest) = words ++ scan rest
  lost : ¬ safe → ∀ rest, follow rest → minuses (scan (text ++ rest)) < (text ++ rest).count '-'

variable {follow follow' : List Char → Prop} {text text' : List Char} {words words' : List String}
  {safe safe' : Prop}

theorem Scans.append (h : Scans follow text words safe) (h' : Scans follow' text' words' safe')
    (hfollow : ∀ rest, follow' rest → follow (text' ++ rest)) :
    Scans follow' (text ++ text') (words ++ words') (safe ∧ safe') := by
  refine ⟨?_, ?_, ?_⟩
  · rw [minuses_append, List.count_append, h.count, h'.count]
  · rintro ⟨hsafe, hsafe'⟩ rest hrest
    rw [List.append_assoc, h.found hsafe _ (hfollow rest hrest), h'.found hsafe' rest hrest,
      List.append_assoc]
  · intro hunsafe rest hrest
    rw [List.append_assoc]
    by_cases hsafe : safe
    · have hlost := h'.lost (fun hsafe' => hunsafe ⟨hsafe, hsafe'⟩) rest hrest
      have hcount := h.count
      rw [h.found hsafe _ (hfollow rest hrest), minuses_append, List.count_append]
      omega
    · exact h.lost hsafe _ (hfollow rest hrest)

/-- Anything may follow. -/
def Any (_ : List Char) : Prop := True

theorem Scans.breaking (h : Scans Any text words safe) : Scans Breaks text words safe :=
  ⟨h.count, fun hsafe rest _ => h.found hsafe rest trivial,
    fun hunsafe rest _ => h.lost hunsafe rest trivial⟩

/-- A piece that is always safe. -/
theorem Scans.of_found (hcount : minuses words = text.count '-')
    (h : ∀ rest, follow rest → scan (text ++ rest) = words ++ scan rest) :
    Scans follow text words True :=
  ⟨hcount, fun _ => h, fun hunsafe => absurd trivial hunsafe⟩

theorem scans_blank : Scans Any [' '] [] True := by
  refine .of_found rfl fun rest _ => ?_
  rw [List.singleton_append, scan_cons]
  rfl

theorem scans_word {word : String} (h : IsWord word.toList) :
    Scans Breaks word.toList [word] True := by
  refine .of_found (by simp) fun rest hrest => ?_
  obtain ⟨c, more, hword⟩ := List.exists_cons_of_ne_nil h.1
  have hcut : cut c (more ++ rest) = (some word.toList, rest) := by
    have htail := wordTail_of_closes h.2 hrest
    rw [hword, List.cons_append] at htail
    have hc : (isQuote c || continuesWord c) = true := by
      have hclosed := h.2
      rw [hword, closesWord] at hclosed
      cases hquote : isQuote c <;> simp_all
    rw [cut, if_pos hc, htail, hword]
  rw [hword, List.cons_append, scan_cons, hcut]
  simp

theorem scans_symbol {c : Char} (hword : (isQuote c || continuesWord c) = false)
    (hspace : Lexer.isSpace c = false) (hminus : c ≠ '-')
    (hpair : (c = '!' || c = '<' || c = '>') = false) :
    Scans Any [c] [String.ofList [c]] True := by
  refine .of_found (by simp) fun rest _ => ?_
  have hcut : cut c rest = (some [c], rest) := by
    have hpair' : isPair c rest = false := by rw [isPair, hpair, Bool.false_and]
    rw [cut, if_neg (by simp [hword]), if_neg (by simp [hspace]), if_neg (by simp [hminus]),
      if_neg (by simp [hpair'])]
  rw [List.singleton_append, scan_cons, hcut]
  rfl

theorem cut_operator (op : BinaryOp) (rest : List Char) : ∃ c more, op.sql.toList = c :: more ∧
    cut c (more ++ ' ' :: rest) = (some (c :: more), ' ' :: rest) := by
  cases op <;> exact ⟨_, _, rfl, rfl⟩

theorem breaks_cons {c : Char} (h : (isQuote c || continuesWord c) = false) (rest : List Char) :
    Breaks (c :: rest) := by
  rintro c ⟨⟩
  exact h

theorem breaks_blank (rest : List Char) : Breaks (' ' :: rest) :=
  breaks_cons (by decide) rest

theorem breaks_open (rest : List Char) : Breaks ('(' :: rest) :=
  breaks_cons (by decide) rest

theorem breaks_close (rest : List Char) : Breaks (')' :: rest) :=
  breaks_cons (by decide) rest

theorem scans_open : Scans Any ['('] ["("] True :=
  scans_symbol (by decide) (by decide) (by decide) (by decide)

theorem scans_close : Scans Any [')'] [")"] True :=
  scans_symbol (by decide) (by decide) (by decide) (by decide)

theorem scans_operator (op : BinaryOp) :
    Scans Any (' ' :: (op.sql.toList ++ [' '])) [op.sql] True := by
  refine .of_found (by simp) fun rest _ => ?_
  obtain ⟨c, more, hop, hcut⟩ := cut_operator op rest
  have hwords : scan (op.sql.toList ++ ' ' :: rest) = [op.sql] ++ scan (' ' :: rest) := by
    rw [hop, List.cons_append, scan_cons, hcut, ← hop]
    simp
  have hblank : ∀ rest, scan (' ' :: rest) = scan rest := fun rest =>
    scans_blank.found trivial rest trivial
  rw [List.cons_append, List.append_assoc, hblank, List.singleton_append, hwords, hblank]

/-- A word with blanks around it. -/
theorem scans_spaced {word : String} (h : IsWord word.toList) :
    Scans Any (' ' :: (word.toList ++ [' '])) [word] True := by
  simpa using (scans_blank.append (scans_word h) fun _ _ => trivial).append scans_blank
    fun rest _ => breaks_blank rest

/-- A minus is lost if another one follows. -/
theorem scans_minus {signed : Bool} {c : Char} (h : Scans follow (c :: text) words safe)
    (hsigned : c = '-' ↔ signed = true) :
    Scans follow ('-' :: c :: text) ("-" :: words) (signed = false ∧ safe) := by
  cases signed with
  | false =>
    have hc : c ≠ '-' := fun heq => Bool.false_ne_true (hsigned.mp heq)
    have hminus : Scans (fun rest => rest.head? ≠ some '-') ['-'] ["-"] True := by
      refine .of_found rfl fun rest hrest => ?_
      have hcut : cut '-' rest = (some ['-'], rest) := by
        rw [cut, if_neg (by decide), if_neg (by decide), if_neg (by simp [hrest]),
          if_neg (by simp [isPair])]
      rw [List.singleton_append, scan_cons, hcut]
      rfl
    simpa using hminus.append h fun rest _ => by simpa using hc
  | true =>
    obtain rfl := hsigned.mpr rfl
    refine ⟨by simpa [h.count] using Nat.add_comm _ _, fun hsafe => absurd hsafe.1 (by decide),
      fun _ rest _ => ?_⟩
    have hcut : cut '-' ('-' :: (text ++ rest)) =
        (none, ('-' :: (text ++ rest)).dropWhile (· ≠ '\n')) := rfl
    have hle := minuses_scan_le (('-' :: (text ++ rest)).dropWhile (· ≠ '\n'))
    have hsuffix := (List.dropWhile_suffix (l := '-' :: (text ++ rest)) (· ≠ '\n')).sublist.count_le '-'
    rw [List.cons_append, List.cons_append, scan_cons, hcut, List.count_cons_self]
    simp only [Option.toList_none, List.map_nil, List.nil_append]
    omega

end Pieces

section Terms

/-- What is written in front of the arguments of a call. -/
def Head.front : Head → String
  | .named function => function ++ "("
  | .distinct => "count(DISTINCT "
  | .cases => "CASE WHEN "

/-- What is written behind them. -/
def Head.back : Head → String
  | .named _ | .distinct => ")"
  | .cases => " END"

/-- A word between two arguments. -/
def spread (separator : String) : List Char :=
  if separator = "," then ", ".toList else ' ' :: (separator.toList ++ [' '])

mutual
/-- A term as text. -/
def Term.chars : Term → List Char
  | .atom text => text.toList
  | .nullary function => function.toList ++ "()".toList
  | .call head arguments => head.front.toList ++ (arguments.chars ++ head.back.toList)
  | .binary op lhs rhs => lhs.chars ++ (' ' :: (op.sql.toList ++ [' ']) ++ rhs.chars)
  | .unary .not operand => "NOT ".toList ++ operand.chars
  | .unary .neg operand => '-' :: operand.chars
  | .isNull operand negated =>
    operand.chars ++ (if negated then " IS NOT NULL" else " IS NULL").toList
  | .inList operand items negated =>
    operand.chars ++ ((if negated then " NOT IN (" else " IN (").toList ++ (items.chars ++ [')']))
  | .paren inner => '(' :: (inner.chars ++ [')'])

def Arguments.chars : Arguments → List Char
  | .last value => value.chars
  | .cons value separator more => value.chars ++ (spread separator ++ more.chars)
end

def Head.Worded : Head → Prop
  | .named function => IsWord function.toList
  | .distinct | .cases => True

mutual
/-- Every value and every function is one word. -/
def Term.Worded : Term → Prop
  | .atom text => IsWord text.toList
  | .nullary function => IsWord function.toList
  | .call head arguments => head.Worded ∧ arguments.Worded
  | .binary _ lhs rhs => lhs.Worded ∧ rhs.Worded
  | .unary _ operand | .isNull operand _ | .paren operand => operand.Worded
  | .inList operand items _ => operand.Worded ∧ items.Worded

def Arguments.Worded : Arguments → Prop
  | .last value => value.Worded
  | .cons value _ more => value.Worded ∧ more.Worded
end

/-- Whether a term starts with a minus. -/
def Term.signed : Term → Bool
  | .unary .neg _ => true
  | .binary _ operand _ | .isNull operand _ | .inList operand _ _ => operand.signed
  | .atom _ | .nullary _ | .call _ _ | .unary .not _ | .paren _ => false

mutual
/-- No minus is written right in front of another. -/
def Term.Spaced : Term → Prop
  | .atom _ | .nullary _ => True
  | .call _ arguments => arguments.Spaced
  | .binary _ lhs rhs => lhs.Spaced ∧ rhs.Spaced
  | .unary .neg operand => operand.signed = false ∧ operand.Spaced
  | .unary .not operand | .isNull operand _ | .paren operand => operand.Spaced
  | .inList operand items _ => operand.Spaced ∧ items.Spaced

def Arguments.Spaced : Arguments → Prop
  | .last value => value.Spaced
  | .cons value _ more => value.Spaced ∧ more.Spaced
end

theorem IsWord.head_ne_minus {text : List Char} (h : IsWord text) :
    ∃ c more, text = c :: more ∧ c ≠ '-' := by
  obtain ⟨c, more, rfl⟩ := List.exists_cons_of_ne_nil h.1
  refine ⟨c, more, rfl, ?_⟩
  rintro rfl
  exact absurd h.2 (by simp [closesWord, isQuote, continuesWord, Lexer.continuesName,
    Lexer.startsName, Lexer.isDigit])

theorem Term.chars_eq_cons (t : Term) (h : t.Worded) :
    ∃ c more, t.chars = c :: more ∧ (c = '-' ↔ t.signed = true) := by
  cases t with
  | atom text =>
    obtain ⟨c, more, htext, hc⟩ := IsWord.head_ne_minus h
    exact ⟨c, more, htext, by simp [hc, Term.signed]⟩
  | nullary function =>
    obtain ⟨c, more, htext, hc⟩ := IsWord.head_ne_minus h
    exact ⟨c, _, by rw [Term.chars, htext]; rfl, by simp [hc, Term.signed]⟩
  | call head arguments =>
    cases head with
    | named function =>
      have hfunction : IsWord function.toList := h.1
      obtain ⟨c, more, htext, hc⟩ := hfunction.head_ne_minus
      have hchars : (Term.call (.named function) arguments).chars =
          c :: (more ++ ['('] ++ (arguments.chars ++ [')'])) := by
        simp [Term.chars, Head.front, Head.back, htext]
      exact ⟨c, _, hchars, by simp [hc, Term.signed]⟩
    | distinct => exact ⟨'c', _, rfl, by simp [Term.signed]⟩
    | cases => exact ⟨'C', _, rfl, by simp [Term.signed]⟩
  | binary op lhs rhs =>
    obtain ⟨c, more, hchars, hc⟩ := lhs.chars_eq_cons h.1
    exact ⟨c, _, by rw [Term.chars, hchars]; rfl, hc⟩
  | unary op operand =>
    cases op with
    | not => exact ⟨'N', _, rfl, by simp [Term.signed]⟩
    | neg => exact ⟨'-', _, rfl, by simp [Term.signed]⟩
  | isNull operand negated =>
    obtain ⟨c, more, hchars, hc⟩ := operand.chars_eq_cons h
    exact ⟨c, _, by rw [Term.chars, hchars]; rfl, hc⟩
  | inList operand items negated =>
    obtain ⟨c, more, hchars, hc⟩ := operand.chars_eq_cons h.1
    exact ⟨c, _, by rw [Term.chars, hchars]; rfl, hc⟩
  | paren inner => exact ⟨'(', _, rfl, by simp [Term.signed]⟩

theorem scans_front {head : Head} (h : head.Worded) :
    Scans Any head.front.toList head.tokens True := by
  cases head with
  | named function =>
    simpa [Head.front, Head.tokens] using (scans_word h).append scans_open fun rest _ => breaks_open rest
  | distinct =>
    have hcount : IsWord "count".toList := by decide
    have hdistinct : IsWord "DISTINCT".toList := by decide
    have hopen := (scans_word hcount).append scans_open fun rest _ => breaks_open rest
    have hword := (scans_word hdistinct).append scans_blank fun rest _ => breaks_blank rest
    simpa [Head.front, Head.tokens] using hopen.append hword fun _ _ => trivial
  | cases =>
    have hcase : IsWord "CASE".toList := by decide
    have hwhen : IsWord "WHEN".toList := by decide
    simpa [Head.front, Head.tokens] using
      (scans_word hcase).append (scans_spaced hwhen) fun rest _ => breaks_blank _

theorem scans_back (head : Head) : Scans Breaks head.back.toList [head.closer] True ∧
    ∀ rest, Breaks (head.back.toList ++ rest) := by
  have hclose : Scans Breaks ")".toList [")"] True ∧ ∀ rest, Breaks (")".toList ++ rest) :=
    ⟨scans_close.breaking, breaks_close⟩
  cases head with
  | named function => exact hclose
  | distinct => exact hclose
  | cases =>
    have hend : IsWord "END".toList := by decide
    refine ⟨?_, fun rest => breaks_blank _⟩
    simpa [Head.back, Head.closer] using scans_blank.append (scans_word hend) fun _ _ => trivial

/-- The words that stand between arguments. -/
def dividers : List String :=
  [",", "AS", "WHEN", "THEN", "ELSE"]

theorem Head.separators_dividers (head : Head) : ∀ word ∈ head.separators, word ∈ dividers := by
  cases head <;> simp [Head.separators, dividers]

theorem scans_spread {separator : String} (h : separator ∈ dividers) :
    Scans Any (spread separator) [separator] True ∧ ∀ rest, Breaks (spread separator ++ rest) := by
  unfold spread
  split
  · rename_i hcomma
    have hsymbol : Scans Any [','] [","] True :=
      scans_symbol (by decide) (by decide) (by decide) (by decide)
    subst hcomma
    refine ⟨?_, fun rest => breaks_cons (by decide) _⟩
    simpa using hsymbol.append scans_blank fun _ _ => trivial
  · rename_i hcomma
    have hwords : ∀ word ∈ dividers, word ≠ "," → IsWord word.toList := by decide
    exact ⟨scans_spaced (hwords separator h hcomma), fun rest => breaks_blank _⟩

theorem scans_nullTest (negated : Bool) :
    Scans Breaks (if negated then " IS NOT NULL" else " IS NULL").toList
      ("IS" :: (negation negated ++ ["NULL"])) True := by
  have his : IsWord "IS".toList := by decide
  have hnull := scans_word (show IsWord "NULL".toList by decide)
  cases negated with
  | false => simpa [negation] using (scans_spaced his).append hnull fun _ _ => trivial
  | true =>
    have hnot := (scans_word (show IsWord "NOT".toList by decide)).append scans_blank
      fun rest _ => breaks_blank rest
    simpa [negation] using ((scans_spaced his).append hnot fun _ _ => trivial).append hnull
      fun _ _ => trivial

theorem scans_membership (negated : Bool) :
    Scans Any (if negated then " NOT IN (" else " IN (").toList
      (negation negated ++ ["IN", "("]) True := by
  have hin := (scans_spaced (show IsWord "IN".toList by decide)).append scans_open
    fun _ _ => trivial
  cases negated with
  | false => simpa [negation] using hin
  | true =>
    have hnot := scans_blank.append (scans_word (show IsWord "NOT".toList by decide))
      fun _ _ => trivial
    simpa [negation] using hnot.append hin fun rest _ => breaks_blank _

mutual
theorem Term.scans (t : Term) (hplain : t.Plain) (hworded : t.Worded) :
    Scans Breaks t.chars t.tokens t.Spaced := by
  cases t with
  | atom text => exact scans_word hworded
  | nullary function =>
    have hparens := scans_open.append scans_close fun _ _ => trivial
    have hcall := (scans_word hworded).append hparens fun rest _ => breaks_open _
    simpa [Term.chars, Term.tokens, Term.Spaced] using hcall.breaking
  | call head arguments =>
    obtain ⟨hback, hbreaks⟩ := scans_back head
    have harguments := arguments.scans hplain.2 hworded.2 head.separators_dividers
    have hcall := (scans_front hworded.1).append (harguments.append hback fun rest _ => hbreaks rest)
      fun _ _ => trivial
    simpa [Term.chars, Term.tokens, Term.Spaced] using hcall
  | binary op lhs rhs =>
    have hright := (scans_operator op).append (rhs.scans hplain.2 hworded.2) fun _ _ => trivial
    have hboth := (lhs.scans hplain.1 hworded.1).append hright fun rest _ => breaks_blank _
    simpa [Term.chars, Term.tokens, Term.Spaced] using hboth
  | unary op operand =>
    have hoperand := operand.scans hplain hworded
    cases op with
    | not =>
      have hnot := (scans_word (show IsWord "NOT".toList by decide)).append scans_blank
        fun rest _ => breaks_blank rest
      simpa [Term.chars, Term.tokens, Term.Spaced, UnaryOp.sql] using hnot.append hoperand fun _ _ => trivial
    | neg =>
      obtain ⟨c, more, hchars, hsigned⟩ := operand.chars_eq_cons hworded
      rw [hchars] at hoperand
      rw [Term.chars, hchars]
      exact scans_minus hoperand hsigned
  | isNull operand negated =>
    have htest := (operand.scans hplain hworded).append (scans_nullTest negated) fun rest _ => by
      cases negated <;> exact breaks_blank _
    simpa [Term.chars, Term.tokens, Term.Spaced] using htest
  | inList operand items negated =>
    have hitems := (items.scans hplain.2 hworded.2 (by decide)).append scans_close
      fun rest _ => breaks_close rest
    have hlist := (scans_membership negated).append hitems fun _ _ => trivial
    have htest := (operand.scans hplain.1 hworded.1).append hlist fun rest _ => by
      cases negated <;> exact breaks_blank _
    simpa [Term.chars, Term.tokens, Term.Spaced] using htest.breaking
  | paren inner =>
    have hinner := (inner.scans hplain hworded).append scans_close fun rest _ => breaks_close rest
    have hparen := scans_open.append hinner fun _ _ => trivial
    simpa [Term.chars, Term.tokens, Term.Spaced] using hparen.breaking

theorem Arguments.scans {separators : List String} (a : Arguments) (hplain : a.Plain separators)
    (hworded : a.Worded) (hseparators : ∀ word ∈ separators, word ∈ dividers) :
    Scans Breaks a.chars a.tokens a.Spaced := by
  cases a with
  | last value => exact value.scans hplain hworded
  | cons value separator more =>
    obtain ⟨hspread, hbreaks⟩ := scans_spread (hseparators separator hplain.2.1)
    have hmore := hspread.append (more.scans hplain.2.2 hworded.2 hseparators) fun _ _ => trivial
    have hall := (value.scans hplain.1 hworded.1).append hmore fun rest _ => by
      rw [List.append_assoc]
      exact hbreaks _
    simpa [Arguments.chars, Arguments.tokens, Arguments.Spaced] using hall
end

theorem minuses_telling (words : List String) :
    minuses (words.filter telling) = minuses words := by
  induction words with
  | nil => rfl
  | cons word words ih =>
    cases htelling : telling word with
    | true => rw [List.filter_cons_of_pos htelling, minuses_cons, minuses_cons, ih]
    | false =>
      have hnone : ∀ word ∈ ["(", ")", "DISTINCT"], word.toList.count '-' = 0 := by decide
      have hword : word ∈ ["(", ")", "DISTINCT"] := by
        simpa only [telling, decide_eq_false_iff_not, not_not] using htelling
      rw [List.filter_cons_of_neg (by simp [htelling]), ih, minuses_cons, hnone word hword,
        Nat.zero_add]

/-- Terms of the same operations have as many minus signs. -/
theorem minuses_eq_of_bare {t t' : Term} (h : t.bare = t'.bare) :
    minuses t.tokens = minuses t'.tokens := by
  rw [← minuses_telling, ← t.telling_bare, h, t'.telling_bare, minuses_telling]

/-- The text of a term is read as the operations in it exactly if the term is graded and no
minus in it is written right in front of another. -/
theorem read_iff {t : Term} {text : String} (hplain : t.Plain) (hworded : t.Worded)
    (htext : text.toList = t.chars) : read text = some t.bare ↔ t.Graded ∧ t.Spaced := by
  have hscans := t.scans hplain hworded
  have hbreaks : Breaks [] := by simp [Breaks]
  rw [read, htext]
  by_cases hspaced : t.Spaced
  · have hfound := hscans.found hspaced [] hbreaks
    have hnil : scan [] = [] := rfl
    rw [List.append_nil, hnil, List.append_nil] at hfound
    rw [hfound, read?_tokens_iff hplain, and_iff_left hspaced]
  · refine iff_of_false (fun hread => ?_) fun h => hspaced h.2
    obtain ⟨t', hread', hbare⟩ := Option.map_eq_some_iff.mp hread
    obtain ⟨htokens, -, -⟩ := read?_eq_some_iff.mp hread'
    have hlost := hscans.lost hspaced [] hbreaks
    rw [List.append_nil, ← htokens, minuses_eq_of_bare hbare, hscans.count] at hlost
    exact lt_irrefl _ hlost

end Terms

end ConceptQuery.Sql
