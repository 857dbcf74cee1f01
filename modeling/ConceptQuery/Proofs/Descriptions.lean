import ConceptQuery.Compile.Builder
import ConceptQuery.Proofs.Acceptance
import ConceptQuery.Proofs.Faults
import ConceptQuery.Proofs.Names
import ConceptQuery.Proofs.Cursors
import ConceptQuery.Proofs.Seam

/-! # Descriptions are the comments behind declarations

The compiler looks for the description of a concept in the raw line on which its
declaration ends, while the lexer has cut that line into tokens and taken comments for
trivia. Both see the same: what follows a semicolon on its line is a comment with a
number sign once it is trimmed exactly if such a comment is the next token, blanks of
that line apart.
-/
namespace ConceptQuery

namespace Text
variable {cs gap back : List Char} {c : Char}

def trimRight (cs : List Char) : List Char :=
  (trimLeft cs.reverse).reverse

theorem trim_append_left (h : ∀ c ∈ gap, isBlank c = true) (cs : List Char) :
    trim (gap ++ cs) = trim cs := by
  have hleft : trimLeft (gap ++ cs) = trimLeft cs := List.dropWhile_append_of_pos h
  rw [trim, hleft, trim]

theorem trim_blank (h : ∀ c ∈ gap, isBlank c = true) : trim gap = [] := by
  have hnone := trim_append_left h []
  rwa [List.append_nil] at hnone

theorem trimRight_append (h : ∀ c ∈ back, isBlank c = true) (cs : List Char) :
    trimRight (cs ++ back) = trimRight cs := by
  have hback : ∀ c ∈ back.reverse, isBlank c = true := fun c hc => h c (List.mem_reverse.mp hc)
  have hleft : trimLeft (back.reverse ++ cs.reverse) = trimLeft cs.reverse :=
    List.dropWhile_append_of_pos hback
  rw [trimRight, List.reverse_append, hleft, trimRight]

theorem trim_append_right (h : ∀ c ∈ back, isBlank c = true) (cs : List Char) :
    trim (cs ++ back) = trim cs := by
  by_cases hcs : ∀ c ∈ cs, isBlank c = true
  · rw [trim_append_left hcs, trim_blank h, trim_blank hcs]
  · have hne : (cs.dropWhile isBlank).isEmpty = false := by
      rw [List.isEmpty_eq_false_iff, ne_eq, List.dropWhile_eq_nil_iff]
      exact hcs
    have hleft : trimLeft (cs ++ back) = trimLeft cs ++ back := by
      rw [trimLeft, List.dropWhile_append, hne]
      rfl
    change trimRight (trimLeft (cs ++ back)) = trimRight (trimLeft cs)
    rw [hleft, trimRight_append h]

theorem trimRight_cons (h : isBlank c = false) (cs : List Char) :
    trimRight (c :: cs) = c :: trimRight cs := by
  have hend : trimLeft (cs.reverse ++ [c]) = trimLeft cs.reverse ++ [c] := by
    rw [trimLeft, trimLeft, List.dropWhile_append]
    split
    · rename_i hempty
      rw [List.isEmpty_iff.mp hempty, List.dropWhile_cons_of_neg (by simp [h])]
      rfl
    · rfl
  rw [trimRight, List.reverse_cons, hend, List.reverse_append]
  rfl

theorem trim_cons (h : isBlank c = false) (cs : List Char) :
    trim (c :: cs) = c :: trimRight cs := by
  have hleft : trimLeft (c :: cs) = c :: cs := List.dropWhile_cons_of_neg (by simp [h])
  change trimRight (trimLeft (c :: cs)) = _
  rw [hleft, trimRight_cons h]

theorem trim_trimRight (cs : List Char) : trim (trimRight cs) = trim cs := by
  have hparts : trimRight cs ++ (cs.reverse.takeWhile isBlank).reverse = cs := by
    rw [trimRight, trimLeft, ← List.reverse_append, List.takeWhile_append_dropWhile,
      List.reverse_reverse]
  have hback : ∀ c ∈ (cs.reverse.takeWhile isBlank).reverse, isBlank c = true :=
    fun c hc => List.mem_takeWhile_imp (List.mem_reverse.mp hc)
  calc trim (trimRight cs)
    _ = trim (trimRight cs ++ (cs.reverse.takeWhile isBlank).reverse) :=
      (trim_append_right hback _).symm
    _ = trim cs := congrArg trim hparts

/-- The characters of a text behind its last newline. -/
def lastLine (front : List Char) : List Char :=
  (front.reverse.takeWhile (· ≠ '\n')).reverse

theorem length_lastLine (front : List Char) :
    (lastLine front).length = Position.sinceNewline front := by
  rw [lastLine, List.length_reverse, Position.sinceNewline]

theorem lastLine_snoc (front : List Char) (h : c ≠ '\n') :
    lastLine (front ++ [c]) = lastLine front ++ [c] := by
  rw [lastLine, List.reverse_append, List.reverse_singleton, List.singleton_append,
    List.takeWhile_cons_of_pos (by simpa using h), List.reverse_cons, lastLine]

theorem getElem?_splitOn_zero (separator : Char) (cs : List Char) :
    (Dotted.splitOn separator cs)[0]? = some (cs.takeWhile (· ≠ separator)) := by
  induction cs with
  | nil => rfl
  | cons c cs ih =>
    rw [Dotted.splitOn]
    by_cases hc : c = separator
    · simp [hc]
    · cases hpieces : Dotted.splitOn separator cs with
      | nil => exact absurd hpieces (Dotted.splitOn_ne_nil separator cs)
      | cons piece pieces =>
        rw [hpieces] at ih
        simpa [hc] using ih

/-- The line of a cursor: what stands on it before the cursor and what is left of it. -/
theorem getElem?_lines (front back : List Char) :
    (lines (front ++ back))[front.count '\n']? =
      some (lastLine front ++ back.takeWhile (· ≠ '\n')) := by
  have hplain : ∀ cs : List Char, '\n' ∉ cs → ∀ c ∈ cs, decide (c ≠ '\n') = true := by
    rintro cs hcs c hc
    rw [decide_eq_true_iff]
    rintro rfl
    exact hcs hc
  by_cases hmem : '\n' ∈ front
  -- cut at the last newline in front of the cursor
  · obtain ⟨as, bs, hrev, hlast⟩ := List.eq_append_cons_of_mem (List.mem_reverse.mpr hmem)
    obtain rfl : front = bs.reverse ++ '\n' :: as.reverse := by
      rw [← List.reverse_reverse front, hrev]
      simp
    have hline : lastLine (bs.reverse ++ '\n' :: as.reverse) = as.reverse := by
      rw [lastLine, hrev, List.takeWhile_append_of_pos (hplain as hlast)]
      simp
    have hcount : (bs.reverse ++ '\n' :: as.reverse).count '\n' = bs.reverse.count '\n' + 1 := by
      rw [List.count_append, List.count_cons_self,
        List.count_eq_zero.mpr fun h => hlast (List.mem_reverse.mp h)]
    have hlength := Dotted.length_splitOn '\n' bs.reverse
    rw [hline, hcount, lines, List.append_assoc, List.cons_append, Dotted.splitOn_append, ← hlength,
      List.getElem?_append_right le_rfl, Nat.sub_self, getElem?_splitOn_zero,
      List.takeWhile_append_of_pos (hplain as.reverse fun h => hlast (List.mem_reverse.mp h))]
  · have hline : lastLine front = front := by
      have hall : front.reverse.takeWhile (· ≠ '\n') = front.reverse :=
        List.takeWhile_eq_self_iff.mpr (hplain front.reverse fun h => hmem (List.mem_reverse.mp h))
      rw [lastLine, hall, List.reverse_reverse]
    rw [List.count_eq_zero.mpr hmem, lines, getElem?_splitOn_zero, hline,
      List.takeWhile_append_of_pos (hplain front hmem)]

end Text

namespace Compile
open Text
variable {lines : List (List Char)} {line cs gap back : List Char} {c : Char} {leaf : Leaf}

/-- What the rest of a line says about a declaration in front of it. -/
def remark? (line : List Char) : Option String :=
  match trim line with
  | '#' :: comment =>
    if (trim comment).isEmpty then none else some (String.ofList (trim comment))
  | _ => none

theorem remark?_append_left (h : ∀ c ∈ gap, isBlank c = true) (cs : List Char) :
    remark? (gap ++ cs) = remark? cs := by
  rw [remark?, trim_append_left h, remark?]

theorem remark?_append_right (h : ∀ c ∈ back, isBlank c = true) (cs : List Char) :
    remark? (cs ++ back) = remark? cs := by
  rw [remark?, trim_append_right h, remark?]

theorem remark?_blank (h : ∀ c ∈ gap, isBlank c = true) : remark? gap = none := by
  rw [remark?, trim_blank h]

theorem remark?_sign (body : List Char) : remark? ('#' :: body) =
    if (trim body).isEmpty then none else some (String.ofList (trim body)) := by
  rw [remark?, trim_cons (by decide)]
  simp only [trim_trimRight]

theorem remark?_other (hblank : isBlank c = false) (hc : c ≠ '#') (cs : List Char) :
    remark? (c :: cs) = none := by
  rw [remark?, trim_cons hblank]
  split
  · rename_i hsign
    exact absurd (List.cons.inj hsign).1 hc
  · rfl

theorem dropReturn_append {xs : List Char} (h : xs.getLast? ≠ some '\r') (ys : List Char) :
    dropReturn (xs ++ ys) = xs ++ dropReturn ys := by
  rcases List.eq_nil_or_concat' ys with rfl | ⟨more, last, rfl⟩
  · rw [List.append_nil, dropReturn, if_neg h]
    simp [dropReturn]
  · rw [← List.append_assoc, dropReturn, dropReturn, List.getLast?_concat, List.getLast?_concat,
      List.dropLast_concat, List.dropLast_concat]
    split
    · rfl
    · rw [List.append_assoc]

theorem remark?_dropReturn (cs : List Char) : remark? (dropReturn cs) = remark? cs := by
  rw [dropReturn]
  split
  · rename_i hlast
    obtain ⟨front, rfl⟩ := List.getLast?_eq_some_iff.mp hlast
    rw [List.dropLast_concat, remark?_append_right (by simp; decide)]
  · rfl

/-- A line that is not empty is kept, at most without its carriage return. -/
theorem getElem?_closeLines {i : Nat} (h : lines[i]? = some line) (hne : line ≠ []) :
    (closeLines lines)[i]? = some line ∨ (closeLines lines)[i]? = some (dropReturn line) := by
  fun_induction closeLines lines generalizing i with
  | case1 => cases h
  | case2 last hempty =>
    cases i with
    | zero =>
      obtain rfl := Option.some.inj h
      exact absurd (List.isEmpty_iff.mp hempty) hne
    | succ i => cases h
  | case3 last => exact .inl h
  | case4 first more _ ih =>
    cases i with
    | zero => exact .inr (congrArg (some ∘ dropReturn) (Option.some.inj h))
    | succ i => exact ih h

theorem trailingComment?_eq {i k : Nat} (hendLine : leaf.endLine = some (i + 1))
    (hendColumn : leaf.endColumn = some (k + 1)) (hline : lines[i]? = some line) :
    trailingComment? lines leaf = remark? (line.drop k) := by
  have hfound : (if i + 1 = 0 then none else lines[i + 1 - 1]?) = some line := by
    rw [if_neg (Nat.succ_ne_zero i), Nat.add_sub_cancel, hline]
  rw [trailingComment?, hendLine, hendColumn]
  change (if i + 1 = 0 then none else lines[i + 1 - 1]?).bind
    (fun line => remark? (line.drop k)) = _
  rw [hfound, Option.bind_some]

/-- Behind a semicolon the compiler reads what is left of the line, and the carriage return
that it may drop at the end makes no difference. -/
theorem trailingComment?_behind {text front back : List Char} (htext : text = front ++ ';' :: back)
    (hendLine : leaf.endLine = some ((Position.behind (front ++ [';'])).line + 1))
    (hendColumn : leaf.endColumn = some ((Position.behind (front ++ [';'])).column + 1)) :
    trailingComment? (closeLines (Text.lines text)) leaf = remark? (back.takeWhile (· ≠ '\n')) := by
  have hfront : lastLine (front ++ [';']) = lastLine front ++ [';'] :=
    lastLine_snoc front (by decide)
  have hline := getElem?_lines (front ++ [';']) back
  have hdrop : ∀ more, (lastLine (front ++ [';']) ++ more).drop
      (Position.sinceNewline (front ++ [';'])) = more :=
    fun more => List.drop_left' (length_lastLine _)
  rw [List.append_assoc, List.singleton_append, ← htext] at hline
  -- the semicolon keeps the line from being empty, so it is still there
  rcases getElem?_closeLines hline (by rw [hfront]; simp) with hkept | hcut
  · rw [trailingComment?_eq hendLine hendColumn hkept]
    exact congrArg remark? (hdrop _)
  · rw [trailingComment?_eq hendLine hendColumn hcut, dropReturn_append (by rw [hfront]; simp)]
    exact (congrArg remark? (hdrop _)).trans (remark?_dropReturn _)

end Compile

/-- The next token is a comment with a number sign that says `d`, blanks on the line in
front of it apart. -/
inductive Remark : List Token → String → Prop where
  | comment {t rest body d} (hkind : t.kind = .comment) (htext : t.text.toList = '#' :: body)
      (hd : d.toList = Text.trim body) (hne : d ≠ "") : Remark (t :: rest) d
  | space {t rest d} (hkind : t.kind = .space) (hline : '\n' ∉ t.text.toList)
      (h : Remark rest d) : Remark (t :: rest) d

section Tokens
variable {t : Token} {rest : List Token} {body : List Char} {d : String}

theorem not_remark_nil : ¬ Remark [] d :=
  nofun

theorem remark_space_iff (hkind : t.kind = .space) :
    Remark (t :: rest) d ↔ '\n' ∉ t.text.toList ∧ Remark rest d := by
  constructor
  · intro h
    cases h with
    | comment hcomment => rw [hkind] at hcomment; cases hcomment
    | space _ hline h => exact ⟨hline, h⟩
  · exact fun h => .space hkind h.1 h.2

theorem remark_comment_iff (hkind : t.kind = .comment) (htext : t.text.toList = '#' :: body) :
    Remark (t :: rest) d ↔ d.toList = Text.trim body ∧ d ≠ "" := by
  constructor
  · intro h
    cases h with
    | comment _ htext' hd hne =>
      rw [htext] at htext'
      rw [(List.cons.inj htext').2]
      exact ⟨hd, hne⟩
    | space hspace => rw [hkind] at hspace; cases hspace
  · exact fun h => .comment hkind htext h.1 h.2

theorem not_remark (hspace : t.kind ≠ .space) (hsign : t.text.toList.head? ≠ some '#') :
    ¬ Remark (t :: rest) d := by
  intro h
  cases h with
  | comment _ htext => exact hsign (by rw [htext]; rfl)
  | space hkind => exact hspace hkind

end Tokens

namespace Lexer
open Compile Text
variable {c : Char} {cs : List Char}

theorem isBlank_of_isSpace (h : isSpace c = true) : isBlank c = true := by
  have hall : [' ', '\t', '\r', '\n'].all isBlank = true := by decide
  exact List.all_eq_true.mp hall c (by simpa [isSpace, or_assoc] using h)

theorem head_of_next (c : Char) (cs : List Char) : (next c cs).2.1.head? = some c := by
  obtain ⟨happend, hne⟩ := next_cuts c cs
  obtain ⟨d, more, hd⟩ := List.exists_cons_of_ne_nil hne
  rw [hd, List.cons_append] at happend
  rw [hd, List.head?_cons, (List.cons.inj happend).1]

theorem isSpace_of_next (h : (next c cs).1 = .space) : isSpace c = true := by
  by_contra hspace
  unfold next at h
  rw [if_neg hspace] at h
  split_ifs at h
  · rcases nameKind_cases _ _ with hk | ⟨k, hk⟩ <;> cases hk.symm.trans h
  · rcases number_kind _ _ with hk | hk <;> cases hk.symm.trans h
  · rcases string_kind _ _ with hk | hk <;> cases hk.symm.trans h
  · cases h
  · split at h
    · cases h
    · rcases symbol_kind _ _ with hk | ⟨p, hk⟩ <;> cases hk.symm.trans h

/-- All blank characters. -/
def blanks : List Char :=
  (List.range' 9 5 ++ [0x20, 0x85, 0xa0, 0x1680] ++ List.range' 0x2000 11 ++
    [0x2028, 0x2029, 0x202f, 0x205f, 0x3000]).map Char.ofNat

theorem mem_blanks (h : isBlank c = true) : c ∈ blanks := by
  refine List.mem_map.mpr ⟨c.toNat, ?_, Char.ofNat_toNat c⟩
  simp only [isBlank, Bool.or_eq_true, Bool.and_eq_true, decide_eq_true_eq] at h
  simp only [List.mem_append, List.mem_range'_1, List.mem_cons, List.not_mem_nil, or_false]
  omega

theorem pair?_eq_none (h : c ∉ ['<', '-', '=', '!', '>']) (d : Char) : pair? c d = none := by
  unfold pair?
  split <;> simp_all

/-- Blanks that are no spaces of the language fit no token. -/
theorem stray_of_isBlank (hblank : isBlank c = true) (hspace : isSpace c = false) :
    (next c cs).1 = .stray := by
  have hall : blanks.all (fun c => isSpace c = false → startsName c = false ∧ isDigit c = false ∧
      c ∉ ['"', '\'', '#', '/'] ∧ c ∉ ['<', '-', '=', '!', '>'] ∧ single? c = none) = true := by
    decide
  obtain ⟨hname, hdigit, hmark, hpair, hsingle⟩ :=
    of_decide_eq_true (List.all_eq_true.mp hall c (mem_blanks hblank)) hspace
  have hsymbol : (symbol c cs).1 = .stray := by
    cases cs with
    | nil => rw [symbol, hsingle]; rfl
    | cons d cs => rw [symbol, pair?_eq_none hpair, hsingle]; rfl
  simp only [List.mem_cons, List.not_mem_nil, or_false, not_or] at hmark
  obtain ⟨hdouble, hquote, hsign, hslash⟩ := hmark
  simp only [next, hspace, hname, hdigit, hdouble, hquote, hsign, decide_false, Bool.or_self,
    Bool.false_eq_true, if_false]
  split
  · exact absurd rfl hslash
  · exact hsymbol

/-- The spaces at the front of a text, and the line behind them if they do not end it. -/
theorem remark?_space (hspace : isSpace c = true) (d : String) :
    remark? ((c :: cs).takeWhile (· ≠ '\n')) = some d ↔
      '\n' ∉ c :: cs.takeWhile isSpace ∧
        remark? ((cs.dropWhile isSpace).takeWhile (· ≠ '\n')) = some d := by
  have hblanks : ∀ b ∈ c :: cs.takeWhile isSpace, isBlank b = true := by
    intro b hb
    rcases List.mem_cons.mp hb with rfl | hb
    · exact isBlank_of_isSpace hspace
    · exact isBlank_of_isSpace (List.mem_takeWhile_imp hb)
  have hparts : c :: cs = (c :: cs.takeWhile isSpace) ++ cs.dropWhile isSpace := by
    rw [List.cons_append, List.takeWhile_append_dropWhile]
  rw [hparts]
  by_cases hline : '\n' ∈ c :: cs.takeWhile isSpace
  · have hends : (c :: cs.takeWhile isSpace).dropWhile (· ≠ '\n') ≠ [] := by
      intro hnil
      simpa using List.dropWhile_eq_nil_iff.mp hnil _ hline
    rw [(run_before hends).1,
      remark?_blank fun b hb => hblanks b ((List.takeWhile_sublist _).subset hb)]
    exact iff_of_false nofun fun h => h.1 hline
  · have hall : ∀ b ∈ c :: cs.takeWhile isSpace, decide (b ≠ '\n') = true := by
      intro b hb
      rw [decide_eq_true_iff]
      rintro rfl
      exact hline hb
    rw [List.takeWhile_append_of_pos hall, remark?_append_left hblanks]
    exact (and_iff_right hline).symm

theorem remark?_comment (cs : List Char) (d : String) :
    remark? (('#' :: cs).takeWhile (· ≠ '\n')) = some d ↔
      d.toList = trim (cs.takeWhile (· ≠ '\n')) ∧ d ≠ "" := by
  rw [List.takeWhile_cons_of_pos (by decide), remark?_sign]
  constructor
  · intro h
    split at h
    · cases h
    · rename_i hempty
      obtain rfl := Option.some.inj h
      refine ⟨String.toList_ofList, ?_⟩
      rintro hnil
      rw [← String.toList_inj, String.toList_ofList] at hnil
      exact hempty (List.isEmpty_iff.mpr hnil)
  · rintro ⟨hd, hne⟩
    have hempty : d.toList ≠ [] := fun hnil => hne (String.toList_inj.mp hnil)
    rw [← hd, if_neg (by simpa using hempty), String.ofList_toList]

theorem remark?_word (hspace : isSpace c = false) (hblank : isBlank c = false) (hsign : c ≠ '#')
    (cs : List Char) : remark? ((c :: cs).takeWhile (· ≠ '\n')) = none := by
  have hline : c ≠ '\n' := by
    rintro rfl
    cases hspace
  rw [List.takeWhile_cons_of_pos (by simpa using hline), remark?_other hblank hsign]

/-- On the line that tokens are cut from, the compiler reads the remark that the tokens
make. -/
theorem remark?_iff_of_scan {fuel offset : Nat} (hlength : cs.length ≤ fuel)
    (hstray : ∀ t ∈ scan fuel cs offset, t.kind ≠ .stray) (d : String) :
    remark? (cs.takeWhile (· ≠ '\n')) = some d ↔ Remark (scan fuel cs offset) d := by
  induction fuel generalizing cs offset with
  | zero =>
    obtain rfl := List.length_eq_zero_iff.mp (Nat.le_zero.mp hlength)
    exact iff_of_false nofun not_remark_nil
  | succ fuel ih =>
    cases cs with
    | nil => exact iff_of_false nofun not_remark_nil
    | cons c cs =>
      rw [scan_cons] at hstray ⊢
      have hfirst := hstray _ List.mem_cons_self
      have hmore := ih ((length_rest_le c cs).trans (Nat.le_of_succ_le_succ hlength))
        fun t ht => hstray t (List.mem_cons_of_mem _ ht)
      by_cases hspace : isSpace c = true
      · have hnext : next c cs = (.space, c :: cs.takeWhile isSpace, cs.dropWhile isSpace) := by
          unfold next
          rw [if_pos hspace]
        rw [hnext] at hmore ⊢
        rw [remark?_space hspace, remark_space_iff rfl, hmore, String.toList_ofList]
      · rw [Bool.not_eq_true] at hspace
        by_cases hsign : c = '#'
        · subst hsign
          have hnext : next '#' cs = lineComment ['#'] cs := rfl
          have htext : (⟨.comment, String.ofList ('#' :: cs.takeWhile (· ≠ '\n')), offset⟩ :
              Token).text.toList = '#' :: cs.takeWhile (· ≠ '\n') := String.toList_ofList
          rw [hnext, remark?_comment]
          exact (remark_comment_iff rfl htext).symm
        -- a blank that is no space would have been a stray token
        · have hblank : isBlank c = false := by
            by_contra hblank
            exact hfirst (stray_of_isBlank (by simpa using hblank) hspace)
          rw [remark?_word hspace hblank hsign]
          refine iff_of_false nofun (not_remark (fun hkind => ?_) ?_)
          · rw [isSpace_of_next hkind] at hspace
            cases hspace
          · rw [String.toList_ofList, head_of_next]
            simpa using hsign

end Lexer

section Documents
variable {text : String} {tree node : Tree Leaf} {before after : List Token} {t : Token}

theorem Token.stands_of_scan (h : Token.scan text = before ++ t :: after) :
    t.Stands text.toList (before.flatMap fun t => t.text.toList)
      (after.flatMap fun t => t.text.toList) := by
  constructor
  · rw [← Token.scan_texts text, h, List.flatMap_append, List.flatMap_cons, List.append_assoc]
  · have hdrop := Token.scan_consecutive text
    rw [h] at hdrop
    rw [hdrop.drop.1, Nat.zero_add, ← String.utf8Len_toList, toList_spelled]

/-- No token of a text that parses is stray. -/
theorem Token.ne_stray_of_parse (h : parse text = .ok tree) :
    ∀ t ∈ Token.scan text, t.kind ≠ .stray := by
  have hnone := (Parsed.faults_eq_nil_iff text).mp (parse_ok_iff.mp ⟨tree, h⟩)
  rw [← Parsed.leaves_ofText]
  exact Tree.ne_stray_of_leaves _ hnone

/-- The tokens of a text in front of the semicolon that a statement ends with, that semicolon,
and the tokens behind it. -/
structure Tree.EndsAt (text : String) (node : Tree Leaf) (before : List Token) (semicolon : Token)
    (after : List Token) : Prop where
  scan_eq : Token.scan text = before ++ semicolon :: after
  kind_eq : semicolon.kind = .punctuation .semicolon
  last_eq : node.last? = some (Leaf.ofToken text.toList node.kind semicolon)

theorem Tree.exists_endsAt (hparse : parse text = .ok tree) (hnode : node ∈ tree.nodes) :
    ∃ before semicolon after, node.EndsAt text before semicolon after := by
  obtain ⟨sentences, hs, hleaves, rfl⟩ := sentences_of_accepted hparse
  rw [nodes_placed] at hnode
  obtain ⟨t, ht, rfl⟩ := List.mem_map.mp hnode
  have hmem : t ∈ sentences := (mem_nodes.mp ht).1
  obtain ⟨semicolon, hlast, hkind⟩ := (hs t hmem).getLast?_children
  obtain ⟨inner, hinner⟩ := List.getLast?_eq_some_iff.mp hlast
  cases t with
  | leaf u => cases hs _ hmem
  | node kind children =>
    obtain rfl : children = inner ++ [leaf semicolon] := hinner
    have hscan : semicolon ∈ Token.scan text := by
      have hleaf : semicolon ∈ leavesOf sentences :=
        mem_leavesOf.mpr ⟨_, hmem, by simp [leaves, leavesOf]⟩
      rw [hleaves] at hleaf
      exact (List.mem_filter.mp hleaf).1
    obtain ⟨before, after, hsplit⟩ := List.append_of_mem hscan
    refine ⟨before, semicolon, after, hsplit, hkind, ?_⟩
    have htrivia : ¬ semicolon.kind.isTrivia = true := by
      rw [hkind]
      exact Bool.false_ne_true
    rw [placed, last?, leaves, placedAll_append, leavesOf_append, placedAll, if_neg htrivia,
      placedAll, leavesOf, leaves, leavesOf, List.append_nil, List.getLast?_concat]
    rfl

/-- The tokens of a text that parses are cut at the semicolon of each of its statements, and
the description of what the statement declares is the remark behind it. -/
theorem description_iff (hparse : parse text = .ok tree) (hnode : node ∈ tree.nodes) :
    (∃ before semicolon after, node.EndsAt text before semicolon after) ∧
    ∀ before semicolon after, node.EndsAt text before semicolon after →
      ∀ (b : Builder) (c : Concept) (d : String),
        (Compile.described (b.setText text).lines node c).description = some d ↔
          Remark after d := by
  refine ⟨Tree.exists_endsAt hparse hnode, fun before semicolon after hends b c d => ?_⟩
  have hstands := Token.stands_of_scan hends.scan_eq
  have hspelled : semicolon.text.toList = [';'] := by
    have hspells := (Token.scan_consecutive text).spells (t := semicolon) (by simp [hends.scan_eq])
    rwa [hends.kind_eq] at hspells
  have hcut : Token.scan text = (before ++ [semicolon]) ++ after := by
    rw [hends.scan_eq, List.append_assoc, List.singleton_append]
  obtain ⟨fuel, cs, offset, hlength, hafter⟩ := Lexer.scan_of_append le_rfl hcut
  have hback : after.flatMap (fun t => t.text.toList) = cs := by
    rw [hafter, scan_texts fuel cs offset hlength]
  have hstray : ∀ t ∈ Lexer.scan fuel cs offset, t.kind ≠ .stray := by
    intro t ht
    refine Token.ne_stray_of_parse hparse t ?_
    rw [hends.scan_eq, hafter]
    simp [ht]
  have hdescription : (Compile.described (b.setText text).lines node c).description =
      Compile.remark? (cs.takeWhile (· ≠ '\n')) := by
    change node.last?.bind (Compile.trailingComment? (Compile.linesOf text)) = _
    rw [hends.last_eq, Option.bind_some, Leaf.ofToken_of_stands hstands, hspelled]
    refine Compile.trailingComment?_behind ?_ rfl rfl
    rw [hstands.text_eq, hspelled, hback, List.append_assoc]
    rfl
  rw [hdescription, hafter]
  exact Lexer.remark?_iff_of_scan hlength hstray d

end Documents

/-- A comment behind a lone carriage return, on a line with a number sign inside of a string. -/
theorem description_iff_loneReturn :
    ∃ tree node before semicolon after,
      parse "key x int; auto z <- concat('é#', x);\r # twice # \r\nselect z;" = .ok tree ∧
      node ∈ tree.nodes ∧ node.EndsAt
        "key x int; auto z <- concat('é#', x);\r # twice # \r\nselect z;" before semicolon after ∧
      (Compile.described (({ env := .initial } : Builder).setText
        "key x int; auto z <- concat('é#', x);\r # twice # \r\nselect z;").lines node
          default).description = some "twice #" ∧
      Remark after "twice #" := by
  have hcomputed : ∃ tree,
      parse "key x int; auto z <- concat('é#', x);\r # twice # \r\nselect z;" = .ok tree ∧
      (fun tree => tree.nodes[1]?.bind fun node =>
        (Compile.described (({ env := .initial } : Builder).setText
          "key x int; auto z <- concat('é#', x);\r # twice # \r\nselect z;").lines node
            default).description) tree = some "twice #" := by
    apply exists_tree
    decide +kernel
  obtain ⟨tree, hparse, hcomputed⟩ := hcomputed
  obtain ⟨node, hsecond, hdescription⟩ := Option.bind_eq_some_iff.mp hcomputed
  have hnode : node ∈ tree.nodes := List.mem_of_getElem? hsecond
  obtain ⟨⟨before, semicolon, after, hends⟩, hremark⟩ := description_iff hparse hnode
  exact ⟨tree, node, before, semicolon, after, hparse, hnode, hends, hdescription,
    (hremark before semicolon after hends _ _ _).mp hdescription⟩

end ConceptQuery
