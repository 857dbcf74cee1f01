import ConceptQuery.Proofs.Layout

/-! # Texts put together

If the last token of a text is a semicolon, then the tokens of the text stay the same
whatever is written behind it, and what is behind it is cut as if it stood alone. So
the lexemes of both texts together are those of the first and then those of the
second; the blank space between them belongs to the semicolon, and the second starts
a line or not as it did before.
-/
namespace ConceptQuery

/-- A run that comes to an end does not go on behind it. -/
theorem run_before {α : Type} {p : α → Bool} {xs ys : List α} (h : xs.dropWhile p ≠ []) :
    (xs ++ ys).takeWhile p = xs.takeWhile p ∧ (xs ++ ys).dropWhile p = xs.dropWhile p ++ ys := by
  induction xs with
  | nil => exact absurd rfl h
  | cons x xs ih =>
    by_cases hx : p x
    · rw [List.dropWhile_cons_of_pos hx] at h
      obtain ⟨htake, hdrop⟩ := ih h
      rw [List.cons_append, List.takeWhile_cons_of_pos hx, List.takeWhile_cons_of_pos hx,
        List.dropWhile_cons_of_pos hx, List.dropWhile_cons_of_pos hx, htake, hdrop]
      exact ⟨rfl, rfl⟩
    · rw [List.cons_append, List.takeWhile_cons_of_neg hx, List.takeWhile_cons_of_neg hx,
        List.dropWhile_cons_of_neg hx, List.dropWhile_cons_of_neg hx]
      exact ⟨rfl, rfl⟩

/-- The token in a place further back by so many bytes. -/
def Token.later (n : Nat) (t : Token) : Token :=
  { t with offset := n + t.offset }

namespace Lexer
variable {cs b : List Char} {c quote : Char}

/-- The characters end with a semicolon. -/
def Sealed (cs : List Char) : Prop :=
  cs.getLast? = some ';'

theorem Sealed.ne_nil (h : Sealed cs) : cs ≠ [] := by
  rintro rfl
  cases h

theorem Sealed.of_suffix {rest : List Char} (h : Sealed cs) (hs : rest <:+ cs) (hne : rest ≠ []) :
    Sealed rest := by
  obtain ⟨front, rfl⟩ := hs
  rw [Sealed, List.getLast?_append, List.getLast?_eq_some_getLast hne, Option.some_or] at h
  rw [Sealed, List.getLast?_eq_some_getLast hne, h]

theorem not_sealed_singleton (h : c ≠ ';') : ¬ Sealed [c] := by
  intro hs
  exact h (Option.some.inj hs)

theorem nameTail_cons_of_ne (h : c ≠ '.') : nameTail (c :: cs) =
    if continuesName c then (c :: (nameTail cs).1, (nameTail cs).2) else ([], c :: cs) :=
  nameTail.eq_3 c cs fun _ _ hc _ => h hc

theorem nameTail_before (h : Sealed (nameTail cs).2) :
    nameTail (cs ++ b) = ((nameTail cs).1, (nameTail cs).2 ++ b) := by
  induction cs using nameTail.induct with
  | case1 => cases h
  | case2 c rest hc piece after heq ih =>
    simp only [nameTail, hc, if_true] at h ⊢
    simp only [List.cons_append, nameTail, hc, if_true]
    rw [ih h]
  | case3 c rest hc =>
    simp only [List.cons_append, nameTail, hc]
    rfl
  | case4 c rest hdot hc piece after heq ih =>
    have hne : c ≠ '.' := by
      rintro rfl
      cases hc
    rw [List.cons_append, nameTail_cons_of_ne hne, nameTail_cons_of_ne hne, if_pos hc, if_pos hc]
    rw [nameTail_cons_of_ne hne, if_pos hc] at h
    rw [ih h]
  | case5 c rest hdot hc =>
    have hne : c ≠ '.' := by
      rintro rfl
      cases rest with
      | nil => exact not_sealed_singleton (by decide) h
      | cons d rest => exact hdot d rest rfl rfl
    rw [List.cons_append, nameTail_cons_of_ne hne, nameTail_cons_of_ne hne, if_neg hc, if_neg hc]
    rfl

theorem stringBody_cons_of_ne (h : c ≠ '\\') : stringBody quote (c :: cs) =
    if c = quote then ([], c :: cs) else (c :: (stringBody quote cs).1, (stringBody quote cs).2) := by
  rw [stringBody.eq_3 quote c cs fun _ _ hc _ => h hc]
  simp [h]

theorem stringBody_before (h : Sealed (stringBody quote cs).2) :
    stringBody quote (cs ++ b) = ((stringBody quote cs).1, (stringBody quote cs).2 ++ b) := by
  induction cs using stringBody.induct quote with
  | case1 => cases h
  | case2 rest => rfl
  | case3 c rest hc piece after heq ih =>
    simp only [stringBody, hc, if_false] at h ⊢
    simp only [List.cons_append, stringBody, hc, if_false]
    rw [ih h]
  | case4 c rest hslash hc =>
    have hne : c ≠ '\\' := by
      rintro rfl
      cases rest with
      | nil =>
        rw [stringBody.eq_3 quote _ _ hslash, if_pos hc] at h
        exact not_sealed_singleton (by decide) h
      | cons d rest => exact hslash d rest rfl rfl
    have hquote : c = quote := by simpa [hne] using hc
    rw [List.cons_append, stringBody_cons_of_ne hne, stringBody_cons_of_ne hne, if_pos hquote,
      if_pos hquote]
    rfl
  | case5 c rest hslash hc piece after heq ih =>
    have hne : c ≠ '\\' := by
      rintro rfl
      simp at hc
    have hquote : c ≠ quote := by
      rintro rfl
      simp at hc
    rw [List.cons_append, stringBody_cons_of_ne hne, stringBody_cons_of_ne hne, if_neg hquote,
      if_neg hquote]
    rw [stringBody_cons_of_ne hne, if_neg hquote] at h
    rw [ih h]

theorem number_of_ne {digits : List Char} (h : c ≠ '.') :
    number digits (c :: cs) = (.integer, digits, c :: cs) := by
  rw [number]
  rintro d rest hc
  exact h (List.cons.inj hc).1

theorem number_before {digits : List Char} (h : Sealed (number digits cs).2.2) :
    number digits (cs ++ b) =
      ((number digits cs).1, (number digits cs).2.1, (number digits cs).2.2 ++ b) := by
  cases cs with
  | nil => cases h
  | cons c cs =>
    by_cases hc : c = '.'
    · subst hc
      cases cs with
      | nil => exact absurd h (not_sealed_singleton (by decide))
      | cons d rest =>
        by_cases hd : isDigit d
        · simp only [number, hd, if_true] at h ⊢
          obtain ⟨htake, hdrop⟩ : (rest ++ b).takeWhile isDigit = rest.takeWhile isDigit ∧
            (rest ++ b).dropWhile isDigit = rest.dropWhile isDigit ++ b := run_before h.ne_nil
          simp only [List.cons_append, hd, if_true, htake, hdrop]
        · simp only [List.cons_append, number, hd]
          rfl
    · rw [List.cons_append, number_of_ne hc, number_of_ne hc]
      rfl

theorem string_before (h : Sealed (string quote cs).2.2) :
    string quote (cs ++ b) =
      ((string quote cs).1, (string quote cs).2.1, (string quote cs).2.2 ++ b) := by
  cases hbody : stringBody quote cs with
  | mk body after =>
    cases after with
    | nil =>
      simp only [string, hbody] at h
      cases h
    | cons d rest =>
      have hsealed : Sealed (stringBody quote cs).2 := by
        rw [hbody]
        simp only [string, hbody] at h
        by_cases hd : d = quote
        · rw [if_pos hd] at h
          obtain ⟨e, rest, rfl⟩ := List.exists_cons_of_ne_nil h.ne_nil
          rw [Sealed, List.getLast?_cons_cons]
          exact h
        · rw [if_neg hd] at h
          exact h
      have hbefore : stringBody quote (cs ++ b) = _ := stringBody_before hsealed
      rw [hbody] at hbefore
      by_cases hd : d = quote
      · simp only [string, hbefore, hbody, List.cons_append, if_pos hd]
      · simp only [string, hbefore, hbody, List.cons_append, if_neg hd]

theorem symbol_before (h : cs ≠ []) :
    symbol c (cs ++ b) = ((symbol c cs).1, (symbol c cs).2.1, (symbol c cs).2.2 ++ b) := by
  obtain ⟨d, rest, rfl⟩ := List.exists_cons_of_ne_nil h
  cases hp : pair? c d with
  | none => simp only [symbol, List.cons_append, hp]
  | some p => simp only [symbol, List.cons_append, hp]

theorem nameKind_before {name : List Char} (h : cs ≠ []) :
    nameKind name (cs ++ b) = nameKind name cs := by
  obtain ⟨d, rest, rfl⟩ := List.exists_cons_of_ne_nil h
  unfold nameKind
  cases Keyword.ofText? (String.ofList name) with
  | none => rfl
  | some k =>
    by_cases hd : d = '.'
    · subst hd
      rfl
    · simp [hd]

/-- A comment from two slashes on, or a mark. -/
def slashOrMark (c : Char) (after : List Char) : TokenKind × Cut :=
  if c = '/' ∧ after.head? = some '/' then lineComment ['/', '/'] after.tail else symbol c after

theorem next_eq (c : Char) (after : List Char) : next c after =
    if isSpace c then (.space, c :: after.takeWhile isSpace, after.dropWhile isSpace)
    else if startsName c then
      (nameKind (c :: (nameTail after).1) (nameTail after).2, c :: (nameTail after).1,
        (nameTail after).2)
    else if isDigit c then number (c :: after.takeWhile isDigit) (after.dropWhile isDigit)
    else if c = '"' || c = '\'' then string c after
    else if c = '#' then lineComment ['#'] after
    else slashOrMark c after := by
  unfold next slashOrMark
  split_ifs with hspace hname hdigit hquote hcomment hslash
  · rfl
  · rfl
  · rfl
  · rfl
  · rfl
  · obtain ⟨rfl, hhead⟩ := hslash
    obtain ⟨rest, rfl⟩ := List.head?_eq_some_iff.mp hhead
    rfl
  · split
    · exact absurd ⟨rfl, rfl⟩ hslash
    · rfl

theorem lineComment_before {front : List Char} (h : Sealed (lineComment front cs).2.2) :
    lineComment front (cs ++ b) =
      ((lineComment front cs).1, (lineComment front cs).2.1, (lineComment front cs).2.2 ++ b) := by
  obtain ⟨htake, hdrop⟩ : (cs ++ b).takeWhile (· ≠ '\n') = cs.takeWhile (· ≠ '\n') ∧
    (cs ++ b).dropWhile (· ≠ '\n') = cs.dropWhile (· ≠ '\n') ++ b := run_before h.ne_nil
  simp only [lineComment, htake, hdrop]

theorem slashOrMark_before (hne : cs ≠ []) (h : Sealed (slashOrMark c cs).2.2) :
    slashOrMark c (cs ++ b) =
      ((slashOrMark c cs).1, (slashOrMark c cs).2.1, (slashOrMark c cs).2.2 ++ b) := by
  obtain ⟨d, rest, rfl⟩ := List.exists_cons_of_ne_nil hne
  have hhead : (d :: rest ++ b).head? = (d :: rest).head? := rfl
  unfold slashOrMark at h ⊢
  rw [hhead]
  split_ifs at h ⊢ with hslash
  · exact lineComment_before h
  · exact symbol_before hne

/-- A token with something behind it that ends with a semicolon is cut off in the
same way whatever is behind that. -/
theorem next_before (h : Sealed (next c cs).2.2) :
    next c (cs ++ b) = ((next c cs).1, (next c cs).2.1, (next c cs).2.2 ++ b) := by
  have hne : cs ≠ [] := by
    rintro rfl
    have hcuts := (next_cuts c []).1
    have hlength := congrArg List.length hcuts
    have hpiece := List.length_pos_iff.mpr (next_cuts c []).2
    have hrest := List.length_pos_iff.mpr h.ne_nil
    simp only [List.length_append, List.length_cons, List.length_nil] at hlength
    omega
  rw [next_eq] at h
  rw [next_eq, next_eq]
  split_ifs at h ⊢ with hspace hname hdigit hquote hcomment
  · obtain ⟨htake, hdrop⟩ : (cs ++ b).takeWhile isSpace = cs.takeWhile isSpace ∧
      (cs ++ b).dropWhile isSpace = cs.dropWhile isSpace ++ b := run_before h.ne_nil
    rw [htake, hdrop]
  · have htail : nameTail (cs ++ b) = ((nameTail cs).1, (nameTail cs).2 ++ b) := nameTail_before h
    rw [htail, nameKind_before h.ne_nil]
  · have hne : cs.dropWhile isDigit ≠ [] := by
      intro hnil
      rw [hnil] at h
      cases h
    obtain ⟨htake, hdrop⟩ : (cs ++ b).takeWhile isDigit = cs.takeWhile isDigit ∧
      (cs ++ b).dropWhile isDigit = cs.dropWhile isDigit ++ b := run_before hne
    rw [htake, hdrop]
    exact number_before h
  · exact string_before h
  · exact lineComment_before h
  · exact slashOrMark_before hne h

/-- The last token is a semicolon only if the last character is one by itself. -/
theorem eq_of_next_semicolon (hk : (next c cs).1 = .punctuation .semicolon)
    (hr : (next c cs).2.2 = []) : c = ';' ∧ cs = [] := by
  have hspells := next_spells c cs
  have hcuts := (next_cuts c cs).1
  rw [hr, List.append_nil] at hcuts
  rw [hk, hcuts] at hspells
  have hlist : c :: cs = [';'] := hspells
  exact List.cons.inj hlist

theorem length_rest_le (c : Char) (cs : List Char) : (next c cs).2.2.length ≤ cs.length := by
  have hcuts := congrArg List.length (next_cuts c cs).1
  have hpiece := List.length_pos_iff.mpr (next_cuts c cs).2
  simp only [List.length_append, List.length_cons] at hcuts
  omega

/-- Behind some of its tokens a text is cut as it would be from there on. -/
theorem scan_of_append {fuel offset : Nat} {before after : List Token} (hlength : cs.length ≤ fuel)
    (h : scan fuel cs offset = before ++ after) :
    ∃ fuel' cs' offset', cs'.length ≤ fuel' ∧ after = scan fuel' cs' offset' := by
  induction before generalizing fuel cs offset with
  | nil => exact ⟨fuel, cs, offset, hlength, h.symm⟩
  | cons t before ih =>
    cases fuel with
    | zero => cases h
    | succ fuel =>
      cases cs with
      | nil => cases h
      | cons c cs =>
        rw [scan_cons, List.cons_append] at h
        exact ih ((length_rest_le c cs).trans (Nat.le_of_succ_le_succ hlength)) (List.cons.inj h).2

/-- As many cuts as characters are enough, and more make no difference. -/
theorem scan_enough {fuel : Nat} (h : cs.length ≤ fuel) (offset : Nat) :
    scan fuel cs offset = scan cs.length cs offset := by
  induction fuel using Nat.strong_induction_on generalizing cs offset with
  | _ fuel ih =>
    cases cs with
    | nil => cases fuel <;> rfl
    | cons c cs =>
      obtain ⟨fuel, rfl⟩ := Nat.exists_eq_add_of_le' (Nat.le_of_add_left_le h)
      have hlength := length_rest_le c cs
      simp only [List.length_cons] at h
      rw [scan_cons, List.length_cons, scan_cons, ih fuel (by omega) (by omega),
        ← ih cs.length (by omega) hlength]

/-- Later in a text the same characters make the same tokens. -/
theorem scan_later (fuel : Nat) (cs : List Char) (offset n : Nat) :
    scan fuel cs (n + offset) = (scan fuel cs offset).map (Token.later n) := by
  induction fuel generalizing cs offset with
  | zero => rfl
  | succ fuel ih =>
    cases cs with
    | nil => rfl
    | cons c cs =>
      rw [scan_cons, scan_cons, List.map_cons, Nat.add_assoc, ih]
      rfl

/-- The first token and the rest, without fuel. -/
theorem scan_first (c : Char) (cs : List Char) (offset : Nat) :
    scan (c :: cs).length (c :: cs) offset =
      ⟨(next c cs).1, String.ofList (next c cs).2.1, offset⟩ ::
        scan (next c cs).2.2.length (next c cs).2.2
          (offset + (String.ofList (next c cs).2.1).utf8ByteSize) := by
  rw [List.length_cons, scan_cons, scan_enough (length_rest_le c cs)]

theorem scan_semicolon (offset : Nat) : scan (';' :: b).length (';' :: b) offset =
    ⟨.punctuation .semicolon, ";", offset⟩ :: scan b.length b (offset + 1) := by
  have hnext : next ';' b = (.punctuation .semicolon, [';'], b) := by
    cases b with
    | nil => rfl
    | cons d b => rfl
  rw [scan_first, hnext]
  rfl

/-- What is written behind a text whose last token is a semicolon changes none of its
tokens, and is cut as it would be by itself. -/
theorem scan_before (hs : Sealed cs) (offset : Nat)
    (hk : ∀ t ∈ (scan cs.length cs offset).getLast?, t.kind = .punctuation .semicolon) :
    scan (cs ++ b).length (cs ++ b) offset = scan cs.length cs offset ++
      scan b.length b (offset + (String.ofList cs).utf8ByteSize) := by
  induction hn : cs.length using Nat.strong_induction_on generalizing cs offset with
  | _ n ih =>
    subst hn
    obtain ⟨c, cs, rfl⟩ := List.exists_cons_of_ne_nil hs.ne_nil
    rw [scan_first] at hk ⊢
    by_cases hrest : (next c cs).2.2 = []
    · -- the semicolon itself
      rw [hrest] at hk
      obtain ⟨rfl, rfl⟩ := eq_of_next_semicolon (hk _ rfl) hrest
      exact scan_semicolon offset
    · have hcuts := (next_cuts c cs).1
      have hsealed : Sealed (next c cs).2.2 := hs.of_suffix ⟨_, hcuts⟩ hrest
      have hnext : next c (cs ++ b) = _ := next_before hsealed
      have hlast : ∀ t ∈ (scan (next c cs).2.2.length (next c cs).2.2
          (offset + (String.ofList (next c cs).2.1).utf8ByteSize)).getLast?,
          t.kind = .punctuation .semicolon := by
        intro t ht
        apply hk
        rw [List.getLast?_cons]
        simp [Option.mem_def.mp ht]
      have hmore := ih _ (by have := length_rest_le c cs; simp only [List.length_cons]; omega)
        hsealed _ hlast rfl
      have hsize : (String.ofList (c :: cs)).utf8ByteSize =
          (String.ofList (next c cs).2.1).utf8ByteSize +
            (String.ofList (next c cs).2.2).utf8ByteSize := by
        rw [← hcuts, String.ofList_append, String.utf8ByteSize_append]
      rw [List.cons_append, scan_first, hnext, hmore, hsize, Nat.add_assoc, List.cons_append]

end Lexer

/-- The last token of the text is a semicolon. -/
def Token.Closes (text : String) : Prop :=
  ∃ t, (Token.scan text).getLast? = some t ∧ t.kind = .punctuation .semicolon

theorem Lexer.sealed_of_closes {text : String} (h : Token.Closes text) :
    Lexer.Sealed text.toList := by
  obtain ⟨t, hlast, hk⟩ := h
  obtain ⟨front, hscan⟩ := List.getLast?_eq_some_iff.mp hlast
  have hspells := (Token.scan_consecutive text).spells (t := t) (by simp [hscan])
  rw [hk] at hspells
  have htext : t.text.toList = [';'] := hspells
  rw [Lexer.Sealed, ← Token.scan_texts, hscan, List.flatMap_append, List.flatMap_singleton, htext,
    List.getLast?_concat]

theorem Token.scan_append {a : String} (h : Token.Closes a) (b : String) :
    Token.scan (a ++ b) = Token.scan a ++ (Token.scan b).map (Token.later a.utf8ByteSize) := by
  have hlast : ∀ t ∈ (Token.scan a).getLast?, t.kind = .punctuation .semicolon := by
    intro t ht
    obtain ⟨u, hu, hk⟩ := h
    rw [hu] at ht
    exact Option.some.inj ht ▸ hk
  have hbefore : Lexer.scan (a.toList ++ b.toList).length (a.toList ++ b.toList) 0 = _ :=
    Lexer.scan_before (Lexer.sealed_of_closes h) 0 hlast
  rw [Token.scan, String.toList_append, hbefore, Nat.zero_add, String.ofList_toList]
  exact congrArg _ (Lexer.scan_later _ _ 0 _)

namespace Lexeme

/-- The lexeme without the trivia after it. -/
def alone (l : Lexeme) : Lexeme :=
  { l with trivia := [] }

def later (n : Nat) (l : Lexeme) : Lexeme :=
  { l with token := l.token.later n, trivia := l.trivia.map (Token.later n) }

theorem breaksLine_later (n : Nat) (trivia : List Token) :
    breaksLine (trivia.map (Token.later n)) = breaksLine trivia := by
  rw [breaksLine, List.any_map]
  rfl

theorem takeWhile_later (n : Nat) (tokens : List Token) :
    (tokens.map (Token.later n)).takeWhile (fun u => u.kind.isTrivia) =
      (tokens.takeWhile fun u => u.kind.isTrivia).map (Token.later n) := by
  rw [List.takeWhile_map]
  rfl

theorem group_later (n : Nat) (startsLine : Bool) (tokens : List Token) :
    group startsLine (tokens.map (Token.later n)) = (group startsLine tokens).map (later n) := by
  induction tokens generalizing startsLine with
  | nil => rfl
  | cons t rest ih =>
    have hkind : (t.later n).kind = t.kind := rfl
    rw [List.map_cons, group, group, hkind]
    split
    · exact ih startsLine
    · simp only [takeWhile_later, breaksLine_later, ih]
      rfl

/-- A run of trivia ends in front of a token that is none. -/
theorem trivia_before {tokens more : List Token} {t : Token} (hlast : tokens.getLast? = some t)
    (ht : t.kind.isTrivia = false) :
    (tokens ++ more).takeWhile (fun u => u.kind.isTrivia) =
      tokens.takeWhile fun u => u.kind.isTrivia := by
  have hends : tokens.dropWhile (fun u => u.kind.isTrivia) ≠ [] := by
    intro hnil
    have hall := List.dropWhile_eq_nil_iff.mp hnil t (List.mem_of_getLast? hlast)
    rw [ht] at hall
    cases hall
  exact (run_before hends).1

/-- The lexemes of tokens whose last is no trivia, and those of what is behind. -/
theorem group_append {tokens more : List Token} {t : Token} (hlast : tokens.getLast? = some t)
    (ht : t.kind.isTrivia = false) (startsLine : Bool) :
    (group startsLine (tokens ++ more)).map alone = (group startsLine tokens).map alone ++
      (group (breaksLine (more.takeWhile fun u => u.kind.isTrivia)) more).map alone := by
  induction tokens generalizing startsLine with
  | nil => cases hlast
  | cons u rest ih =>
    cases rest with
    | nil =>
      have hu : u = t := Option.some.inj hlast
      rw [List.singleton_append, group, group, if_neg (by simp [hu, ht]), if_neg (by simp [hu, ht])]
      rfl
    | cons v rest =>
      rw [List.getLast?_cons_cons] at hlast
      rw [List.cons_append, group, group]
      split
      · exact ih hlast startsLine
      · simp only [trivia_before hlast ht, List.map_cons, ih hlast]
        rfl

/-- The lexemes of two texts together, the first of which ends with a semicolon. -/
theorem ofText_append {a : String} (h : Token.Closes a) (b : String) :
    (ofText (a ++ b)).map alone =
      (ofText a).map alone ++ ((ofText b).map (later a.utf8ByteSize)).map alone := by
  obtain ⟨t, hlast, hk⟩ := id h
  have ht : t.kind.isTrivia = false := by
    rw [hk]
    rfl
  rw [ofText, Token.scan_append h, trivia_before hlast ht, group_append hlast ht, takeWhile_later,
    breaksLine_later, group_later]
  rfl

end Lexeme

end ConceptQuery
