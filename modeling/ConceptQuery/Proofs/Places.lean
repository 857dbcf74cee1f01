import ConceptQuery.Proofs.Spelling
import ConceptQuery.Text.LineIndex
import Mathlib.Data.String.Basic

/-! # Places of tokens

The place behind a part of a text counts the newlines in that part and the
characters behind the last of them. Line indices find it from the number of bytes
(`LineIndex.locate_append`), later parts have later places, and every token of a
text stands behind one part of it. Tokens do not overlap, and between two names
there is always something else: a name ends where no other name can start.
-/
namespace ConceptQuery
open String (utf8Len)

namespace Position

/-- The number of characters behind the last newline. -/
def sinceNewline (front : List Char) : Nat :=
  (front.reverse.takeWhile (· ≠ '\n')).length

/-- The place of a cursor that has `front` before it. -/
def behind (front : List Char) : Position :=
  ⟨front.count '\n', sinceNewline front⟩

/-- One place comes before another in a text. -/
def Before (p q : Position) : Prop :=
  p.line < q.line ∨ p.line = q.line ∧ p.column < q.column

theorem Before.trans {p q r : Position} (h : p.Before q) (h' : q.Before r) : p.Before r := by
  unfold Before at *
  omega

theorem not_before_self (p : Position) : ¬ p.Before p := by
  unfold Before
  omega

theorem sinceNewline_snoc (front : List Char) (c : Char) :
    sinceNewline (front ++ [c]) = if c = '\n' then 0 else sinceNewline front + 1 := by
  by_cases hc : c = '\n' <;> simp [sinceNewline, hc]

theorem behind_snoc (front : List Char) (c : Char) :
    behind (front ++ [c]) =
      if c = '\n' then ⟨(behind front).line + 1, 0⟩
      else ⟨(behind front).line, (behind front).column + 1⟩ := by
  unfold behind
  rw [sinceNewline_snoc, List.count_append, List.count_singleton]
  by_cases hc : c = '\n'
  · simp [hc]
  · simp [hc]

theorem before_behind_snoc (front : List Char) (c : Char) :
    (behind front).Before (behind (front ++ [c])) := by
  rw [behind_snoc]
  split
  · exact .inl (Nat.lt_succ_self _)
  · exact .inr ⟨rfl, Nat.lt_succ_self _⟩

theorem before_behind_append (front : List Char) {more : List Char} (h : more ≠ []) :
    (behind front).Before (behind (front ++ more)) := by
  induction more generalizing front with
  | nil => exact absurd rfl h
  | cons c more ih =>
    have hfirst := before_behind_snoc front c
    cases more with
    | nil => exact hfirst
    | cons d more =>
      have hmore := ih (front ++ [c]) (by simp)
      rw [List.append_assoc] at hmore
      exact hfirst.trans hmore

/-- On one line the columns count the characters. -/
theorem behind_append {piece : List Char} (front : List Char) (h : '\n' ∉ piece) :
    behind (front ++ piece) = ⟨(behind front).line, (behind front).column + piece.length⟩ := by
  induction piece generalizing front with
  | nil => simp
  | cons c piece ih =>
    obtain ⟨hc, hpiece⟩ : '\n' ≠ c ∧ '\n' ∉ piece := by simpa using h
    have hmore := ih (front ++ [c]) hpiece
    rw [List.append_assoc, List.singleton_append, behind_snoc, if_neg hc.symm] at hmore
    rw [hmore, List.length_cons, Nat.add_assoc, Nat.add_comm 1]

/-- The places on the line of a piece of text, from its start to its end. -/
theorem exists_inside_iff {front piece : List Char} (h : '\n' ∉ piece) (p : Position) :
    (∃ inside rest, piece = inside ++ rest ∧ p = behind (front ++ inside)) ↔
      p.line = (behind front).line ∧ (behind front).column ≤ p.column ∧
        p.column ≤ (behind front).column + piece.length := by
  constructor
  · rintro ⟨inside, rest, rfl, rfl⟩
    rw [behind_append front (fun hmem => h (List.mem_append_left rest hmem)), List.length_append]
    exact ⟨rfl, Nat.le_add_right _ _, Nat.add_le_add_left (Nat.le_add_right _ _) _⟩
  · rintro ⟨hline, hstart, hstop⟩
    refine ⟨piece.take (p.column - (behind front).column), piece.drop _,
      (List.take_append_drop _ _).symm, ?_⟩
    rw [behind_append front (fun hmem => h (List.mem_of_mem_take hmem)), List.length_take,
      Nat.min_eq_left (by omega), Nat.add_sub_cancel' hstart, ← hline]

end Position

namespace LineIndex
open Position

/-- From the place behind what is done, the walk goes on to the place behind the
front of what is left. -/
theorem walk_append (done front back : List Char) :
    walk (utf8Len done + utf8Len front) (front ++ back) (utf8Len done) (behind done) =
      behind (done ++ front) := by
  induction front generalizing done with
  | nil =>
    rw [List.nil_append, List.append_nil, String.utf8Len_nil, Nat.add_zero]
    cases back with
    | nil => rw [walk, if_neg (Nat.lt_irrefl _)]
    | cons c back => rw [walk, if_neg (Nat.lt_irrefl _), if_pos rfl]
  | cons c front ih =>
    have hsize := c.utf8Size_pos
    have hmore := ih (done ++ [c])
    rw [String.utf8Len_append, String.utf8Len_cons, String.utf8Len_nil, Nat.zero_add, behind_snoc,
      List.append_assoc, List.singleton_append] at hmore
    rw [String.utf8Len_cons, List.cons_append, walk, if_neg (by omega), if_neg (by omega), ← hmore]
    congr 1
    omega

theorem locate_append (front back : List Char) :
    locate (front ++ back) (utf8Len front) = behind front := by
  have hwalk := walk_append [] front back
  rw [String.utf8Len_nil, Nat.zero_add] at hwalk
  exact hwalk

end LineIndex

/-- The token stands in a text behind one part of it and in front of another. -/
structure Token.Stands (text : List Char) (t : Token) (front back : List Char) : Prop where
  text_eq : text = front ++ t.text.toList ++ back
  offset_eq : t.offset = utf8Len front

theorem Token.Stands.stop_eq {text : List Char} {t : Token} {front back : List Char}
    (h : t.Stands text front back) : t.stop = utf8Len (front ++ t.text.toList) := by
  rw [stop, h.offset_eq, String.utf8Len_append, String.utf8Len_toList]

theorem Consecutive.stands {offset : Nat} {tokens : List Token} (h : Consecutive offset tokens)
    (done : List Char) (hdone : offset = utf8Len done) {t : Token} (ht : t ∈ tokens) :
    ∃ front back, t.Stands (done ++ tokens.flatMap fun t => t.text.toList) front back := by
  induction tokens generalizing offset done with
  | nil => cases ht
  | cons u tokens ih =>
    obtain ⟨hoffset, -, -, hrest⟩ := h
    rcases List.mem_cons.mp ht with rfl | ht
    · refine ⟨done, tokens.flatMap fun t => t.text.toList, ?_, hoffset.trans hdone⟩
      rw [List.flatMap_cons, List.append_assoc]
    · have hstop : u.stop = utf8Len (done ++ u.text.toList) := by
        rw [Token.stop, hoffset, hdone, String.utf8Len_append, String.utf8Len_toList]
      have hlater := ih hrest (done ++ u.text.toList) hstop ht
      rw [List.append_assoc] at hlater
      exact hlater

theorem Token.stands_of_mem_scan {text : String} {t : Token} (h : t ∈ Token.scan text) :
    ∃ front back, t.Stands text.toList front back := by
  have hstands := (Token.scan_consecutive text).stands [] rfl h
  rwa [List.nil_append, Token.scan_texts] at hstands

/-- No token is empty. -/
theorem Consecutive.text_ne {offset : Nat} {tokens : List Token} (h : Consecutive offset tokens)
    {t : Token} (ht : t ∈ tokens) : t.text.toList ≠ [] := by
  induction tokens generalizing offset with
  | nil => cases ht
  | cons u tokens ih =>
    obtain ⟨-, hne, -, hrest⟩ := h
    rcases List.mem_cons.mp ht with rfl | ht
    · exact hne
    · exact ih hrest ht

theorem Consecutive.offset_le {offset : Nat} {tokens : List Token} (h : Consecutive offset tokens)
    {t : Token} (ht : t ∈ tokens) : offset ≤ t.offset := by
  induction tokens generalizing offset with
  | nil => cases ht
  | cons u tokens ih =>
    obtain ⟨hoffset, -, -, hrest⟩ := h
    rcases List.mem_cons.mp ht with rfl | ht
    · exact hoffset.ge
    · have hlater := ih hrest ht
      rw [Token.stop] at hlater
      omega

namespace Lexer

theorem not_startsName_of_not_continuesName {c : Char} (h : ¬ continuesName c = true) :
    startsName c = false := by
  simp only [continuesName, Bool.or_eq_true, not_or, Bool.not_eq_true] at h
  exact h.1

/-- Where a name ends no other name starts. -/
theorem nameTail_rest (cs : List Char) : ∀ d ∈ (nameTail cs).2.head?, startsName d = false := by
  fun_induction nameTail cs with
  | case1 => simp
  | case2 c rest hc piece after hp ih => simpa [hp] using ih
  | case3 c rest hc => simp; decide
  | case4 c rest hdot hc piece after hp ih => simpa [hp] using ih
  | case5 c rest hdot hc => simpa using not_startsName_of_not_continuesName hc

theorem nameKind_cases (name after : List Char) :
    nameKind name after = .ident ∨ ∃ k, nameKind name after = .keyword k := by
  unfold nameKind
  split
  · exact .inl rfl
  · exact .inr ⟨_, rfl⟩
  · exact .inl rfl

theorem number_kind (digits after : List Char) :
    (number digits after).1 = .integer ∨ (number digits after).1 = .float := by
  unfold number
  split
  · split
    · exact .inr rfl
    · exact .inl rfl
  · exact .inl rfl

theorem string_kind (quote : Char) (after : List Char) :
    (string quote after).1 = .string ∨ (string quote after).1 = .stray := by
  unfold string
  split
  · split
    · exact .inl rfl
    · exact .inr rfl
  · exact .inr rfl

theorem symbol_kind (c : Char) (after : List Char) :
    (symbol c after).1 = .stray ∨ ∃ p, (symbol c after).1 = .punctuation p := by
  have alone : (single? c).elim TokenKind.stray TokenKind.punctuation = .stray ∨
      ∃ p, (single? c).elim TokenKind.stray TokenKind.punctuation = .punctuation p := by
    cases single? c with
    | none => exact .inl rfl
    | some p => exact .inr ⟨p, rfl⟩
  unfold symbol
  split
  · exact alone
  · split
    · exact .inr ⟨_, rfl⟩
    · exact alone

/-- Only names are identifiers, so no other name starts where one ends. -/
theorem next_rest_of_ident {c : Char} {after : List Char} (h : (next c after).1 = .ident) :
    ∀ d ∈ (next c after).2.2.head?, startsName d = false := by
  unfold next at h ⊢
  split_ifs at h ⊢ with hspace hname hdigit hquote hcomment
  · exact nameTail_rest after
  · rcases number_kind _ _ with hk | hk <;> cases hk.symm.trans h
  · rcases string_kind _ _ with hk | hk <;> cases hk.symm.trans h
  · cases h
  · split at h
    · cases h
    · rcases symbol_kind _ _ with hk | ⟨p, hk⟩ <;> cases hk.symm.trans h

end Lexer

/-- The first token is behind the second, with something between two identifiers. -/
structure Token.Apart (t u : Token) : Prop where
  stop_le : t.stop ≤ u.offset
  stop_lt : t.kind = .ident → u.kind = .ident → t.stop < u.offset

theorem Lexer.apart_of_mem_scan {fuel : Nat} {c : Char} {after : List Char} {offset : Nat}
    {u : Token} (hu : u ∈ Lexer.scan fuel (next c after).2.2
      (offset + (String.ofList (next c after).2.1).utf8ByteSize)) :
    Token.Apart ⟨(next c after).1, String.ofList (next c after).2.1, offset⟩ u := by
  have hplaces := ConceptQuery.scan_consecutive fuel (next c after).2.2
    (offset + (String.ofList (next c after).2.1).utf8ByteSize)
  refine ⟨hplaces.offset_le hu, fun hident hu' => ?_⟩
  cases fuel with
  | zero => cases hu
  | succ fuel =>
    cases hrest : (next c after).2.2 with
    | nil =>
      rw [hrest] at hu
      cases hu
    | cons d rest =>
      have hfirst : startsName d = false := next_rest_of_ident hident d (by rw [hrest]; rfl)
      rw [hrest, scan_cons] at hu hplaces
      obtain ⟨-, hne, -, hlater⟩ := hplaces
      rcases List.mem_cons.mp hu with rfl | hu
      · -- the token right behind starts with the character that no name starts with
        obtain ⟨e, more, hcut, he, -⟩ : IsName (next d rest).2.1 := by
          have hspells := next_spells d rest
          rw [show (next d rest).1 = .ident from hu'] at hspells
          exact hspells
        have happend := (next_cuts d rest).1
        rw [hcut, List.cons_append] at happend
        rw [(List.cons.inj happend).1, hfirst] at he
        cases he
      · have hle := hlater.offset_le hu
        have hpos : 0 < (String.ofList (next d rest).2.1).utf8ByteSize := by
          rw [Nat.pos_iff_ne_zero, ne_eq, String.utf8ByteSize_eq_zero_iff]
          exact fun hempty => hne (by rw [hempty]; rfl)
        simp only [Token.stop] at hle ⊢
        omega

theorem Lexer.scan_pairwise (fuel : Nat) (cs : List Char) (offset : Nat) :
    (Lexer.scan fuel cs offset).Pairwise Token.Apart := by
  induction fuel generalizing cs offset with
  | zero => exact .nil
  | succ fuel ih =>
    cases cs with
    | nil => exact .nil
    | cons c after =>
      rw [scan_cons]
      exact List.pairwise_cons.mpr ⟨fun u hu => apart_of_mem_scan hu, ih _ _⟩

/-- The tokens of a text do not overlap, and its identifiers do not touch. -/
theorem Token.scan_pairwise (text : String) : (Token.scan text).Pairwise Token.Apart :=
  Lexer.scan_pairwise _ _ _

namespace Token
variable {text : List Char} {t u : Token} {front back front' back' : List Char}

/-- Of two parts that a text starts with, the one with fewer bytes is part of the
other. -/
theorem exists_append_of_utf8Len_le {a b c d : List Char} (h : a ++ b = c ++ d)
    (hle : utf8Len a ≤ utf8Len c) : ∃ more, c = a ++ more := by
  rcases List.append_eq_append_iff.mp h with ⟨more, hc, -⟩ | ⟨more, ha, -⟩
  · exact ⟨more, hc⟩
  · rw [ha, String.utf8Len_append] at hle
    obtain rfl := String.utf8Len_eq_zero.mp (show utf8Len more = 0 by omega)
    exact ⟨[], by simpa using ha.symm⟩

/-- What stands in front of the later token starts with all up to the end of the
earlier one. -/
theorem Apart.exists_between (h : t.Apart u) (ht : t.Stands text front back)
    (hu : u.Stands text front' back') : ∃ more, front' = front ++ t.text.toList ++ more ∧
      (t.kind = .ident → u.kind = .ident → more ≠ []) := by
  have htext := ht.text_eq.symm.trans hu.text_eq
  rw [List.append_assoc front'] at htext
  obtain ⟨more, hmore⟩ := exists_append_of_utf8Len_le htext
    (by rw [← ht.stop_eq, ← hu.offset_eq]; exact h.stop_le)
  refine ⟨more, hmore, fun hident hident' => ?_⟩
  rintro rfl
  have hlt := h.stop_lt hident hident'
  rw [ht.stop_eq, hu.offset_eq, hmore, List.append_nil] at hlt
  exact Nat.lt_irrefl _ hlt

end Token
end ConceptQuery
