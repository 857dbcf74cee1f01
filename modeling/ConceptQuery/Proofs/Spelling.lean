import ConceptQuery.Token.Lexer
import Mathlib.Data.List.TakeWhile

/-! # What tokens spell

Cutting loses nothing: the texts of the tokens, one after the other, are the text
that was cut, each token stands where its offset says, and none is empty. The text
of a token fits its kind: keywords and marks have one spelling each, a whole number
has digits only, and a name has no empty segment.
-/
namespace ConceptQuery
namespace Lexer

/-- A piece and the rest put together again, with at least one character in the
piece. -/
def Cuts (text : List Char) (piece rest : List Char) : Prop :=
  piece ++ rest = text ∧ piece ≠ []

theorem nameTail_append (cs : List Char) : (nameTail cs).1 ++ (nameTail cs).2 = cs := by
  fun_induction nameTail cs <;> simp_all

theorem stringBody_append (quote : Char) (cs : List Char) :
    (stringBody quote cs).1 ++ (stringBody quote cs).2 = cs := by
  fun_induction stringBody quote cs <;> simp_all

theorem number_cuts (digits after : List Char) (h : digits ≠ []) :
    Cuts (digits ++ after) (number digits after).2.1 (number digits after).2.2 := by
  unfold number
  split
  · split
    · simp [Cuts]
    · exact ⟨rfl, h⟩
  · exact ⟨rfl, h⟩

theorem string_cuts (quote : Char) (after : List Char) :
    Cuts (quote :: after) (string quote after).2.1 (string quote after).2.2 := by
  have h := stringBody_append quote after
  unfold string
  split
  · rename_i body c rest hb
    rw [hb] at h
    split
    · rename_i hc
      simp [Cuts, ← h, hc]
    · simp [Cuts, ← h]
  · rename_i body hb
    rw [hb] at h
    simp [Cuts, ← h]

theorem symbol_cuts (c : Char) (after : List Char) :
    Cuts (c :: after) (symbol c after).2.1 (symbol c after).2.2 := by
  unfold symbol
  split
  · simp [Cuts]
  · split <;> simp [Cuts]

theorem next_cuts (c : Char) (after : List Char) :
    Cuts (c :: after) (next c after).2.1 (next c after).2.2 := by
  unfold next
  split_ifs with hspace hname hdigit hquote hcomment
  · simp [Cuts, List.takeWhile_append_dropWhile]
  · simp [Cuts, nameTail_append]
  · have h := number_cuts (c :: after.takeWhile isDigit) (after.dropWhile isDigit) (by simp)
    simpa [List.takeWhile_append_dropWhile] using h
  · exact string_cuts c after
  · simp [Cuts, lineComment, hcomment, List.takeWhile_append_dropWhile]
  · split
    · simp [Cuts, lineComment, List.takeWhile_append_dropWhile]
    · exact symbol_cuts c after

/-- Behind the first character of a name: characters that continue it, and dots
with the start of another segment behind them. -/
inductive NameTail : List Char → Prop where
  | nil : NameTail []
  | continues {c rest} (hc : continuesName c = true) (h : NameTail rest) : NameTail (c :: rest)
  | dot {c rest} (hc : startsName c = true) (h : NameTail rest) : NameTail ('.' :: c :: rest)

/-- Segments of names with dots between them. -/
def IsName (cs : List Char) : Prop :=
  ∃ c rest, cs = c :: rest ∧ startsName c = true ∧ NameTail rest

theorem nameTail_isNameTail (cs : List Char) : NameTail (nameTail cs).1 := by
  fun_induction nameTail cs with
  | case1 => exact .nil
  | case2 c rest hc piece after hp ih => exact .dot hc (by simpa [hp] using ih)
  | case3 c rest hc => exact .nil
  | case4 c rest hdot hc piece after hp ih => exact .continues hc (by simpa [hp] using ih)
  | case5 c rest hdot hc => exact .nil

end Lexer

/-- Whether a token of a kind may have a text. -/
def TokenKind.Spells : TokenKind → List Char → Prop
  | .keyword k, cs => cs = k.text.toList
  | .punctuation p, cs => cs = p.text.toList
  | .integer, cs => cs ≠ [] ∧ ∀ c ∈ cs, Lexer.isDigit c = true
  | .ident, cs => Lexer.IsName cs
  | _, _ => True

namespace Lexer
open TokenKind

theorem Keyword.text_of_ofText? {s : String} {k : Keyword} (h : Keyword.ofText? s = some k) :
    k.text = s := by
  simpa using List.find?_some h

theorem nameKind_spells {name : List Char} (after : List Char) (h : IsName name) :
    (nameKind name after).Spells name := by
  unfold nameKind
  split
  · exact h
  · rename_i k hk hdot
    have ht := Keyword.text_of_ofText? hk
    simp [Spells, ht]
  · exact h

theorem number_spells (digits after : List Char) (h : digits ≠ [])
    (hd : ∀ c ∈ digits, isDigit c = true) :
    (number digits after).1.Spells (number digits after).2.1 := by
  unfold number
  split
  · split
    · trivial
    · exact ⟨h, hd⟩
  · exact ⟨h, hd⟩

theorem string_spells (quote : Char) (after : List Char) :
    (string quote after).1.Spells (string quote after).2.1 := by
  unfold string
  split
  · split <;> trivial
  · trivial

theorem pair?_spells {c d : Char} {p : Punctuation} (h : pair? c d = some p) :
    p.text.toList = [c, d] := by
  unfold pair? at h
  split at h <;> cases h <;> rfl

theorem single?_spells {c : Char} {p : Punctuation} (h : single? c = some p) :
    p.text.toList = [c] := by
  unfold single? at h
  split at h <;> cases h <;> rfl

theorem symbol_spells (c : Char) (after : List Char) :
    (symbol c after).1.Spells (symbol c after).2.1 := by
  have alone : ((single? c).elim TokenKind.stray TokenKind.punctuation).Spells [c] := by
    cases h : single? c with
    | none => trivial
    | some p => exact (single?_spells h).symm
  unfold symbol
  split
  · exact alone
  · split
    · rename_i d rest p hp
      exact (pair?_spells hp).symm
    · exact alone

theorem next_spells (c : Char) (after : List Char) :
    (next c after).1.Spells (next c after).2.1 := by
  unfold next
  split_ifs with hspace hname hdigit hquote hcomment
  · trivial
  · exact nameKind_spells _ ⟨c, _, rfl, hname, nameTail_isNameTail after⟩
  · apply number_spells _ _ (by simp)
    intro d hd
    rcases List.mem_cons.mp hd with rfl | hd
    · exact hdigit
    · exact List.mem_takeWhile_imp hd
  · exact string_spells c after
  · trivial
  · split
    · trivial
    · exact symbol_spells c after

end Lexer

/-- The tokens follow each other without a gap from an offset on, none of them is
empty, and their texts fit their kinds. -/
def Consecutive : Nat → List Token → Prop
  | _, [] => True
  | offset, t :: ts =>
    t.offset = offset ∧ t.text.toList ≠ [] ∧ t.kind.Spells t.text.toList ∧ Consecutive t.stop ts

theorem Lexer.scan_cons (fuel : Nat) (c : Char) (after : List Char) (offset : Nat) :
    Lexer.scan (fuel + 1) (c :: after) offset =
      ⟨(next c after).1, String.ofList (next c after).2.1, offset⟩ ::
        Lexer.scan fuel (next c after).2.2
          (offset + (String.ofList (next c after).2.1).utf8ByteSize) :=
  rfl

theorem scan_consecutive (fuel : Nat) (cs : List Char) (offset : Nat) :
    Consecutive offset (Lexer.scan fuel cs offset) := by
  induction fuel generalizing cs offset with
  | zero => trivial
  | succ fuel ih =>
    cases cs with
    | nil => trivial
    | cons c after =>
      have hne := (Lexer.next_cuts c after).2
      have hspells := Lexer.next_spells c after
      rw [Lexer.scan_cons]
      refine ⟨rfl, ?_, ?_, ih _ _⟩
      · rw [String.toList_ofList]
        exact hne
      · rw [String.toList_ofList]
        exact hspells

/-- Every cut takes a character, so as many cuts as characters are enough. -/
theorem scan_texts (fuel : Nat) (cs : List Char) (offset : Nat) (h : cs.length ≤ fuel) :
    (Lexer.scan fuel cs offset).flatMap (fun t => t.text.toList) = cs := by
  induction fuel generalizing cs offset with
  | zero => simpa [Lexer.scan] using (List.length_eq_zero_iff.mp (Nat.le_zero.mp h)).symm
  | succ fuel ih =>
    cases cs with
    | nil => rfl
    | cons c after =>
      obtain ⟨happend, hne⟩ := Lexer.next_cuts c after
      have hlength := congrArg List.length happend
      have hpos := List.length_pos_iff.mpr hne
      simp only [List.length_append, List.length_cons] at hlength h
      have hrest := fun offset => ih (Lexer.next c after).2.2 offset (by omega)
      rw [Lexer.scan_cons, List.flatMap_cons, hrest, String.toList_ofList]
      exact happend

theorem Token.scan_texts (text : String) :
    (Token.scan text).flatMap (fun t => t.text.toList) = text.toList :=
  ConceptQuery.scan_texts _ _ _ le_rfl

theorem Token.scan_consecutive (text : String) : Consecutive 0 (Token.scan text) :=
  ConceptQuery.scan_consecutive _ _ _

theorem Consecutive.spells {offset : Nat} {tokens : List Token} (h : Consecutive offset tokens)
    {t : Token} (ht : t ∈ tokens) : t.kind.Spells t.text.toList := by
  induction tokens generalizing offset with
  | nil => simp at ht
  | cons u tokens ih =>
    obtain ⟨-, -, hs, hrest⟩ := h
    rcases List.mem_cons.mp ht with rfl | ht
    · exact hs
    · exact ih hrest ht

end ConceptQuery
