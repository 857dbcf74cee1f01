import ConceptQuery.Editor.Diagnostic
import ConceptQuery.Proofs.Faults
import ConceptQuery.Proofs.Layout
import ConceptQuery.Proofs.Places
import Mathlib.Data.List.Forall2

/-! # What diagnostics cover

A text that does not parse gets one diagnostic for each fault, in the order of the
text. It starts at the first character of the token at which reading got stuck and
is as many columns wide as the token has characters, all of them on one line. So it
ends behind the last character of a token that stands on one line, and of no other:
a string may hold newlines, and one that is not closed takes all lines behind it.
-/
namespace ConceptQuery
open Position
open String (utf8Len)

def Position.right (p : Position) (columns : Nat) : Position :=
  ⟨p.line, p.column + columns⟩

/-- From the first character of a piece of text to behind its last one; one column
where there is nothing. -/
def Range.around (front piece : List Char) : Range :=
  ⟨behind front, if piece = [] then (behind front).right 1 else behind (front ++ piece)⟩

/-- The fault stands behind `front`, at a token that reads `piece` or, with nothing
to read, at the end of the text. -/
inductive Fault.Stands (text : String) (f : Fault) : List Char → List Char → Prop where
  | token {t : Token} {front back : List Char} (ht : t ∈ Token.scan text)
      (hstands : t.Stands text.toList front back) (hfound : f.found = t.text)
      (hstart : f.start = t.offset) : Stands text f front t.text.toList
  | atEnd (h : f.AtEnd text) : Stands text f text.toList []

namespace Diagnostic

/-- The diagnostic reaches from the first character of what the fault stands at to
behind the last one. -/
def Covers (text : String) (f : Fault) (d : Diagnostic) : Prop :=
  ∃ front piece, f.Stands text front piece ∧ d.range = .around front piece

/-- The diagnostic is an error of the parser that starts at what the fault stands at
and is as wide as that has characters. -/
def Marks (text : String) (f : Fault) (d : Diagnostic) : Prop :=
  d.isError = true ∧ d.code = some "parse" ∧ ∃ front piece, f.Stands text front piece ∧
    d.range = ⟨behind front, (behind front).right (max piece.length 1)⟩

end Diagnostic

namespace Lexer

theorem cut_of_mem_scan {fuel offset : Nat} {cs : List Char} {t : Token}
    (h : t ∈ scan fuel cs offset) : ∃ c after, t.text = String.ofList (next c after).2.1 := by
  induction fuel generalizing cs offset with
  | zero => cases h
  | succ fuel ih =>
    cases cs with
    | nil => cases h
    | cons c after =>
      rw [scan_cons] at h
      rcases List.mem_cons.mp h with rfl | h
      · exact ⟨c, after, rfl⟩
      · exact ih h

theorem next_dollar (after : List Char) : next '$' after = (.stray, ['$'], after) := by
  cases after <;> rfl

/-- No token looks like the mark for the end of the text. -/
theorem text_ne_endOfInput {text : String} {t : Token} (h : t ∈ Token.scan text) :
    t.text ≠ Grammar.endOfInput := by
  obtain ⟨c, after, htext⟩ := cut_of_mem_scan h
  intro hend
  have hpiece : (next c after).2.1 = ['$', 'E', 'N', 'D'] := by
    rw [← String.toList_ofList (l := (next c after).2.1), ← htext, hend]
    rfl
  have hcuts := (next_cuts c after).1
  rw [hpiece, List.cons_append] at hcuts
  obtain rfl : '$' = c := (List.cons.inj hcuts).1
  rw [next_dollar] at hpiece
  cases hpiece

end Lexer

theorem Position.behind_append_iff {front piece : List Char} :
    behind (front ++ piece) = (behind front).right piece.length ↔ '\n' ∉ piece := by
  constructor
  · intro h
    have hline : (front ++ piece).count '\n' = front.count '\n' := congrArg Position.line h
    rw [List.count_append] at hline
    exact List.count_eq_zero.mp (by omega)
  · exact behind_append front

namespace Fault.Stands
variable {text : String} {f g : Fault} {front piece front' piece' : List Char}

theorem start_eq (h : f.Stands text front piece) : f.start = utf8Len front := by
  cases h with
  | token ht hstands hfound hstart => rw [hstart, hstands.offset_eq]
  | atEnd h => rw [h.2.1, String.utf8Len_toList]

theorem exists_back (h : f.Stands text front piece) : ∃ back, front ++ back = text.toList := by
  cases h with
  | token ht hstands hfound hstart => exact ⟨_, by rw [hstands.text_eq, List.append_assoc]⟩
  | atEnd h => exact ⟨[], List.append_nil _⟩

theorem locate_start (h : f.Stands text front piece) :
    LineIndex.locate text.toList f.start = behind front := by
  obtain ⟨back, hback⟩ := h.exists_back
  rw [h.start_eq, ← hback, LineIndex.locate_append]

/-- The fault that starts later stands at a later place. -/
theorem before (h : f.Stands text front piece) (h' : g.Stands text front' piece')
    (hlt : f.start < g.start) : (behind front).Before (behind front') := by
  obtain ⟨back, hback⟩ := h.exists_back
  obtain ⟨back', hback'⟩ := h'.exists_back
  rw [h.start_eq, h'.start_eq] at hlt
  obtain ⟨more, rfl⟩ := Token.exists_append_of_utf8Len_le (hback.trans hback'.symm) hlt.le
  refine before_behind_append front ?_
  rintro rfl
  rw [List.append_nil] at hlt
  exact Nat.lt_irrefl _ hlt

theorem newline_mem_iff (h : f.Stands text front piece) : '\n' ∈ piece ↔ '\n' ∈ f.found.toList := by
  cases h with
  | token ht hstands hfound hstart => rw [hfound]
  | atEnd h =>
    rw [h.1]
    decide

theorem width_ofFault (h : f.Stands text front piece) :
    (ParseError.ofFault text.toList f).width = max piece.length 1 := by
  have htoken : (ParseError.ofFault text.toList f).token = f.found := rfl
  rw [ParseError.width, ParseError.isAtEnd, htoken]
  cases h with
  | token ht hstands hfound hstart =>
    rw [hfound, if_neg (by simpa using Lexer.text_ne_endOfInput ht)]
  | atEnd h => rw [h.1, if_pos (by simp), List.length_nil, Nat.zero_max]

theorem range_ofFault (h : f.Stands text front piece) :
    (Diagnostic.ofParseError (ParseError.ofFault text.toList f)).range =
      ⟨behind front, (behind front).right (max piece.length 1)⟩ := by
  have hplace : (⟨(ParseError.ofFault text.toList f).line - 1,
      (ParseError.ofFault text.toList f).column - 1⟩ : Position) = behind front := by
    rw [← h.locate_start]
    rfl
  rw [← h.width_ofFault, ← hplace]
  rfl

theorem marks (h : f.Stands text front piece) :
    (Diagnostic.ofParseError (ParseError.ofFault text.toList f)).Marks text f :=
  ⟨rfl, rfl, front, piece, h, h.range_ofFault⟩

theorem eq_around_iff (h : f.Stands text front piece) :
    (⟨behind front, (behind front).right (max piece.length 1)⟩ : Range) = .around front piece ↔
      '\n' ∉ f.found.toList := by
  rw [← h.newline_mem_iff, Range.around, Range.mk.injEq, eq_self, true_and]
  by_cases hp : piece = []
  · simp [hp]
  · have hlength := List.length_pos_iff.mpr hp
    rw [if_neg hp, Nat.max_eq_left hlength, eq_comm, behind_append_iff]

theorem covers_iff (h : f.Stands text front piece) :
    (Diagnostic.ofParseError (ParseError.ofFault text.toList f)).Covers text f ↔
      '\n' ∉ f.found.toList := by
  constructor
  · rintro ⟨front', piece', h', hrange⟩
    rw [h'.range_ofFault] at hrange
    exact h'.eq_around_iff.mp hrange
  · intro hline
    exact ⟨front, piece, h, h.range_ofFault.trans (h.eq_around_iff.mpr hline)⟩

end Fault.Stands

/-- Every fault stands at a token or at the end. -/
theorem Parsed.fault_stands {text : String} {f : Fault} (hf : f ∈ (Parsed.ofText text).faults) :
    ∃ front piece, f.Stands text front piece := by
  obtain ⟨stops, hfaults, hfront, -⟩ := Parsed.faults_of_stops text
  rw [hfaults] at hf
  obtain ⟨⟨expected, rest⟩, hs, rfl⟩ := List.mem_map.mp hf
  obtain ⟨before, hscan⟩ := hfront _ hs
  cases rest with
  | nil => exact ⟨_, _, .atEnd ⟨rfl, rfl, rfl⟩⟩
  | cons l rest =>
    have hmem : l.token ∈ Token.scan text := by
      rw [hscan]
      simp [Lexeme.tokens]
    obtain ⟨front, back, hstands⟩ := Token.stands_of_mem_scan hmem
    exact ⟨_, _, .token hmem hstands rfl rfl⟩

theorem errors_of_parse {text : String} {errors : List ParseError} (h : parse text = .error errors) :
    errors = (Parsed.ofText text).faults.map (ParseError.ofFault text.toList) := by
  cases hf : (Parsed.ofText text).faults with
  | nil =>
    rw [parse_of_no_faults hf] at h
    cases h
  | cons f fs =>
    rw [parse_of_faults hf] at h
    exact (Except.error.inj h).symm

/-- There is one diagnostic for each fault, each behind the one before it. It starts
where the token of the fault does and has the width of the token; it ends where the
token does if and only if there is no newline in the token. -/
theorem diagnostics_cover_iff {text : String} {errors : List ParseError}
    (h : parse text = .error errors) :
    List.Forall₂ (fun f d => d.Marks text f ∧ (d.Covers text f ↔ '\n' ∉ f.found.toList))
      (Parsed.ofText text).faults (errors.map Diagnostic.ofParseError) ∧
    (errors.map Diagnostic.ofParseError).Pairwise fun a b => a.range.start.Before b.range.start := by
  rw [errors_of_parse h, List.map_map]
  constructor
  · rw [List.forall₂_map_right_iff, List.forall₂_same]
    intro f hf
    obtain ⟨front, piece, hstands⟩ := Parsed.fault_stands hf
    exact ⟨hstands.marks, hstands.covers_iff⟩
  · rw [List.pairwise_map]
    apply (Parsed.faults_pairwise text).imp_of_mem
    intro f g hf hg hlt
    obtain ⟨front, piece, hstands⟩ := Parsed.fault_stands hf
    obtain ⟨front', piece', hstands'⟩ := Parsed.fault_stands hg
    rw [Function.comp_apply, Function.comp_apply, hstands.range_ofFault, hstands'.range_ofFault]
    exact hstands.before hstands' hlt

/-- A string behind another one with a character of two bytes, and an end that comes
too early. -/
theorem diagnostics_cover_iff_twoBytes :
    ∃ errors, parse "key 'é' 'è';\nselect a" = .error errors ∧
      List.Forall₂ (fun f d => d.Covers "key 'é' 'è';\nselect a" f)
        (Parsed.ofText "key 'é' 'è';\nselect a").faults (errors.map Diagnostic.ofParseError) ∧
      (errors.map fun e => (Diagnostic.ofParseError e).range) =
        [.ofCoordinates 0 4 0 7, .ofCoordinates 1 8 1 9] := by
  have hf : (Parsed.ofText "key 'é' 'è';\nselect a").faults =
      [⟨"'é'", [.ident], 4, 8⟩, ⟨"$END", [.punctuation .semicolon], 23, 23⟩] := by decide +kernel
  have hparse := parse_of_faults hf
  have hcover := (diagnostics_cover_iff hparse).1
  rw [hf] at hcover ⊢
  have hlines : ∀ f ∈ ([⟨"'é'", [.ident], 4, 8⟩, ⟨"$END", [.punctuation .semicolon], 23, 23⟩] :
      List Fault), '\n' ∉ f.found.toList := by decide
  refine ⟨_, hparse, ?_, by decide +kernel⟩
  exact ((List.forall₂_and_left _ _).mpr ⟨hlines, hcover⟩).imp fun f d hd => hd.2.2.mpr hd.1

/-- The diagnostic of a string on two lines ends on the first of them, five columns
behind its start. -/
theorem diagnostics_cut_short :
    ∃ errors, parse "key 'a\nb' int;" = .error errors ∧
      ¬ List.Forall₂ (fun f d => d.Covers "key 'a\nb' int;" f)
        (Parsed.ofText "key 'a\nb' int;").faults (errors.map Diagnostic.ofParseError) := by
  have hf : (Parsed.ofText "key 'a\nb' int;").faults = [⟨"'a\nb'", [.ident], 4, 9⟩] := by
    decide +kernel
  have hfault : (⟨"'a\nb'", [.ident], 4, 9⟩ : Fault) ∈ (Parsed.ofText "key 'a\nb' int;").faults := by
    rw [hf]
    exact List.mem_singleton_self _
  refine ⟨_, parse_of_faults hf, fun hcover => ?_⟩
  obtain ⟨front, piece, hstands⟩ := Parsed.fault_stands hfault
  rw [hf, List.map_cons, List.map_cons, List.forall₂_cons] at hcover
  exact hstands.covers_iff.mp hcover.1 (by decide)

end ConceptQuery
