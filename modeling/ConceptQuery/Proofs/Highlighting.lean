import ConceptQuery.Editor.Highlight
import ConceptQuery.Proofs.Cursors

/-! # Highlights and their relative places

Highlights are sent with places relative to the one before. Each step of the encoding
subtracts the place before from one that is not in front of it, whatever tree the
highlights come from, so nothing is cut off at zero and adding the numbers up gives the
highlights back. In a text that parses no two of them overlap: `Highlight.encode_lossless`.
-/
namespace ConceptQuery
open Position

namespace Highlight

section Encoding
variable {line column : Nat} {h : Highlight}

/-- A difference that must not fall below zero. -/
def difference? (a b : Nat) : Option Nat :=
  if b ≤ a then some (a - b) else none

/-- The numbers of one highlight, with every subtraction checked. -/
def encodeFrom? (line column : Nat) (h : Highlight) : Option (List Nat) := do
  let lines ← difference? h.line line
  let columns ← if lines = 0 then difference? h.column column else some h.column
  return [lines, columns, h.length, h.type.index, h.modifiers]

def encodeAfter? (line column : Nat) : List Highlight → Option (List Nat)
  | [] => some []
  | h :: rest => do
    let numbers ← encodeFrom? line column h
    let more ← encodeAfter? h.line h.column rest
    return numbers ++ more

def encode? (highlights : List Highlight) : Option (List Nat) :=
  encodeAfter? 0 0 highlights

/-- The highlight that five numbers stand for behind a place. -/
def decodeFrom? (line column lines columns length type modifiers : Nat) : Option Highlight :=
  HighlightType.all[type]?.map fun type =>
    { line := line + lines, column := if lines = 0 then column + columns else columns
      length, type, modifiers }

/-- Adds up the numbers behind a place. The column starts anew on every further line. -/
def decodeAfter (line column : Nat) : List Nat → Option (List Highlight)
  | [] => some []
  | lines :: columns :: length :: type :: modifiers :: rest => do
    let h ← decodeFrom? line column lines columns length type modifiers
    let more ← decodeAfter h.line h.column rest
    return h :: more
  | _ => none

def decode (numbers : List Nat) : Option (List Highlight) :=
  decodeAfter 0 0 numbers

/-- The highlight does not start in front of a place. -/
def Follows (line column : Nat) (h : Highlight) : Prop :=
  line < h.line ∨ line = h.line ∧ column ≤ h.column

theorem notAfter_iff {a b : Highlight} : notAfter a b = true ↔ Follows a.line a.column b := by
  simp [notAfter, Follows]

theorem encodeFrom?_of_follows (hh : Follows line column h) :
    encodeFrom? line column h = some (encodeFrom line column h) := by
  rcases hh with hline | ⟨rfl, hcolumn⟩
  · have hne : h.line - line ≠ 0 := by omega
    simp [encodeFrom?, encodeFrom, difference?, hline.le, hne]
  · simp [encodeFrom?, encodeFrom, difference?, hcolumn]

theorem index_all (type : HighlightType) : HighlightType.all[type.index]? = some type := by
  cases type <;> rfl

theorem decodeFrom?_of_follows (hh : Follows line column h) :
    decodeFrom? line column (h.line - line)
      (if h.line - line = 0 then h.column - column else h.column)
      h.length h.type.index h.modifiers = some h := by
  rw [decodeFrom?, index_all]
  rcases hh with hline | ⟨rfl, hcolumn⟩
  · have hne : h.line - line ≠ 0 := by omega
    simp [hne, Nat.add_sub_cancel' hline.le]
  · simp [Nat.add_sub_cancel' hcolumn]

theorem decodeAfter_encodeFrom (hh : Follows line column h) (rest : List Nat) :
    decodeAfter line column (encodeFrom line column h ++ rest) =
      (decodeAfter h.line h.column rest).bind fun more => some (h :: more) := by
  simp only [encodeFrom, List.cons_append, List.nil_append]
  rw [decodeAfter, decodeFrom?_of_follows hh]
  rfl

/-- Along highlights that are in order no subtraction fails, and all of them come back. -/
theorem encodeAfter_of_sorted {highlights : List Highlight}
    (hfirst : ∀ h ∈ highlights.head?, Follows line column h)
    (hsorted : highlights.Pairwise fun a b => notAfter a b = true) :
    encodeAfter? line column highlights = some (encodeAfter line column highlights) ∧
      decodeAfter line column (encodeAfter line column highlights) = some highlights := by
  induction highlights generalizing line column with
  | nil => exact ⟨rfl, rfl⟩
  | cons h rest ih =>
    obtain ⟨hnext, hrest⟩ := List.pairwise_cons.mp hsorted
    have hh : Follows line column h := hfirst h rfl
    obtain ⟨hencode, hdecode⟩ := ih
      (fun h' hh' => notAfter_iff.mp (hnext h' (List.mem_of_mem_head? hh'))) hrest
    constructor
    · rw [encodeAfter?, encodeFrom?_of_follows hh, hencode]
      rfl
    · rw [encodeAfter, decodeAfter_encodeFrom hh, hdecode]
      rfl

theorem pairwise_ofTree (tree : Tree Leaf) :
    (ofTree tree).Pairwise fun a b => notAfter a b = true := by
  apply List.pairwise_mergeSort
  · intro a b c hab hbc
    rw [notAfter_iff, Follows] at *
    omega
  · intro a b
    rw [Bool.or_eq_true, notAfter_iff, notAfter_iff, Follows, Follows]
    omega

end Encoding

section Documents

mutual
/-- The highlights of a tree come from leaves of it, in their order. -/
theorem inTree_of_leaves : (t : Tree Leaf) → ∃ leaves : List Leaf, leaves.Sublist t.leaves ∧
    List.Forall₂ (fun leaf h => ∃ parent, ofLeaf? parent leaf = some h) leaves (inTree t)
  | .leaf _ => ⟨[], List.nil_sublist _, .nil⟩
  | .node kind children => inChildren_of_leaves kind children

theorem inChildren_of_leaves (parent : NodeKind) : (ts : List (Tree Leaf)) →
    ∃ leaves : List Leaf, leaves.Sublist (Tree.leavesOf ts) ∧
      List.Forall₂ (fun leaf h => ∃ parent, ofLeaf? parent leaf = some h) leaves
        (inChildren parent ts)
  | [] => ⟨[], List.Sublist.slnil, .nil⟩
  | .leaf leaf :: rest => by
    obtain ⟨leaves, hsub, hrest⟩ := inChildren_of_leaves parent rest
    rw [Tree.leavesOf, Tree.leaves, List.singleton_append, inChildren]
    cases hleaf : ofLeaf? parent leaf with
    | none => exact ⟨leaves, hsub.cons leaf, hrest⟩
    | some h => exact ⟨leaf :: leaves, hsub.cons_cons leaf, .cons ⟨parent, hleaf⟩ hrest⟩
  | .node kind children :: rest => by
    obtain ⟨inside, hinside, hnode⟩ := inTree_of_leaves (.node kind children)
    obtain ⟨leaves, hsub, hrest⟩ := inChildren_of_leaves parent rest
    rw [Tree.leavesOf, inChildren]
    exact ⟨inside ++ leaves, hinside.append hsub, List.rel_append hnode hrest⟩
end

def place (h : Highlight) : Position :=
  ⟨h.line, h.column⟩

/-- The one starts before the other, and ends before it if they share a line. -/
def Apart (a b : Highlight) : Prop :=
  a.place.Before b.place ∧ (a.line = b.line → a.column + a.length ≤ b.column)

theorem Apart.notAfter {a b : Highlight} (h : Apart a b) : notAfter a b = true := by
  rw [notAfter_iff]
  rcases h.1 with hline | ⟨hline, hcolumn⟩
  · exact .inl hline
  · exact .inr ⟨hline, Nat.le_of_lt hcolumn⟩

variable {text : String} {t u : Token} {leaf leaf' : Leaf} {parent parent' : NodeKind}
  {h h' : Highlight}

theorem ofLeaf?_eq_some (hh : ofLeaf? parent leaf = some h) :
    ∃ line column, leaf.line = some line ∧ leaf.column = some column ∧
      (∀ stop ∈ leaf.endLine, stop = line) ∧
      h.line = line - 1 ∧ h.column = column - 1 ∧ h.length = leaf.text.toList.length := by
  unfold ofLeaf? at hh
  split at hh
  · rename_i type modifiers line column htype hline hcolumn
    split at hh
    · rename_i hstop
      obtain rfl := Option.some.inj hh
      refine ⟨line, column, hline, hcolumn, fun stop hleaf => ?_, rfl, rfl, rfl⟩
      rw [Option.mem_def.mp hleaf] at hstop
      simpa using hstop
    · cases hh
  · cases hh

/-- What is highlighted stands on one line and covers the characters of its token. -/
theorem span_of_ofLeaf? (hcomes : leaf.Comes text t) (hh : ofLeaf? parent leaf = some h) :
    leaf.span.start = ⟨h.line + 1, h.column + 1⟩ ∧
      leaf.span.stop = ⟨h.line + 1, h.column + h.length + 1⟩ ∧ 0 < h.length := by
  have hne := hcomes.text_ne
  obtain ⟨hmem, k, rfl⟩ := hcomes
  obtain ⟨front, back, hstands⟩ := Token.stands_of_mem_scan hmem
  obtain ⟨line, column, hline, hcolumn, hstop, hhline, hhcolumn, hlength⟩ := ofLeaf?_eq_some hh
  rw [Leaf.span_ofToken hstands]
  rw [Leaf.ofToken_of_stands hstands] at hline hcolumn hstop hlength
  obtain rfl : (behind front).line + 1 = line := Option.some.inj hline
  obtain rfl : (behind front).column + 1 = column := Option.some.inj hcolumn
  have hnewline : '\n' ∉ t.text.toList := by
    have hsame := hstop _ rfl
    simp only [behind, List.count_append] at hsame
    exact List.count_eq_zero.mp (by omega)
  rw [behind_append front hnewline, hhline, hhcolumn, hlength]
  exact ⟨rfl, rfl, List.length_pos_iff.mpr hne⟩

theorem apart_of_ofLeaf? (hcomes : leaf.Comes text t) (hcomes' : leaf'.Comes text u)
    (hapart : t.Apart u) (hh : ofLeaf? parent leaf = some h)
    (hh' : ofLeaf? parent' leaf' = some h') : Apart h h' := by
  obtain ⟨-, hstop, hlength⟩ := span_of_ofLeaf? hcomes hh
  obtain ⟨hstart, -, -⟩ := span_of_ofLeaf? hcomes' hh'
  have hbehind := hcomes.not_before hcomes' hapart
  rw [hstop, hstart] at hbehind
  simp only [Apart, place, Before] at hbehind ⊢
  omega

theorem apart_inTree {tree : Tree Leaf} (hparse : parse text = .ok tree) :
    (inTree tree).Pairwise Apart := by
  obtain ⟨leaves, hsub, hhighlights⟩ := inTree_of_leaves tree
  have hleaves : tree.leaves.Pairwise fun a b =>
      ∃ t u, a.Comes text t ∧ b.Comes text u ∧ t.Apart u :=
    pairwise_of_forall₂ (leaves_of_parse hparse) (apart_significant text)
      fun ha hb hapart => ⟨_, _, ha, hb, hapart⟩
  refine pairwise_of_forall₂ hhighlights (hleaves.sublist hsub) ?_
  rintro a b h h' ⟨parent, hh⟩ ⟨parent', hh'⟩ ⟨t, u, ha, hb, hapart⟩
  exact apart_of_ofLeaf? ha hb hapart hh hh'

/-- In a text that parses the highlights are in order from the start. -/
theorem ofTree_of_parse {tree : Tree Leaf} (hparse : parse text = .ok tree) :
    ofTree tree = inTree tree :=
  List.mergeSort_of_pairwise ((apart_inTree hparse).imp Apart.notAfter)

end Documents

/-- The highlights of any tree are encoded without a subtraction that falls below zero, and
decoding gives them back. Those of a text that parses come one behind the other, and
none reaches past the start of a later one on its line. -/
theorem encode_lossless :
    (∀ tree : Tree Leaf, encode? (ofTree tree) = some (encode (ofTree tree)) ∧
      decode (encode (ofTree tree)) = some (ofTree tree)) ∧
    ∀ (text : String) (tree : Tree Leaf), parse text = .ok tree →
      (ofTree tree).Pairwise fun a b =>
        a.place.Before b.place ∧ (a.line = b.line → a.column + a.length ≤ b.column) := by
  constructor
  · intro tree
    refine encodeAfter_of_sorted (fun h _ => ?_) (pairwise_ofTree tree)
    simp only [Follows]
    omega
  · intro text tree hparse
    rw [ofTree_of_parse hparse]
    exact apart_inTree hparse

/-- Highlights on a line that starts inside of a string, with a minus against its operand. -/
theorem encode_lossless_behindString :
    ∃ tree, parse "select 'é\n' -> y, -x -> z;" = .ok tree ∧
      encode (ofTree tree) =
        [0, 0, 6, 0, 0, 1, 2, 2, 3, 0, 0, 3, 1, 1, 0, 0, 3, 1, 3, 0, 0, 1, 1, 1, 0, 0, 2, 2, 3, 0,
          0, 3, 1, 1, 0] ∧
      (ofTree tree).Pairwise fun a b =>
        a.place.Before b.place ∧ (a.line = b.line → a.column + a.length ≤ b.column) := by
  have hcomputed : ∃ tree, parse "select 'é\n' -> y, -x -> z;" = .ok tree ∧
      (fun tree => some (encode (inTree tree))) tree =
        some [0, 0, 6, 0, 0, 1, 2, 2, 3, 0, 0, 3, 1, 1, 0, 0, 3, 1, 3, 0, 0, 1, 1, 1, 0, 0, 2, 2, 3,
          0, 0, 3, 1, 1, 0] := by
    apply exists_tree
    decide +kernel
  obtain ⟨tree, hparse, hcomputed⟩ := hcomputed
  refine ⟨tree, hparse, ?_, encode_lossless.2 _ tree hparse⟩
  rw [ofTree_of_parse hparse]
  exact Option.some.inj hcomputed

/-- Leaves of a tree that no text has: out of order, and two at one place. -/
example : encode (ofTree (.node .selectItem
    [.leaf { kind := .keyword, text := "as", line := some 3, column := some 1 },
     .leaf { kind := .identifier, text := "b", line := some 1, column := some 9 },
     .leaf { kind := .operator, text := "+", line := some 1, column := some 9 }])) =
    [0, 8, 1, 1, 0, 0, 0, 1, 3, 0, 2, 0, 2, 0, 0] := by cbv

end Highlight
end ConceptQuery
