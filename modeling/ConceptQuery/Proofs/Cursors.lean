import ConceptQuery.Proofs.Agreement
import ConceptQuery.Proofs.Layout
import ConceptQuery.Proofs.Places
import Mathlib.Data.List.Forall2

/-! # Leaves and cursors

The leaves of a document are its tokens without trivia, each with the places in
front of it and behind it. A name stands on one line and touches no other name, so
a cursor touches at most one location, although both ends belong to a span.
`places_exact` collects this for a text that parses.
-/
namespace ConceptQuery
open Position

namespace Span

/-- The span between two places of a cursor, which count from zero. -/
def between (p q : Position) : Span :=
  ⟨p.line + 1, p.column + 1, q.line + 1, q.column + 1⟩

def start (s : Span) : Position :=
  ⟨s.startLine, s.startColumn⟩

def stop (s : Span) : Position :=
  ⟨s.endLine, s.endColumn⟩

theorem start_before_stop_of_between {p q p' q' : Position} :
    (between p' q').start.Before (between p q).stop ↔ p'.Before q := by
  simp [Before, start, stop, between]

/-- A cursor on the span of a piece of a line has a part of the piece before it. -/
theorem covers_between_iff {front piece : List Char} (h : '\n' ∉ piece) (p : Position) :
    (between (behind front) (behind (front ++ piece))).covers p = true ↔
      ∃ inside rest, piece = inside ++ rest ∧ p = behind (front ++ inside) := by
  rw [exists_inside_iff h, behind_append front h]
  simp only [covers, contains, between]
  by_cases hline : p.line = (behind front).line
  · simp [hline]
  · simp [hline]

end Span

/-- Two lists that are related element by element are in the same order. -/
theorem pairwise_of_forall₂ {α β : Type} {R : α → β → Prop} {S : α → α → Prop} {T : β → β → Prop}
    {as : List α} {bs : List β} (h : List.Forall₂ R as bs) (hpairs : as.Pairwise S)
    (himp : ∀ {a a' b b'}, R a b → R a' b' → S a a' → T b b') : bs.Pairwise T := by
  induction h with
  | nil => exact .nil
  | cons hab hrest ih =>
    obtain ⟨hfirst, hpairs⟩ := List.pairwise_cons.mp hpairs
    refine List.pairwise_cons.mpr ⟨fun b hb => ?_, ih hpairs⟩
    obtain ⟨a', ha', hr⟩ := exists_mem_of_forall₂ hrest hb
    exact himp hab hr (hfirst a' ha')

namespace Tree

/-- The leaves of a placed tree come from the tokens of the tree. -/
theorem leavesOf_placedAll (text : List Char) (parent : NodeKind) (ts : List (Tree Token)) :
    List.Forall₂ (fun t leaf => ∃ k, leaf = Leaf.ofToken text k t)
      ((leavesOf ts).filter fun t => !t.kind.isTrivia) (leavesOf (placedAll text parent ts)) := by
  cases ts with
  | nil => exact .nil
  | cons first rest =>
    have hrest := leavesOf_placedAll text parent rest
    cases first with
    | leaf t =>
      rw [leavesOf, leaves, List.singleton_append, placedAll]
      split
      · rename_i ht
        rwa [List.filter_cons_of_neg (by simp [ht])]
      · rename_i ht
        rw [List.filter_cons_of_pos (by simpa using ht)]
        exact .cons ⟨parent, rfl⟩ hrest
    | node kind children =>
      have hnode := leavesOf_placedAll text kind children
      rw [leavesOf, leaves, List.filter_append, placedAll, placed]
      exact List.rel_append hnode hrest

mutual
/-- The names that stand for concepts are identifiers among the leaves, in order. -/
theorem namings_sublist : (t : Tree Leaf) →
    (t.namings.map Prod.snd).Sublist (t.leaves.filter Leaf.isIdentifier)
  | .leaf _ => List.nil_sublist _
  | .node kind children => namingsOf_sublist kind children

theorem namingsOf_sublist (parent : NodeKind) : (ts : List (Tree Leaf)) →
    ((namingsOf parent ts).map Prod.snd).Sublist ((leavesOf ts).filter Leaf.isIdentifier)
  | [] => List.nil_sublist _
  | .leaf name :: rest => by
    have hrest := namingsOf_sublist parent rest
    rw [namingsOf, leavesOf, leaves, List.singleton_append]
    split
    · rename_i hname
      rw [Bool.and_eq_true] at hname
      rw [List.filter_cons_of_pos hname.1]
      exact hrest.cons_cons name
    · exact hrest.trans ((List.sublist_cons_self name _).filter _)
  | .node kind children :: rest => by
    rw [namingsOf, leavesOf, List.map_append, List.filter_append]
    exact (namings_sublist (.node kind children)).append (namingsOf_sublist parent rest)
end

end Tree

namespace Lexer

theorem newline_not_mem_nameTail {cs : List Char} (h : NameTail cs) : '\n' ∉ cs := by
  induction h with
  | nil => simp
  | continues hc _ ih =>
    refine List.not_mem_cons_of_ne_of_not_mem ?_ ih
    rintro rfl
    cases hc
  | dot hc _ ih =>
    refine List.not_mem_cons_of_ne_of_not_mem (by decide)
      (List.not_mem_cons_of_ne_of_not_mem ?_ ih)
    rintro rfl
    cases hc

/-- A name stands on one line. -/
theorem newline_not_mem_name {cs : List Char} (h : IsName cs) : '\n' ∉ cs := by
  obtain ⟨c, rest, rfl, hc, hrest⟩ := h
  refine List.not_mem_cons_of_ne_of_not_mem ?_ (newline_not_mem_nameTail hrest)
  rintro rfl
  cases hc

end Lexer

/-- The leaf shows the token, with its two places counted from one. -/
def Leaf.Shows (text : List Char) (t : Token) (leaf : Leaf) : Prop :=
  ∃ front back parent, t.Stands text front back ∧
    leaf.kind = kindOf parent t.kind ∧ leaf.text = t.text ∧
    leaf.line = some (front.count '\n' + 1) ∧ leaf.column = some (sinceNewline front + 1) ∧
    leaf.endLine = some ((front ++ t.text.toList).count '\n' + 1) ∧
    leaf.endColumn = some (sinceNewline (front ++ t.text.toList) + 1)

/-- The location is that of an identifier of the text, and the cursor stands in the
identifier or directly behind it. -/
def Location.Holds (text : String) (l : Location) (p : Position) : Prop :=
  ∃ t ∈ Token.significant text, t.kind = .ident ∧ ∃ front inside rest back,
    text.toList = front ++ (inside ++ rest) ++ back ∧ t.text.toList = inside ++ rest ∧
    l.span = .between (behind front) (behind (front ++ (inside ++ rest))) ∧
    p = behind (front ++ inside)

namespace Leaf
variable {text front back : List Char} {t : Token}

theorem ofToken_of_stands (h : t.Stands text front back) (parent : NodeKind) :
    ofToken text parent t =
      { kind := kindOf parent t.kind, text := t.text,
        line := some ((behind front).line + 1), column := some ((behind front).column + 1),
        endLine := some ((behind (front ++ t.text.toList)).line + 1),
        endColumn := some ((behind (front ++ t.text.toList)).column + 1) } := by
  have hstart : LineIndex.locate text t.offset = behind front := by
    rw [h.text_eq, h.offset_eq, List.append_assoc, LineIndex.locate_append]
  have hstop : LineIndex.locate text t.stop = behind (front ++ t.text.toList) := by
    rw [h.stop_eq, h.text_eq, LineIndex.locate_append]
  rw [ofToken, hstart, hstop]

theorem shows_ofToken (h : t.Stands text front back) (parent : NodeKind) :
    (ofToken text parent t).Shows text t := by
  rw [ofToken_of_stands h]
  exact ⟨front, back, parent, h, rfl, rfl, rfl, rfl, rfl, rfl⟩

theorem span_ofToken (h : t.Stands text front back) (parent : NodeKind) :
    (ofToken text parent t).span = .between (behind front) (behind (front ++ t.text.toList)) := by
  rw [ofToken_of_stands h]
  rfl

end Leaf

/-- A leaf of a text with the token that it comes from. -/
structure Leaf.Comes (text : String) (t : Token) (leaf : Leaf) : Prop where
  mem : t ∈ Token.scan text
  parent : ∃ k, leaf = Leaf.ofToken text.toList k t

namespace Leaf.Comes
variable {text : String} {t u : Token} {leaf leaf' : Leaf}

theorem stands (h : leaf.Comes text t) : ∃ front back, t.Stands text.toList front back ∧
    leaf.span = .between (behind front) (behind (front ++ t.text.toList)) := by
  obtain ⟨hmem, k, rfl⟩ := h
  obtain ⟨front, back, hstands⟩ := Token.stands_of_mem_scan hmem
  exact ⟨front, back, hstands, span_ofToken hstands k⟩

theorem text_ne (h : leaf.Comes text t) : t.text.toList ≠ [] :=
  (Token.scan_consecutive text).text_ne h.mem

theorem shows (h : leaf.Comes text t) : leaf.Shows text.toList t := by
  obtain ⟨hmem, k, rfl⟩ := h
  obtain ⟨front, back, hstands⟩ := Token.stands_of_mem_scan hmem
  exact shows_ofToken hstands k

theorem start_before_stop (h : leaf.Comes text t) : leaf.span.start.Before leaf.span.stop := by
  obtain ⟨front, back, -, hspan⟩ := h.stands
  rw [hspan, Span.start_before_stop_of_between]
  exact before_behind_append front h.text_ne

/-- The leaf of a later token does not start before the end of an earlier one. -/
theorem not_before (h : leaf.Comes text t) (h' : leaf'.Comes text u) (hapart : t.Apart u) :
    ¬ leaf'.span.start.Before leaf.span.stop := by
  obtain ⟨front, back, hstands, hspan⟩ := h.stands
  obtain ⟨front', back', hstands', hspan'⟩ := h'.stands
  obtain ⟨more, rfl, -⟩ := hapart.exists_between hstands hstands'
  rw [hspan, hspan', Span.start_before_stop_of_between]
  intro hbefore
  rcases List.eq_nil_or_concat' more with rfl | ⟨_, _, hmore⟩
  · rw [List.append_nil] at hbefore
    exact not_before_self _ hbefore
  · exact not_before_self _
      ((before_behind_append (front ++ t.text.toList) (by simp [hmore])).trans hbefore)

theorem ident (h : leaf.Comes text t) (hid : leaf.isIdentifier = true) : t.kind = .ident := by
  obtain ⟨-, k, rfl⟩ := h
  rw [isIdentifier, decide_eq_true_iff] at hid
  exact ident_of_kindOf hid

theorem newline_not_mem (h : leaf.Comes text t) (hid : leaf.isIdentifier = true) :
    '\n' ∉ t.text.toList := by
  have hspells := (Token.scan_consecutive text).spells h.mem
  rw [h.ident hid] at hspells
  exact Lexer.newline_not_mem_name hspells

/-- No cursor touches two identifiers. -/
theorem not_covers_both (h : leaf.Comes text t) (h' : leaf'.Comes text u) (hapart : t.Apart u)
    (hid : leaf.isIdentifier = true) (hid' : leaf'.isIdentifier = true) (p : Position) :
    ¬ (leaf.span.covers p = true ∧ leaf'.span.covers p = true) := by
  obtain ⟨front, back, hstands, hspan⟩ := h.stands
  obtain ⟨front', back', hstands', hspan'⟩ := h'.stands
  obtain ⟨more, rfl, hne⟩ := hapart.exists_between hstands hstands'
  rw [hspan, hspan', Span.covers_between_iff (h.newline_not_mem hid),
    Span.covers_between_iff (h'.newline_not_mem hid')]
  rintro ⟨⟨inside, rest, hcut, rfl⟩, inside', rest', -, hp⟩
  have hmore : rest ++ more ++ inside' ≠ [] := by simp [hne (h.ident hid) (h'.ident hid')]
  have hbefore := before_behind_append (front ++ inside) hmore
  rw [hp, hcut] at hbefore
  simp only [List.append_assoc] at hbefore
  exact not_before_self _ hbefore

end Leaf.Comes

section Documents
variable {text : String} {tree : Tree Leaf}

theorem leaves_of_parse (h : parse text = .ok tree) :
    List.Forall₂ (fun t leaf => leaf.Comes text t) (Token.significant text) tree.leaves := by
  simp only [parse] at h
  split at h
  · obtain ⟨cs, hroot⟩ : ∃ cs, (Parsed.ofText text).tree = .node .sourceFile cs := ⟨_, rfl⟩
    have hscan : Tree.leavesOf cs = Token.scan text := by
      rw [← Parsed.leaves_ofText, hroot, Tree.leaves]
    have hplaced := Tree.leavesOf_placedAll text.toList .sourceFile cs
    rw [hscan] at hplaced
    rw [← Except.ok.inj h, hroot, Tree.placed, Tree.leaves]
    have hmem : ∀ t ∈ Token.significant text, t ∈ Token.scan text :=
      fun t ht => (List.mem_filter.mp ht).1
    exact ((List.forall₂_and_left _ _).mpr ⟨hmem, hplaced⟩).imp fun t leaf hleaf => ⟨hleaf.1, hleaf.2⟩
  · cases h

theorem apart_significant (text : String) : (Token.significant text).Pairwise Token.Apart :=
  (Token.scan_pairwise text).filter _

/-- The identifiers of a text that stand for concepts share no cursor. -/
theorem namings_pairwise (h : parse text = .ok tree) :
    tree.namings.Pairwise fun a b =>
      ∀ p, ¬ (a.2.span.covers p = true ∧ b.2.span.covers p = true) := by
  have hleaves : tree.leaves.Pairwise fun a b => a.isIdentifier = true → b.isIdentifier = true →
      ∀ p, ¬ (a.span.covers p = true ∧ b.span.covers p = true) :=
    pairwise_of_forall₂ (leaves_of_parse h) (apart_significant text)
      fun ha hb hapart hid hid' => ha.not_covers_both hb hapart hid hid'
  have hidentifiers : (tree.leaves.filter Leaf.isIdentifier).Pairwise fun a b =>
      ∀ p, ¬ (a.span.covers p = true ∧ b.span.covers p = true) := by
    apply (hleaves.filter _).imp_of_mem
    intro a b ha hb hab
    exact hab (List.mem_filter.mp ha).2 (List.mem_filter.mp hb).2
  exact List.pairwise_map.mp (hidentifiers.sublist (Tree.namings_sublist tree))

/-- Each of them comes from an identifier of the text. -/
theorem comes_of_namings (h : parse text = .ok tree) {p : NodeKind × Leaf} (hp : p ∈ tree.namings) :
    p.2.isIdentifier = true ∧ ∃ t ∈ Token.significant text, p.2.Comes text t := by
  have hmem := (Tree.namings_sublist tree).subset (List.mem_map_of_mem hp)
  obtain ⟨hleaf, hid⟩ := List.mem_filter.mp hmem
  exact ⟨hid, exists_mem_of_forall₂ (leaves_of_parse h) hleaf⟩

theorem covers_iff_holds (h : parse text = .ok tree) {space : String} {l : Location}
    (hl : l ∈ Location.ofTree space tree) (p : Position) :
    l.span.covers p = true ↔ l.Holds text p := by
  rw [Location.ofTree_eq] at hl
  obtain ⟨⟨kind, leaf⟩, hnaming, rfl⟩ := List.mem_map.mp hl
  obtain ⟨hid, t, ht, hcomes⟩ := comes_of_namings h hnaming
  constructor
  · intro hcovers
    obtain ⟨front, back, hstands, hspan⟩ := hcomes.stands
    have hcover : leaf.span.covers p = true := hcovers
    rw [hspan, Span.covers_between_iff (hcomes.newline_not_mem hid)] at hcover
    obtain ⟨inside, rest, hcut, hp⟩ := hcover
    refine ⟨t, ht, hcomes.ident hid, front, inside, rest, back, ?_, hcut, ?_, hp⟩
    · rw [← hcut, ← hstands.text_eq]
    · rw [← hcut]
      exact hspan
  · rintro ⟨u, hu, hident, front, inside, rest, back, -, hcut, hspan, rfl⟩
    have hspells := (Token.scan_consecutive text).spells (List.mem_filter.mp hu).1
    rw [hident, hcut] at hspells
    rw [hspan, Span.covers_between_iff (Lexer.newline_not_mem_name hspells)]
    exact ⟨inside, rest, rfl, rfl⟩

/-- A search finds what it looks for if there is no other such member. -/
theorem find?_eq_some_iff_of_pairwise {α : Type} {xs : List α} {q : α → Bool}
    (h : xs.Pairwise fun a b => ¬ (q a = true ∧ q b = true)) {a : α} :
    xs.find? q = some a ↔ a ∈ xs ∧ q a = true := by
  induction xs with
  | nil => simp
  | cons b xs ih =>
    obtain ⟨hfirst, hrest⟩ := List.pairwise_cons.mp h
    by_cases hb : q b = true
    · rw [List.find?_cons_of_pos hb, Option.some_inj]
      constructor
      · rintro rfl
        exact ⟨List.mem_cons_self, hb⟩
      · rintro ⟨hmem, ha⟩
        rcases List.mem_cons.mp hmem with rfl | hmem
        · rfl
        · exact absurd ⟨hb, ha⟩ (hfirst a hmem)
    · rw [List.find?_cons_of_neg hb, ih hrest, List.mem_cons]
      constructor
      · exact fun hmem => ⟨.inr hmem.1, hmem.2⟩
      · rintro ⟨rfl | hmem, ha⟩
        · exact absurd ha hb
        · exact ⟨hmem, ha⟩

/-- The span of a name lies on one line and is not empty. -/
theorem oneLine_of_ofTree (h : parse text = .ok tree) {space : String} {l : Location}
    (hl : l ∈ Location.ofTree space tree) :
    l.span.startLine = l.span.endLine ∧ l.span.startColumn < l.span.endColumn := by
  rw [Location.ofTree_eq] at hl
  obtain ⟨⟨kind, leaf⟩, hnaming, rfl⟩ := List.mem_map.mp hl
  obtain ⟨hid, t, -, hcomes⟩ := comes_of_namings h hnaming
  obtain ⟨front, back, -, hspan⟩ := hcomes.stands
  have hlength := List.length_pos_iff.mpr hcomes.text_ne
  have hname : (Location.ofLeaf space kind leaf).span = leaf.span := rfl
  rw [behind_append front (hcomes.newline_not_mem hid)] at hspan
  rw [hname, hspan]
  refine ⟨rfl, ?_⟩
  simp only [Span.between]
  omega

/-- The leaves of a text that parses are its tokens without trivia, at the places in
front of and behind them; they are in order and do not overlap. A location lies on
one line, no cursor touches two of them, and a cursor finds exactly the location
whose identifier it is in or directly behind. -/
theorem places_exact (h : parse text = .ok tree) :
    List.Forall₂ (fun t leaf => leaf.Shows text.toList t) (Token.significant text) tree.leaves ∧
    (∀ leaf ∈ tree.leaves, leaf.span.start.Before leaf.span.stop) ∧
    (tree.leaves.Pairwise fun a b => ¬ b.span.start.Before a.span.stop) ∧
    ∀ space,
      (∀ l ∈ Location.ofTree space tree,
        l.span.startLine = l.span.endLine ∧ l.span.startColumn < l.span.endColumn) ∧
      ((Location.ofTree space tree).Pairwise fun l m =>
        ∀ p, ¬ (l.span.covers p = true ∧ m.span.covers p = true)) ∧
      ∀ p,
        (∀ l, Location.touching? (Location.ofTree space tree) p = some l ↔
          l ∈ Location.ofTree space tree ∧ l.Holds text p) ∧
        (Location.touching? (Location.ofTree space tree) p = none ↔
          ∀ l ∈ Location.ofTree space tree, ¬ l.Holds text p) := by
  have hleaves := leaves_of_parse h
  have hshared : ∀ space, (Location.ofTree space tree).Pairwise fun l m =>
      ∀ p, ¬ (l.span.covers p = true ∧ m.span.covers p = true) := by
    intro space
    rw [Location.ofTree_eq, List.pairwise_map]
    exact namings_pairwise h
  refine ⟨hleaves.imp fun t leaf hcomes => hcomes.shows, ?_, ?_, fun space => ⟨?_, ?_, fun p => ?_⟩⟩
  · intro leaf hleaf
    obtain ⟨t, -, hcomes⟩ := exists_mem_of_forall₂ hleaves hleaf
    exact hcomes.start_before_stop
  · exact pairwise_of_forall₂ hleaves (apart_significant text) fun ha hb hapart =>
      ha.not_before hb hapart
  · exact fun l hl => oneLine_of_ofTree h hl
  · exact hshared space
  · constructor
    · intro l
      rw [Location.touching?, find?_eq_some_iff_of_pairwise ((hshared space).imp fun hlm => hlm p)]
      exact and_congr_right fun hl => covers_iff_holds h hl p
    · rw [Location.touching?, List.find?_eq_none]
      exact forall₂_congr fun l hl => not_congr (covers_iff_holds h hl p)

end Documents

/-- A cursor directly behind a name, on a line that starts inside of a string. -/
theorem places_exact_behindString :
    ∃ tree l, parse "key x int;\nselect 'é\n' -> y, x;" = .ok tree ∧
      Location.touching? (Location.ofTree localSpace tree) ⟨2, 9⟩ = some l ∧
      l.address = "local.x" ∧ l.Holds "key x int;\nselect 'é\n' -> y, x;" ⟨2, 9⟩ := by
  have hcomputed : ∃ tree, parse "key x int;\nselect 'é\n' -> y, x;" = .ok tree ∧
      (fun tree => (Location.touching? (Location.ofTree localSpace tree) ⟨2, 9⟩).map
        Location.address) tree = some "local.x" := by
    apply exists_tree
    decide +kernel
  obtain ⟨tree, hparse, hcomputed⟩ := hcomputed
  obtain ⟨l, hl, haddress⟩ := Option.map_eq_some_iff.mp hcomputed
  have hfound := ((places_exact hparse).2.2.2 localSpace).2.2 ⟨2, 9⟩
  exact ⟨tree, l, hparse, hl, haddress, ((hfound.1 l).mp hl).2⟩

end ConceptQuery
