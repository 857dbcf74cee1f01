import ConceptQuery.Proofs.Completeness
import ConceptQuery.Proofs.Layout

/-! # What is accepted

A document is accepted if and only if its words are derivable: if they are those of
a list of sentences. Of a word only its kind counts, and its text if it is a name.
There is one such list at most for the tokens of a text, and it is what the text is
read into, with the operators of one level nested to the left.
-/
namespace ConceptQuery

/-- The word as far as the grammar goes: only names have a text. -/
def Word.sign (w : Word) : Word :=
  if w.kind = .ident then w else ⟨w.kind, ""⟩

def Token.sign (t : Token) : Word := t.word.sign

namespace Look
variable {look other : Look} {kinds : List TokenKind} {kind : TokenKind}

/-- The look makes no difference between words with the same sign. -/
def BySign (look : Look) : Prop :=
  ∀ ws, look (ws.map Word.sign) = look ws

@[simp] theorem kind_sign (w : Word) : w.sign.kind = w.kind := by
  rw [Word.sign]
  split <;> rfl

theorem text_sign {w : Word} (h : w.kind = .ident) : w.sign.text = w.text := by
  rw [Word.sign, if_pos h]

theorem BySign.through (h : look.BySign) : look.Through Token.sign := by
  intro ts us hts
  have hsigns : (ahead ts).map Word.sign = (ahead us).map Word.sign := by
    have htake : (ts.take 3).map Token.sign = (us.take 3).map Token.sign := by
      rw [List.map_take, List.map_take, hts]
    rw [ahead, ahead, List.map_map, List.map_map]
    exact htake
  rw [← h (ahead ts), hsigns, h (ahead us)]

theorem bySign_sees : (sees kinds).BySign := by
  intro ws
  cases ws with
  | nil => rfl
  | cons w ws => simp [sees]

theorem bySign_thenSees : (thenSees kind).BySign := by
  intro ws
  match ws with
  | [] => rfl
  | [w] => rfl
  | w :: v :: ws => simp [thenSees]

theorem BySign.and (ha : look.BySign) (hb : other.BySign) : (Look.and look other).BySign := by
  intro ws
  rw [Look.and, ha, hb, Look.and]

theorem BySign.or (ha : look.BySign) (hb : other.BySign) : (Look.or look other).BySign := by
  intro ws
  rw [Look.or, ha, hb, Look.or]

theorem BySign.not (ha : look.BySign) : (Look.not look).BySign := by
  intro ws
  rw [Look.not, ha, Look.not]

end Look

namespace Grammar
open Rule Look

theorem bySign_atTypeName : BySign atTypeName := by
  intro ws
  cases ws with
  | nil => rfl
  | cons w ws =>
    by_cases hw : w.kind = .ident
    · simp [atTypeName, hw, text_sign hw]
    · simp [atTypeName, hw]

theorem bySign_atMembership : BySign atMembership :=
  bySign_sees.or (bySign_sees.and bySign_thenSees)

theorem bySign_atDerivation : BySign atDerivation := by
  intro ws
  match ws with
  | [] => rfl
  | [w] => simp [atDerivation, sees]
  | [w, v] => simp [atDerivation, sees]
  | w :: v :: u :: ws => simp [atDerivation, sees]

theorem bySign_atProperty : BySign atProperty := by
  intro ws
  match ws with
  | [] => rfl
  | [w] => rfl
  | w :: v :: ws =>
    by_cases hv : v.kind = .ident
    · simp [atProperty, hv, text_sign hv]
    · simp [atProperty, hv]

theorem bySign_atPlainItem : BySign atPlainItem := by
  intro ws
  match ws with
  | [] => rfl
  | [w] => simp [atPlainItem]
  | w :: v :: ws => simp [atPlainItem]

theorem bySign_atNextItem : BySign atNextItem := by
  refine bySign_sees.and fun ws => ?_
  match ws with
  | [] => rfl
  | [w] => rfl
  | w :: v :: ws => simp

theorem bySign_atNextColumn : BySign atNextColumn :=
  bySign_sees.and bySign_thenSees.not

theorem rules_through_sign (name : Nonterminal) : (rules name).Through Token.sign := by
  have hsees : ∀ kinds, (sees kinds).Through Token.sign := fun _ => bySign_sees.through
  have hcall : (Look.and (.sees [.ident, word .like]) (.thenSees (punct .leftParen))).Through
      Token.sign := (bySign_sees.and bySign_thenSees).through
  cases name with
  | expression => simp [rules, disjunction, conjunction, leftNested, Rule.Through, hsees]
  | negation =>
    simp [rules, negation, comparison, sum, product, leftNested, isNullTest, membershipTest,
      expressionList, separated, Rule.optional, inOrder, Rule.Through, hsees,
      bySign_atMembership.through]
  | signed =>
    simp [rules, signed, atom, callExpression, oneToken, expressionList, separated, inOrder,
      Rule.Through, hsees, hcall, bySign_atTypeName.through]

theorem statement_through_sign : statement.Through Token.sign := by
  have hsees : ∀ kinds, (sees kinds).Through Token.sign := fun _ => bySign_sees.through
  have halias : (Look.and (.sees [.ident, .string]) (.thenSees (punct .colon))).Through
      Token.sign := (bySign_sees.and bySign_thenSees).through
  have hbody : selectBody.Through Token.sign := by
    simp [selectBody, selectItem, whereClause, orderByClause, orderItem, limitClause, oneToken,
      expression, separated, Rule.optional, inOrder, Rule.Through, hsees, bySign_atPlainItem.through,
      bySign_atNextItem.through]
  have hselect : selectStatement.Through Token.sign := by
    simp [selectStatement, alignClause, alignItem, oneToken, separated, Rule.optional, inOrder,
      Rule.Through, hsees, hbody]
  have hdatasource : datasource.Through Token.sign := by
    simp [datasource, columnList, column, grainClause, source, separated, Rule.optional, inOrder,
      Rule.Through, hsees, halias, bySign_atNextColumn.through]
  have hconcept : conceptStatement.Through Token.sign := by
    simp [conceptStatement, derivation, typedDeclaration, oneToken, expression, Rule.optional, inOrder,
      Rule.Through, hsees, bySign_atDerivation.through, bySign_atProperty.through]
  simp [statement, importStatement, persistStatement, rawSqlStatement, Rule.optional, inOrder,
    Rule.Through, hsees, hbody, hselect, hdatasource, hconcept]

theorem suffices_sign : Suffices Token.sign where
  kind := fun t u h => by
    have hkind := congrArg Word.kind h
    simpa only [Token.sign, kind_sign, Token.word] using hkind
  rules := rules_through_sign
  statement := statement_through_sign

/-- Words that are those of sentences, one after the other. -/
def Derivable (signs : List Word) : Prop :=
  ∃ sentences, (∀ s ∈ sentences, Sentence s) ∧ (Tree.leavesOf sentences).map Token.sign = signs

/-- Each sentence has its semicolon. -/
theorem leaves_ne_nil {t : Tree Token} (h : Sentence t) : t.leaves ≠ [] := by
  cases h <;> simp [Tree.leaves, Tree.leavesOf, declared]

/-- Sentences are read into what they are, without faults. -/
theorem readStatements_of_sentences (size : Nat) {fuel : Nat} {sentences : List (Tree Token)}
    {lexemes : List Lexeme} (hs : ∀ s ∈ sentences, Sentence s) (hp : ∀ l ∈ lexemes, l.Proper)
    (ht : lexemes.map Lexeme.token = Tree.leavesOf sentences) (hf : lexemes.length ≤ fuel) :
    (readStatements size fuel lexemes).2 = [] ∧
      Tree.bareAll (readStatements size fuel lexemes).1 = sentences := by
  induction sentences generalizing lexemes fuel with
  | nil =>
    obtain rfl := List.map_eq_nil_iff.mp ht
    cases fuel with
    | zero => exact ⟨rfl, rfl⟩
    | succ fuel => exact ⟨rfl, rfl⟩
  | cons s sentences ih =>
    have hread : Reads rules statement [] (lexemes.map Lexeme.token) [s]
        (Tree.leavesOf sentences) := by
      rw [ht]
      exact reads_sentence (hs s (by simp))
    cases lexemes with
    | nil =>
      have hnil : s.leaves ++ Tree.leavesOf sentences = [] := ht.symm
      exact absurd (List.append_eq_nil_iff.mp hnil).1 (leaves_ne_nil (hs s (by simp)))
    | cons l lexemes =>
      obtain ⟨fuel, rfl⟩ := Nat.exists_eq_add_of_le' (Nat.le_of_add_left_le hf)
      obtain ⟨ys, rest, hmade, hys, hrest, hproper⟩ := readStatement_of_reads hp hread
      have hlength := length_rest_lt_of_made hmade
      simp only [List.length_cons] at hlength hf
      have hfuel : rest.length ≤ fuel := by omega
      obtain ⟨hnone, hmore⟩ := ih (fun t h => hs t (by simp [h])) hproper hrest hfuel
      rw [readStatements_of_made hmade]
      exact ⟨hnone, by rw [Tree.bareAll_append, hys, hmore]; rfl⟩

/-- Sentences with the signs of a text show that the text has no faults. -/
theorem no_faults_of_derivable {text : String}
    (h : Derivable ((Token.significant text).map Token.sign)) :
    (Parsed.ofText text).faults = [] := by
  obtain ⟨sentences, hs, hsigns⟩ := h
  -- the sentences as a text of their own, with nothing between the words
  let lexemes : List Lexeme := (Tree.leavesOf sentences).map fun t => ⟨t, [], false⟩
  have htokens : lexemes.map Lexeme.token = Tree.leavesOf sentences := by
    simp [lexemes, Function.comp_def]
  have hproper : ∀ l ∈ lexemes, l.Proper := by
    intro l hl
    obtain ⟨t, ht, rfl⟩ := List.mem_map.mp hl
    have hsign : t.sign ∈ (Token.significant text).map Token.sign :=
      hsigns ▸ List.mem_map_of_mem ht
    obtain ⟨u, hu, hut⟩ := List.mem_map.mp hsign
    have hkind : u.kind = t.kind := suffices_sign.kind u t hut
    have hu : u.kind.isTrivia = false := by simpa using (List.mem_filter.mp hu).2
    exact ⟨hkind ▸ hu, by simp⟩
  have hsame : Same Token.sign [] [] lexemes (Lexeme.ofText text) :=
    ⟨rfl, by rw [htokens, hsigns, Lexeme.token_ofText], hproper,
      fun l hl => Lexeme.proper_ofText hl⟩
  have hlength : (Lexeme.ofText text).length = lexemes.length := by
    have hcount := congrArg List.length hsame.tokens
    simpa only [List.length_map] using hcount.symm
  have hnone := (readStatements_of_sentences 0 hs hproper htokens le_rfl).1
  have halike := (readStatements_alike suffices_sign 0 text.utf8ByteSize (fun _ => ())
    (fun _ _ _ _ => rfl) lexemes.length hsame).1
  rw [hnone] at halike
  rw [Parsed.faults_ofText, hlength]
  exact List.head?_eq_none_iff.mp (Option.map_eq_none_iff.mp halike.symm)

/-- Sentences with the tokens of a text are what the text is read into. -/
theorem bare_of_sentences {text : String} {sentences : List (Tree Token)}
    (hs : ∀ s ∈ sentences, Sentence s) (ht : Tree.leavesOf sentences = Token.significant text) :
    (Parsed.ofText text).tree.bare = .node .sourceFile sentences := by
  have hread := readStatements_of_sentences text.utf8ByteSize hs
    (fun l hl => Lexeme.proper_ofText hl) (ht ▸ Lexeme.token_ofText text) le_rfl
  rw [Parsed.bare_ofText, hread.2]

end Grammar

namespace Tree

mutual
/-- Of the leaves of a tree, the bare tree has those that are no trivia. -/
theorem leaves_bare (k : NodeKind) (cs : List (Tree Token)) :
    (bare (node k cs)).leaves = (leavesOf cs).filter fun t => !t.kind.isTrivia := by
  rw [bare, leaves, leavesOf_bareAll cs]

theorem leavesOf_bareAll (ts : List (Tree Token)) :
    leavesOf (bareAll ts) = (leavesOf ts).filter fun t => !t.kind.isTrivia := by
  match ts with
  | [] => rfl
  | leaf t :: rest =>
    by_cases ht : t.kind.isTrivia
    · simp [bareAll, leavesOf, leaves, ht, leavesOf_bareAll rest]
    · simp [bareAll, leavesOf, leaves, ht, leavesOf_bareAll rest]
  | node k cs :: rest =>
    rw [bareAll, leavesOf, leavesOf, leaves_bare k cs, leavesOf_bareAll rest,
      List.filter_append, leaves]
end

end Tree

/-- An accepted text is read into sentences that have its tokens. -/
theorem sentences_of_accepted {text : String} {tree : Tree Leaf} (h : parse text = .ok tree) :
    ∃ sentences, (∀ s ∈ sentences, Grammar.Sentence s) ∧
      Tree.leavesOf sentences = Token.significant text ∧
      tree = (Tree.node .sourceFile sentences).placed text.toList := by
  have hnone : (Parsed.ofText text).faults = [] := parse_ok_iff.mp ⟨tree, h⟩
  rw [parse_of_no_faults hnone] at h
  obtain ⟨sentences, hbare, hs⟩ := Grammar.sentences_of_parsed hnone
  refine ⟨sentences, hs, ?_, ?_⟩
  · have hleaves : (Parsed.ofText text).tree.bare.leaves = Token.significant text := by
      rw [Token.significant, ← Parsed.leaves_ofText text]
      exact Tree.leaves_bare _ _
    rw [← hleaves, hbare, Tree.leaves]
  · rw [← hbare, Tree.placed_bare]
    exact (Except.ok.inj h).symm

/-- Sentences that have the tokens of a text are what is read of it. -/
theorem parse_of_sentences {text : String} {sentences : List (Tree Token)}
    (hs : ∀ s ∈ sentences, Grammar.Sentence s) (ht : Tree.leavesOf sentences = Token.significant text) :
    parse text = .ok ((Tree.node .sourceFile sentences).placed text.toList) := by
  have hnone := Grammar.no_faults_of_derivable ⟨sentences, hs, congrArg _ ht⟩
  rw [parse_of_no_faults hnone, ← Tree.placed_bare, Grammar.bare_of_sentences hs ht]

/-- A text is accepted if and only if its words are derivable. Its tree is then made
of the only sentences that have its tokens. -/
theorem parse_iff_derivable (text : String) :
    ((∃ tree, parse text = .ok tree) ↔
      Grammar.Derivable ((Token.significant text).map Token.sign)) ∧
    ∀ tree, parse text = .ok tree → ∃ sentences,
      (∀ s ∈ sentences, Grammar.Sentence s) ∧ Tree.leavesOf sentences = Token.significant text ∧
      tree = (Tree.node .sourceFile sentences).placed text.toList ∧
      ∀ others, (∀ s ∈ others, Grammar.Sentence s) →
        Tree.leavesOf others = Token.significant text → others = sentences := by
  refine ⟨⟨?_, ?_⟩, ?_⟩
  · rintro ⟨tree, hparse⟩
    obtain ⟨sentences, hs, hleaves, -⟩ := sentences_of_accepted hparse
    exact ⟨sentences, hs, by rw [hleaves]⟩
  · intro hderivable
    exact parse_ok_iff.mpr (Grammar.no_faults_of_derivable hderivable)
  · intro tree hparse
    obtain ⟨sentences, hs, hleaves, htree⟩ := sentences_of_accepted hparse
    refine ⟨sentences, hs, hleaves, htree, fun others ho hothers => ?_⟩
    have hsame := (Grammar.bare_of_sentences ho hothers).symm.trans
      (Grammar.bare_of_sentences hs hleaves)
    exact (Tree.node.inj hsame).2

/-- Three readings of `like`, a comma too many and a `not in` are fine; a second
comparison is not. -/
theorem parse_iff_derivable_lookahead :
    (∃ tree sentences,
      parse "select --a, a - b like c -> d, like(a) not in (1, 2) -> like_it, limit 1;" = .ok tree ∧
      (∀ s ∈ sentences, Grammar.Sentence s) ∧
      tree = (Tree.node .sourceFile sentences).placed
        "select --a, a - b like c -> d, like(a) not in (1, 2) -> like_it, limit 1;".toList) ∧
    ¬ Grammar.Derivable ((Token.significant "auto d <- a = b = c;").map Token.sign) := by
  have hnone : (Parsed.ofText
      "select --a, a - b like c -> d, like(a) not in (1, 2) -> like_it, limit 1;").faults = [] := by
    decide +kernel
  have hone : (Parsed.ofText "auto d <- a = b = c;").faults.length = 1 := by decide +kernel
  constructor
  · have hparse := parse_of_no_faults hnone
    obtain ⟨sentences, hs, -, htree, -⟩ := (parse_iff_derivable _).2 _ hparse
    exact ⟨_, sentences, hparse, hs, htree⟩
  · intro hderivable
    have hzero := parse_ok_iff.mp ((parse_iff_derivable _).1.mpr hderivable)
    rw [hzero] at hone
    cases hone

end ConceptQuery
