import ConceptQuery.Proofs.Sentence
import ConceptQuery.Proofs.Spelling

/-! # Reading keeps every token

Whatever a rule makes or leaves unfinished, the tokens in it and the tokens left
to read are the tokens there were before, in the same order. A statement takes at
least one lexeme, recovery included, so the tree of a document has exactly the
tokens of its text.
-/
namespace ConceptQuery
namespace Tree
variable {α : Type}

@[simp] theorem leavesOf_append (xs ys : List (Tree α)) :
    leavesOf (xs ++ ys) = leavesOf xs ++ leavesOf ys := by
  induction xs with
  | nil => simp [leavesOf]
  | cons x xs ih => simp [leavesOf, ih]

@[simp] theorem leavesOf_map_leaf (as : List α) : leavesOf (as.map leaf) = as := by
  induction as with
  | nil => rfl
  | cons a as ih => simp [leavesOf, leaves, ih]

theorem mem_leavesOf {a : α} {ts : List (Tree α)} :
    a ∈ leavesOf ts ↔ ∃ t ∈ ts, a ∈ t.leaves := by
  induction ts with
  | nil => simp [leavesOf]
  | cons t ts ih => simp [leavesOf, ih]

end Tree

namespace Lexeme

def tokens (l : Lexeme) : List Token :=
  l.token :: l.trivia

theorem leavesOf_elements (l : Lexeme) : Tree.leavesOf l.elements = l.tokens :=
  Tree.leavesOf_map_leaf _

/-- Grouping loses only the trivia in front of the first token. -/
theorem tokens_group (startsLine : Bool) (tokens : List Token) :
    (tokens.takeWhile fun t => t.kind.isTrivia) ++ (group startsLine tokens).flatMap Lexeme.tokens =
      tokens := by
  induction tokens generalizing startsLine with
  | nil => rfl
  | cons t rest ih =>
    rw [group]
    split
    · rename_i ht
      simp [ht, ih startsLine]
    · rename_i ht
      have hrest := ih (breaksLine (rest.takeWhile fun u => u.kind.isTrivia))
      simp [ht, Lexeme.tokens, hrest]

end Lexeme

namespace Unfinished

/-- The tokens taken so far. -/
def leaves : Unfinished → List Token
  | here made => Tree.leavesOf made
  | inside made _ inner => Tree.leavesOf made ++ inner.leaves

theorem leaves_after (before : List (Tree Token)) (u : Unfinished) :
    (u.after before).leaves = Tree.leavesOf before ++ u.leaves := by
  cases u with
  | here made => simp [after, leaves]
  | inside made kind inner => simp [after, leaves]

theorem leavesOf_close (last : Tree Token) (u : Unfinished) :
    Tree.leavesOf (u.close last) = u.leaves ++ last.leaves := by
  induction u with
  | here made => simp [close, leaves, Tree.leavesOf]
  | inside made kind inner ih => simp [close, leaves, Tree.leavesOf, Tree.leaves, ih]

end Unfinished

namespace Reading

def rest : Reading → List Lexeme
  | made _ rest => rest
  | stuck _ _ rest => rest

def leaves : Reading → List Token
  | made elements _ => Tree.leavesOf elements
  | stuck unfinished _ _ => unfinished.leaves

/-- The reading went on from these elements and this input, and lost nothing. -/
structure Keeps (r : Reading) (made : List (Tree Token)) (input : List Lexeme) : Prop where
  suffix : r.rest <:+ input
  tokens : r.leaves ++ r.rest.flatMap Lexeme.tokens =
    Tree.leavesOf made ++ input.flatMap Lexeme.tokens

end Reading

namespace Rule
open Reading
variable {rules : Nonterminal → Rule}
variable {again : Rule → List (Tree Token) → List Lexeme → Reading}

theorem step_keeps (hagain : ∀ rule made input, (again rule made input).Keeps made input)
    (rule : Rule) (made : List (Tree Token)) (input : List Lexeme) :
    (step rules again rule made input).Keeps made input := by
  induction rule generalizing made input with
  | done => exact ⟨List.suffix_rfl, rfl⟩
  | expect k =>
    cases input with
    | nil => exact ⟨List.suffix_rfl, rfl⟩
    | cons l input =>
      rw [step]
      split
      · exact ⟨List.suffix_cons l input, by simp [leaves, rest, Lexeme.leavesOf_elements]⟩
      · exact ⟨List.suffix_rfl, rfl⟩
  | take =>
    cases input with
    | nil => exact ⟨List.suffix_rfl, rfl⟩
    | cons l input =>
      exact ⟨List.suffix_cons l input, by simp [step, leaves, rest, Lexeme.leavesOf_elements]⟩
  | refuse expected => exact ⟨List.suffix_rfl, rfl⟩
  | seq a b iha ihb =>
    have ha := iha made input
    rw [step]
    split
    · rename_i mid left h
      rw [h] at ha
      have hb := ihb mid left
      exact ⟨hb.suffix.trans ha.suffix, hb.tokens.trans ha.tokens⟩
    · rename_i u expected left h
      rw [h] at ha
      exact ⟨ha.suffix, ha.tokens⟩
  | branch look yes no ihyes ihno =>
    rw [step]
    split
    · exact ihyes made input
    · exact ihno made input
  | loop look body ih =>
    rw [step]
    split
    · have hbody := ih made input
      split
      · rename_i mid left h
        rw [h] at hbody
        have hmore := hagain (loop look body) mid left
        exact ⟨hmore.suffix.trans hbody.suffix, hmore.tokens.trans hbody.tokens⟩
      · rename_i u expected left h
        rw [h] at hbody
        exact ⟨hbody.suffix, hbody.tokens⟩
    · exact ⟨List.suffix_rfl, rfl⟩
  | node kind body ih =>
    have hbody := ih [] input
    rw [step]
    split
    · rename_i inner left h
      rw [h] at hbody
      refine ⟨hbody.suffix, ?_⟩
      have htokens := hbody.tokens
      simp only [leaves, rest, Tree.leavesOf, List.nil_append] at htokens
      simp [leaves, rest, Tree.leavesOf, Tree.leaves, htokens]
    · rename_i u expected left h
      rw [h] at hbody
      refine ⟨hbody.suffix, ?_⟩
      have htokens := hbody.tokens
      simp only [leaves, rest, Tree.leavesOf, List.nil_append] at htokens
      simp [leaves, rest, Unfinished.leaves, htokens]
  | mark body ih =>
    have hbody := ih [] input
    rw [step]
    split
    · rename_i inner left h
      rw [h] at hbody
      refine ⟨hbody.suffix, ?_⟩
      have htokens := hbody.tokens
      simp only [leaves, rest, Tree.leavesOf, List.nil_append] at htokens
      simp [leaves, rest, htokens]
    · rename_i u expected left h
      rw [h] at hbody
      refine ⟨hbody.suffix, ?_⟩
      have htokens := hbody.tokens
      simp only [leaves, rest, Tree.leavesOf, List.nil_append] at htokens
      simp [leaves, rest, Unfinished.leaves_after, htokens]
  | wrap kind body ih =>
    have hbody := ih made input
    rw [step]
    split
    · rename_i inner left h
      rw [h] at hbody
      exact ⟨hbody.suffix, by simpa [leaves, rest, Tree.leavesOf, Tree.leaves] using hbody.tokens⟩
    · rename_i u expected left h
      rw [h] at hbody
      exact ⟨hbody.suffix, by simpa [leaves, rest, Unfinished.leaves, Tree.leavesOf] using hbody.tokens⟩
  | call name => exact hagain (rules name) made input

theorem read_keeps (fuel : Nat) (rule : Rule) (made : List (Tree Token)) (input : List Lexeme) :
    (read rules fuel rule made input).Keeps made input := by
  induction fuel generalizing rule made input with
  | zero => exact ⟨List.suffix_rfl, rfl⟩
  | succ fuel ih => exact step_keeps ih rule made input

/-- Whether what the rule makes surely took a lexeme, where `more` says that there
surely is one to take. -/
def consumes : (more : Bool) → Rule → Bool
  | more, take => more
  | _, expect _ => true
  | _, refuse _ => true
  | more, seq a b => a.consumes more || b.consumes false
  | more, branch look yes no => yes.consumes (more || !look []) && no.consumes more
  | more, node _ body => body.consumes more
  | more, mark body => body.consumes more
  | more, wrap _ body => body.consumes more
  | _, _ => false

theorem ne_nil_of_look {look : Look} {input : List Lexeme} (h : look (Look.words input) = true)
    (hnil : look [] = false) : input ≠ [] := by
  rintro rfl
  have hlook : look [] = true := h
  rw [hnil] at hlook
  cases hlook

theorem length_lt_of_consumes (hagain : ∀ rule made input, (again rule made input).Keeps made input)
    {rule : Rule} {more : Bool} (hc : rule.consumes more = true) {made made' : List (Tree Token)}
    {input rest : List Lexeme} (hmore : more = true → input ≠ [])
    (h : step rules again rule made input = .made made' rest) : rest.length < input.length := by
  induction rule generalizing more made input made' rest with
  | done => cases hc
  | expect k =>
    cases input with
    | nil => cases h
    | cons l input =>
      rw [step] at h
      split at h
      · cases h
        simp
      · cases h
  | take =>
    cases input with
    | nil => exact absurd rfl (hmore hc)
    | cons l input =>
      cases h
      simp
  | refuse expected => cases h
  | seq a b iha ihb =>
    have hkeep : (step rules again a made input).Keeps made input :=
      step_keeps hagain a made input
    rw [step] at h
    split at h
    · rename_i mid left ha
      have hleft : left.length ≤ input.length := by
        rw [ha] at hkeep
        exact hkeep.suffix.length_le
      have hrest : rest.length ≤ left.length := by
        have hb : (step rules again b mid left).Keeps mid left := step_keeps hagain b mid left
        rw [h] at hb
        exact hb.suffix.length_le
      rcases Bool.or_eq_true_iff.mp hc with hc | hc
      · have := iha hc hmore ha
        omega
      · have := ihb hc (by simp) h
        omega
    · cases h
  | branch look yes no ihyes ihno =>
    obtain ⟨hyes, hno⟩ := Bool.and_eq_true_iff.mp hc
    rw [step] at h
    split at h
    · rename_i hlook
      refine ihyes hyes (fun hm => ?_) h
      rcases Bool.or_eq_true_iff.mp hm with hm | hm
      · exact hmore hm
      · exact ne_nil_of_look hlook (by simpa using hm)
    · exact ihno hno hmore h
  | loop look body ih => cases hc
  | node kind body ih =>
    rw [step] at h
    split at h
    · rename_i inner left hb
      cases h
      exact ih hc hmore hb
    · cases h
  | mark body ih =>
    rw [step] at h
    split at h
    · rename_i inner left hb
      cases h
      exact ih hc hmore hb
    · cases h
  | wrap kind body ih =>
    rw [step] at h
    split at h
    · rename_i inner left hb
      cases h
      exact ih hc hmore hb
    · cases h
  | call name => cases hc

/-- What is left after a sequence is no more than what its first rule left. -/
theorem length_rest_seq_le (hagain : ∀ rule made input, (again rule made input).Keeps made input)
    (a b : Rule) (made : List (Tree Token)) (input : List Lexeme) :
    (step rules again (seq a b) made input).rest.length ≤
      (step rules again a made input).rest.length := by
  rw [step]
  split
  · rename_i mid left h
    rw [h]
    exact (step_keeps hagain b mid left).suffix.length_le
  · rename_i u expected left h
    exact le_of_eq (congrArg (fun r => r.rest.length) h.symm)

theorem rest_node (kind : NodeKind) (body : Rule) (made : List (Tree Token)) (input : List Lexeme) :
    (step rules again (node kind body) made input).rest = (step rules again body [] input).rest := by
  rw [step]
  split
  · rename_i h
    rw [h]
    rfl
  · rename_i h
    rw [h]
    rfl

theorem rest_mark (body : Rule) (made : List (Tree Token)) (input : List Lexeme) :
    (step rules again (mark body) made input).rest = (step rules again body [] input).rest := by
  rw [step]
  split
  · rename_i h
    rw [h]
    rfl
  · rename_i h
    rw [h]
    rfl

end Rule

namespace Grammar
open Rule Reading

section Statements
variable {again : Rule → List (Tree Token) → List Lexeme → Reading} {l : Lexeme}
variable {lexemes : List Lexeme} {made : List (Tree Token)}

/-- A sequence whose first rule takes the next lexeme leaves less. -/
theorem advances_of_first (hagain : ∀ rule made input, (again rule made input).Keeps made input)
    {first : Rule} {others : List Rule}
    (hfirst : (step rules again first made (l :: lexemes)).rest = lexemes) :
    (step rules again (inOrder (first :: others)) made (l :: lexemes)).rest.length <
      (l :: lexemes).length := by
  have hle : (step rules again (inOrder (first :: others)) made (l :: lexemes)).rest.length ≤
      (step rules again first made (l :: lexemes)).rest.length :=
    length_rest_seq_le hagain first (inOrder others) made (l :: lexemes)
  rw [hfirst] at hle
  exact Nat.lt_succ_of_le hle

theorem rest_expect {kind : TokenKind} (h : l.kind = kind) :
    (step rules again (expect kind) made (l :: lexemes)).rest = lexemes := by
  rw [step, if_pos h]
  rfl

theorem sees_words {kinds : List TokenKind} :
    Look.sees kinds (Look.words (l :: lexemes)) = kinds.contains l.kind :=
  rfl

theorem conceptStatement_advances
    (hagain : ∀ rule made input, (again rule made input).Keeps made input) :
    (step rules again conceptStatement made (l :: lexemes)).rest.length < (l :: lexemes).length := by
  unfold conceptStatement
  rw [step]
  split
  · rw [derivation, rest_node]
    exact advances_of_first hagain rfl
  · rw [step]
    split
    · rw [typedDeclaration, rest_node]
      exact advances_of_first hagain rfl
    · rw [typedDeclaration, rest_node]
      exact advances_of_first hagain rfl

theorem datasource_advances
    (hagain : ∀ rule made input, (again rule made input).Keeps made input)
    (hl : l.kind ∈ [word .root, word .datasource]) :
    (step rules again datasource made (l :: lexemes)).rest.length < (l :: lexemes).length := by
  rw [datasource, rest_node]
  by_cases hroot : l.kind = word .root
  · apply advances_of_first hagain
    rw [Rule.optional, step, sees_words, if_pos (by simp [hroot])]
    rfl
  · have hkind : l.kind = word .datasource := by simpa [hroot] using hl
    have hskip : step rules again (optional (.sees [word .root]) take) [] (l :: lexemes) =
        .made [] (l :: lexemes) := by
      rw [Rule.optional, step, sees_words, if_neg (by simp [hkind])]
      rfl
    -- the first rule leaves everything, so the keyword is what the second one takes
    rw [inOrder, List.foldr_cons, step, hskip]
    exact advances_of_first hagain (rest_expect hkind)

/-- A statement that starts with a keyword of its own takes the keyword, whether or
not it gets stuck later. -/
theorem statement_advances
    (hagain : ∀ rule made input, (again rule made input).Keeps made input)
    (hl : l.kind ∈ statementStart) :
    (step rules again statement made (l :: lexemes)).rest.length < (l :: lexemes).length := by
  unfold statement
  rw [step, sees_words]
  split
  · exact conceptStatement_advances hagain
  rename_i hpurpose
  rw [step, sees_words]
  split
  · rename_i h
    exact datasource_advances hagain (by simpa using h)
  rename_i hdatasource
  rw [step, sees_words]
  split
  · rw [importStatement, rest_node]
    exact advances_of_first hagain rfl
  rename_i himport
  rw [step, sees_words]
  split
  · rename_i h
    rw [selectStatement, rest_mark]
    have hbody : (step rules again selectBody [] (l :: lexemes)).rest.length <
        (l :: lexemes).length := advances_of_first hagain (rest_expect (by simpa using h))
    exact lt_of_le_of_lt (length_rest_seq_le hagain _ _ _ _) hbody
  rename_i hselect
  rw [step, sees_words]
  split
  · rw [persistStatement, rest_node]
    exact advances_of_first hagain rfl
  rename_i hpersist
  rw [step, sees_words]
  split
  · rw [rawSqlStatement, rest_node]
    exact advances_of_first hagain rfl
  rename_i hraw
  exfalso
  simp_all [statementStart, purposes]

end Statements

/-- A statement is one element, and it takes a lexeme. -/
theorem length_rest_lt_of_made {l : Lexeme} {lexemes rest : List Lexeme}
    {elements : List (Tree Token)} (h : readStatement (l :: lexemes) = .made elements rest) :
    rest.length < (l :: lexemes).length := by
  have hconsumes : statement.consumes true = true := by decide
  exact length_lt_of_consumes (read_keeps _) hconsumes (by simp) h

theorem readStatement_keeps (lexemes : List Lexeme) : (readStatement lexemes).Keeps [] lexemes :=
  read_keeps _ _ _ _

section Swallowing

theorem swallow_suffix (lexemes : List Lexeme) : (swallow lexemes).2 <:+ lexemes := by
  induction lexemes with
  | nil => exact List.suffix_rfl
  | cons l rest ih =>
    rw [swallow]
    split
    · exact List.suffix_rfl
    · split
      · exact List.suffix_cons l rest
      · exact ih.trans (List.suffix_cons l rest)

theorem swallow_tokens (lexemes : List Lexeme) :
    Tree.leavesOf (swallow lexemes).1 ++ (swallow lexemes).2.flatMap Lexeme.tokens =
      lexemes.flatMap Lexeme.tokens := by
  induction lexemes with
  | nil => rfl
  | cons l rest ih =>
    rw [swallow]
    split
    · simp [Tree.leavesOf]
    · split
      · simp [Lexeme.leavesOf_elements]
      · simp [Lexeme.leavesOf_elements, ih]

/-- Recovery stops at once only in front of a keyword that starts a statement. -/
theorem length_swallow_lt {l : Lexeme} {rest : List Lexeme} (h : l.kind ∉ statementStart) :
    (swallow (l :: rest)).2.length < (l :: rest).length := by
  rw [swallow, if_neg (by simp [h])]
  split
  · simp
  · exact Nat.lt_succ_of_le (swallow_suffix rest).length_le

/-- A statement that gets stuck takes a lexeme, or else recovery does. -/
theorem length_left_lt_of_stuck {l : Lexeme} {lexemes rest : List Lexeme} {u : Unfinished}
    {expected : List TokenKind} (h : readStatement (l :: lexemes) = .stuck u expected rest) :
    (swallow rest).2.length < (l :: lexemes).length := by
  have hsuffix : rest <:+ l :: lexemes := by
    have hkeeps := readStatement_keeps (l :: lexemes)
    rw [h] at hkeeps
    exact hkeeps.suffix
  have hswallow := (swallow_suffix rest).length_le
  by_cases hl : l.kind ∈ statementStart
  · have hadvance : (readStatement (l :: lexemes)).rest.length < (l :: lexemes).length :=
      statement_advances (read_keeps _) hl
    have hrest : rest.length < (l :: lexemes).length := by
      rw [h] at hadvance
      exact hadvance
    omega
  · rcases List.suffix_cons_iff.mp hsuffix with rfl | hshorter
    · exact length_swallow_lt hl
    · have := hshorter.length_le
      simp only [List.length_cons]
      omega

end Swallowing

/-- As many statements as lexemes are enough to read them all. -/
theorem readStatements_tokens (textSize fuel : Nat) (lexemes : List Lexeme)
    (h : lexemes.length ≤ fuel) :
    Tree.leavesOf (readStatements textSize fuel lexemes).1 = lexemes.flatMap Lexeme.tokens := by
  induction fuel generalizing lexemes with
  | zero =>
    obtain rfl := List.length_eq_zero_iff.mp (Nat.le_zero.mp h)
    rfl
  | succ fuel ih =>
    cases lexemes with
    | nil => rfl
    | cons l lexemes =>
      have hkeeps := (readStatement_keeps (l :: lexemes)).tokens
      cases hread : readStatement (l :: lexemes) with
      | made elements rest =>
        have hlt := length_rest_lt_of_made hread
        rw [hread] at hkeeps
        rw [readStatements_of_made hread, Tree.leavesOf_append, ih rest (by omega)]
        exact hkeeps
      | stuck u expected rest =>
        have hlt := length_left_lt_of_stuck hread
        rw [hread] at hkeeps
        rw [readStatements_of_stuck hread, Tree.leavesOf_append, Unfinished.leavesOf_close,
          ih _ (by omega), List.append_assoc, Tree.leaves, swallow_tokens]
        exact hkeeps

theorem readTokens_leaves (textSize : Nat) (tokens : List Token) :
    (readTokens textSize tokens).tree.leaves = tokens := by
  have hgroup := Lexeme.tokens_group
    (Lexeme.breaksLine (tokens.takeWhile fun t => t.kind.isTrivia)) tokens
  simp only [readTokens, Tree.leaves, Tree.leavesOf_append, Tree.leavesOf_map_leaf]
  rw [readStatements_tokens _ _ _ le_rfl]
  exact hgroup

end Grammar

/-- The leaves of the tree of a text are the tokens of the text. -/
theorem Parsed.leaves_ofText (text : String) :
    (Parsed.ofText text).tree.leaves = Token.scan text :=
  Grammar.readTokens_leaves _ _

theorem toList_intercalate_texts (tokens : List Token) :
    ("".intercalate (tokens.map Token.text)).toList = tokens.flatMap fun t => t.text.toList := by
  rw [String.toList_intercalate]
  induction tokens with
  | nil => rfl
  | cons t tokens ih =>
    cases tokens with
    | nil => simp
    | cons u tokens => simpa using ih

theorem Parsed.spelling_ofText (text : String) : (Parsed.ofText text).tree.spelling = text := by
  apply String.toList_injective
  rw [Tree.spelling, Parsed.leaves_ofText, toList_intercalate_texts, Token.scan_texts]

end ConceptQuery
