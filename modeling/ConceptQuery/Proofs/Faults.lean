import ConceptQuery.Proofs.Assembly

/-! # Faults and errors in a tree

A document has a fault exactly if its tree has an error node or a stray token.
The faults stand in the order of the text, no two at the same place, and each
shows the token at its place; only the last may stand at the end of the text.
-/
namespace ConceptQuery
namespace Tree

mutual
/-- Whether there is an error node or a token that fits no kind. -/
def hasError : Tree Token → Bool
  | leaf t => t.kind = .stray
  | node k cs => k = .error || hasErrorAny cs

def hasErrorAny : List (Tree Token) → Bool
  | [] => false
  | t :: ts => t.hasError || hasErrorAny ts
end

@[simp] theorem hasErrorAny_append (xs ys : List (Tree Token)) :
    hasErrorAny (xs ++ ys) = (hasErrorAny xs || hasErrorAny ys) := by
  induction xs with
  | nil => simp [hasErrorAny]
  | cons x xs ih => simp [hasErrorAny, ih, Bool.or_assoc]

theorem hasErrorAny_eq_false {ts : List (Tree Token)} :
    hasErrorAny ts = false ↔ ∀ t ∈ ts, t.hasError = false := by
  induction ts with
  | nil => simp [hasErrorAny]
  | cons t ts ih => simp [hasErrorAny, ih]

mutual
/-- Without an error no token is stray. -/
theorem ne_stray_of_leaves : (t : Tree Token) → t.hasError = false →
    ∀ u ∈ t.leaves, u.kind ≠ .stray
  | .leaf t, h => by
    intro u hu
    rw [List.mem_singleton.mp hu]
    simpa [hasError] using h
  | .node kind children, h => by
    rw [hasError, Bool.or_eq_false_iff] at h
    exact ne_stray_of_leavesOf children h.2

theorem ne_stray_of_leavesOf : (ts : List (Tree Token)) → hasErrorAny ts = false →
    ∀ u ∈ leavesOf ts, u.kind ≠ .stray
  | [], _ => nofun
  | t :: ts, h => by
    rw [hasErrorAny, Bool.or_eq_false_iff] at h
    intro u hu
    rcases List.mem_append.mp hu with hu | hu
    · exact ne_stray_of_leaves t h.1 u hu
    · exact ne_stray_of_leavesOf ts h.2 u hu
end

mutual
theorem hasError_bare (t : Tree Token) : t.bare.hasError = t.hasError := by
  cases t with
  | leaf t => rfl
  | node k cs => simp [bare, hasError, hasErrorAny_bareAll cs]

/-- Trivia is never stray. -/
theorem hasErrorAny_bareAll (ts : List (Tree Token)) :
    hasErrorAny (bareAll ts) = hasErrorAny ts := by
  match ts with
  | [] => rfl
  | leaf t :: rest =>
    rw [bareAll]
    split
    · rename_i ht
      have hstray : t.kind ≠ .stray := by
        intro h
        rw [h] at ht
        cases ht
      simp [hasErrorAny, hasError, hstray, hasErrorAny_bareAll rest]
    · simp [hasErrorAny, hasError, hasErrorAny_bareAll rest]
  | node k cs :: rest =>
    rw [bareAll, hasErrorAny, hasErrorAny, hasError_bare (node k cs), hasErrorAny_bareAll rest]
end

theorem hasErrorAny_close (children : List (Tree Token)) (u : Unfinished) :
    hasErrorAny (u.close (.node .error children)) = true := by
  induction u with
  | here made => simp [Unfinished.close, hasErrorAny, hasError]
  | inside made kind inner ih => simp [Unfinished.close, hasErrorAny, hasError, ih]

end Tree

namespace Grammar
open ConceptQuery.Tree Rule

/-- A token of one of the kinds of a list is not stray, if none of them is. -/
theorem ne_stray {t : Token} {kinds : List TokenKind} (ht : t.kind ∈ kinds)
    (hk : TokenKind.stray ∉ kinds) : t.kind ≠ .stray := by
  intro h
  rw [h] at ht
  exact hk ht

theorem hasErrorAny_maybe {kind : TokenKind} {xs : List (Tree Token)} (h : Maybe kind xs)
    (hk : kind ≠ .stray) : hasErrorAny xs = false := by
  rcases h with rfl | ⟨t, ht, rfl⟩
  · rfl
  · simp [hasErrorAny, hasError, ht, hk]

theorem hasErrorAny_strung {first : Tree Token} {more : List (Token × Tree Token)}
    (hfirst : first.hasError = false) (hcomma : ∀ p ∈ more, p.1.kind = punct .comma)
    (hmore : ∀ p ∈ more, p.2.hasError = false) : hasErrorAny (strung first more) = false := by
  rw [hasErrorAny_eq_false]
  intro t ht
  rcases List.mem_cons.mp ht with rfl | ht
  · exact hfirst
  obtain ⟨p, hp, ht⟩ := List.mem_flatMap.mp ht
  rcases List.mem_cons.mp ht with rfl | ht
  · simp [hasError, hcomma p hp]
  · rw [List.mem_singleton.mp ht]
    exact hmore p hp

theorem hasErrorAny_enclosed {l r : Token} {inner : List (Tree Token)}
    (hl : l.kind = punct .leftParen) (hi : hasErrorAny inner = false)
    (hr : r.kind = punct .rightParen) : hasErrorAny (enclosed l inner r) = false := by
  simp [enclosed, hasErrorAny, hasError, hl, hi, hr]

theorem stray_notMem_operators (l : Level) : TokenKind.stray ∉ l.operators := by
  cases l <;> decide

theorem hasError_phrase {l : Level} {t : Tree Token} (h : Phrase l t) : t.hasError = false := by
  induction h with
  | tighter h p ih => exact ih
  | @chain l m a op b h ho lhs rhs iha ihb =>
    simp [hasError, hasErrorAny, iha, ihb, ne_stray ho (stray_notMem_operators l)]
  | not ht p ih => simp [hasError, hasErrorAny, ht, ih]
  | @compare a op b ho lhs rhs iha ihb =>
    simp [hasError, hasErrorAny, iha, ihb, ne_stray ho (by decide)]
  | isNull p hi hn hz ih =>
    simp [hasError, hasErrorAny, ih, hi, hz, hasErrorAny_maybe hn]
  | member p hn hi hl hfirst hcomma hmore hr ih ihfirst ihmore =>
    have hlist := hasErrorAny_enclosed hl (hasErrorAny_strung ihfirst hcomma ihmore) hr
    simp [hasError, hasErrorAny, ih, hi, hasErrorAny_maybe hn, hlist]
  | minus ht p ih => simp [hasError, hasErrorAny, ht, ih]
  | literal ht => simp [hasError, hasErrorAny, ne_stray ht (by decide)]
  | paren hl p hr ih => simp [hasError, hasErrorAny, hl, hr, ih]
  | call hf hl hfirst hcomma hmore hr ihfirst ihmore =>
    have hlist := hasErrorAny_enclosed hl (hasErrorAny_strung ihfirst hcomma ihmore) hr
    simp [hasError, hasErrorAny, hlist, ne_stray hf (by decide)]
  | callNothing hf hl hr =>
    have hlist := hasErrorAny_enclosed hl (show hasErrorAny [] = false from rfl) hr
    simp [hasError, hasErrorAny, hlist, ne_stray hf (by decide)]
  | type ht hn => simp [hasError, hasErrorAny, ht]
  | concept ht hn => simp [hasError, hasErrorAny, ht]

theorem hasErrorAny_listed {separator : TokenKind} {Item : List (Tree Token) → Prop}
    {xs : List (Tree Token)} (h : Listed separator Item xs) (hs : separator ≠ .stray)
    (hi : ∀ ys, Item ys → hasErrorAny ys = false) : hasErrorAny xs = false := by
  induction h with
  | one h => exact hi _ h
  | more front hc h ih => simp [hasErrorAny, hasError, ih, hc, hs, hi _ h]

theorem hasErrorAny_one {P : Tree Token → Prop} (hP : ∀ t, P t → t.hasError = false)
    {xs : List (Tree Token)} (h : One P xs) : hasErrorAny xs = false := by
  obtain ⟨t, rfl, ht⟩ := h
  simp [hasErrorAny, hP t ht]

theorem hasErrorAny_atMostOne {P : Tree Token → Prop} (hP : ∀ t, P t → t.hasError = false)
    {xs : List (Tree Token)} (h : AtMostOne P xs) : hasErrorAny xs = false := by
  rcases h with rfl | h
  · rfl
  · exact hasErrorAny_one hP h

theorem hasErrorAny_hidden {hidden : List Token} (h : ∀ u ∈ hidden, u.kind = punct .minusMinus) :
    hasErrorAny (hidden.map .leaf) = false := by
  rw [hasErrorAny_eq_false]
  intro t ht
  obtain ⟨u, hu, rfl⟩ := List.mem_map.mp ht
  simp [hasError, h u hu]

theorem hasError_selectItem (t : Tree Token) (h : SelectItem t) : t.hasError = false := by
  cases h with
  | plain hh ht => simp [hasError, hasErrorAny, hasErrorAny_hidden hh, ht]
  | transform hh ha harrow hname =>
    simp [hasError, hasErrorAny, hasErrorAny_hidden hh, hasError_phrase ha, harrow, hname]

theorem hasError_whereClause (t : Tree Token) (h : WhereClause t) : t.hasError = false := by
  cases h with
  | intro hw ha => simp [hasError, hasErrorAny, hw, hasError_phrase ha]

theorem hasError_orderItem (t : Tree Token) (h : OrderItem t) : t.hasError = false := by
  cases h with
  | intro ha hd =>
    rcases hd with rfl | ⟨d, hd, rfl⟩
    · simp [hasError, hasErrorAny, hasError_phrase ha]
    · simp [hasError, hasErrorAny, hasError_phrase ha, ne_stray hd (by decide)]

theorem hasError_orderByClause (t : Tree Token) (h : OrderByClause t) : t.hasError = false := by
  cases h with
  | intro ho hb hi =>
    have hitems := hasErrorAny_listed hi (by decide) fun _ => hasErrorAny_one hasError_orderItem
    simp [hasError, hasErrorAny, ho, hb, hitems]

theorem hasError_limitClause (t : Tree Token) (h : LimitClause t) : t.hasError = false := by
  cases h with
  | intro hl hc => simp [hasError, hasErrorAny, hl, hc]

theorem hasErrorAny_selectBody {xs : List (Tree Token)} (h : SelectBody xs) :
    hasErrorAny xs = false := by
  cases h with
  | intro hs hi hc hw ho hl =>
    have hitems := hasErrorAny_listed hi (by decide) fun _ => hasErrorAny_one hasError_selectItem
    simp [hasErrorAny, hasError, hs, hitems, hasErrorAny_maybe hc,
      hasErrorAny_atMostOne hasError_whereClause hw,
      hasErrorAny_atMostOne hasError_orderByClause ho,
      hasErrorAny_atMostOne hasError_limitClause hl]

theorem hasError_alignItem (t : Tree Token) (h : AlignItem t) : t.hasError = false := by
  cases h with
  | intro hn hc hi =>
    have hconcepts := hasErrorAny_listed hi (by decide) fun ys hys => by
      obtain ⟨t, ht, rfl⟩ := hys
      simp [hasErrorAny, hasError, ht]
    simp [hasError, hasErrorAny, hn, hc, hconcepts]

theorem hasError_alignClause (t : Tree Token) (h : AlignClause t) : t.hasError = false := by
  cases h with
  | intro ha hi =>
    have hitems := hasErrorAny_listed hi (by decide) fun _ => hasErrorAny_one hasError_alignItem
    simp [hasError, hasErrorAny, ha, hitems]

theorem hasErrorAny_column (xs : List (Tree Token)) (h : Column xs) : hasErrorAny xs = false := by
  cases h with
  | plain ht => simp [hasErrorAny, hasError, ht]
  | named hr hc ht => simp [hasErrorAny, hasError, ne_stray hr (by decide), hc, ht]

theorem hasError_columnList {t : Tree Token} (h : ColumnList t) : t.hasError = false := by
  cases h with
  | intro hi hc =>
    have hcolumns := hasErrorAny_listed hi (by decide) hasErrorAny_column
    simp [hasError, hcolumns, hasErrorAny_maybe hc]

theorem hasError_grainClause (t : Tree Token) (h : GrainClause t) : t.hasError = false := by
  cases h with
  | intro hg hl hi hr =>
    have hconcepts := hasErrorAny_listed hi (by decide) fun ys hys => by
      obtain ⟨t, ht, rfl⟩ := hys
      simp [hasErrorAny, hasError, ht]
    simp [hasError, hasErrorAny, hg, hasErrorAny_enclosed hl hconcepts hr]

theorem hasError_source {t : Tree Token} (h : Source t) : t.hasError = false := by
  cases h with
  | table ha ht => simp [hasError, hasErrorAny, ha, ht]
  | query hq ht => simp [hasError, hasErrorAny, hq, ht]

theorem hasErrorAny_merged {parts : List (Token × List (Tree Token))}
    (hm : ∀ p ∈ parts, p.1.kind = word .merge) (hp : ∀ p ∈ parts, SelectBody p.2) :
    hasErrorAny (merged parts) = false := by
  rw [hasErrorAny_eq_false]
  intro t ht
  obtain ⟨p, hmem, ht⟩ := List.mem_flatMap.mp ht
  rcases List.mem_cons.mp ht with rfl | ht
  · simp [hasError, hm p hmem]
  · rw [List.mem_singleton.mp ht]
    simp [hasError, hasErrorAny_selectBody (hp p hmem)]

/-- A statement that was read to its end has no error in it. -/
theorem hasError_sentence {t : Tree Token} (h : Sentence t) : t.hasError = false := by
  cases h with
  | declaration hk hconst hname hdot htype hn hs =>
    simp [hasError, hasErrorAny, declared, ne_stray hk (by decide), hname, htype,
      hasErrorAny_maybe hn, hs]
  | property hk hname hdot htype hn hs =>
    simp [hasError, hasErrorAny, declared, hk, hname, htype, hasErrorAny_maybe hn, hs]
  | derivation hk hname harrow ha hs =>
    simp [hasError, hasErrorAny, ne_stray hk (by decide), hname, harrow, hasError_phrase ha, hs]
  | datasource hroot hd hname hl hc hr hg hsource hs =>
    simp [hasError, hasErrorAny, hasErrorAny_maybe hroot, hd, hname, hl, hasError_columnList hc, hr,
      hasErrorAny_atMostOne hasError_grainClause hg, hasError_source hsource, hs]
  | importing hi hpath has hs =>
    rcases has with rfl | ⟨a, name, ha, hname, rfl⟩
    · simp [hasError, hasErrorAny, hi, hpath, hs]
    · simp [hasError, hasErrorAny, hi, hpath, ha, hname, hs]
  | select hb hs => simp [hasError, hasErrorAny, hasErrorAny_selectBody hb, hs]
  | merge hb hne hm hp ha hs =>
    simp [hasError, hasErrorAny, hasErrorAny_selectBody hb, hasErrorAny_merged hm hp,
      hasErrorAny_atMostOne hasError_alignClause ha, hs]
  | persist hp ht hi htable hf hb hs =>
    simp [hasError, hasErrorAny, hp, ht, hi, htable, hf, hasErrorAny_selectBody hb, hs]
  | rawSql hw hl ht hr hs => simp [hasError, hasErrorAny, hw, hl, ht, hr, hs]

/-- A fault leaves an error node behind. -/
theorem hasErrorAny_readStatements {textSize fuel : Nat} {lexemes : List Lexeme}
    (h : (readStatements textSize fuel lexemes).2 ≠ []) :
    hasErrorAny (readStatements textSize fuel lexemes).1 = true := by
  induction fuel generalizing lexemes with
  | zero => exact absurd rfl h
  | succ fuel ih =>
    cases lexemes with
    | nil => exact absurd rfl h
    | cons l lexemes =>
      cases hread : readStatement (l :: lexemes) with
      | made elements rest =>
        rw [readStatements_of_made hread] at h ⊢
        rw [hasErrorAny_append, ih h, Bool.or_true]
      | stuck u expected rest =>
        rw [readStatements_of_stuck hread, hasErrorAny_append, hasErrorAny_close, Bool.true_or]

end Grammar

theorem Parsed.faults_eq_nil_iff (text : String) :
    (Parsed.ofText text).faults = [] ↔ (Parsed.ofText text).tree.hasError = false := by
  constructor
  · intro h
    obtain ⟨sentences, hbare, hs⟩ := Grammar.sentences_of_parsed h
    rw [← Tree.hasError_bare, hbare, Tree.hasError, Bool.or_eq_false_iff]
    exact ⟨by decide, Tree.hasErrorAny_eq_false.mpr fun t ht => Grammar.hasError_sentence (hs t ht)⟩
  · intro h
    by_contra hne
    have herror := Grammar.hasErrorAny_readStatements hne
    simp [Parsed.ofText, Grammar.readTokens, Tree.hasError, herror] at h

namespace Grammar
open ConceptQuery.Tree Rule

/-- Where statements got stuck: what was expected there, and what was left. -/
abbrev Stop := List TokenKind × List Lexeme

/-- Recovery stops at once only in front of a statement, which takes its keyword. -/
theorem length_lt_of_left {l : Lexeme} {rest stop : List Lexeme}
    (hstop : stop <:+ (swallow (l :: rest)).2)
    (hkeyword : ∀ r rs, (swallow (l :: rest)).2 = r :: rs → r.kind ∈ statementStart →
      stop.length < (r :: rs).length) : stop.length < (l :: rest).length := by
  have hleft := (swallow_suffix (l :: rest)).length_le
  by_cases hl : l.kind ∈ statementStart
  · rcases List.suffix_cons_iff.mp (swallow_suffix (l :: rest)) with heq | hshorter
    · exact hkeyword l rest heq hl
    · have h₁ := hstop.length_le
      have h₂ := hshorter.length_le
      simp only [List.length_cons]
      omega
  · have h₁ := hstop.length_le
    have h₂ : (swallow (l :: rest)).2.length < (l :: rest).length := length_swallow_lt hl
    omega

theorem stops_of_readStatements (textSize fuel : Nat) (lexemes : List Lexeme) :
    ∃ stops : List Stop,
      (readStatements textSize fuel lexemes).2 = stops.map (fun s => faultAt textSize s.1 s.2) ∧
      (∀ s ∈ stops, s.2 <:+ lexemes) ∧
      (∀ l ls, lexemes = l :: ls → l.kind ∈ statementStart →
        ∀ s ∈ stops, s.2.length < lexemes.length) ∧
      stops.Pairwise fun a b => b.2.length < a.2.length := by
  induction fuel generalizing lexemes with
  | zero => exact ⟨[], by simp [readStatements]⟩
  | succ fuel ih =>
    cases lexemes with
    | nil => exact ⟨[], by simp [readStatements]⟩
    | cons l lexemes =>
      have hkeeps := readStatement_keeps (l :: lexemes)
      cases hread : readStatement (l :: lexemes) with
      | made elements rest =>
        rw [hread] at hkeeps
        have hlt := length_rest_lt_of_made hread
        obtain ⟨stops, hfaults, hsuffix, -, hpairs⟩ := ih rest
        refine ⟨stops, ?_, fun s hs => (hsuffix s hs).trans hkeeps.suffix, ?_, hpairs⟩
        · rw [readStatements_of_made hread]
          exact hfaults
        · intro _ _ _ _ s hs
          have := (hsuffix s hs).length_le
          omega
      | stuck u expected rest =>
        rw [hread] at hkeeps
        obtain ⟨stops, hfaults, hsuffix, hkeyword, hpairs⟩ := ih (swallow rest).2
        have hall : ∀ s ∈ stops, s.2 <:+ rest := fun s hs =>
          (hsuffix s hs).trans (swallow_suffix rest)
        have hlater : ∀ s ∈ stops, s.2.length < rest.length := by
          intro s hs
          cases rest with
          | nil =>
            -- nothing is left, so no statement follows that could get stuck
            have hnone : stops = [] := by
              have : (readStatements textSize fuel []).2 = [] := by cases fuel <;> rfl
              rw [swallow, this] at hfaults
              exact List.map_eq_nil_iff.mp hfaults.symm
            simp [hnone] at hs
          | cons r rest =>
            exact length_lt_of_left (hsuffix s hs) fun q qs hq hk => hq ▸ hkeyword q qs hq hk s hs
        refine ⟨(expected, rest) :: stops, ?_, ?_, ?_, ?_⟩
        · rw [readStatements_of_stuck hread, hfaults]
          rfl
        · intro s hs
          rcases List.mem_cons.mp hs with rfl | hs
          · exact hkeeps.suffix
          · exact (hall s hs).trans hkeeps.suffix
        · intro k ks hcons hk s hs
          obtain ⟨rfl, rfl⟩ := List.cons.inj hcons
          have hadvance : (readStatement (l :: lexemes)).rest.length < (l :: lexemes).length :=
            statement_advances (read_keeps _) hk
          rw [hread] at hadvance
          rcases List.mem_cons.mp hs with rfl | hs
          · exact hadvance
          · exact (hlater s hs).trans hadvance
        · exact List.pairwise_cons.mpr ⟨fun s hs => hlater s hs, hpairs⟩

end Grammar

section Places

/-- What tokens spell, one after the other. -/
def spelled : List Token → String
  | [] => ""
  | t :: ts => t.text ++ spelled ts

theorem spelled_append (xs ys : List Token) : spelled (xs ++ ys) = spelled xs ++ spelled ys := by
  induction xs with
  | nil => simp [spelled]
  | cons x xs ih => simp [spelled, ih, String.append_assoc]

theorem toList_spelled (ts : List Token) :
    (spelled ts).toList = ts.flatMap fun t => t.text.toList := by
  induction ts with
  | nil => rfl
  | cons t ts ih => simp [spelled, ih]

theorem spelled_scan (text : String) : spelled (Token.scan text) = text := by
  apply String.toList_injective
  rw [toList_spelled, Token.scan_texts]

theorem Consecutive.drop {offset : Nat} {xs ys : List Token} (h : Consecutive offset (xs ++ ys)) :
    Consecutive (offset + (spelled xs).utf8ByteSize) ys := by
  induction xs generalizing offset with
  | nil => simpa [spelled] using h
  | cons x xs ih =>
    obtain ⟨rfl, -, -, hrest⟩ := h
    have htail := ih hrest
    rw [Token.stop] at htail
    rwa [spelled, String.utf8ByteSize_append, ← Nat.add_assoc]

/-- Every token takes up some place. -/
theorem Consecutive.size_pos {offset : Nat} {t : Token} {ts : List Token}
    (h : Consecutive offset (t :: ts)) : 0 < t.text.utf8ByteSize := by
  obtain ⟨-, hne, -⟩ := h
  rcases Nat.eq_zero_or_pos t.text.utf8ByteSize with h0 | hpos
  · rw [String.utf8ByteSize_eq_zero_iff] at h0
    simp [h0] at hne
  · exact hpos

/-- The fault shows the text at its place. -/
def Fault.Shows (text : String) (f : Fault) : Prop :=
  ∃ before after, text = before ++ f.found ++ after ∧ f.start = before.utf8ByteSize ∧
    f.stop = f.start + f.found.utf8ByteSize

/-- The fault stands at the end of the text and shows the mark for it. -/
def Fault.AtEnd (text : String) (f : Fault) : Prop :=
  f.found = Grammar.endOfInput ∧ f.start = text.utf8ByteSize ∧ f.stop = text.utf8ByteSize

variable {text : String} {front : List Token} {rest : List Lexeme} {expected : List TokenKind}

/-- A fault in front of the lexemes that are left. -/
theorem faultAt_place (h : Token.scan text = front ++ rest.flatMap Lexeme.tokens) :
    (Grammar.faultAt text.utf8ByteSize expected rest).start = (spelled front).utf8ByteSize ∧
      ((Grammar.faultAt text.utf8ByteSize expected rest).Shows text ∨
        rest = [] ∧ (Grammar.faultAt text.utf8ByteSize expected rest).AtEnd text) := by
  have hall : spelled front ++ spelled (rest.flatMap Lexeme.tokens) = text := by
    rw [← spelled_append, ← h, spelled_scan]
  cases rest with
  | nil =>
    have hsize : text.utf8ByteSize = (spelled front).utf8ByteSize := by
      simp [← hall, spelled]
    exact ⟨hsize, .inr ⟨rfl, rfl, rfl, rfl⟩⟩
  | cons l rest =>
    have hplaces := (h ▸ Token.scan_consecutive text).drop
    obtain ⟨hoffset, -⟩ := hplaces
    rw [Nat.zero_add] at hoffset
    refine ⟨hoffset, .inl ⟨spelled front, spelled (l.trivia ++ rest.flatMap Lexeme.tokens), ?_,
      hoffset, rfl⟩⟩
    rw [String.append_assoc]
    exact hall.symm

/-- The fewer lexemes are left, the further back the fault stands. -/
theorem start_lt_of_suffix {expected' : List TokenKind} {rest' : List Lexeme}
    (h : Token.scan text = front ++ rest.flatMap Lexeme.tokens) (hs : rest' <:+ rest)
    (hlt : rest'.length < rest.length) :
    (Grammar.faultAt text.utf8ByteSize expected rest).start <
      (Grammar.faultAt text.utf8ByteSize expected' rest').start := by
  obtain ⟨between, rfl⟩ := hs
  cases between with
  | nil => simp at hlt
  | cons l between =>
    have hsplit : Token.scan text =
        (front ++ (l :: between).flatMap Lexeme.tokens) ++ rest'.flatMap Lexeme.tokens := by
      rw [h]
      simp
    have hpos : 0 < l.token.text.utf8ByteSize := by
      have hplaces := (h ▸ Token.scan_consecutive text).drop
      exact hplaces.size_pos
    rw [(faultAt_place h).1, (faultAt_place hsplit).1, spelled_append, String.utf8ByteSize_append]
    have htoken : l.token.text.utf8ByteSize ≤
        (spelled ((l :: between).flatMap Lexeme.tokens)).utf8ByteSize := by
      rw [List.flatMap_cons, Lexeme.tokens, List.cons_append, spelled, String.utf8ByteSize_append]
      exact Nat.le_add_right _ _
    omega

/-- The places where a document got stuck, with the tokens in front of each. -/
theorem Parsed.faults_of_stops (text : String) : ∃ stops : List Grammar.Stop,
    (Parsed.ofText text).faults =
      stops.map (fun s => Grammar.faultAt text.utf8ByteSize s.1 s.2) ∧
    (∀ s ∈ stops, ∃ front, Token.scan text = front ++ s.2.flatMap Lexeme.tokens) ∧
    stops.Pairwise fun a b => b.2 <:+ a.2 ∧ b.2.length < a.2.length := by
  have hgroup := Lexeme.tokens_group
    (Lexeme.breaksLine ((Token.scan text).takeWhile fun t => t.kind.isTrivia)) (Token.scan text)
  obtain ⟨stops, hfaults, hsuffix, -, hpairs⟩ :=
    Grammar.stops_of_readStatements text.utf8ByteSize _ (Lexeme.group
      (Lexeme.breaksLine ((Token.scan text).takeWhile fun t => t.kind.isTrivia)) (Token.scan text))
  refine ⟨stops, hfaults, ?_, ?_⟩
  · intro s hs
    obtain ⟨before, hbefore⟩ := hsuffix s hs
    rw [← hbefore, List.flatMap_append, ← List.append_assoc] at hgroup
    exact ⟨_, hgroup.symm⟩
  · apply hpairs.imp_of_mem
    intro a b ha hb hlt
    exact ⟨List.suffix_of_suffix_length_le (hsuffix b hb) (hsuffix a ha) hlt.le, hlt⟩

theorem Parsed.faults_pairwise (text : String) :
    (Parsed.ofText text).faults.Pairwise fun a b => a.start < b.start := by
  obtain ⟨stops, hfaults, hfront, hpairs⟩ := Parsed.faults_of_stops text
  rw [hfaults, List.pairwise_map]
  apply hpairs.imp_of_mem
  intro a b ha _ ⟨hs, hlt⟩
  obtain ⟨front, hsplit⟩ := hfront a ha
  exact start_lt_of_suffix hsplit hs hlt

/-- A place where nothing is left is the last one. -/
theorem getLast?_of_stop {stops : List Grammar.Stop} {s : Grammar.Stop} (hs : s ∈ stops)
    (hpairs : stops.Pairwise fun a b => b.2 <:+ a.2 ∧ b.2.length < a.2.length)
    (hnil : s.2 = []) : stops.getLast? = some s := by
  obtain ⟨before, after, rfl⟩ := List.append_of_mem hs
  have hlater := (List.pairwise_cons.mp (List.pairwise_append.mp hpairs).2.1).1
  cases after with
  | nil => simp
  | cons b after =>
    have := (hlater b (by simp)).2
    simp [hnil] at this

theorem Parsed.fault_place {text : String} {f : Fault} (hf : f ∈ (Parsed.ofText text).faults) :
    f.Shows text ∨ f.AtEnd text ∧ (Parsed.ofText text).faults.getLast? = some f := by
  obtain ⟨stops, hfaults, hfront, hpairs⟩ := Parsed.faults_of_stops text
  rw [hfaults] at hf ⊢
  obtain ⟨s, hs, rfl⟩ := List.mem_map.mp hf
  obtain ⟨front, hsplit⟩ := hfront s hs
  have hplace : (Grammar.faultAt text.utf8ByteSize s.1 s.2).Shows text ∨
      s.2 = [] ∧ (Grammar.faultAt text.utf8ByteSize s.1 s.2).AtEnd text := (faultAt_place hsplit).2
  rcases hplace with hshows | ⟨hnil, hend⟩
  · exact .inl hshows
  · refine .inr ⟨hend, ?_⟩
    rw [List.getLast?_map, getLast?_of_stop hs hpairs hnil]
    rfl

end Places

/-- Every text has a tree, whether or not it is well formed. The tree is assembled
without a step out of order in a number of rounds linear in the number of tokens;
its root is a document, it spells the text, and the faults stand where it is
broken. -/
theorem Parsed.ofText_lossless (text : String) :
    (∀ more, Assembly.document (4 * (Token.scan text).length + 4 + more) text =
      some (Parsed.ofText text)) ∧
    (∃ elements, (Parsed.ofText text).tree = .node .sourceFile elements) ∧
    (Parsed.ofText text).tree.spelling = text ∧
    ((Parsed.ofText text).faults.Pairwise fun a b => a.start < b.start) ∧
    (∀ f ∈ (Parsed.ofText text).faults,
      f.Shows text ∨ f.AtEnd text ∧ (Parsed.ofText text).faults.getLast? = some f) ∧
    ((Parsed.ofText text).faults = [] ↔ (Parsed.ofText text).tree.hasError = false) := by
  refine ⟨fun more => ?_, ⟨_, rfl⟩, Parsed.spelling_ofText text, Parsed.faults_pairwise text,
    fun f hf => Parsed.fault_place hf, Parsed.faults_eq_nil_iff text⟩
  exact Assembly.document_eq text (Nat.le_add_right _ _)

/-- A document that is broken twice, the second time at its end. -/
theorem Parsed.ofText_lossless_broken_twice :
    ∃ f ∈ (Parsed.ofText "key x;\nselect").faults, f.AtEnd "key x;\nselect" ∧
      (f.Shows "key x;\nselect" ∨ f.AtEnd "key x;\nselect" ∧
        (Parsed.ofText "key x;\nselect").faults.getLast? = some f) :=
  have hmem : (⟨"$END", Grammar.expressionStart, 13, 13⟩ : Fault) ∈
      (Parsed.ofText "key x;\nselect").faults := by decide +kernel
  ⟨_, hmem, ⟨rfl, by decide +kernel, by decide +kernel⟩,
    (Parsed.ofText_lossless "key x;\nselect").2.2.2.2.1 _ hmem⟩

end ConceptQuery
