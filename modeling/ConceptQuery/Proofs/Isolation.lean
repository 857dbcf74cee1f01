import ConceptQuery.Proofs.Derivation
import ConceptQuery.Proofs.Seam

/-! # Faults stay in their statements

No rule takes a semicolon but at the end of a statement, and no look goes past one,
except where it makes no difference. So a statement, with whatever recovery takes of
it, comes to the same whatever is behind its semicolon. The faults of two texts
together, the first of which ends with a semicolon, are those of the first and then
those of the second.

The comparison is between two readings of the same lexemes with different ones behind
them: `Rule.step_confined` for rules that leave semicolons alone, `Rule.step_closes`
for those that end with one.
-/
namespace ConceptQuery
open Grammar (punct word)

section Ends
variable {l : Lexeme} {r s : List Lexeme}

/-- The last lexeme is a semicolon. -/
def Ended (r : List Lexeme) : Prop :=
  ∃ l, r.getLast? = some l ∧ l.kind = punct .semicolon

theorem not_ended_nil : ¬ Ended [] := by
  rintro ⟨l, h, -⟩
  cases h

theorem Ended.suffix (h : Ended r) (hs : s <:+ r) : s = [] ∨ Ended s := by
  by_cases hne : s = []
  · exact .inl hne
  · obtain ⟨front, rfl⟩ := hs
    obtain ⟨l, hlast, hl⟩ := h
    rw [List.getLast?_append, List.getLast?_eq_some_getLast hne, Option.some_or] at hlast
    exact .inr ⟨l, by rw [List.getLast?_eq_some_getLast hne, hlast], hl⟩

theorem Ended.exists_cons (h : Ended r) : ∃ l s, r = l :: s :=
  List.exists_cons_of_ne_nil fun hnil => not_ended_nil (hnil ▸ h)

theorem Ended.behind (h : Ended (l :: r)) : r = [] ∨ Ended r :=
  h.suffix (List.suffix_cons l r)

/-- A lexeme that is no semicolon is not the last. -/
theorem Ended.tail (h : Ended (l :: r)) (hl : l.kind ≠ punct .semicolon) : Ended r := by
  rcases h.behind with rfl | hr
  · obtain ⟨m, hlast, hm⟩ := h
    have hlm : l = m := Option.some.inj hlast
    exact absurd (hlm ▸ hm) hl
  · exact hr

end Ends

namespace Reading

/-- Both readings made something of the same lexemes, or got stuck at the same one
with the same expectations; what is left in front of `b` and of `b'` satisfies `Q`.
Where `closes` holds, the semicolon may have been taken. -/
inductive Parted (closes : Prop) (Q : List Lexeme → Prop) (b b' : List Lexeme) :
    Reading → Reading → Prop where
  | made {xs ys r} (h : Ended r) (hq : Q r) :
      Parted closes Q b b' (.made xs (r ++ b)) (.made ys (r ++ b'))
  | closed {xs ys r} (hc : closes) (h : r = [] ∨ Ended r) :
      Parted closes Q b b' (.made xs (r ++ b)) (.made ys (r ++ b'))
  | stuck {u u' expected r} (h : Ended r) :
      Parted closes Q b b' (.stuck u expected (r ++ b)) (.stuck u' expected (r ++ b'))

variable {closes closes' : Prop} {Q Q' : List Lexeme → Prop} {b b' : List Lexeme} {x y : Reading}

theorem Parted.weaken (h : Parted closes Q b b' x y) (hq : ∀ r, Q r → Q' r) :
    Parted closes Q' b b' x y := by
  cases h with
  | made h hr => exact .made h (hq _ hr)
  | closed hc h => exact .closed hc h
  | stuck h => exact .stuck h

theorem Parted.shaped (h : Parted closes Q b b' x y)
    (f f' : List (Tree Token) → List (Tree Token)) (g g' : Unfinished → Unfinished) :
    Parted closes (fun _ => True) b b' (x.shaped f g) (y.shaped f' g') := by
  cases h with
  | made h hr => exact .made h trivial
  | closed hc h => exact .closed hc h
  | stuck h => exact .stuck h

theorem Parted.andThen {next next' : List (Tree Token) → List Lexeme → Reading}
    (h : Parted False Q b b' x y)
    (hnext : ∀ {xs ys r}, Ended r → Q r →
      Parted closes Q' b b' (next xs (r ++ b)) (next' ys (r ++ b'))) :
    Parted closes Q' b b' (x.andThen next) (y.andThen next') := by
  cases h with
  | made h hr => exact hnext h hr
  | closed hfalse h => exact hfalse.elim
  | stuck h => exact .stuck h

end Reading

namespace Look
variable {look : Look}

/-- In front of a semicolon or at one, the look does not depend on what is behind. -/
def Local (look : Look) : Prop :=
  ∀ r b b', Ended r → look (words (r ++ b)) = look (words (r ++ b'))

theorem Local.words_append (h : look.Local) {r : List Lexeme} (hr : Ended r) (b : List Lexeme) :
    look (words (r ++ b)) = look (words r) := by
  have hnone := h r b [] hr
  rwa [List.append_nil] at hnone

/-- A look that sees no more than two words, and none behind a semicolon. -/
theorem local_of_first (kinds : List TokenKind) (hk : punct .semicolon ∉ kinds)
    (hfirst : ∀ ws, look ws = true → sees kinds ws = true)
    (htwo : ∀ w v ws, look (w :: v :: ws) = look [w, v]) : look.Local := by
  intro r b b' hr
  obtain ⟨l, s, rfl⟩ := hr.exists_cons
  by_cases hl : l.kind = punct .semicolon
  · have hstop : ∀ b, look (words (l :: s ++ b)) = false := by
      intro b
      by_contra hlook
      have hseen := hfirst _ (by simpa using hlook)
      have hmem : l.kind ∈ kinds := by simpa [words, sees, Lexeme.kind] using hseen
      exact hk (hl ▸ hmem)
    rw [hstop, hstop]
  · obtain ⟨m, s, rfl⟩ := (hr.tail hl).exists_cons
    exact (htwo _ _ _).trans (htwo _ _ _).symm

theorem local_sees {kinds : List TokenKind} (hk : punct .semicolon ∉ kinds) :
    (sees kinds).Local :=
  local_of_first kinds hk (fun _ h => h) fun _ _ _ => rfl

end Look

namespace Rule
variable {rules : Nonterminal → Rule} {b b' : List Lexeme}
variable {again : Rule → List (Tree Token) → List Lexeme → Reading}

/-- Both readings take the same branch if the look does not depend on what is
behind. -/
theorem parted_branch {closes : Prop} {Q : List Lexeme → Prop} {b b' r : List Lexeme} {look : Look}
    {yes no : Rule} {made made' : List (Tree Token)}
    (hlook : ∀ b, look (Look.words (r ++ b)) = look (Look.words r))
    (hyes : look (Look.words r) = true → Reading.Parted closes Q b b'
      (step rules again yes made (r ++ b)) (step rules again yes made' (r ++ b')))
    (hno : look (Look.words r) = false → Reading.Parted closes Q b b'
      (step rules again no made (r ++ b)) (step rules again no made' (r ++ b'))) :
    Reading.Parted closes Q b b' (step rules again (branch look yes no) made (r ++ b))
      (step rules again (branch look yes no) made' (r ++ b')) := by
  simp only [step, hlook]
  split
  · rename_i h
    exact hyes h
  · rename_i h
    exact hno (by simpa using h)

/-- What holds of the lexemes ahead once the rule is through. -/
def after : Rule → (List Lexeme → Prop) → List Lexeme → Prop
  | done, P => P
  | take, P => fun r => ∃ l, P (l :: r)
  | seq first second, P => second.after (first.after P)
  | branch look yes no, P => fun r =>
    yes.after (fun s => P s ∧ look (Look.words s) = true) r ∨
      no.after (fun s => P s ∧ look (Look.words s) = false) r
  | _, _ => fun _ => True

/-- From lexemes with this property on, the rule takes no semicolon and looks behind
none. -/
def Confined : Rule → (List Lexeme → Prop) → Prop
  | expect k, _ => k ≠ punct .semicolon
  | take, P => ∀ l r, P (l :: r) → l.kind ≠ punct .semicolon
  | seq first second, P => first.Confined P ∧ second.Confined (first.after P)
  | branch look yes no, P => look.Local ∧
    yes.Confined (fun s => P s ∧ look (Look.words s) = true) ∧
      no.Confined (fun s => P s ∧ look (Look.words s) = false)
  | loop look body, _ => look.Local ∧ body.Confined fun s => look (Look.words s) = true
  | node _ body, P => body.Confined P
  | mark body, P => body.Confined P
  | wrap _ body, P => body.Confined P
  | _, _ => True

/-- The same, but the last lexeme that the rule takes may be a semicolon. -/
def Closes : Rule → (List Lexeme → Prop) → Prop
  | expect _, _ => True
  | refuse _, _ => True
  | seq first second, P =>
    first.Confined P ∧ second.Closes (first.after P) ∨ first.Closes P ∧ second = done
  | branch look yes no, P => look.Local ∧
    yes.Closes (fun s => P s ∧ look (Look.words s) = true) ∧
      no.Closes (fun s => P s ∧ look (Look.words s) = false)
  | node _ body, P => body.Closes P
  | mark body, P => body.Closes P
  | wrap _ body, P => body.Closes P
  | _, _ => False

/-- Two readings of a confined rule stay together in front of `b` and of `b'`. -/
def StaysConfined (b b' : List Lexeme)
    (again : Rule → List (Tree Token) → List Lexeme → Reading) : Prop :=
  ∀ {rule P made made' r}, rule.Confined P → Ended r → P r →
    Reading.Parted False (rule.after P) b b' (again rule made (r ++ b)) (again rule made' (r ++ b'))

theorem step_confined (hrules : ∀ name, (rules name).Confined fun _ => True)
    (hagain : StaysConfined b b' again) : StaysConfined b b' (step rules again) := by
  intro rule
  induction rule with
  | done =>
    intro P made made' r _ hr hP
    exact .made hr hP
  | expect k =>
    intro P made made' r hk hr _
    obtain ⟨l, r, rfl⟩ := hr.exists_cons
    simp only [List.cons_append, step]
    split
    · rename_i hl
      exact .made (hr.tail (hl ▸ hk)) trivial
    · exact .stuck (r := l :: r) hr
  | take =>
    intro P made made' r htake hr hP
    obtain ⟨l, r, rfl⟩ := hr.exists_cons
    exact .made (hr.tail (htake l r hP)) ⟨l, hP⟩
  | refuse expected =>
    intro P made made' r _ hr _
    exact .stuck hr
  | seq first second ih₁ ih₂ =>
    intro P made made' r hc hr hP
    rw [step_seq, step_seq]
    exact (ih₁ hc.1 hr hP).andThen fun h hq => ih₂ hc.2 h hq
  | branch look yes no ih₁ ih₂ =>
    intro P made made' r hc hr hP
    exact parted_branch (hc.1.words_append hr)
      (fun hlook => (ih₁ hc.2.1 hr ⟨hP, hlook⟩).weaken fun _ => .inl)
      fun hlook => (ih₂ hc.2.2 hr ⟨hP, hlook⟩).weaken fun _ => .inr
  | loop look body ih =>
    intro P made made' r hc hr hP
    have hwords : ∀ b, look (Look.words (r ++ b)) = look (Look.words r) := hc.1.words_append hr
    by_cases hlook : look (Look.words r) = true
    · rw [step_loop_of_look (by rw [hwords, hlook]), step_loop_of_look (by rw [hwords, hlook])]
      have hmore : (loop look body).Confined fun _ => True := hc
      exact (ih hc.2 hr hlook).andThen fun h _ => hagain (P := fun _ => True) hmore h trivial
    · rw [step, step, if_neg (by rwa [hwords]), if_neg (by rwa [hwords])]
      exact .made hr trivial
  | node k body ih =>
    intro P made made' r hc hr hP
    rw [step_node, step_node]
    exact (ih hc hr hP).shaped _ _ _ _
  | mark body ih =>
    intro P made made' r hc hr hP
    rw [step_mark, step_mark]
    exact (ih hc hr hP).shaped _ _ _ _
  | wrap k body ih =>
    intro P made made' r hc hr hP
    rw [step_wrap, step_wrap]
    exact (ih hc hr hP).shaped _ _ _ _
  | call name =>
    intro P made made' r _ hr _
    exact (hagain (hrules name) hr trivial).weaken fun _ _ => trivial

theorem read_confined (hrules : ∀ name, (rules name).Confined fun _ => True) (fuel : Nat) :
    StaysConfined b b' (read rules fuel) := by
  induction fuel with
  | zero =>
    intro rule P made made' r _ hr _
    exact .stuck hr
  | succ fuel ih => exact step_confined hrules ih

/-- Two readings of a rule that closes stay together as well; at their ends the
semicolon may be taken. -/
theorem step_closes (hrules : ∀ name, (rules name).Confined fun _ => True)
    (hagain : StaysConfined b b' again) {rule : Rule} {P : List Lexeme → Prop}
    {made made' : List (Tree Token)} {r : List Lexeme} (hc : rule.Closes P) (hr : Ended r)
    (hP : P r) :
    Reading.Parted True (fun _ => True) b b' (step rules again rule made (r ++ b))
      (step rules again rule made' (r ++ b')) := by
  induction rule generalizing P made made' r with
  | expect k =>
    obtain ⟨l, r, rfl⟩ := hr.exists_cons
    simp only [List.cons_append, step]
    split
    · exact .closed trivial hr.behind
    · exact .stuck (r := l :: r) hr
  | refuse expected => exact .stuck hr
  | seq first second ih₁ ih₂ =>
    rcases hc with ⟨hfirst, hsecond⟩ | ⟨hfirst, rfl⟩
    · rw [step_seq, step_seq]
      exact (step_confined hrules hagain hfirst hr hP).andThen fun h hq => ih₂ hsecond h hq
    · have hdone : ∀ made input, step rules again (seq first done) made input =
          (step rules again first made input).shaped id id := by
        intro made input
        rw [step]
        cases step rules again first made input <;> rfl
      rw [hdone, hdone]
      exact (ih₁ hfirst hr hP).shaped _ _ _ _
  | branch look yes no ih₁ ih₂ =>
    exact parted_branch (hc.1.words_append hr) (fun hlook => ih₁ hc.2.1 hr ⟨hP, hlook⟩)
      fun hlook => ih₂ hc.2.2 hr ⟨hP, hlook⟩
  | node k body ih =>
    rw [step_node, step_node]
    exact (ih hc hr hP).shaped _ _ _ _
  | mark body ih =>
    rw [step_mark, step_mark]
    exact (ih hc hr hP).shaped _ _ _ _
  | wrap k body ih =>
    rw [step_wrap, step_wrap]
    exact (ih hc hr hP).shaped _ _ _ _
  | _ => exact hc.elim

end Rule

namespace Grammar
open Rule Look

section Looks

theorem local_call : (Look.and (sees [.ident, word .like]) (thenSees (punct .leftParen))).Local :=
  local_of_first _ (by decide) (fun _ h => (Bool.and_eq_true_iff.mp h).1) fun _ _ _ => rfl

theorem local_alias : (Look.and (sees [.ident, .string]) (thenSees (punct .colon))).Local :=
  local_of_first _ (by decide) (fun _ h => (Bool.and_eq_true_iff.mp h).1) fun _ _ _ => rfl

theorem local_atNextItem : Look.Local atNextItem :=
  local_of_first _ (by decide) (fun _ h => (Bool.and_eq_true_iff.mp h).1) fun _ _ _ => rfl

theorem local_atNextColumn : Look.Local atNextColumn :=
  local_of_first _ (by decide) (fun _ h => (Bool.and_eq_true_iff.mp h).1) fun _ _ _ => rfl

theorem sees_of_atMembership (ws : List Word) (h : atMembership ws = true) :
    sees [word .not, word .inWord] ws = true := by
  cases ws with
  | nil => cases h
  | cons w ws =>
    simp only [atMembership, Look.or, Look.and, sees, Bool.or_eq_true, Bool.and_eq_true] at h
    rcases h with h | ⟨h, -⟩
    · simp_all [sees]
    · simp_all [sees]

theorem local_atMembership : Look.Local atMembership :=
  local_of_first _ (by decide) sees_of_atMembership fun _ _ _ => rfl

theorem local_atTypeName : Look.Local atTypeName := by
  refine local_of_first [.ident] (by decide) (fun ws h => ?_) fun _ _ _ => rfl
  cases ws with
  | nil => cases h
  | cons w ws => simp_all [atTypeName, sees]

theorem local_atPlainItem : Look.Local atPlainItem := by
  refine local_of_first [.ident] (by decide) (fun ws h => ?_) fun _ _ _ => rfl
  match ws with
  | [] => cases h
  | [w] => simp_all [atPlainItem, sees]
  | w :: v :: ws => simp_all [atPlainItem, sees]

theorem local_atProperty : Look.Local atProperty := by
  refine local_of_first [word .property] (by decide) (fun ws h => ?_) fun _ _ _ => rfl
  match ws with
  | [] => cases h
  | [w] => cases h
  | w :: v :: ws => simp_all [atProperty, sees]

end Looks

section Confinement
variable {P : List Lexeme → Prop} {kinds : List TokenKind} {kind : TokenKind} {rule : Rule}

/-- A lexeme that was seen is no semicolon if no kind that was looked for is. -/
theorem confined_take (hk : punct .semicolon ∉ kinds)
    (h : ∀ s, P s → sees kinds (words s) = true) : take.Confined P := by
  intro l r hP hl
  have hmem : l.kind ∈ kinds := by simpa [words, sees, Lexeme.kind] using h _ hP
  exact hk (hl ▸ hmem)

theorem confined_expect (hk : kind ≠ punct .semicolon) : (expect kind).Confined P :=
  hk

theorem confined_oneToken {k : NodeKind} (hk : kind ≠ punct .semicolon) :
    (oneToken k kind).Confined P :=
  hk

theorem confined_optionalTake (hk : punct .semicolon ∉ kinds) :
    (Rule.optional (sees kinds) take).Confined P :=
  ⟨local_sees hk, confined_take hk fun _ h => h.2, trivial⟩

theorem confined_separated (hk : punct .semicolon ∉ [kind]) (h : ∀ P, rule.Confined P) :
    (separated kind rule).Confined P :=
  ⟨h P, local_sees hk, confined_take hk fun _ h => h, h _⟩

theorem confined_leftNested (hk : punct .semicolon ∉ kinds) (h : ∀ P, rule.Confined P) :
    (leftNested kinds rule).Confined P :=
  ⟨h P, local_sees hk, confined_take hk fun _ h => h, h _⟩

/-- A clause that starts with what was seen. -/
theorem confined_clause {k : NodeKind} (hk : punct .semicolon ∉ kinds)
    (h : ∀ P, rule.Confined P) : (Rule.optional (sees kinds) (node k (seq take rule))).Confined P :=
  ⟨local_sees hk, ⟨confined_take hk fun _ h => h.2, h _⟩, trivial⟩

theorem confined_expressionList : expressionList.Confined P :=
  confined_separated (by decide) fun _ => trivial

theorem confined_callExpression (h : ∀ s, P s → sees [.ident, word .like] (words s) = true) :
    callExpression.Confined P :=
  ⟨confined_take (by decide) h, confined_expect (by decide),
    ⟨local_sees (by decide), trivial, confined_expressionList⟩, confined_expect (by decide), trivial⟩

theorem confined_literal (h : ∀ s, P s → sees literalStart (words s) = true) :
    (node .literal take).Confined P :=
  confined_take (by decide) h

theorem confined_parenExpression (h : ∀ s, P s → sees [punct .leftParen] (words s) = true) :
    (node .parenExpression
      (inOrder [take, call .expression, expect (punct .rightParen)])).Confined P :=
  ⟨confined_take (by decide) h, trivial, confined_expect (by decide), trivial⟩

theorem confined_atom : atom.Confined P :=
  ⟨local_sees (by decide), confined_literal fun _ h => h.2,
    local_sees (by decide), confined_parenExpression fun _ h => h.2,
    local_call, confined_callExpression fun _ h => (Bool.and_eq_true_iff.mp h.2).1,
    local_sees (by decide),
    ⟨local_atTypeName, confined_oneToken (by decide), confined_oneToken (by decide)⟩, trivial⟩

theorem confined_signed : signed.Confined P :=
  ⟨local_sees (by decide), ⟨confined_take (by decide) fun _ h => h.2, trivial⟩, confined_atom⟩

theorem confined_sum : sum.Confined P :=
  confined_leftNested (by decide) fun _ => confined_leftNested (by decide) fun _ => trivial

theorem confined_isNullTest (h : ∀ s, P s → sees [word .is] (words s) = true) :
    isNullTest.Confined P :=
  ⟨confined_take (by decide) h, confined_optionalTake (by decide), confined_expect (by decide),
    trivial⟩

/-- Behind a `not`, the look for a list has seen an `in`. -/
theorem confined_membershipTest (h : ∀ s, P s → atMembership (words s) = true) :
    membershipTest.Confined P := by
  have hin : ∀ s, (Rule.optional (sees [word .not]) take).after P s →
      sees [word .inWord] (words s) = true := by
    rintro s (⟨l, hP, hnot⟩ | ⟨hP, hnot⟩)
    · have hseen := h _ hP
      cases s with
      | nil => simp_all [atMembership, Look.or, Look.and, words, sees, thenSees]
      | cons m s => simp_all [atMembership, Look.or, Look.and, words, sees, thenSees]
    · have hseen := h _ hP
      simp_all [atMembership, Look.or, Look.and]
  exact ⟨confined_optionalTake (by decide), confined_take (by decide) hin,
    confined_expect (by decide), confined_expressionList, confined_expect (by decide), trivial⟩

theorem confined_comparison : comparison.Confined P :=
  ⟨confined_sum, local_sees (by decide),
    ⟨confined_take (by decide) fun _ h => h.2, confined_sum⟩,
    local_sees (by decide), confined_isNullTest fun _ h => h.2,
    local_atMembership, confined_membershipTest fun _ h => h.2, trivial⟩

theorem confined_negation : negation.Confined P :=
  ⟨local_sees (by decide), ⟨confined_take (by decide) fun _ h => h.2, trivial⟩,
    confined_comparison⟩

theorem confined_disjunction : disjunction.Confined P :=
  confined_leftNested (by decide) fun _ => confined_leftNested (by decide) fun _ => trivial

theorem confined_rules (name : Nonterminal) : (rules name).Confined P := by
  cases name with
  | expression => exact confined_disjunction
  | negation => exact confined_negation
  | signed => exact confined_signed

theorem confined_column : column.Confined P := by
  have hcolon : ∀ s, take.after (fun s => P s ∧
      Look.and (sees [.ident, .string]) (thenSees (punct .colon)) (words s) = true) s →
      sees [punct .colon] (words s) = true := by
    rintro s ⟨l, -, hseen⟩
    cases s with
    | nil => simp_all [Look.and, words, sees, thenSees]
    | cons m s => simp_all [Look.and, words, sees, thenSees]
  exact ⟨⟨local_alias, ⟨confined_take (by decide) fun _ h => (Bool.and_eq_true_iff.mp h.2).1,
    confined_take (by decide) hcolon⟩, trivial⟩, confined_expect (by decide)⟩

/-- Items, with a comma behind the last of them or not. -/
theorem confined_items {look : Look} {more : List Rule} (hlook : look.Local)
    (hcomma : ∀ s, look (words s) = true → sees [punct .comma] (words s) = true)
    (h : ∀ P, rule.Confined P) (hmore : ∀ P, (inOrder more).Confined P) :
    (inOrder (rule :: loop look (seq take rule) :: Rule.optional (sees [punct .comma]) take ::
      more)).Confined P :=
  ⟨h P, ⟨hlook, confined_take (by decide) hcomma, h _⟩, confined_optionalTake (by decide), hmore _⟩

theorem confined_selectItem : selectItem.Confined P :=
  ⟨⟨local_sees (by decide), confined_take (by decide) fun _ h => h⟩,
    local_atPlainItem, confined_oneToken (by decide), trivial, local_sees (by decide),
    ⟨confined_take (by decide) fun _ h => h.2, confined_expect (by decide)⟩, trivial⟩

theorem confined_orderItem : orderItem.Confined P :=
  ⟨trivial, confined_optionalTake (by decide)⟩

theorem confined_selectBody : selectBody.Confined P := by
  have hclauses : ∀ P, (inOrder [Rule.optional (sees [word .whereWord]) whereClause,
      Rule.optional (sees [word .order]) orderByClause,
      Rule.optional (sees [word .limit]) limitClause]).Confined P := fun P =>
    ⟨confined_clause (by decide) fun _ => trivial,
      confined_clause (by decide) fun _ => ⟨confined_expect (by decide),
        confined_separated (by decide) fun _ => confined_orderItem, trivial⟩,
      confined_clause (by decide) fun _ => confined_expect (by decide), trivial⟩
  exact ⟨confined_expect (by decide), confined_items local_atNextItem
    (fun _ h => (Bool.and_eq_true_iff.mp h).1) (fun _ => confined_selectItem) hclauses⟩

theorem confined_alignItem : alignItem.Confined P :=
  ⟨confined_expect (by decide), confined_expect (by decide),
    confined_separated (by decide) fun _ => confined_oneToken (by decide), trivial⟩

theorem confined_columnList : columnList.Confined P :=
  confined_items local_atNextColumn (fun _ h => (Bool.and_eq_true_iff.mp h).1)
    (fun _ => confined_column) fun _ => trivial

theorem confined_source : source.Confined P :=
  ⟨local_sees (by decide), ⟨confined_take (by decide) fun _ h => h.2, confined_expect (by decide)⟩,
    local_sees (by decide), ⟨confined_take (by decide) fun _ h => h.2, confined_expect (by decide)⟩,
    trivial⟩

/-- A semicolon that comes last. -/
theorem closes_semicolon : (inOrder [expect (punct .semicolon)]).Closes P :=
  .inr ⟨trivial, rfl⟩

theorem closes_typedDeclaration {k : NodeKind}
    (h : ∀ s, P s → sees purposes (words s) = true) : (typedDeclaration k).Closes P :=
  .inl ⟨confined_take (by decide) h, .inl ⟨confined_expect (by decide),
    .inl ⟨confined_oneToken (by decide), .inl ⟨confined_optionalTake (by decide),
      closes_semicolon⟩⟩⟩⟩

theorem closes_derivation (h : ∀ s, P s → sees purposes (words s) = true) : derivation.Closes P :=
  .inl ⟨confined_take (by decide) h, .inl ⟨confined_expect (by decide),
    .inl ⟨confined_expect (by decide), .inl ⟨trivial, closes_semicolon⟩⟩⟩⟩

theorem closes_datasource : datasource.Closes P :=
  .inl ⟨confined_optionalTake (by decide), .inl ⟨confined_expect (by decide),
    .inl ⟨confined_expect (by decide), .inl ⟨confined_expect (by decide),
      .inl ⟨confined_columnList, .inl ⟨confined_expect (by decide),
        .inl ⟨confined_clause (by decide) fun _ => ⟨confined_expect (by decide),
            confined_separated (by decide) fun _ => confined_expect (by decide),
            confined_expect (by decide), trivial⟩,
          .inl ⟨confined_source, closes_semicolon⟩⟩⟩⟩⟩⟩⟩⟩

theorem closes_importStatement (h : ∀ s, P s → sees [word .importWord] (words s) = true) :
    importStatement.Closes P :=
  .inl ⟨confined_take (by decide) h, .inl ⟨confined_expect (by decide),
    .inl ⟨⟨local_sees (by decide), ⟨confined_take (by decide) fun _ h => h.2,
      confined_expect (by decide)⟩, trivial⟩, closes_semicolon⟩⟩⟩

theorem closes_selectStatement : selectStatement.Closes P :=
  .inl ⟨confined_selectBody, local_sees (by decide),
    .inl ⟨trivial, .inl ⟨⟨local_sees (by decide), confined_take (by decide) fun _ h => h,
      confined_selectBody⟩, .inl ⟨confined_clause (by decide) fun _ =>
        confined_separated (by decide) fun _ => confined_alignItem, closes_semicolon⟩⟩⟩,
    trivial⟩

theorem closes_persistStatement (h : ∀ s, P s → sees [word .persist] (words s) = true) :
    persistStatement.Closes P :=
  .inl ⟨confined_take (by decide) h, .inl ⟨confined_expect (by decide),
    .inl ⟨confined_expect (by decide), .inl ⟨confined_expect (by decide),
      .inl ⟨confined_expect (by decide), .inl ⟨confined_selectBody, closes_semicolon⟩⟩⟩⟩⟩⟩

theorem closes_rawSqlStatement (h : ∀ s, P s → sees [word .rawSql] (words s) = true) :
    rawSqlStatement.Closes P :=
  .inl ⟨confined_take (by decide) h, .inl ⟨confined_expect (by decide),
    .inl ⟨confined_expect (by decide), .inl ⟨confined_expect (by decide), closes_semicolon⟩⟩⟩⟩

/-- What `statement` does with lexemes that start no concept statement. -/
def otherStatement : Rule :=
  branch (.sees [word .root, word .datasource]) datasource
    (branch (.sees [word .importWord]) importStatement
      (branch (.sees [word .select]) selectStatement
        (branch (.sees [word .persist]) persistStatement
          (branch (.sees [word .rawSql]) rawSqlStatement (refuse statementStart)))))

theorem closes_otherStatement : otherStatement.Closes P :=
  ⟨local_sees (by decide), closes_datasource,
    local_sees (by decide), closes_importStatement fun _ h => h.2,
    local_sees (by decide), closes_selectStatement,
    local_sees (by decide), closes_persistStatement fun _ h => h.2,
    local_sees (by decide), closes_rawSqlStatement fun _ h => h.2, trivial⟩

end Confinement

section Statements
variable {b b' r : List Lexeme} {made made' : List (Tree Token)}
variable {again : Rule → List (Tree Token) → List Lexeme → Reading}

/-- Without a name, each form of a concept statement gets stuck in the same way. -/
theorem conceptStatement_stuck {l m : Lexeme} (hm : m.kind ≠ .ident) (rest : List Lexeme) :
    ∃ u, step rules again conceptStatement made (l :: m :: rest) =
      .stuck u [.ident] (m :: rest) := by
  have hform : ∀ (k : NodeKind) (more : List Rule), ∃ u,
      step rules again (node k (inOrder (take :: expect .ident :: more))) made (l :: m :: rest) =
        .stuck u [.ident] (m :: rest) := by
    intro k more
    refine ⟨.inside made k (.here l.elements), ?_⟩
    simp [step, inOrder, hm]
  rw [conceptStatement, step]
  split
  · exact hform _ _
  · rw [step]
    split
    · exact hform _ _
    · exact hform _ _

/-- Only the look for a derivation goes past a semicolon. Then there is no name in
front of it, and either form gets stuck. -/
theorem conceptStatement_parted (hagain : StaysConfined b b' again) (hr : Ended r)
    (hseen : sees purposes (words r) = true) :
    Reading.Parted True (fun _ => True) b b' (step rules again conceptStatement made (r ++ b))
      (step rules again conceptStatement made' (r ++ b')) := by
  obtain ⟨l, s, rfl⟩ := hr.exists_cons
  have htake : take.Confined fun s => sees purposes (words s) = true :=
    confined_take (by decide) fun _ h => h
  have hs := hr.tail (htake l s hseen)
  obtain ⟨m, s, rfl⟩ := hs.exists_cons
  cases s with
  | nil =>
    have hm : m.kind ≠ .ident := by
      obtain ⟨n, hlast, hn⟩ := hs
      have hmn : m = n := Option.some.inj hlast
      rw [hmn, hn]
      decide
    obtain ⟨u, hu⟩ : ∃ u, step rules again conceptStatement made ([l, m] ++ b) =
      .stuck u [.ident] ([m] ++ b) := conceptStatement_stuck hm b
    obtain ⟨u', hu'⟩ : ∃ u, step rules again conceptStatement made' ([l, m] ++ b') =
      .stuck u [.ident] ([m] ++ b') := conceptStatement_stuck hm b'
    rw [hu, hu']
    exact .stuck hs
  | cons n s =>
    have hlook : ∀ b, atDerivation (words (l :: m :: n :: s ++ b)) =
        atDerivation (words (l :: m :: n :: s)) := fun _ => rfl
    have htyped : (branch atProperty (typedDeclaration .propertyDeclaration)
        (typedDeclaration .conceptDeclaration)).Closes fun s => sees purposes (words s) = true :=
      ⟨local_atProperty, closes_typedDeclaration fun _ h => h.1,
        closes_typedDeclaration fun _ h => h.1⟩
    have hderivation : derivation.Closes fun s => sees purposes (words s) = true :=
      closes_derivation fun _ h => h
    exact parted_branch hlook
      (fun _ => step_closes confined_rules hagain hderivation hr hseen)
      fun _ => step_closes confined_rules hagain htyped hr hseen

theorem statement_parted (hagain : StaysConfined b b' again) (hr : Ended r) :
    Reading.Parted True (fun _ => True) b b' (step rules again statement made (r ++ b))
      (step rules again statement made' (r ++ b')) := by
  have hpurposes : (sees purposes).Local := local_sees (by decide)
  have hother : otherStatement.Closes fun _ => True := closes_otherStatement
  exact parted_branch (hpurposes.words_append hr)
    (fun hseen => conceptStatement_parted hagain hr hseen)
    fun _ => step_closes confined_rules hagain hother hr trivial

/-- Readings that stand for the same run differ in their elements only. -/
theorem exists_shaped_of_runs {x y : Reading}
    (h : Assembly.Run.ofReading [] [] x = .ofReading [] [] y) : ∃ f g, y = x.shaped f g := by
  cases x with
  | made xs rest =>
    cases y with
    | made ys rest' =>
      simp only [Assembly.Run.ofReading, Assembly.Run.finished.injEq] at h
      exact ⟨fun _ => ys, id, by rw [Reading.shaped, h.2]⟩
    | stuck u expected rest' => cases h
  | stuck u expected rest =>
    cases y with
    | made ys rest' => cases h
    | stuck u' expected' rest' =>
      simp only [Assembly.Run.ofReading, Assembly.Run.aborted.injEq] at h
      exact ⟨id, fun _ => u', by rw [Reading.shaped, h.2.1, h.2.2]⟩

/-- How a statement is read does not depend on what is behind the last semicolon. -/
theorem readStatement_parted (hr : Ended r) (b b' : List Lexeme) :
    Reading.Parted True (fun _ => True) b b' (readStatement (r ++ b)) (readStatement (r ++ b')) := by
  obtain ⟨l, s, rfl⟩ := hr.exists_cons
  let fuel := 4 * (l :: (s ++ b)).length + 4 * (l :: (s ++ b')).length + 4
  have hparted : Reading.Parted True (fun _ => True) b b'
      (Rule.read rules (fuel + 1) statement [] (l :: s ++ b))
      (Rule.read rules (fuel + 1) statement [] (l :: s ++ b')) :=
    statement_parted (read_confined confined_rules fuel) hr
  have hfuel : 4 * (l :: (s ++ b)).length + 4 ≤ fuel + 1 ∧
      4 * (l :: (s ++ b')).length + 4 ≤ fuel + 1 := by
    simp only [fuel]
    omega
  obtain ⟨f, g, hread⟩ := exists_shaped_of_runs (ofReading_readStatement hfuel.1)
  obtain ⟨f', g', hread'⟩ := exists_shaped_of_runs (ofReading_readStatement hfuel.2)
  rw [List.cons_append, List.cons_append, hread, hread']
  exact hparted.shaped f f' g g'

end Statements

section Faults
variable {size size' : Nat} {l : Lexeme} {lexemes rest a b r : List Lexeme}

/-- The faults of lexemes, without fuel. -/
def faultsOf (size : Nat) (lexemes : List Lexeme) : List Fault :=
  (readStatements size lexemes.length lexemes).2

theorem readStatements_enough {fuel : Nat} (h : lexemes.length ≤ fuel) :
    (readStatements size fuel lexemes).2 = faultsOf size lexemes := by
  induction fuel using Nat.strong_induction_on generalizing lexemes with
  | _ fuel ih =>
    cases lexemes with
    | nil => cases fuel <;> rfl
    | cons l lexemes =>
      obtain ⟨fuel, rfl⟩ := Nat.exists_eq_add_of_le' (Nat.le_of_add_left_le h)
      simp only [List.length_cons] at h
      rw [faultsOf, List.length_cons]
      cases hread : readStatement (l :: lexemes) with
      | made xs rest =>
        have hlength := length_rest_lt_of_made hread
        simp only [List.length_cons] at hlength
        rw [readStatements_of_made hread, readStatements_of_made hread]
        exact (ih fuel (by omega) (by omega)).trans (ih lexemes.length (by omega) (by omega)).symm
      | stuck u expected rest =>
        have hlength := length_left_lt_of_stuck hread
        simp only [List.length_cons] at hlength
        rw [readStatements_of_stuck hread, readStatements_of_stuck hread]
        have hmore : (readStatements size fuel (swallow rest).2).2 =
            (readStatements size lexemes.length (swallow rest).2).2 :=
          (ih fuel (by omega) (by omega)).trans (ih lexemes.length (by omega) (by omega)).symm
        exact congrArg (faultAt size expected rest :: ·) hmore

theorem faultsOf_made {xs : List (Tree Token)}
    (h : readStatement (l :: lexemes) = .made xs rest) :
    faultsOf size (l :: lexemes) = faultsOf size rest := by
  have hlength := length_rest_lt_of_made h
  rw [faultsOf, List.length_cons, readStatements_of_made h]
  exact readStatements_enough (Nat.le_of_lt_succ hlength)

theorem faultsOf_stuck {u : Unfinished} {expected : List TokenKind}
    (h : readStatement (l :: lexemes) = .stuck u expected rest) :
    faultsOf size (l :: lexemes) =
      faultAt size expected rest :: faultsOf size (swallow rest).2 := by
  have hlength := length_left_lt_of_stuck h
  rw [faultsOf, List.length_cons, readStatements_of_stuck h]
  exact congrArg _ (readStatements_enough (Nat.le_of_lt_succ hlength))

/-- Recovery takes nothing behind the last semicolon. -/
theorem swallow_before (hr : Ended r) (b : List Lexeme) :
    (swallow (r ++ b)).2 = (swallow r).2 ++ b := by
  induction r with
  | nil => exact absurd hr not_ended_nil
  | cons l r ih =>
    rw [List.cons_append, swallow, swallow]
    split
    · rfl
    · split
      · rfl
      · rename_i hl
        exact ih (hr.tail hl)

theorem faultAt_before (hr : Ended r) (b : List Lexeme) (expected : List TokenKind) :
    faultAt size expected (r ++ b) = faultAt size' expected r := by
  obtain ⟨l, r, rfl⟩ := hr.exists_cons
  rfl

/-- The faults of lexemes up to a semicolon, and of those behind it. -/
theorem faultsOf_append (ha : a = [] ∨ Ended a) (b : List Lexeme) :
    faultsOf size (a ++ b) = faultsOf size' a ++ faultsOf size b := by
  induction hn : a.length using Nat.strong_induction_on generalizing a with
  | _ n ih =>
    subst hn
    rcases ha with rfl | ha
    · rfl
    · have hparted := readStatement_parted ha b []
      obtain ⟨l, s, rfl⟩ := ha.exists_cons
      -- what is left is shorter, and ends with the same semicolon or is empty
      have hmade : ∀ {xs ys r}, readStatement (l :: (s ++ b)) = .made xs (r ++ b) →
          readStatement (l :: s) = .made ys r → r = [] ∨ Ended r →
          faultsOf size (l :: (s ++ b)) = faultsOf size' (l :: s) ++ faultsOf size b := by
        intro xs ys r hx hy hr
        rw [faultsOf_made hx, faultsOf_made hy]
        exact ih _ (length_rest_lt_of_made hy) hr rfl
      rw [List.append_nil, List.cons_append] at hparted
      rw [List.cons_append]
      generalize hx : readStatement (l :: (s ++ b)) = x at hparted
      generalize hy : readStatement (l :: s) = y at hparted
      cases hparted with
      | made hr _ => exact hmade hx (by rw [hy, List.append_nil]) (.inr hr)
      | closed _ hr => exact hmade hx (by rw [hy, List.append_nil]) hr
      | @stuck u u' expected r hr =>
        rw [List.append_nil] at hy
        have hleft : (swallow r).2 = [] ∨ Ended (swallow r).2 := hr.suffix (swallow_suffix r)
        have hmore := ih _ (length_left_lt_of_stuck hy) hleft rfl
        have hfault : faultAt size expected (r ++ b) = faultAt size' expected r :=
          faultAt_before hr b expected
        rw [faultsOf_stuck hx, faultsOf_stuck hy, swallow_before hr, hmore, hfault]
        rfl

end Faults

section Changes
variable {size size' : Nat} {change : Lexeme → Lexeme} {input : List Lexeme}

/-- The change leaves the word of a lexeme alone, and whether it starts a line. -/
structure Harmless (change : Lexeme → Lexeme) : Prop where
  word : ∀ l, (change l).token.word = l.token.word
  startsLine : ∀ l, (change l).startsLine = l.startsLine
  proper : ∀ l, l.Proper → (change l).Proper

theorem harmless_alone : Harmless Lexeme.alone :=
  ⟨fun _ => rfl, fun _ => rfl, fun _ h => ⟨h.1, by simp [Lexeme.alone]⟩⟩

theorem harmless_later (n : Nat) : Harmless (Lexeme.later n) := by
  refine ⟨fun _ => rfl, fun _ => rfl, fun l h => ⟨h.1, fun t ht => ?_⟩⟩
  obtain ⟨u, hu, rfl⟩ := List.mem_map.mp ht
  exact h.2 u hu

/-- The rest of lexemes is told by its length. -/
theorem eq_of_suffix {r s : List Lexeme} (hr : r <:+ input.map change) (hs : s <:+ input)
    (h : s.length = r.length) : r = s.map change := by
  have hmap : s.map change <:+ input.map change := by
    obtain ⟨front, rfl⟩ := hs
    exact ⟨front.map change, by rw [List.map_append]⟩
  exact List.IsSuffix.eq_of_length (List.suffix_of_suffix_length_le hr hmap (by simp [h])) (by simp [h])

/-- Changed lexemes are read in the same way. -/
theorem readStatement_map (hc : Harmless change) (hp : ∀ l ∈ input, l.Proper) :
    (∃ xs ys rest, readStatement input = .made xs rest ∧
      readStatement (input.map change) = .made ys (rest.map change)) ∨
    ∃ u u' expected rest, readStatement input = .stuck u expected rest ∧
      readStatement (input.map change) = .stuck u' expected (rest.map change) := by
  have hwords : (input.map Lexeme.token).map Token.word =
      ((input.map change).map Lexeme.token).map Token.word := by
    simp only [List.map_map]
    exact List.map_congr_left fun l _ => (hc.word l).symm
  have hproper : ∀ l ∈ input.map change, l.Proper := by
    intro l hl
    obtain ⟨k, hk, rfl⟩ := List.mem_map.mp hl
    exact hc.proper k (hp k hk)
  have hkeeps := (readStatement_keeps input).suffix
  have hkeeps' := (readStatement_keeps (input.map change)).suffix
  have halike := readStatement_alike suffices_word ⟨rfl, hwords, hp, hproper⟩
  generalize readStatement input = x at halike hkeeps
  generalize readStatement (input.map change) = y at halike hkeeps'
  cases halike with
  | @made xs ys rest rest' h =>
    have hlength := congrArg List.length h.tokens
    simp only [List.length_map] at hlength
    obtain rfl : rest' = rest.map change := eq_of_suffix hkeeps' hkeeps hlength
    exact .inl ⟨xs, ys, rest, rfl, rfl⟩
  | @stuck u u' expected rest rest' h =>
    have hlength := congrArg List.length h.tokens
    simp only [List.length_map] at hlength
    obtain rfl : rest' = rest.map change := eq_of_suffix hkeeps' hkeeps hlength
    exact .inr ⟨u, u', expected, rest, rfl, rfl⟩

theorem swallow_map (hc : Harmless change) (lexemes : List Lexeme) :
    (swallow (lexemes.map change)).2 = (swallow lexemes).2.map change := by
  induction lexemes with
  | nil => rfl
  | cons l rest ih =>
    have hkind : (change l).kind = l.kind := congrArg Word.kind (hc.word l)
    rw [List.map_cons, swallow, swallow, hkind, hc.startsLine]
    split
    · rfl
    · split
      · rfl
      · exact ih

/-- The faults of changed lexemes are the faults, changed in turn. -/
theorem faultsOf_map (hc : Harmless change) {moved : Fault → Fault}
    (hmoved : ∀ expected rest, faultAt size' expected (rest.map change) =
      moved (faultAt size expected rest)) (hp : ∀ l ∈ input, l.Proper) :
    faultsOf size' (input.map change) = (faultsOf size input).map moved := by
  induction hn : input.length using Nat.strong_induction_on generalizing input with
  | _ n ih =>
    subst hn
    cases input with
    | nil => rfl
    | cons l input =>
      have hrest : ∀ rest, rest <:+ l :: input → ∀ k ∈ rest, k.Proper :=
        fun rest hs k hk => hp k (hs.subset hk)
      rcases readStatement_map hc hp with
        ⟨xs, ys, rest, hread, hread'⟩ | ⟨u, u', expected, rest, hread, hread'⟩
      · have hsuffix := (readStatement_keeps (l :: input)).suffix
        rw [hread] at hsuffix
        rw [List.map_cons] at hread' ⊢
        rw [faultsOf_made hread, faultsOf_made hread']
        exact ih _ (length_rest_lt_of_made hread) (hrest _ hsuffix) rfl
      · have hsuffix := (readStatement_keeps (l :: input)).suffix
        rw [hread] at hsuffix
        have hmore := ih _ (length_left_lt_of_stuck hread)
          (hrest _ ((swallow_suffix rest).trans hsuffix)) rfl
        rw [List.map_cons] at hread' ⊢
        rw [faultsOf_stuck hread, faultsOf_stuck hread', List.map_cons, swallow_map hc, hmore,
          hmoved]

end Changes

end Grammar

/-- The fault in a place further back by so many bytes. -/
def Fault.later (n : Nat) (f : Fault) : Fault :=
  { f with start := n + f.start, stop := n + f.stop }

theorem Grammar.faultAt_alone (size : Nat) (expected : List TokenKind) (rest : List Lexeme) :
    faultAt size expected (rest.map Lexeme.alone) = id (faultAt size expected rest) := by
  cases rest <;> rfl

theorem Grammar.faultAt_later (n size : Nat) (expected : List TokenKind) (rest : List Lexeme) :
    faultAt (n + size) expected (rest.map (Lexeme.later n)) = (faultAt size expected rest).later n := by
  cases rest with
  | nil => rfl
  | cons l rest => 
    simp [faultAt, Lexeme.later, Fault.later, Token.later, Token.stop, Nat.add_assoc]

namespace Parsed

theorem faults_eq (text : String) :
    (ofText text).faults = Grammar.faultsOf text.utf8ByteSize (Lexeme.ofText text) :=
  rfl

/-- The faults do not depend on trivia. -/
theorem faults_alone (text : String) : (ofText text).faults =
    Grammar.faultsOf text.utf8ByteSize ((Lexeme.ofText text).map Lexeme.alone) := by
  rw [faults_eq, Grammar.faultsOf_map Grammar.harmless_alone
    (Grammar.faultAt_alone text.utf8ByteSize) fun l hl => Lexeme.proper_ofText hl, List.map_id]

end Parsed

theorem Lexeme.ended_ofText {text : String} (h : Token.Closes text) :
    Ended ((Lexeme.ofText text).map Lexeme.alone) := by
  obtain ⟨t, hlast, hk⟩ := h
  obtain ⟨front, hscan⟩ := List.getLast?_eq_some_iff.mp hlast
  have ht : [t].filter (fun u => !u.kind.isTrivia) = [t] := by simp [hk, TokenKind.isTrivia]
  have htokens : ((Lexeme.ofText text).map Lexeme.token).getLast? = some t := by
    rw [Lexeme.token_ofText, Token.significant, hscan, List.filter_append,
      ht, List.getLast?_concat]
  rw [List.getLast?_map] at htokens
  obtain ⟨l, hl, hlt⟩ := Option.map_eq_some_iff.mp htokens
  refine ⟨l.alone, ?_, ?_⟩
  · rw [List.getLast?_map, hl]
    rfl
  · have hkind : l.alone.kind = t.kind := congrArg Token.kind hlt
    rw [hkind, hk]

/-- Behind a semicolon a new text starts: the faults of two texts together are those
of the first and then those of the second, further back. Both together are accepted if
and only if each of them is. -/
theorem Parsed.faults_append {a : String} (ha : Token.Closes a) (b : String) :
    (Parsed.ofText (a ++ b)).faults = (Parsed.ofText a).faults ++
      (Parsed.ofText b).faults.map (Fault.later a.utf8ByteSize) ∧
    ((∃ tree, parse (a ++ b) = .ok tree) ↔
      (∃ tree, parse a = .ok tree) ∧ ∃ tree, parse b = .ok tree) := by
  have hsecond : Grammar.faultsOf (a.utf8ByteSize + b.utf8ByteSize)
      (((Lexeme.ofText b).map (Lexeme.later a.utf8ByteSize)).map Lexeme.alone) =
      (Parsed.ofText b).faults.map (Fault.later a.utf8ByteSize) := by
    have hproper : ∀ l ∈ (Lexeme.ofText b).map (Lexeme.later a.utf8ByteSize), l.Proper := by
      intro l hl
      obtain ⟨k, hk, rfl⟩ := List.mem_map.mp hl
      exact (Grammar.harmless_later a.utf8ByteSize).proper k (Lexeme.proper_ofText hk)
    rw [Grammar.faultsOf_map Grammar.harmless_alone (Grammar.faultAt_alone _) hproper, List.map_id,
      Grammar.faultsOf_map (Grammar.harmless_later _) (Grammar.faultAt_later _ b.utf8ByteSize)
        fun l hl => Lexeme.proper_ofText hl, Parsed.faults_eq]
  have hfaults : (Parsed.ofText (a ++ b)).faults = (Parsed.ofText a).faults ++
      (Parsed.ofText b).faults.map (Fault.later a.utf8ByteSize) := by
    rw [Parsed.faults_alone (a ++ b), Lexeme.ofText_append ha, String.utf8ByteSize_append,
      Grammar.faultsOf_append (.inr (Lexeme.ended_ofText ha)), ← Parsed.faults_alone a, hsecond]
  refine ⟨hfaults, ?_⟩
  rw [parse_ok_iff, parse_ok_iff, parse_ok_iff, hfaults, List.append_eq_nil_iff,
    List.map_eq_nil_iff]

/-- The arrow behind the semicolon is seen from in front of it, to no effect. -/
theorem Parsed.faults_append_arrow :
    Token.Closes "key ;" ∧
    (Parsed.ofText "key ;<- 1; select x").faults = (Parsed.ofText "key ;").faults ++
      (Parsed.ofText "<- 1; select x").faults.map (Fault.later 5) ∧
    ((Parsed.ofText "key ;").faults.length, (Parsed.ofText "<- 1; select x").faults.length) =
      (1, 2) := by
  have hcloses : Token.Closes "key ;" := ⟨⟨.punctuation .semicolon, ";", 4⟩, by decide +kernel, rfl⟩
  exact ⟨hcloses, (Parsed.faults_append hcloses "<- 1; select x").1, by decide +kernel⟩

end ConceptQuery
