import ConceptQuery.Proofs.SqlRoundTrip

/-! # The operations in a written term

What a term computes are its operations, and `Term.bare` is these: parentheses only group,
and so does the word that makes a count one of different values. A term is known by its
operations and its words: the operations tell how many of the words that do not group stand
in front of an operator, and the parentheses around an operand match. Hence words are read
as the operations that they were written for exactly if the written term is graded.
-/
namespace ConceptQuery.Sql

/-- The count of different values is a count. -/
def Head.bare : Head → Head
  | .distinct => .named "count"
  | head => head

mutual
/-- The operations of a term, parentheses aside. -/
def Term.bare : Term → Term
  | .atom text => .atom text
  | .nullary function => .nullary function
  | .call head arguments => .call head.bare arguments.bare
  | .binary op lhs rhs => .binary op lhs.bare rhs.bare
  | .unary op operand => .unary op operand.bare
  | .isNull operand negated => .isNull operand.bare negated
  | .inList operand items negated => .inList operand.bare items.bare negated
  | .paren inner => inner.bare

def Arguments.bare : Arguments → Arguments
  | .last value => .last value.bare
  | .cons value separator more => .cons value.bare separator more.bare
end

/-- Words that the operations of a term tell. -/
def telling (word : String) : Bool :=
  word ∉ ["(", ")", "DISTINCT"]

theorem Head.telling_bare (head : Head) :
    head.bare.tokens.filter telling = head.tokens.filter telling ∧
      head.bare.closer = head.closer := by
  cases head <;> simp [Head.bare, Head.tokens, Head.closer, telling]

mutual
/-- The operations of a term tell all its words but those that group. -/
theorem Term.telling_bare (t : Term) : t.bare.tokens.filter telling = t.tokens.filter telling := by
  cases t with
  | atom text => rfl
  | nullary function => rfl
  | call head arguments =>
    simp only [Term.bare, Term.tokens, List.filter_append, head.telling_bare, arguments.telling_bare]
  | binary op lhs rhs =>
    simp only [Term.bare, Term.tokens, List.filter_append, List.filter_cons, lhs.telling_bare,
      rhs.telling_bare]
  | unary op operand => simp only [Term.bare, Term.tokens, List.filter_cons, operand.telling_bare]
  | isNull operand negated =>
    simp only [Term.bare, Term.tokens, List.filter_append, operand.telling_bare]
  | inList operand items negated =>
    simp only [Term.bare, Term.tokens, List.filter_append, List.filter_cons, operand.telling_bare,
      items.telling_bare]
  | paren inner => simp [Term.bare, Term.tokens, inner.telling_bare, telling]

theorem Arguments.telling_bare (a : Arguments) :
    a.bare.tokens.filter telling = a.tokens.filter telling := by
  cases a with
  | last value => exact value.telling_bare
  | cons value separator more =>
    simp only [Arguments.bare, Arguments.tokens, List.filter_append, List.filter_cons,
      value.telling_bare, more.telling_bare]
end

theorem telling_of_notMem {word : String} (h : word ∉ reserved) : telling word = true := by
  have hne : ∀ w ∈ reserved, word ≠ w := fun w hw heq => h (heq ▸ hw)
  simp [telling, hne "(" (by decide), hne ")" (by decide), hne "DISTINCT" (by decide)]

theorem telling_of_separator (head : Head) : ∀ word ∈ head.separators, telling word = true := by
  cases head with
  | named function => exact (by decide : ∀ word ∈ [",", "AS"], telling word = true)
  | distinct => decide
  | cases => decide

theorem telling_binary (op : BinaryOp) : telling op.sql = true := by
  cases op <;> decide

theorem telling_unary (op : UnaryOp) : telling op.sql = true := by
  cases op <;> decide

/-- What a word adds to the parentheses that are open. -/
def opens (word : String) : Int :=
  if word = "(" then 1 else if word = ")" then -1 else 0

/-- The parentheses that some words leave open. -/
def balance : List String → Int
  | [] => 0
  | word :: words => opens word + balance words

@[simp]
theorem balance_nil : balance [] = 0 := rfl

@[simp]
theorem balance_cons (word : String) (words : List String) :
    balance (word :: words) = opens word + balance words := rfl

@[simp]
theorem balance_append (words words' : List String) :
    balance (words ++ words') = balance words + balance words' := by
  induction words with
  | nil => simp
  | cons word words ih => rw [List.cons_append, balance_cons, balance_cons, ih, Int.add_assoc]

theorem opens_of_telling {word : String} (h : telling word = true) : opens word = 0 := by
  have hne : word ≠ "(" ∧ word ≠ ")" := by
    constructor <;> (rintro rfl; revert h; decide)
  rw [opens, if_neg hne.1, if_neg hne.2]

mutual
/-- In a term all parentheses match. -/
theorem Term.balance_tokens (t : Term) (h : t.Plain) : balance t.tokens = 0 := by
  cases t with
  | atom text => simp [Term.tokens, opens_of_telling (telling_of_notMem h)]
  | nullary function =>
    rw [Term.tokens, balance_cons, opens_of_telling (telling_of_notMem h)]
    decide
  | call head arguments =>
    rw [Term.tokens, balance_append, balance_append,
      arguments.balance_tokens h.2 (telling_of_separator head)]
    cases head with
    | named function =>
      rw [Head.tokens, balance_cons, opens_of_telling (telling_of_notMem h.1), Head.closer]
      decide
    | distinct => decide
    | cases => decide
  | binary op lhs rhs =>
    rw [Term.tokens, balance_append, balance_cons, lhs.balance_tokens h.1, rhs.balance_tokens h.2,
      opens_of_telling (telling_binary op)]
    rfl
  | unary op operand =>
    rw [Term.tokens, balance_cons, operand.balance_tokens h, opens_of_telling (telling_unary op)]
    rfl
  | isNull operand negated =>
    rw [Term.tokens, balance_append, operand.balance_tokens h]
    cases negated <;> decide
  | inList operand items negated =>
    have hitems := items.balance_tokens h.2 (by decide)
    rw [Term.tokens, balance_append, balance_append, balance_cons, balance_cons, balance_append,
      operand.balance_tokens h.1, hitems]
    cases negated <;> decide
  | paren inner =>
    rw [Term.tokens, balance_cons, balance_append, inner.balance_tokens h]
    decide

theorem Arguments.balance_tokens {separators : List String} (a : Arguments)
    (h : a.Plain separators) (hseparators : ∀ word ∈ separators, telling word = true) :
    balance a.tokens = 0 := by
  cases a with
  | last value => exact value.balance_tokens h
  | cons value separator more =>
    rw [Arguments.tokens, balance_append, balance_cons, value.balance_tokens h.1,
      more.balance_tokens h.2.2 hseparators, opens_of_telling (hseparators _ h.2.1)]
    rfl
end

/-- A telling word is found by the number of those in front of it. -/
theorem eq_of_telling {front front' back back' : List String} {word word' : String}
    (h : front ++ word :: back = front' ++ word' :: back')
    (hfront : (front.filter telling).length = (front'.filter telling).length)
    (hword : telling word = true) (hword' : telling word' = true) :
    front = front' ∧ word = word' ∧ back = back' := by
  induction front generalizing front' with
  | nil =>
    cases front' with
    | nil =>
      obtain ⟨rfl, rfl⟩ := List.cons.inj h
      exact ⟨rfl, rfl, rfl⟩
    | cons first rest =>
      obtain ⟨rfl, -⟩ := List.cons.inj h
      simp [hword] at hfront
  | cons first rest ih =>
    cases front' with
    | nil =>
      obtain ⟨rfl, -⟩ := List.cons.inj h
      simp [hword'] at hfront
    | cons first' rest' =>
      obtain ⟨rfl, hsame⟩ := List.cons.inj h
      have hrest : (rest.filter telling).length = (rest'.filter telling).length := by
        cases htelling : telling first <;> simpa [htelling] using hfront
      obtain ⟨rfl, hword, hback⟩ := ih hsame hrest
      exact ⟨rfl, hword, hback⟩

/-- A term within some pairs of parentheses. -/
def Term.within (t : Term) : Nat → Term
  | 0 => t
  | k + 1 => .paren (t.within k)

theorem Term.exists_core (t : Term) :
    ∃ k core, t = Term.within core k ∧ ∀ inner, core ≠ .paren inner := by
  cases t with
  | paren inner =>
    obtain ⟨k, core, h, hcore⟩ := inner.exists_core
    exact ⟨k + 1, core, by rw [Term.within, ← h], hcore⟩
  | _ => exact ⟨0, _, rfl, fun inner h => by cases h⟩

section Within
variable (t : Term) (k : Nat)

theorem Term.tokens_within : (t.within k).tokens =
    List.replicate k "(" ++ (t.tokens ++ List.replicate k ")") := by
  induction k with
  | zero => simp [Term.within]
  | succ k ih =>
    rw [Term.within, Term.tokens, ih, List.replicate_succ, List.replicate_succ']
    simp

theorem Term.bare_within : (t.within k).bare = t.bare := by
  induction k with
  | zero => rfl
  | succ k ih => rw [Term.within, Term.bare, ih]

theorem Term.plain_within : (t.within k).Plain ↔ t.Plain := by
  induction k with
  | zero => rfl
  | succ k ih => rw [Term.within, Term.Plain, ih]

end Within

/-- What a term is that has certain operations, its outer parentheses taken off. -/
theorem Term.bare_inversion {t shape : Term} (h : t.bare = shape) :
    ∃ k core, t = Term.within core k ∧
      match shape with
      | .atom text => core = .atom text
      | .nullary function => core = .nullary function
      | .call head arguments => ∃ head' arguments', core = .call head' arguments' ∧
          head'.bare = head ∧ arguments'.bare = arguments
      | .binary op lhs rhs => ∃ lhs' rhs', core = .binary op lhs' rhs' ∧ lhs'.bare = lhs ∧
          rhs'.bare = rhs
      | .unary op operand => ∃ operand', core = .unary op operand' ∧ operand'.bare = operand
      | .isNull operand negated => ∃ operand', core = .isNull operand' negated ∧
          operand'.bare = operand
      | .inList operand items negated => ∃ operand' items', core = .inList operand' items' negated ∧
          operand'.bare = operand ∧ items'.bare = items
      | .paren _ => False := by
  obtain ⟨k, core, rfl, hcore⟩ := t.exists_core
  refine ⟨k, core, rfl, ?_⟩
  rw [Term.bare_within] at h
  subst h
  cases core with
  | atom text => rfl
  | nullary function => rfl
  | call head arguments => exact ⟨head, arguments, rfl, rfl, rfl⟩
  | binary op lhs rhs => exact ⟨lhs, rhs, rfl, rfl, rfl⟩
  | unary op operand => exact ⟨operand, rfl, rfl⟩
  | isNull operand negated => exact ⟨operand, rfl, rfl⟩
  | inList operand items negated => exact ⟨operand, items, rfl, rfl, rfl⟩
  | paren inner => exact absurd rfl (hcore inner)

/-- Words within parentheses, cut at a word that tells how many are in front of it. -/
theorem split_within {k k' : Nat} {front front' back back' : List String} {word word' : String}
    (h : List.replicate k "(" ++ (front ++ word :: back ++ List.replicate k ")") =
      List.replicate k' "(" ++ (front' ++ word' :: back' ++ List.replicate k' ")"))
    (hfront : (front.filter telling).length = (front'.filter telling).length)
    (hword : telling word = true) (hword' : telling word' = true)
    (hback : balance back = 0) (hback' : balance back' = 0) :
    k = k' ∧ front = front' ∧ word = word' ∧ back = back' := by
  have hparens : ∀ k, (List.replicate k "(").filter telling = [] := fun k =>
    List.filter_replicate_of_neg (by decide)
  have hclosed : ∀ k : Nat, balance (List.replicate k ")") = -k := by
    intro k
    induction k with
    | zero => rfl
    | succ k ih =>
      have hclose : opens ")" = -1 := rfl
      rw [List.replicate_succ, balance_cons, ih, hclose]
      omega
  have hwords : (List.replicate k "(" ++ front) ++ word :: (back ++ List.replicate k ")") =
      (List.replicate k' "(" ++ front') ++ word' :: (back' ++ List.replicate k' ")") := by
    simpa using h
  obtain ⟨hfront, hsame, hback''⟩ :=
    eq_of_telling hwords (by simpa [hparens] using hfront) hword hword'
  obtain rfl : k = k' := by
    have hbalance := congrArg balance hback''
    rw [balance_append, balance_append, hclosed, hclosed, hback, hback'] at hbalance
    omega
  exact ⟨rfl, List.append_cancel_left hfront, hsame, List.append_cancel_right hback''⟩

/-- The parentheses in front of a telling word can be counted. -/
theorem first_within {k k' : Nat} {words words' : List String} {word word' : String}
    (h : List.replicate k "(" ++ (word :: words ++ List.replicate k ")") =
      List.replicate k' "(" ++ (word' :: words' ++ List.replicate k' ")"))
    (hword : telling word = true) (hword' : telling word' = true) :
    k = k' ∧ word :: words = word' :: words' := by
  have hparens : ∀ k, (List.replicate k "(").filter telling = [] := fun k =>
    List.filter_replicate_of_neg (by decide)
  obtain ⟨hopen, rfl, hrest⟩ := eq_of_telling h (by rw [hparens, hparens]) hword hword'
  obtain rfl : k = k' := by simpa using congrArg List.length hopen
  exact ⟨rfl, congrArg (word :: ·) (List.append_cancel_right hrest)⟩

theorem Head.tokens_eq_cons {head : Head} (h : head.Plain) :
    ∃ word words, head.tokens = word :: words ∧ telling word = true := by
  cases head with
  | named function => exact ⟨_, _, rfl, telling_of_notMem h⟩
  | distinct => exact ⟨_, _, rfl, by decide⟩
  | cases => exact ⟨_, _, rfl, by decide⟩

/-- Whether a count is of different values shows right behind its name. -/
theorem Head.eq_of_tokens {head head' : Head} {word word' : String} {rest rest' : List String}
    (hbare : head.bare = head'.bare) (hword : word ≠ "DISTINCT") (hword' : word' ≠ "DISTINCT")
    (h : head.tokens ++ word :: rest = head'.tokens ++ word' :: rest') :
    head = head' ∧ word :: rest = word' :: rest' := by
  cases head with
  | named function =>
    cases head' with
    | named function' =>
      obtain rfl := Head.named.inj hbare
      exact ⟨rfl, List.append_cancel_left h⟩
    | distinct =>
      simp only [Head.tokens, List.cons_append, List.nil_append, List.cons.injEq, true_and] at h
      exact absurd h.2.1 hword
    | cases => cases hbare
  | distinct =>
    cases head' with
    | named function' =>
      simp only [Head.tokens, List.cons_append, List.nil_append, List.cons.injEq, true_and] at h
      exact absurd h.2.1.symm hword'
    | distinct => exact ⟨rfl, List.append_cancel_left h⟩
    | cases => cases hbare
  | cases =>
    cases head' with
    | named function' => cases hbare
    | distinct => cases hbare
    | cases => exact ⟨rfl, List.append_cancel_left h⟩

theorem telling_eq_of_bare {t t' : Term} (h : t.bare = t'.bare) :
    (t.tokens.filter telling).length = (t'.tokens.filter telling).length := by
  rw [← t.telling_bare, h, t'.telling_bare]

mutual
/-- A term is known by its operations and its words. -/
theorem Term.eq_of_tokens (shape : Term) {t t' : Term} (ht : t.Plain) (ht' : t'.Plain)
    (h : t.bare = shape) (h' : t'.bare = shape) (htokens : t.tokens = t'.tokens) : t = t' := by
  obtain ⟨k, core, rfl, hcore⟩ := Term.bare_inversion h
  obtain ⟨k', core', rfl, hcore'⟩ := Term.bare_inversion h'
  rw [Term.tokens_within, Term.tokens_within] at htokens
  rw [Term.plain_within] at ht ht'
  rw [Term.bare_within] at h h'
  cases shape with
  | atom text =>
    have hcore : core = .atom text := hcore
    have hcore' : core' = .atom text := hcore'
    subst hcore hcore'
    have htelling := telling_of_notMem ht
    rw [(first_within htokens htelling htelling).1]
  | nullary function =>
    have hcore : core = .nullary function := hcore
    have hcore' : core' = .nullary function := hcore'
    subst hcore hcore'
    have htelling := telling_of_notMem ht
    rw [(first_within htokens htelling htelling).1]
  | call head arguments =>
    obtain ⟨head₁, arguments₁, rfl, hhead₁, harguments₁⟩ := hcore
    obtain ⟨head₂, arguments₂, rfl, hhead₂, harguments₂⟩ := hcore'
    obtain ⟨first₁, words₁, hfirst₁, htelling₁⟩ := Head.tokens_eq_cons ht.1
    obtain ⟨first₂, words₂, hfirst₂, htelling₂⟩ := Head.tokens_eq_cons ht'.1
    obtain ⟨next₁, more₁, hnext₁, -, hdistinct₁⟩ := arguments₁.tokens_eq_cons ht.2
    obtain ⟨next₂, more₂, hnext₂, -, hdistinct₂⟩ := arguments₂.tokens_eq_cons ht'.2
    rw [Term.tokens, Term.tokens, hfirst₁, hfirst₂] at htokens
    obtain ⟨rfl, hwords⟩ := first_within htokens htelling₁ htelling₂
    have hcall : head₁.tokens ++ next₁ :: (more₁ ++ [head₁.closer]) =
        head₂.tokens ++ next₂ :: (more₂ ++ [head₂.closer]) := by
      rw [hfirst₁, hfirst₂, ← List.cons_append, ← List.cons_append, ← hnext₁, ← hnext₂]
      exact hwords
    obtain ⟨rfl, hmore⟩ := Head.eq_of_tokens (hhead₁.trans hhead₂.symm) hdistinct₁ hdistinct₂ hcall
    have hsame : arguments₁.tokens = arguments₂.tokens := by
      rw [hnext₁, hnext₂]
      exact List.append_cancel_right hmore
    rw [arguments.eq_of_tokens ht.2 ht'.2 (telling_of_separator head₁) harguments₁ harguments₂ hsame]
  | binary op lhs rhs =>
    obtain ⟨lhs₁, rhs₁, rfl, hlhs₁, hrhs₁⟩ := hcore
    obtain ⟨lhs₂, rhs₂, rfl, hlhs₂, hrhs₂⟩ := hcore'
    obtain ⟨rfl, hleft, -, hright⟩ := split_within htokens
      (telling_eq_of_bare (hlhs₁.trans hlhs₂.symm)) (telling_binary op) (telling_binary op)
      (rhs₁.balance_tokens ht.2) (rhs₂.balance_tokens ht'.2)
    rw [lhs.eq_of_tokens ht.1 ht'.1 hlhs₁ hlhs₂ hleft, rhs.eq_of_tokens ht.2 ht'.2 hrhs₁ hrhs₂ hright]
  | unary op operand =>
    obtain ⟨operand₁, rfl, hoperand₁⟩ := hcore
    obtain ⟨operand₂, rfl, hoperand₂⟩ := hcore'
    have hplain₁ : operand₁.Plain := ht
    have hplain₂ : operand₂.Plain := ht'
    obtain ⟨rfl, hsame⟩ := first_within htokens (telling_unary op) (telling_unary op)
    rw [operand.eq_of_tokens hplain₁ hplain₂ hoperand₁ hoperand₂ (List.cons.inj hsame).2]
  | isNull operand negated =>
    obtain ⟨operand₁, rfl, hoperand₁⟩ := hcore
    obtain ⟨operand₂, rfl, hoperand₂⟩ := hcore'
    have hplain₁ : operand₁.Plain := ht
    have hplain₂ : operand₂.Plain := ht'
    have hnull : balance (negation negated ++ ["NULL"]) = 0 := by cases negated <;> decide
    obtain ⟨rfl, hsame, -⟩ := split_within htokens
      (telling_eq_of_bare (hoperand₁.trans hoperand₂.symm)) (by decide) (by decide) hnull hnull
    rw [operand.eq_of_tokens hplain₁ hplain₂ hoperand₁ hoperand₂ hsame]
  | inList operand items negated =>
    obtain ⟨operand₁, items₁, rfl, hoperand₁, hitems₁⟩ := hcore
    obtain ⟨operand₂, items₂, rfl, hoperand₂, hitems₂⟩ := hcore'
    have hseparators : ∀ word ∈ [","], telling word = true := by decide
    have hlist₁ : balance ("(" :: (items₁.tokens ++ [")"])) = 0 := by
      rw [balance_cons, balance_append, items₁.balance_tokens ht.2 hseparators]
      decide
    have hlist₂ : balance ("(" :: (items₂.tokens ++ [")"])) = 0 := by
      rw [balance_cons, balance_append, items₂.balance_tokens ht'.2 hseparators]
      decide
    have hcut : k = k' ∧ operand₁.tokens = operand₂.tokens ∧ items₁.tokens = items₂.tokens := by
      have hfront := telling_eq_of_bare (hoperand₁.trans hoperand₂.symm)
      cases negated with
      | false =>
        obtain ⟨hk, hsame, -, hlist⟩ := split_within htokens hfront (by decide) (by decide)
          hlist₁ hlist₂
        exact ⟨hk, hsame, List.append_cancel_right (List.cons.inj hlist).2⟩
      | true =>
        obtain ⟨hk, hsame, -, hlist⟩ := split_within htokens hfront (by decide) (by decide)
          ((balance_cons _ _).trans (by rw [hlist₁]; decide))
          ((balance_cons _ _).trans (by rw [hlist₂]; decide))
        exact ⟨hk, hsame, List.append_cancel_right (List.cons.inj (List.cons.inj hlist).2).2⟩
    obtain ⟨rfl, hsame, hitems⟩ := hcut
    rw [operand.eq_of_tokens ht.1 ht'.1 hoperand₁ hoperand₂ hsame,
      items.eq_of_tokens ht.2 ht'.2 hseparators hitems₁ hitems₂ hitems]
  | paren inner => exact hcore.elim

theorem Arguments.eq_of_tokens (shape : Arguments) {separators : List String} {a a' : Arguments}
    (ha : a.Plain separators) (ha' : a'.Plain separators)
    (hseparators : ∀ word ∈ separators, telling word = true)
    (h : a.bare = shape) (h' : a'.bare = shape) (htokens : a.tokens = a'.tokens) : a = a' := by
  cases shape with
  | last shape =>
    cases a with
    | cons value separator more => cases h
    | last value =>
      cases a' with
      | cons value' separator' more' => cases h'
      | last value' =>
        have hvalue := Arguments.last.inj h
        rw [shape.eq_of_tokens ha ha' hvalue (Arguments.last.inj h') htokens]
  | cons first separator shape =>
    cases a with
    | last value => cases h
    | cons value separator₁ more =>
      cases a' with
      | last value' => cases h'
      | cons value' separator₂ more' =>
        obtain ⟨hvalue, rfl, hmore⟩ := Arguments.cons.inj h
        obtain ⟨hvalue', rfl, hmore'⟩ := Arguments.cons.inj h'
        have hword := hseparators _ ha.2.1
        obtain ⟨hfront, -, hback⟩ := eq_of_telling htokens
          (telling_eq_of_bare (hvalue.trans hvalue'.symm)) hword hword
        rw [first.eq_of_tokens ha.1 ha'.1 hvalue hvalue' hfront,
          shape.eq_of_tokens ha.2.2 ha'.2.2 hseparators hmore hmore' hback]
end

/-- The words of a term are read as the operations in it exactly if it is graded. -/
theorem read?_tokens_iff {t : Term} (h : t.Plain) :
    (read? t.tokens).map Term.bare = some t.bare ↔ t.Graded := by
  constructor
  · intro hread
    obtain ⟨t', hread', hbare⟩ := Option.map_eq_some_iff.mp hread
    obtain ⟨htokens, hgraded, hplain⟩ := read?_eq_some_iff.mp hread'
    rwa [← t.bare.eq_of_tokens hplain h hbare rfl htokens]
  · intro hgraded
    rw [read?_eq_some_iff.mpr ⟨rfl, hgraded, h⟩, Option.map_some]

end ConceptQuery.Sql
