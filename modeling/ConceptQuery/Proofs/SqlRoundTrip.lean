import ConceptQuery.Proofs.SqlReading

/-! # Written terms are read back

The rules by which `Sql.read?` reads, without its fuel, are enough to read the words of a
graded term. What follows the term must not extend anything inside it: `Quiet`.
Hence what is read of some words is the one graded term that they are the words of.
-/
namespace ConceptQuery
open Grammar (Level)

namespace Sql

section Rules

/-- With enough fuel, an expression of the level is read, with what follows it. -/
def Reads (level : Level) (words : List String) (r : Term × List String) : Prop :=
  ∃ fuel, expression fuel level words = some r

/-- With enough fuel, a value is extended by what follows it. -/
def Extends (level : Level) (value : Term) (words : List String) (r : Term × List String) : Prop :=
  ∃ fuel, extend fuel level value words = some r

/-- With enough fuel, expressions with these separators are read. -/
def Lists (separators words : List String) (r : Arguments × List String) : Prop :=
  ∃ fuel, arguments fuel separators words = some r

variable {level : Level} {value inner rhs : Term} {words rest rest' separators : List String}
  {r : Term × List String}

theorem Reads.of_operand (fuel : Nat) (h : operand fuel level words = some (value, rest))
    (hextends : Extends level value rest r) : Reads level words r := by
  obtain ⟨more, hmore⟩ := hextends
  refine ⟨2 * words.length + 2 * rest.length, ?_⟩
  rw [expression, (lasting fuel).operand h (by omega), Option.bind_some]
  exact (lasting more).extend hmore (by dsimp only; omega)

theorem Reads.paren (h : Reads .disjunction rest (inner, ")" :: rest'))
    (hextends : Extends level (.paren inner) rest' r) : Reads level ("(" :: rest) r := by
  obtain ⟨fuel, hfuel⟩ := h
  refine Reads.of_operand (fuel + 1) ?_ hextends
  rw [operand_cons, if_pos rfl, hfuel, Option.bind_some, skip_cons]
  rfl

theorem Reads.unary {op : UnaryOp} (hlevel : level.rank ≤ op.level.rank)
    (h : Reads op.level rest (inner, rest')) (hextends : Extends level (.unary op inner) rest' r) :
    Reads level (op.sql :: rest) r := by
  obtain ⟨fuel, hfuel⟩ := h
  refine Reads.of_operand (fuel + 1) ?_ hextends
  have hparen : op.sql ≠ "(" := by cases op <;> decide
  rw [operand_cons, if_neg hparen, op.ofSql?_sql]
  dsimp only
  rw [if_pos hlevel, hfuel]
  rfl

theorem Reads.call {word : String} {head : Head} {values : Arguments} (hparen : word ≠ "(")
    (hop : UnaryOp.ofSql? word = none) (hopening : opening? (word :: words) = some (head, rest))
    (h : Lists head.separators rest (values, head.closer :: rest'))
    (hextends : Extends level (.call head values) rest' r) : Reads level (word :: words) r := by
  obtain ⟨fuel, hfuel⟩ := h
  refine Reads.of_operand (fuel + 1) ?_ hextends
  rw [operand_cons, if_neg hparen, hop]
  dsimp only
  rw [hopening]
  dsimp only
  rw [hfuel, Option.bind_some, skip_cons]
  rfl

theorem Reads.single {word : String} (hparen : word ≠ "(") (hop : UnaryOp.ofSql? word = none)
    (hopening : opening? (word :: words) = none)
    (h : single? (word :: words) = some (value, rest)) (hextends : Extends level value rest r) :
    Reads level (word :: words) r := by
  refine Reads.of_operand 1 ?_ hextends
  rw [operand_cons, if_neg hparen, hop]
  dsimp only
  rw [hopening]
  exact h

theorem Extends.binary {op : BinaryOp} (hlevel : level.rank ≤ op.level.rank)
    (hleft : op.left.rank ≤ value.level.rank) (h : Reads op.right rest (rhs, rest'))
    (hextends : Extends level (.binary op value rhs) rest' r) :
    Extends level value (op.sql :: rest) r := by
  obtain ⟨fuel, hfuel⟩ := h
  obtain ⟨more, hmore⟩ := hextends
  refine ⟨2 * rest.length + 2 * rest'.length + 1, ?_⟩
  rw [extend_cons, BinaryOp.ofSql?_eq_some_iff.mpr rfl]
  dsimp only
  rw [if_pos ⟨hlevel, hleft⟩, (lasting fuel).expression hfuel (by omega), Option.bind_some]
  exact (lasting more).extend hmore (by dsimp only; omega)

theorem Extends.isNull {negated : Bool} (hlevel : level.rank ≤ Level.comparison.rank)
    (hleft : Level.sum.rank ≤ value.level.rank)
    (hextends : Extends level (.isNull value negated) rest r) :
    Extends level value ("IS" :: (negation negated ++ "NULL" :: rest)) r := by
  obtain ⟨fuel, hfuel⟩ := hextends
  refine ⟨fuel + 1, ?_⟩
  have hop : BinaryOp.ofSql? "IS" = none := by decide
  have hnull : nullTest? ("IS" :: (negation negated ++ "NULL" :: rest)) = some (negated, rest) := by
    cases negated <;> rfl
  rw [extend_cons, hop]
  dsimp only
  rw [if_pos ⟨hlevel, hleft⟩, hnull]
  exact hfuel

theorem Extends.inList {negated : Bool} {items : Arguments}
    (hlevel : level.rank ≤ Level.comparison.rank) (hleft : Level.sum.rank ≤ value.level.rank)
    (h : Lists [","] rest (items, ")" :: rest'))
    (hextends : Extends level (.inList value items negated) rest' r) :
    Extends level value (negation negated ++ "IN" :: "(" :: rest) r := by
  obtain ⟨fuel, hfuel⟩ := h
  obtain ⟨more, hmore⟩ := hextends
  have hmember : membership? (negation negated ++ "IN" :: "(" :: rest) = some (negated, rest) := by
    cases negated <;> rfl
  have hnull : nullTest? (negation negated ++ "IN" :: "(" :: rest) = none := by
    cases negated <;> rfl
  obtain ⟨word, words, hwords, hop⟩ : ∃ word words,
      negation negated ++ "IN" :: "(" :: rest = word :: words ∧ BinaryOp.ofSql? word = none := by
    cases negated
    · exact ⟨_, _, rfl, by decide⟩
    · exact ⟨_, _, rfl, by decide⟩
  rw [hwords] at hmember hnull ⊢
  refine ⟨2 * rest.length + 2 * rest'.length + 2, ?_⟩
  rw [extend_cons, hop]
  dsimp only
  rw [if_pos ⟨hlevel, hleft⟩, hnull, hmember]
  dsimp only
  rw [(lasting fuel).arguments hfuel (by omega), Option.bind_some, skip_cons,
    Option.bind_some]
  exact (lasting more).extend hmore (by dsimp only; omega)

theorem Lists.last {word : String} (h : Reads .disjunction words (value, word :: rest))
    (hword : word ∉ separators) : Lists separators words (.last value, word :: rest) := by
  obtain ⟨fuel, hfuel⟩ := h
  refine ⟨fuel + 1, ?_⟩
  rw [arguments_succ, hfuel, Option.bind_some]
  exact if_neg hword

theorem Lists.cons {word : String} {more : Arguments}
    (h : Reads .disjunction words (value, word :: rest)) (hword : word ∈ separators)
    (hmore : Lists separators rest (more, rest')) :
    Lists separators words (.cons value word more, rest') := by
  obtain ⟨fuel, hfuel⟩ := h
  obtain ⟨fuel', hfuel'⟩ := hmore
  refine ⟨2 * words.length + 2 * rest.length + 2, ?_⟩
  rw [arguments_succ, (lasting fuel).expression hfuel (by omega), Option.bind_some]
  dsimp only
  rw [if_pos hword, (lasting fuel').arguments hfuel' (by omega)]
  rfl

end Rules

section Completeness

/-- What follows a term of the level extends nothing inside it. -/
def Quiet (level : Level) : List String → Prop
  | [] => True
  | word :: _ => word ≠ "(" ∧ (∀ op : BinaryOp, word = op.sql → op.level.rank ≤ level.rank) ∧
      (word ∈ ["IS", "IN", "NOT"] → Level.comparison.rank ≤ level.rank)

/-- Words that end an argument. -/
def stops : List String :=
  [")", "END", ",", "AS", "WHEN", "THEN", "ELSE"]

theorem quiet_of_stop {word : String} (h : word ∈ stops) (level : Level) (rest : List String) :
    Quiet level (word :: rest) := by
  have hnot : ∀ w ∈ stops, w ≠ "(" ∧ (∀ op ∈ BinaryOp.all, w ≠ op.sql) ∧ w ∉ ["IS", "IN", "NOT"] := by
    decide
  obtain ⟨hparen, hop, htest⟩ := hnot word h
  refine ⟨hparen, fun op heq => ?_, fun hmem => absurd hmem htest⟩
  exact absurd heq (hop op (by cases op <;> decide))

variable {level : Level} {value : Term} {rest : List String}

theorem nullTest?_eq_none {word : String} (h : word ∉ ["IS", "IN", "NOT"]) :
    nullTest? (word :: rest) = none := by
  cases hnull : nullTest? (word :: rest) with
  | none => rfl
  | some found =>
    obtain ⟨rfl, -⟩ := List.cons.inj (nullTest?_eq_some hnull)
    exact absurd (by decide) h

theorem membership?_eq_none {word : String} (h : word ∉ ["IS", "IN", "NOT"]) :
    membership? (word :: rest) = none := by
  cases hmember : membership? (word :: rest) with
  | none => rfl
  | some found =>
    obtain ⟨negated, words⟩ := found
    have hwords := membership?_eq_some hmember
    cases negated with
    | false =>
      obtain ⟨rfl, -⟩ := List.cons.inj hwords
      exact absurd (by decide) h
    | true =>
      obtain ⟨rfl, -⟩ := List.cons.inj hwords
      exact absurd (by decide) h

/-- Reading on a tighter level stops where what follows is quiet. -/
theorem extends_of_quiet {outer : Level} (h : Quiet outer rest)
    (hop : ∀ op : BinaryOp, op.level.rank ≤ outer.rank → op.level.rank < level.rank)
    (htest : Level.comparison.rank ≤ outer.rank → Level.comparison.rank < level.rank) :
    Extends level value rest (value, rest) := by
  cases rest with
  | nil => exact ⟨0, extend_nil⟩
  | cons word words =>
    obtain ⟨-, hops, htests⟩ := h
    refine ⟨1, ?_⟩
    rw [extend_cons]
    split
    · rename_i op hfound
      have hlower := hop op (hops op (BinaryOp.ofSql?_eq_some_iff.mp hfound))
      rw [if_neg (by omega)]
    · split
      · rename_i hallowed
        have hword : word ∉ ["IS", "IN", "NOT"] := by
          intro hmem
          have := htest (htests hmem)
          omega
        rw [nullTest?_eq_none hword, membership?_eq_none hword]
      · rfl

theorem extends_of_stop {word : String} (h : word ∈ stops) :
    Extends level value (word :: rest) (value, word :: rest) := by
  have hnot : ∀ w ∈ stops, BinaryOp.ofSql? w = none ∧ w ∉ ["IS", "IN", "NOT"] := by decide
  obtain ⟨hop, hword⟩ := hnot word h
  refine ⟨1, ?_⟩
  rw [extend_cons, hop]
  dsimp only
  rw [nullTest?_eq_none hword, membership?_eq_none hword]
  split <;> rfl

theorem notMem_reserved {word : String} (h : word ∉ reserved) :
    word ≠ "(" ∧ UnaryOp.ofSql? word = none ∧ word ≠ "CASE" ∧ word ≠ ")" ∧ word ≠ "DISTINCT" := by
  have hne : ∀ w ∈ reserved, word ≠ w := fun w hw heq => h (heq ▸ hw)
  refine ⟨hne _ (by decide), ?_, hne _ (by decide), hne _ (by decide), hne _ (by decide)⟩
  cases hop : UnaryOp.ofSql? word with
  | none => rfl
  | some op =>
    refine absurd (UnaryOp.ofSql?_eq_some hop) (hne _ ?_)
    cases op <;> decide

/-- No term starts with a word that ends a call or comes right behind its name. -/
theorem Term.tokens_eq_cons (t : Term) (h : t.Plain) :
    ∃ word words, t.tokens = word :: words ∧ word ≠ ")" ∧ word ≠ "DISTINCT" := by
  cases t with
  | atom text => exact ⟨text, [], rfl, (notMem_reserved h).2.2.2⟩
  | nullary function => exact ⟨function, _, rfl, (notMem_reserved h).2.2.2⟩
  | call head values =>
    cases head with
    | named function => exact ⟨function, _, rfl, (notMem_reserved h.1).2.2.2⟩
    | distinct => exact ⟨"count", _, rfl, by decide, by decide⟩
    | cases => exact ⟨"CASE", _, rfl, by decide, by decide⟩
  | binary op lhs rhs =>
    obtain ⟨word, words, hwords, hne⟩ := lhs.tokens_eq_cons h.1
    exact ⟨word, _, by rw [Term.tokens, hwords]; rfl, hne⟩
  | unary op operand =>
    refine ⟨op.sql, _, rfl, ?_⟩
    cases op <;> decide
  | isNull operand negated =>
    obtain ⟨word, words, hwords, hne⟩ := operand.tokens_eq_cons h
    exact ⟨word, _, by rw [Term.tokens, hwords]; rfl, hne⟩
  | inList operand items negated =>
    obtain ⟨word, words, hwords, hne⟩ := operand.tokens_eq_cons h.1
    exact ⟨word, _, by rw [Term.tokens, hwords]; rfl, hne⟩
  | paren inner => exact ⟨"(", _, rfl, by decide, by decide⟩

theorem Arguments.tokens_eq_cons {separators : List String} (a : Arguments)
    (h : a.Plain separators) :
    ∃ word words, a.tokens = word :: words ∧ word ≠ ")" ∧ word ≠ "DISTINCT" := by
  cases a with
  | last value => exact value.tokens_eq_cons h
  | cons value separator more =>
    obtain ⟨word, words, hwords, hne⟩ := value.tokens_eq_cons h.1
    exact ⟨word, _, by rw [Arguments.tokens, hwords]; rfl, hne⟩

theorem opening?_of_quiet {word : String} (hword : word ∉ reserved) (h : Quiet level rest) :
    opening? (word :: rest) = none := by
  unfold opening?
  split
  · rename_i heq
    exact absurd (List.cons.inj heq).1 (notMem_reserved hword).2.2.1
  · rename_i heq
    obtain ⟨-, rfl⟩ := List.cons.inj heq
    exact absurd rfl h.1
  · rfl
  · rename_i heq
    obtain ⟨-, rfl⟩ := List.cons.inj heq
    exact absurd rfl h.1
  · rfl

theorem opening?_nullary {function : String} (h : function ∉ reserved) :
    opening? (function :: "(" :: ")" :: rest) = none := by
  unfold opening?
  split
  · rename_i heq
    exact absurd (List.cons.inj heq).1 (notMem_reserved h).2.2.1
  · rename_i heq
    simp at heq
  · rfl
  · rename_i hnot heq
    simp only [List.cons.injEq, true_and] at heq
    exact (hnot rest heq.2.symm).elim
  · rfl

theorem opening?_head {head : Head} {word : String} (h : head.Plain) (hclose : word ≠ ")")
    (hdistinct : word ≠ "DISTINCT") :
    opening? (head.tokens ++ word :: rest) = some (head, word :: rest) := by
  cases head with
  | named function =>
    rw [Head.tokens]
    unfold opening?
    split
    · rename_i heq
      exact absurd (List.cons.inj heq).1 (notMem_reserved h).2.2.1
    · rename_i heq
      simp only [List.cons_append, List.nil_append, List.cons.injEq, true_and] at heq
      exact absurd heq.2.1 hdistinct
    · rename_i heq
      simp only [List.cons_append, List.nil_append, List.cons.injEq, true_and] at heq
      exact absurd heq.2.1 hclose
    · rename_i heq
      simp only [List.cons_append, List.nil_append, List.cons.injEq, true_and] at heq
      obtain ⟨rfl, rfl⟩ := heq
      exact if_neg h
    · rename_i hnone
      exact absurd rfl (hnone function (word :: rest))
  | distinct => rfl
  | cases => rfl

theorem single?_atom {word : String} (hword : word ∉ reserved) (h : Quiet level rest) :
    single? (word :: rest) = some (.atom word, rest) := by
  rw [single?.eq_def]
  dsimp only
  rw [if_neg hword]
  split
  · exact absurd rfl h.1
  · rfl

theorem Quiet.mono {outer : Level} (h : Quiet outer rest) (hle : outer.rank ≤ level.rank) :
    Quiet level rest := by
  cases rest with
  | nil => trivial
  | cons word words =>
    exact ⟨h.1, fun op heq => (h.2.1 op heq).trans hle, fun hmem => (h.2.2 hmem).trans hle⟩

theorem quiet_binary {op : BinaryOp} (h : op.left.rank ≤ level.rank) (words : List String) :
    Quiet level (op.sql :: words) := by
  refine ⟨by cases op <;> decide, fun op' heq => ?_, fun hmem => ?_⟩
  · have hsame : op' = op := Option.some.inj
      ((BinaryOp.ofSql?_eq_some_iff.mpr heq).symm.trans (BinaryOp.ofSql?_eq_some_iff.mpr rfl))
    rw [hsame]
    exact op.level_le_left.trans h
  · have hnot : op.sql ∉ ["IS", "IN", "NOT"] := by cases op <;> decide
    exact absurd hmem hnot

theorem quiet_test {word : String} (hword : word ∈ ["IS", "IN", "NOT"])
    (h : Level.sum.rank ≤ level.rank) (words : List String) : Quiet level (word :: words) := by
  have hnot : ∀ w ∈ ["IS", "IN", "NOT"], w ≠ "(" ∧ ∀ op ∈ BinaryOp.all, w ≠ op.sql := by decide
  obtain ⟨hparen, hop⟩ := hnot word hword
  refine ⟨hparen, fun op heq => ?_, fun _ => ?_⟩
  · exact absurd heq (hop op (by cases op <;> decide))
  · have hless : Level.comparison.rank ≤ Level.sum.rank := by decide
    omega

theorem Head.separators_subset (head : Head) : ∀ word ∈ head.separators, word ∈ stops := by
  cases head <;> simp [Head.separators, stops]

theorem Head.closer_stops (head : Head) : head.closer ∈ stops ∧ head.closer ∉ head.separators := by
  cases head <;> simp [Head.closer, Head.separators, stops]

/-- No operator on the level of a unary one follows its operand. -/
theorem UnaryOp.level_apart (op : UnaryOp) (op' : BinaryOp)
    (h : op'.level.rank ≤ op.level.rank) : op'.level.rank < op.level.rank := by
  cases op <;> cases op' <;> revert h <;> decide

theorem UnaryOp.comparison_apart (op : UnaryOp)
    (h : Level.comparison.rank ≤ op.level.rank) : Level.comparison.rank < op.level.rank := by
  cases op <;> revert h <;> decide

mutual
/-- The words of a graded term are read as the term, and reading goes on behind them. -/
theorem Term.reads {level : Level} {rest : List String} {r : Term × List String} (t : Term)
    (hgraded : t.Graded) (hplain : t.Plain) (hlevel : level.rank ≤ t.level.rank)
    (hquiet : Quiet t.level rest) (h : Extends level t rest r) :
    Reads level (t.tokens ++ rest) r := by
  cases t with
  | atom text =>
    obtain ⟨hparen, hop, -⟩ := notMem_reserved hplain
    exact .single hparen hop (opening?_of_quiet hplain hquiet) (single?_atom hplain hquiet) h
  | nullary function =>
    obtain ⟨hparen, hop, -⟩ := notMem_reserved hplain
    exact .single hparen hop (opening?_nullary hplain) (if_neg hplain) h
  | call head values =>
    obtain ⟨first, words, hfirst, hclose, hdistinct⟩ := values.tokens_eq_cons hplain.2
    have hvalues : Lists head.separators (values.tokens ++ head.closer :: rest)
        (values, head.closer :: rest) :=
      values.lists hgraded hplain.2 head.separators_subset head.closer_stops.1 head.closer_stops.2
    have hopening : opening? (head.tokens ++ (values.tokens ++ head.closer :: rest)) =
        some (head, values.tokens ++ head.closer :: rest) := by
      rw [hfirst, List.cons_append]
      exact opening?_head hplain.1 hclose hdistinct
    have hwords : (Term.call head values).tokens ++ rest =
        head.tokens ++ (values.tokens ++ head.closer :: rest) := by
      simp [Term.tokens]
    rw [hwords]
    cases head with
    | named function =>
      obtain ⟨hparen, hop, -⟩ := notMem_reserved hplain.1
      exact .call hparen hop hopening hvalues h
    | distinct => exact .call (by decide) (by decide) hopening hvalues h
    | cases => exact .call (by decide) (by decide) hopening hvalues h
  | binary op lhs rhs =>
    obtain ⟨hleft, hright, hlhs, hrhs⟩ := hgraded
    have hlevel : level.rank ≤ op.level.rank := hlevel
    have hlt := op.level_lt_right
    have hle := op.level_le_left
    have hreads : Reads op.right (rhs.tokens ++ rest) (rhs, rest) := by
      refine rhs.reads hrhs hplain.2 hright (hquiet.mono ?_) (extends_of_quiet hquiet ?_ ?_)
      · exact (show op.level.rank ≤ rhs.level.rank by omega)
      · exact fun op' hop' => lt_of_le_of_lt hop' hlt
      · exact fun hop' => lt_of_le_of_lt hop' hlt
    have hextends : Extends level lhs (op.sql :: (rhs.tokens ++ rest)) r :=
      .binary hlevel hleft hreads h
    rw [Term.tokens, List.append_assoc, List.cons_append]
    exact lhs.reads hlhs hplain.1 (by omega) (quiet_binary hleft _) hextends
  | unary op operand =>
    have hreads : Reads op.level (operand.tokens ++ rest) (operand, rest) := by
      refine operand.reads hgraded.2 hplain hgraded.1 (hquiet.mono hgraded.1)
        (extends_of_quiet hquiet (UnaryOp.level_apart op) (UnaryOp.comparison_apart op))
    exact .unary hlevel hreads h
  | isNull operand negated =>
    have hlevel : level.rank ≤ Level.comparison.rank := hlevel
    have hless : Level.comparison.rank ≤ Level.sum.rank := by decide
    have hextends := Extends.isNull hlevel hgraded.1 h
    have hreads := operand.reads hgraded.2 hplain (by have := hgraded.1; omega)
      (quiet_test (by decide) hgraded.1 _) hextends
    simpa [Term.tokens] using hreads
  | inList operand items negated =>
    have hlevel : level.rank ≤ Level.comparison.rank := hlevel
    have hless : Level.comparison.rank ≤ Level.sum.rank := by decide
    have hitems : Lists [","] (items.tokens ++ ")" :: rest) (items, ")" :: rest) :=
      items.lists hgraded.2.2 hplain.2 (by decide) (by decide) (by decide)
    have hextends := Extends.inList hlevel hgraded.1 hitems h
    have hquiet : Quiet operand.level
        (negation negated ++ "IN" :: "(" :: (items.tokens ++ ")" :: rest)) := by
      cases negated
      · exact quiet_test (by decide) hgraded.1 _
      · exact quiet_test (by decide) hgraded.1 _
    have hreads := operand.reads hgraded.2.1 hplain.1 (by have := hgraded.1; omega) hquiet hextends
    simpa [Term.tokens] using hreads
  | paren inner =>
    have hreads : Reads .disjunction (inner.tokens ++ ")" :: rest) (inner, ")" :: rest) :=
      inner.reads hgraded hplain (Nat.zero_le _) (quiet_of_stop (by decide) _ _)
        (extends_of_stop (by decide))
    have hwords : (Term.paren inner).tokens ++ rest = "(" :: (inner.tokens ++ ")" :: rest) := by
      simp [Term.tokens]
    rw [hwords]
    exact .paren hreads h

theorem Arguments.lists {separators rest : List String} {word : String} (a : Arguments)
    (hgraded : a.Graded) (hplain : a.Plain separators)
    (hseparators : ∀ w ∈ separators, w ∈ stops) (hstop : word ∈ stops)
    (hword : word ∉ separators) :
    Lists separators (a.tokens ++ word :: rest) (a, word :: rest) := by
  cases a with
  | last value =>
    refine .last ?_ hword
    exact value.reads hgraded hplain (Nat.zero_le _) (quiet_of_stop hstop _ _)
      (extends_of_stop hstop)
  | cons value separator more =>
    have hmore : Lists separators (more.tokens ++ word :: rest) (more, word :: rest) :=
      more.lists hgraded.2 hplain.2.2 hseparators hstop hword
    have hbetween := hseparators separator hplain.2.1
    have hreads : Reads .disjunction (value.tokens ++ separator :: (more.tokens ++ word :: rest))
        (value, separator :: (more.tokens ++ word :: rest)) :=
      value.reads hgraded.1 hplain.1 (Nat.zero_le _) (quiet_of_stop hbetween _ _)
        (extends_of_stop hbetween)
    rw [Arguments.tokens, List.append_assoc, List.cons_append]
    exact .cons hreads hplain.2.1 hmore
end

theorem read?_eq_some_iff {words : List String} {t : Term} :
    read? words = some t ↔ t.tokens = words ∧ t.Graded ∧ t.Plain := by
  unfold read?
  constructor
  · intro h
    split at h
    · rename_i found hread
      obtain rfl := Option.some.inj h
      have hfound := (sound _).expression hread
      exact ⟨by simpa using hfound.words.symm, hfound.graded, hfound.plain⟩
    · cases h
  · rintro ⟨rfl, hgraded, hplain⟩
    have hextends : Extends .disjunction t [] (t, []) := ⟨0, extend_nil⟩
    have hquiet : Quiet t.level [] := trivial
    obtain ⟨fuel, hfuel⟩ := t.reads hgraded hplain (Nat.zero_le _) hquiet hextends
    rw [List.append_nil] at hfuel
    rw [(lasting fuel).expression hfuel le_rfl]

end Completeness
end Sql
end ConceptQuery
