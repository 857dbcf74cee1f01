import ConceptQuery.Proofs.Phrase
import ConceptQuery.Model.Expr

/-! # Reading written expressions back

An expression of a query is written as a row of words. `Sql.Term` says how such a row is
put together, with all parentheses in it, and `Sql.read?` finds that out again, by the
levels of the expression grammar: an operator takes what binds tightly enough on its left
and reads on its right what binds tighter. What it finds is `Graded`: every operand
binds as tightly as its place asks. Reading and writing undo each other on graded terms,
and on no others.
-/
namespace ConceptQuery

/-- How tightly the phrases of a level bind. -/
def Grammar.Level.rank : Grammar.Level → Nat
  | disjunction => 0
  | conjunction => 1
  | negation => 2
  | comparison => 3
  | sum => 4
  | product => 5
  | signed => 6
  | atom => 7

open Grammar (Level)

namespace BinaryOp

def level : BinaryOp → Level
  | or => .disjunction
  | and => .conjunction
  | eq | notEq | lt | gt | ltEq | gtEq | like => .comparison
  | add | sub => .sum
  | mul | div | mod => .product

/-- The level of the left operand. A comparison does not chain. -/
def left (op : BinaryOp) : Level :=
  if op.level = .comparison then .sum else op.level

/-- The level of the right operand. -/
def right (op : BinaryOp) : Level :=
  op.level.tighter?.getD .atom

def all : List BinaryOp :=
  [or, and, eq, notEq, lt, gt, ltEq, gtEq, like, add, sub, mul, div, mod]

def ofSql? (word : String) : Option BinaryOp :=
  all.find? fun op => op.sql = word

theorem ofSql?_eq_some_iff {word : String} {op : BinaryOp} : ofSql? word = some op ↔ word = op.sql := by
  constructor
  · intro h
    have hfound := List.find?_some h
    simp only [decide_eq_true_eq] at hfound
    exact hfound.symm
  · rintro rfl
    cases op <;> decide

theorem level_le_left (op : BinaryOp) : op.level.rank ≤ op.left.rank := by
  cases op <;> decide

theorem level_lt_right (op : BinaryOp) : op.level.rank < op.right.rank := by
  cases op <;> decide

end BinaryOp

namespace UnaryOp

/-- The level of the operation and of its operand. -/
def level : UnaryOp → Level
  | not => .negation
  | neg => .signed

def sql : UnaryOp → String
  | not => "NOT"
  | neg => "-"

def ofSql? : String → Option UnaryOp
  | "NOT" => some .not
  | "-" => some .neg
  | _ => none

theorem ofSql?_eq_some {word : String} {op : UnaryOp} (h : ofSql? word = some op) :
    word = op.sql := by
  unfold ofSql? at h
  split at h
  · obtain rfl := Option.some.inj h
    rfl
  · obtain rfl := Option.some.inj h
    rfl
  · cases h

theorem ofSql?_sql (op : UnaryOp) : ofSql? op.sql = some op := by
  cases op <;> decide

end UnaryOp

namespace Sql

/-- The words in front of the arguments of a call. -/
inductive Head where
  | named (function : String)
  /-- The count of different values. -/
  | distinct
  | cases
deriving DecidableEq

mutual
/-- An expression as it is written. -/
inductive Term where
  /-- A column, a literal, or a type. -/
  | atom (text : String)
  /-- A call without arguments. -/
  | nullary (function : String)
  | call (head : Head) (arguments : Arguments)
  | binary (op : BinaryOp) (lhs rhs : Term)
  | unary (op : UnaryOp) (operand : Term)
  | isNull (operand : Term) (negated : Bool)
  | inList (operand : Term) (items : Arguments) (negated : Bool)
  | paren (inner : Term)

/-- One or more terms with a word between any two. -/
inductive Arguments where
  | last (value : Term)
  | cons (value : Term) (separator : String) (more : Arguments)
end

deriving instance DecidableEq for Term, Arguments

namespace Head

def tokens : Head → List String
  | named function => [function, "("]
  | distinct => ["count", "(", "DISTINCT"]
  | cases => ["CASE", "WHEN"]

def closer : Head → String
  | named _ | distinct => ")"
  | cases => "END"

/-- The words that may stand between the arguments. -/
def separators : Head → List String
  | named _ | distinct => [",", "AS"]
  | cases => ["WHEN", "THEN", "ELSE"]

end Head

/-- The word that negates a test. -/
def negation (negated : Bool) : List String :=
  if negated then ["NOT"] else []

mutual
/-- The words of a term. -/
def Term.tokens : Term → List String
  | .atom text => [text]
  | .nullary function => [function, "(", ")"]
  | .call head arguments => head.tokens ++ (arguments.tokens ++ [head.closer])
  | .binary op lhs rhs => lhs.tokens ++ op.sql :: rhs.tokens
  | .unary op operand => op.sql :: operand.tokens
  | .isNull operand negated => operand.tokens ++ "IS" :: (negation negated ++ ["NULL"])
  | .inList operand items negated =>
    operand.tokens ++ (negation negated ++ "IN" :: "(" :: (items.tokens ++ [")"]))
  | .paren inner => "(" :: (inner.tokens ++ [")"])

def Arguments.tokens : Arguments → List String
  | .last value => value.tokens
  | .cons value separator more => value.tokens ++ separator :: more.tokens
end

namespace Term

def level : Term → Level
  | atom _ | nullary _ | call _ _ | paren _ => .atom
  | binary op _ _ => op.level
  | unary op _ => op.level
  | isNull _ _ | inList _ _ _ => .comparison

end Term

mutual
/-- Every operand binds as tightly as its place asks. -/
def Term.Graded : Term → Prop
  | .atom _ | .nullary _ => True
  | .call _ arguments => arguments.Graded
  | .binary op lhs rhs => op.left.rank ≤ lhs.level.rank ∧ op.right.rank ≤ rhs.level.rank ∧
      lhs.Graded ∧ rhs.Graded
  | .unary op operand => op.level.rank ≤ operand.level.rank ∧ operand.Graded
  | .isNull operand _ => Level.sum.rank ≤ operand.level.rank ∧ operand.Graded
  | .inList operand items _ => Level.sum.rank ≤ operand.level.rank ∧ operand.Graded ∧ items.Graded
  | .paren inner => inner.Graded

def Arguments.Graded : Arguments → Prop
  | .last value => value.Graded
  | .cons value _ more => value.Graded ∧ more.Graded
end

/-- Words that never stand for a value or a function. -/
def reserved : List String :=
  ["(", ")", ",", "NOT", "IS", "IN", "AS", "CASE", "WHEN", "THEN", "ELSE", "END", "DISTINCT"] ++
    BinaryOp.all.map BinaryOp.sql

def Head.Plain : Head → Prop
  | .named function => function ∉ reserved
  | .distinct | .cases => True

mutual
/-- Values and functions have words of their own, and separators are where they belong. -/
def Term.Plain : Term → Prop
  | .atom text => text ∉ reserved
  | .nullary function => function ∉ reserved
  | .call head arguments => head.Plain ∧ arguments.Plain head.separators
  | .binary _ lhs rhs => lhs.Plain ∧ rhs.Plain
  | .unary _ operand | .isNull operand _ | .paren operand => operand.Plain
  | .inList operand items _ => operand.Plain ∧ items.Plain [","]

def Arguments.Plain (separators : List String) : Arguments → Prop
  | .last value => value.Plain
  | .cons value separator more =>
    value.Plain ∧ separator ∈ separators ∧ more.Plain separators
end

section Reader

/-- The head of a call with arguments, and what follows it. -/
def opening? : List String → Option (Head × List String)
  | "CASE" :: "WHEN" :: rest => some (.cases, rest)
  | "count" :: "(" :: "DISTINCT" :: rest => some (.distinct, rest)
  | _ :: "(" :: ")" :: _ => none
  | function :: "(" :: rest => if function ∈ reserved then none else some (.named function, rest)
  | _ => none

/-- A column, a literal, a type, or a call without arguments. -/
def single? : List String → Option (Term × List String)
  | [] => none
  | word :: rest =>
    if word ∈ reserved then none
    else match rest with
      | "(" :: ")" :: rest => some (.nullary word, rest)
      | rest => some (.atom word, rest)

/-- The words `IS NULL` or `IS NOT NULL`. -/
def nullTest? : List String → Option (Bool × List String)
  | "IS" :: "NULL" :: rest => some (false, rest)
  | "IS" :: "NOT" :: "NULL" :: rest => some (true, rest)
  | _ => none

/-- The words in front of the members of a list. -/
def membership? : List String → Option (Bool × List String)
  | "IN" :: "(" :: rest => some (false, rest)
  | "NOT" :: "IN" :: "(" :: rest => some (true, rest)
  | _ => none

/-- Passes over a word that has to follow. -/
def skip {α : Type} (word : String) : α × List String → Option (α × List String)
  | (a, next :: rest) => if next = word then some (a, rest) else none
  | (_, []) => none

mutual
/-- The first operand of an expression of a level; each round of `fuel` passes a word. -/
def operand : (fuel : Nat) → Level → List String → Option (Term × List String)
  | 0, _, _ => none
  | _ + 1, _, [] => none
  | fuel + 1, level, word :: rest =>
    if word = "(" then
      (((operand fuel .disjunction rest).bind fun p => extend fuel .disjunction p.1 p.2).bind
        (skip ")")).map fun p => (.paren p.1, p.2)
    else match UnaryOp.ofSql? word with
      | some op =>
        if level.rank ≤ op.level.rank then
          ((operand fuel op.level rest).bind fun p => extend fuel op.level p.1 p.2).map
            fun p => (.unary op p.1, p.2)
        else none
      | none =>
        match opening? (word :: rest) with
        | some (head, rest) =>
          ((arguments fuel head.separators rest).bind (skip head.closer)).map
            fun p => (.call head p.1, p.2)
        | none => single? (word :: rest)

/-- An operand with the operators behind it, as far as the level goes. -/
def extend : (fuel : Nat) → Level → Term → List String → Option (Term × List String)
  | _, _, value, [] => some (value, [])
  | 0, _, _, _ :: _ => none
  | fuel + 1, level, value, word :: rest =>
    match BinaryOp.ofSql? word with
    | some op =>
      if level.rank ≤ op.level.rank ∧ op.left.rank ≤ value.level.rank then
        ((operand fuel op.right rest).bind fun p => extend fuel op.right p.1 p.2).bind
          fun p => extend fuel level (.binary op value p.1) p.2
      else some (value, word :: rest)
    | none =>
      if level.rank ≤ Level.comparison.rank ∧ Level.sum.rank ≤ value.level.rank then
        match nullTest? (word :: rest), membership? (word :: rest) with
        | some (negated, rest), _ => extend fuel level (.isNull value negated) rest
        | none, some (negated, rest) =>
          ((arguments fuel [","] rest).bind (skip ")")).bind
            fun p => extend fuel level (.inList value p.1 negated) p.2
        | none, none => some (value, word :: rest)
      else some (value, word :: rest)

/-- Expressions with separators between them. -/
def arguments : (fuel : Nat) → List String → List String → Option (Arguments × List String)
  | 0, _, _ => none
  | fuel + 1, separators, words =>
    ((operand fuel .disjunction words).bind fun p => extend fuel .disjunction p.1 p.2).bind
      fun p => match p.2 with
        | word :: rest =>
          if word ∈ separators then
            (arguments fuel separators rest).map fun q => (.cons p.1 word q.1, q.2)
          else some (.last p.1, word :: rest)
        | [] => some (.last p.1, [])
end

/-- An expression of a level and what follows it. -/
def expression (fuel : Nat) (level : Level) (words : List String) : Option (Term × List String) :=
  (operand fuel level words).bind fun p => extend fuel level p.1 p.2

/-- The term that a row of words is. -/
def read? (words : List String) : Option Term :=
  match expression (2 * words.length) .disjunction words with
  | some (value, []) => some value
  | _ => none

end Reader

section Steps
variable {fuel : Nat} {level : Level} {words rest : List String} {word : String}

theorem operand_cons : operand (fuel + 1) level (word :: rest) =
    if word = "(" then
      ((expression fuel .disjunction rest).bind (skip ")")).map fun p => (.paren p.1, p.2)
    else match UnaryOp.ofSql? word with
      | some op =>
        if level.rank ≤ op.level.rank then
          (expression fuel op.level rest).map fun p => (.unary op p.1, p.2)
        else none
      | none =>
        match opening? (word :: rest) with
        | some (head, rest) =>
          ((arguments fuel head.separators rest).bind (skip head.closer)).map
            fun p => (.call head p.1, p.2)
        | none => single? (word :: rest) := by
  rw [operand]
  rfl

theorem extend_nil {value : Term} : extend fuel level value [] = some (value, []) := by
  rw [extend]

theorem extend_cons {value : Term} : extend (fuel + 1) level value (word :: rest) =
    match BinaryOp.ofSql? word with
    | some op =>
      if level.rank ≤ op.level.rank ∧ op.left.rank ≤ value.level.rank then
        (expression fuel op.right rest).bind fun p => extend fuel level (.binary op value p.1) p.2
      else some (value, word :: rest)
    | none =>
      if level.rank ≤ Level.comparison.rank ∧ Level.sum.rank ≤ value.level.rank then
        match nullTest? (word :: rest), membership? (word :: rest) with
        | some (negated, rest), _ => extend fuel level (.isNull value negated) rest
        | none, some (negated, rest) =>
          ((arguments fuel [","] rest).bind (skip ")")).bind
            fun p => extend fuel level (.inList value p.1 negated) p.2
        | none, none => some (value, word :: rest)
      else some (value, word :: rest) := by
  rw [extend]
  rfl

theorem arguments_succ {separators : List String} : arguments (fuel + 1) separators words =
    (expression fuel .disjunction words).bind fun p =>
      match p.2 with
      | word :: rest =>
        if word ∈ separators then
          (arguments fuel separators rest).map fun q => (.cons p.1 word q.1, q.2)
        else some (.last p.1, word :: rest)
      | [] => some (.last p.1, []) := by
  rw [arguments]
  rfl

theorem skip_eq_some_iff {α : Type} {p q : α × List String} :
    skip word p = some q ↔ p = (q.1, word :: q.2) := by
  obtain ⟨a, words⟩ := p
  cases words with
  | nil => simp [skip]
  | cons next rest =>
    rw [skip]
    split
    · rename_i hnext
      subst hnext
      simp [Prod.ext_iff]
    · rename_i hnext
      simp [hnext]

theorem skip_cons {α : Type} {a : α} : skip word (a, word :: rest) = some (a, rest) :=
  if_pos rfl

theorem opening?_eq_some {head : Head} (h : opening? words = some (head, rest)) :
    words = head.tokens ++ rest ∧ head.Plain := by
  unfold opening? at h
  split at h
  · obtain ⟨rfl, rfl⟩ := Prod.mk.inj (Option.some.inj h)
    exact ⟨rfl, trivial⟩
  · obtain ⟨rfl, rfl⟩ := Prod.mk.inj (Option.some.inj h)
    exact ⟨rfl, trivial⟩
  · cases h
  · split at h
    · cases h
    · rename_i hplain
      obtain ⟨rfl, rfl⟩ := Prod.mk.inj (Option.some.inj h)
      exact ⟨rfl, hplain⟩
  · cases h

theorem single?_eq_some {value : Term} (h : single? words = some (value, rest)) :
    words = value.tokens ++ rest ∧ value.Graded ∧ value.Plain ∧ value.level = .atom := by
  unfold single? at h
  split at h
  · cases h
  · split at h
    · cases h
    · rename_i hplain
      split at h
      · obtain ⟨rfl, rfl⟩ := Prod.mk.inj (Option.some.inj h)
        exact ⟨rfl, trivial, hplain, rfl⟩
      · obtain ⟨rfl, rfl⟩ := Prod.mk.inj (Option.some.inj h)
        exact ⟨rfl, trivial, hplain, rfl⟩

theorem nullTest?_eq_some {negated : Bool} (h : nullTest? words = some (negated, rest)) :
    words = "IS" :: (negation negated ++ "NULL" :: rest) := by
  unfold nullTest? at h
  split at h
  · obtain ⟨rfl, rfl⟩ := Prod.mk.inj (Option.some.inj h)
    rfl
  · obtain ⟨rfl, rfl⟩ := Prod.mk.inj (Option.some.inj h)
    rfl
  · cases h

theorem membership?_eq_some {negated : Bool} (h : membership? words = some (negated, rest)) :
    words = negation negated ++ "IN" :: "(" :: rest := by
  unfold membership? at h
  split at h
  · obtain ⟨rfl, rfl⟩ := Prod.mk.inj (Option.some.inj h)
    rfl
  · obtain ⟨rfl, rfl⟩ := Prod.mk.inj (Option.some.inj h)
    rfl
  · cases h

end Steps

section Soundness

/-- What was read is the words in front, and a graded term of the level. -/
structure Found (level : Level) (words : List String) (value : Term) (rest : List String) :
    Prop where
  words : words = value.tokens ++ rest
  graded : value.Graded
  plain : value.Plain
  level : level.rank ≤ value.level.rank

/-- All that some fuel reads is found. -/
structure Sound (fuel : Nat) : Prop where
  operand : ∀ {level words value rest}, operand fuel level words = some (value, rest) →
    Found level words value rest
  extend : ∀ {level words first value rest}, first.Graded → first.Plain →
    level.rank ≤ first.level.rank → extend fuel level first words = some (value, rest) →
    Found level (first.tokens ++ words) value rest
  arguments : ∀ {separators words values rest},
    arguments fuel separators words = some (values, rest) →
    words = values.tokens ++ rest ∧ values.Graded ∧ values.Plain separators

theorem Sound.expression {fuel : Nat} (h : Sound fuel) {level : Level} {words rest : List String}
    {value : Term} (hread : expression fuel level words = some (value, rest)) :
    Found level words value rest := by
  obtain ⟨⟨first, words'⟩, hfirst, hextend⟩ := Option.bind_eq_some_iff.mp hread
  have hfound := h.operand hfirst
  have hwhole := h.extend hfound.graded hfound.plain hfound.level hextend
  rwa [← hfound.words] at hwhole

theorem Level.rank_le_atom (level : Level) : level.rank ≤ Level.atom.rank := by
  cases level <;> decide

variable {fuel : Nat}

theorem Sound.operand_succ (ih : Sound fuel) {level : Level} {words rest : List String}
    {value : Term} (h : Sql.operand (fuel + 1) level words = some (value, rest)) :
    Found level words value rest := by
  cases words with
  | nil =>
    rw [Sql.operand] at h
    cases h
  | cons word words =>
    rw [operand_cons] at h
    split at h
    · rename_i hword
      obtain ⟨p, hp, heq⟩ := Option.map_eq_some_iff.mp h
      obtain ⟨rfl, rfl⟩ := Prod.mk.inj heq
      obtain ⟨q, hq, hskip⟩ := Option.bind_eq_some_iff.mp hp
      rw [skip_eq_some_iff.mp hskip] at hq
      have hfound := ih.expression hq
      refine ⟨?_, hfound.graded, hfound.plain, Level.rank_le_atom level⟩
      rw [hword, hfound.words, Term.tokens]
      simp
    · split at h
      · rename_i op hop
        split at h
        · rename_i hlevel
          obtain ⟨p, hp, heq⟩ := Option.map_eq_some_iff.mp h
          obtain ⟨rfl, rfl⟩ := Prod.mk.inj heq
          have hfound := ih.expression hp
          refine ⟨?_, ⟨hfound.level, hfound.graded⟩, hfound.plain, hlevel⟩
          rw [hfound.words, UnaryOp.ofSql?_eq_some hop, Term.tokens]
          rfl
        · cases h
      · split at h
        · rename_i head words' hopening
          obtain ⟨p, hp, heq⟩ := Option.map_eq_some_iff.mp h
          obtain ⟨rfl, rfl⟩ := Prod.mk.inj heq
          obtain ⟨q, hq, hskip⟩ := Option.bind_eq_some_iff.mp hp
          rw [skip_eq_some_iff.mp hskip] at hq
          obtain ⟨hwords, hgraded, hplain⟩ := ih.arguments hq
          obtain ⟨hopened, hhead⟩ := opening?_eq_some hopening
          refine ⟨?_, hgraded, ⟨hhead, hplain⟩, Level.rank_le_atom level⟩
          rw [hopened, hwords, Term.tokens]
          simp
        · obtain ⟨hwords, hgraded, hplain, hatom⟩ := single?_eq_some h
          exact ⟨hwords, hgraded, hplain, hatom ▸ Level.rank_le_atom level⟩

theorem Sound.extend_succ (ih : Sound fuel) {level : Level} {words rest : List String}
    {first value : Term} (hgraded : first.Graded) (hplain : first.Plain)
    (hlevel : level.rank ≤ first.level.rank)
    (h : Sql.extend (fuel + 1) level first words = some (value, rest)) :
    Found level (first.tokens ++ words) value rest := by
  have hstop : some (first, words) = some (value, rest) →
      Found level (first.tokens ++ words) value rest := by
    intro h
    obtain ⟨rfl, rfl⟩ := Prod.mk.inj (Option.some.inj h)
    exact ⟨rfl, hgraded, hplain, hlevel⟩
  cases words with
  | nil =>
    rw [extend_nil] at h
    exact hstop h
  | cons word words =>
    rw [extend_cons] at h
    split at h
    · rename_i op hop
      split at h
      · rename_i hallowed
        obtain ⟨⟨rhs, words'⟩, hrhs, hmore⟩ := Option.bind_eq_some_iff.mp h
        have hfound := ih.expression hrhs
        have hbinary : (Term.binary op first rhs).Graded :=
          ⟨hallowed.2, hfound.level, hgraded, hfound.graded⟩
        have hwhole := ih.extend hbinary ⟨hplain, hfound.plain⟩ hallowed.1 hmore
        rw [hfound.words, BinaryOp.ofSql?_eq_some_iff.mp hop]
        simpa [Term.tokens] using hwhole
      · exact hstop h
    · split at h
      · rename_i hallowed
        split at h
        · rename_i negated words' hnull
          have hisNull : (Term.isNull first negated).Graded := ⟨hallowed.2, hgraded⟩
          have hwhole := ih.extend hisNull hplain hallowed.1 h
          rw [nullTest?_eq_some hnull]
          simpa [Term.tokens] using hwhole
        · rename_i negated words' _ hmember
          obtain ⟨⟨items, words''⟩, hitems, hmore⟩ := Option.bind_eq_some_iff.mp h
          obtain ⟨q, hq, hskip⟩ := Option.bind_eq_some_iff.mp hitems
          rw [skip_eq_some_iff.mp hskip] at hq
          obtain ⟨hwords, hitemsGraded, hitemsPlain⟩ := ih.arguments hq
          have hinList : (Term.inList first items negated).Graded :=
            ⟨hallowed.2, hgraded, hitemsGraded⟩
          have hwhole := ih.extend hinList ⟨hplain, hitemsPlain⟩ hallowed.1 hmore
          rw [membership?_eq_some hmember, hwords]
          simpa [Term.tokens] using hwhole
        · exact hstop h
      · exact hstop h

theorem Sound.arguments_succ (ih : Sound fuel) {separators words rest : List String}
    {values : Arguments} (h : Sql.arguments (fuel + 1) separators words = some (values, rest)) :
    words = values.tokens ++ rest ∧ values.Graded ∧ values.Plain separators := by
  rw [Sql.arguments_succ] at h
  obtain ⟨⟨value, words'⟩, hvalue, hmore⟩ := Option.bind_eq_some_iff.mp h
  have hfound := ih.expression hvalue
  have hlast : some (Arguments.last value, words') = some (values, rest) →
      words = values.tokens ++ rest ∧ values.Graded ∧ values.Plain separators := by
    intro h
    obtain ⟨rfl, rfl⟩ := Prod.mk.inj (Option.some.inj h)
    exact ⟨hfound.words, hfound.graded, hfound.plain⟩
  dsimp only at hmore
  split at hmore
  · rename_i word words''
    split at hmore
    · rename_i hword
      obtain ⟨⟨more, rest'⟩, hrest, heq⟩ := Option.map_eq_some_iff.mp hmore
      obtain ⟨rfl, rfl⟩ := Prod.mk.inj heq
      obtain ⟨hwords, hgraded, hplain⟩ := ih.arguments hrest
      refine ⟨?_, ⟨hfound.graded, hgraded⟩, hfound.plain, hword, hplain⟩
      rw [hfound.words, hwords, Arguments.tokens]
      simp
    · exact hlast hmore
  · exact hlast hmore

theorem sound (fuel : Nat) : Sound fuel := by
  induction fuel with
  | zero =>
    refine ⟨?_, ?_, ?_⟩
    · intro level words value rest h
      rw [operand] at h
      cases h
    · intro level words first value rest hgraded hplain hlevel h
      cases words with
      | nil =>
        rw [extend_nil] at h
        obtain ⟨rfl, rfl⟩ := Prod.mk.inj (Option.some.inj h)
        exact ⟨rfl, hgraded, hplain, hlevel⟩
      | cons word words =>
        rw [extend] at h
        cases h
    · intro separators words values rest h
      rw [arguments] at h
      cases h
  | succ fuel ih => exact ⟨ih.operand_succ, ih.extend_succ, ih.arguments_succ⟩

theorem length_of_expression {level : Level} {words rest : List String} {value : Term}
    (h : expression fuel level words = some (value, rest)) : rest.length ≤ words.length := by
  rw [((sound fuel).expression h).words, List.length_append]
  omega

theorem length_of_arguments {separators words rest : List String} {values : Arguments}
    (h : arguments fuel separators words = some (values, rest)) : rest.length ≤ words.length := by
  rw [((sound fuel).arguments h).1, List.length_append]
  omega

end Soundness

section Fuel

/-- What some fuel reads is read with any fuel that there are words enough for. -/
structure Lasting (fuel : Nat) : Prop where
  operand : ∀ {level words r m}, operand fuel level words = some r → 2 * words.length ≤ m →
    operand m level words = some r
  extend : ∀ {level value words r m}, extend fuel level value words = some r →
    2 * words.length ≤ m → extend m level value words = some r
  arguments : ∀ {separators words r m}, arguments fuel separators words = some r →
    2 * words.length < m → arguments m separators words = some r

variable {fuel : Nat}

theorem Lasting.expression (h : Lasting fuel) {level : Level} {words : List String}
    {r : Term × List String} {m : Nat} (hread : expression fuel level words = some r)
    (hm : 2 * words.length ≤ m) : expression m level words = some r := by
  obtain ⟨⟨first, words'⟩, hfirst, hextend⟩ := Option.bind_eq_some_iff.mp hread
  have hlength : words'.length ≤ words.length := by
    rw [((sound fuel).operand hfirst).words, List.length_append]
    omega
  rw [Sql.expression, h.operand hfirst hm, Option.bind_some]
  exact h.extend hextend (by dsimp only; omega)

theorem Lasting.operand_succ (ih : Lasting fuel) {level : Level} {words : List String}
    {r : Term × List String} {m : Nat} (h : Sql.operand (fuel + 1) level words = some r)
    (hm : 2 * words.length ≤ m) : Sql.operand m level words = some r := by
  cases words with
  | nil =>
    rw [Sql.operand] at h
    cases h
  | cons word words =>
    rw [List.length_cons] at hm
    obtain ⟨m, rfl⟩ : ∃ k, m = k + 1 := ⟨m - 1, by omega⟩
    rw [operand_cons] at h ⊢
    split at h
    · rename_i hword
      obtain ⟨p, hp, heq⟩ := Option.map_eq_some_iff.mp h
      obtain ⟨q, hq, hskip⟩ := Option.bind_eq_some_iff.mp hp
      rw [if_pos hword, ih.expression hq (by omega), Option.bind_some, hskip, Option.map_some, heq]
    · rename_i hword
      rw [if_neg hword]
      split at h
      · rename_i op hop
        split at h
        · rename_i hlevel
          obtain ⟨p, hp, heq⟩ := Option.map_eq_some_iff.mp h
          rw [if_pos hlevel, ih.expression hp (by omega), Option.map_some, heq]
        · cases h
      · rename_i hop
        split at h
        · rename_i head words' hopening
          obtain ⟨p, hp, heq⟩ := Option.map_eq_some_iff.mp h
          obtain ⟨q, hq, hskip⟩ := Option.bind_eq_some_iff.mp hp
          have hlength : words'.length ≤ words.length := by
            have hopened := congrArg List.length (opening?_eq_some hopening).1
            rw [List.length_cons, List.length_append] at hopened
            have hhead : 0 < head.tokens.length := by cases head <;> simp [Head.tokens]
            omega
          rw [ih.arguments hq (by omega), Option.bind_some, hskip, Option.map_some, heq]
        · rename_i hopening
          exact h

theorem Lasting.extend_succ (ih : Lasting fuel) {level : Level} {value : Term}
    {words : List String} {r : Term × List String} {m : Nat}
    (h : Sql.extend (fuel + 1) level value words = some r) (hm : 2 * words.length ≤ m) :
    Sql.extend m level value words = some r := by
  cases words with
  | nil =>
    rw [extend_nil] at h ⊢
    exact h
  | cons word words =>
    rw [List.length_cons] at hm
    obtain ⟨m, rfl⟩ : ∃ k, m = k + 1 := ⟨m - 1, by omega⟩
    rw [extend_cons] at h ⊢
    split at h
    · rename_i op hop
      split at h
      · rename_i hallowed
        obtain ⟨⟨rhs, words'⟩, hrhs, hmore⟩ := Option.bind_eq_some_iff.mp h
        have hlength := length_of_expression hrhs
        rw [if_pos hallowed, ih.expression hrhs (by omega), Option.bind_some]
        exact ih.extend hmore (by dsimp only; omega)
      · rename_i hrefused
        rw [if_neg hrefused]
        exact h
    · rename_i hop
      split at h
      · rename_i hallowed
        rw [if_pos hallowed]
        split at h
        · rename_i negated words' hnull
          have hlength := congrArg List.length (nullTest?_eq_some hnull)
          rw [List.length_cons, List.length_cons, List.length_append, List.length_cons] at hlength
          exact ih.extend h (by omega)
        · rename_i negated words' hnull hmember
          obtain ⟨⟨items, words''⟩, hitems, hmore⟩ := Option.bind_eq_some_iff.mp h
          obtain ⟨q, hq, hskip⟩ := Option.bind_eq_some_iff.mp hitems
          have hlength := congrArg List.length (membership?_eq_some hmember)
          rw [List.length_cons, List.length_append, List.length_cons, List.length_cons] at hlength
          have hrest := length_of_arguments hq
          have hskipped := congrArg (fun p => p.2.length) (skip_eq_some_iff.mp hskip)
          simp only [List.length_cons] at hskipped
          rw [ih.arguments hq (by omega), Option.bind_some, hskip, Option.bind_some]
          exact ih.extend hmore (by dsimp only; omega)
        · rename_i hnull hmember
          exact h
      · rename_i hrefused
        rw [if_neg hrefused]
        exact h

theorem Lasting.arguments_succ (ih : Lasting fuel) {separators words : List String}
    {r : Arguments × List String} {m : Nat}
    (h : Sql.arguments (fuel + 1) separators words = some r) (hm : 2 * words.length < m) :
    Sql.arguments m separators words = some r := by
  obtain ⟨m, rfl⟩ : ∃ k, m = k + 1 := ⟨m - 1, by omega⟩
  rw [Sql.arguments_succ] at h ⊢
  obtain ⟨⟨value, words'⟩, hvalue, hmore⟩ := Option.bind_eq_some_iff.mp h
  have hlength := length_of_expression hvalue
  rw [ih.expression hvalue (by omega), Option.bind_some]
  dsimp only at hmore ⊢
  split at hmore
  · rename_i word words''
    split at hmore
    · rename_i hword
      obtain ⟨q, hq, heq⟩ := Option.map_eq_some_iff.mp hmore
      rw [List.length_cons] at hlength
      rw [if_pos hword, ih.arguments hq (by omega), Option.map_some, heq]
    · rename_i hword
      rw [if_neg hword]
      exact hmore
  · exact hmore

theorem lasting (fuel : Nat) : Lasting fuel := by
  induction fuel with
  | zero =>
    refine ⟨?_, ?_, ?_⟩
    · intro level words r m h
      rw [operand] at h
      cases h
    · intro level value words r m h
      cases words with
      | nil =>
        rw [extend_nil] at h
        rw [extend_nil]
        exact fun _ => h
      | cons word words =>
        rw [extend] at h
        cases h
    · intro separators words r m h
      rw [arguments] at h
      cases h
  | succ fuel ih => exact ⟨ih.operand_succ, ih.extend_succ, ih.arguments_succ⟩

end Fuel

end Sql
end ConceptQuery
