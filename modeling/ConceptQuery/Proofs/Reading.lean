import ConceptQuery.Grammar.Document
import Mathlib.Data.List.TakeWhile

/-! # What a successful reading makes

`Rule.Makes` says, without trivia and without the reader, which elements a rule
may make of which tokens. The number in it bounds nested calls and rounds of
loops, so that facts about the rules that call each other go by induction on it.
`makes_of_read` shows that every successful run of `Rule.read` is of this form. How
rules put together are read is said by `step_seq` and its neighbours.
-/
namespace ConceptQuery

def Token.word (t : Token) : Word := ⟨t.kind, t.text⟩

namespace Tree

mutual
/-- The tree without its trivia. -/
def bare : Tree Token → Tree Token
  | leaf t => leaf t
  | node k cs => node k (bareAll cs)

def bareAll : List (Tree Token) → List (Tree Token)
  | [] => []
  | leaf t :: rest => if t.kind.isTrivia then bareAll rest else leaf t :: bareAll rest
  | node k cs :: rest => bare (node k cs) :: bareAll rest
end

@[simp] theorem bareAll_append (xs ys : List (Tree Token)) :
    bareAll (xs ++ ys) = bareAll xs ++ bareAll ys := by
  induction xs with
  | nil => simp [bareAll]
  | cons x xs ih =>
    cases x with
    | leaf t =>
      by_cases h : t.kind.isTrivia
      · simp [bareAll, h, ih]
      · simp [bareAll, h, ih]
    | node k cs => simp [bareAll, ih]

theorem bareAll_trivia {ts : List Token} (h : ∀ t ∈ ts, t.kind.isTrivia = true) :
    bareAll (ts.map .leaf) = [] := by
  induction ts with
  | nil => rfl
  | cons t ts ih => simp [bareAll, h t (by simp), ih fun u hu => h u (by simp [hu])]

end Tree

namespace Lexeme

/-- A token that is no trivia, with nothing but trivia after it. -/
def Proper (l : Lexeme) : Prop :=
  l.token.kind.isTrivia = false ∧ ∀ t ∈ l.trivia, t.kind.isTrivia = true

theorem Proper.bareAll_elements {l : Lexeme} (h : l.Proper) :
    Tree.bareAll l.elements = [.leaf l.token] := by
  simp [elements, Tree.bareAll, h.1, Tree.bareAll_trivia h.2]

theorem proper_of_mem_group {startsLine : Bool} {tokens : List Token} {l : Lexeme}
    (h : l ∈ group startsLine tokens) : l.Proper := by
  induction tokens generalizing startsLine with
  | nil => simp [group] at h
  | cons t rest ih =>
    by_cases ht : t.kind.isTrivia
    · rw [group, if_pos ht] at h
      exact ih h
    · rw [group, if_neg ht] at h
      rcases List.mem_cons.mp h with rfl | h
      · exact ⟨by simpa using ht, fun u hu =>
          List.mem_takeWhile_imp (p := fun v : Token => v.kind.isTrivia) hu⟩
      · exact ih h

end Lexeme

namespace Look

/-- What a rule sees of the tokens to come. -/
def ahead (ts : List Token) : List Word :=
  (ts.take 3).map Token.word

theorem words_eq_ahead (input : List Lexeme) : words input = ahead (input.map Lexeme.token) := by
  simp [words, ahead, ← List.map_take, Token.word]

theorem sees_ahead {kinds : List TokenKind} {ts : List Token} (h : sees kinds (ahead ts) = true) :
    ∃ t rest, ts = t :: rest ∧ t.kind ∈ kinds := by
  cases ts with
  | nil => simp [ahead, sees] at h
  | cons t rest => exact ⟨t, rest, rfl, by simpa [ahead, sees, Token.word] using h⟩

theorem thenSees_ahead {kind : TokenKind} {t : Token} {ts : List Token}
    (h : thenSees kind (ahead (t :: ts)) = true) : ∃ u rest, ts = u :: rest ∧ u.kind = kind := by
  cases ts with
  | nil => simp [ahead, thenSees] at h
  | cons u rest => exact ⟨u, rest, rfl, by simpa [ahead, thenSees, Token.word] using h⟩

end Look

namespace Reading

/-- The reading with other elements, made or unfinished. -/
def shaped (f : List (Tree Token) → List (Tree Token)) (g : Unfinished → Unfinished) :
    Reading → Reading
  | made xs rest => made (f xs) rest
  | stuck u expected rest => stuck (g u) expected rest

/-- Goes on with what is left, unless the reading got stuck. -/
def andThen (next : List (Tree Token) → List Lexeme → Reading) : Reading → Reading
  | made xs rest => next xs rest
  | stuck u expected rest => stuck u expected rest

end Reading

namespace Rule

section Equations
variable {rules : Nonterminal → Rule}
variable {again : Rule → List (Tree Token) → List Lexeme → Reading}
variable {made : List (Tree Token)} {input : List Lexeme} {first second body : Rule}

theorem step_seq : step rules again (seq first second) made input =
    (step rules again first made input).andThen (step rules again second) := by
  rw [step]
  cases step rules again first made input <;> rfl

theorem step_loop_of_look {look : Look} (h : look (Look.words input) = true) :
    step rules again (loop look body) made input =
      (step rules again body made input).andThen (again (loop look body)) := by
  rw [step, if_pos h]
  cases step rules again body made input <;> rfl

theorem step_node {kind : NodeKind} : step rules again (node kind body) made input =
    (step rules again body [] input).shaped (fun inner => made ++ [.node kind inner])
      (.inside made kind) := by
  rw [step]
  cases step rules again body [] input <;> rfl

theorem step_mark : step rules again (mark body) made input =
    (step rules again body [] input).shaped (made ++ ·) (·.after made) := by
  rw [step]
  cases step rules again body [] input <;> rfl

theorem step_wrap {kind : NodeKind} : step rules again (wrap kind body) made input =
    (step rules again body made input).shaped (fun inner => [.node kind inner])
      (.inside [] kind) := by
  rw [step]
  cases step rules again body made input <;> rfl

end Equations

/-- With at most `n` nested calls and rounds, the rule turns the elements made so
far and the tokens to come into what is made and what is left then. -/
inductive Makes (rules : Nonterminal → Rule) :
    Nat → Rule → List (Tree Token) → List Token → List (Tree Token) → List Token → Prop where
  | done {n made ts} : Makes rules n done made ts made ts
  | expect {n k made t ts} (h : t.kind = k) :
      Makes rules n (expect k) made (t :: ts) (made ++ [.leaf t]) ts
  | take {n made t ts} : Makes rules n take made (t :: ts) (made ++ [.leaf t]) ts
  | takeNothing {n made} : Makes rules n take made [] made []
  | seq {n a b made ts mid us made' ts'} (first : Makes rules n a made ts mid us)
      (second : Makes rules n b mid us made' ts') : Makes rules n (seq a b) made ts made' ts'
  | yes {n look a b made ts made' ts'} (h : look (Look.ahead ts) = true)
      (body : Makes rules n a made ts made' ts') : Makes rules n (branch look a b) made ts made' ts'
  | no {n look a b made ts made' ts'} (h : look (Look.ahead ts) = false)
      (body : Makes rules n b made ts made' ts') : Makes rules n (branch look a b) made ts made' ts'
  | round {n look body made ts mid us made' ts'} (h : look (Look.ahead ts) = true)
      (first : Makes rules (n + 1) body made ts mid us)
      (more : Makes rules n (loop look body) mid us made' ts') :
      Makes rules (n + 1) (loop look body) made ts made' ts'
  | last {n look body made ts} (h : look (Look.ahead ts) = false) :
      Makes rules n (loop look body) made ts made ts
  | node {n k body made ts inner ts'} (h : Makes rules n body [] ts inner ts') :
      Makes rules n (node k body) made ts (made ++ [.node k inner]) ts'
  | mark {n body made ts inner ts'} (h : Makes rules n body [] ts inner ts') :
      Makes rules n (mark body) made ts (made ++ inner) ts'
  | wrap {n k body made ts inner ts'} (h : Makes rules n body made ts inner ts') :
      Makes rules n (wrap k body) made ts [.node k inner] ts'
  | call {n name made ts made' ts'} (h : Makes rules n (rules name) made ts made' ts') :
      Makes rules (n + 1) (call name) made ts made' ts'

variable {rules : Nonterminal → Rule} {n : Nat}
variable {made made' : List (Tree Token)} {ts ts' : List Token}

theorem makes_done : Makes rules n done made ts made' ts' ↔ made' = made ∧ ts' = ts := by
  constructor
  · intro h
    cases h
    exact ⟨rfl, rfl⟩
  · rintro ⟨rfl, rfl⟩
    exact .done

theorem makes_expect {k : TokenKind} : Makes rules n (expect k) made ts made' ts' ↔
    ∃ t, t.kind = k ∧ ts = t :: ts' ∧ made' = made ++ [.leaf t] := by
  constructor
  · intro h
    cases h with
    | expect h => exact ⟨_, h, rfl, rfl⟩
  · rintro ⟨t, h, rfl, rfl⟩
    exact .expect h

theorem makes_take_cons {t : Token} : Makes rules n take made (t :: ts) made' ts' ↔
    ts' = ts ∧ made' = made ++ [.leaf t] := by
  constructor
  · intro h
    cases h
    exact ⟨rfl, rfl⟩
  · rintro ⟨rfl, rfl⟩
    exact .take

theorem not_makes_refuse {expected : List TokenKind} :
    ¬ Makes rules n (refuse expected) made ts made' ts' := by
  intro h
  cases h

theorem makes_seq {a b : Rule} : Makes rules n (seq a b) made ts made' ts' ↔
    ∃ mid us, Makes rules n a made ts mid us ∧ Makes rules n b mid us made' ts' := by
  constructor
  · intro h
    cases h with
    | seq first second => exact ⟨_, _, first, second⟩
  · rintro ⟨mid, us, first, second⟩
    exact .seq first second

theorem makes_branch {look : Look} {a b : Rule} :
    Makes rules n (branch look a b) made ts made' ts' ↔
      (look (Look.ahead ts) = true ∧ Makes rules n a made ts made' ts') ∨
      (look (Look.ahead ts) = false ∧ Makes rules n b made ts made' ts') := by
  constructor
  · intro h
    cases h with
    | yes h body => exact .inl ⟨h, body⟩
    | no h body => exact .inr ⟨h, body⟩
  · rintro (⟨h, body⟩ | ⟨h, body⟩)
    · exact .yes h body
    · exact .no h body

theorem makes_node {k : NodeKind} {body : Rule} :
    Makes rules n (node k body) made ts made' ts' ↔
      ∃ inner, Makes rules n body [] ts inner ts' ∧ made' = made ++ [.node k inner] := by
  constructor
  · intro h
    cases h with
    | node h => exact ⟨_, h, rfl⟩
  · rintro ⟨inner, h, rfl⟩
    exact .node h

theorem makes_mark {body : Rule} : Makes rules n (mark body) made ts made' ts' ↔
    ∃ inner, Makes rules n body [] ts inner ts' ∧ made' = made ++ inner := by
  constructor
  · intro h
    cases h with
    | mark h => exact ⟨_, h, rfl⟩
  · rintro ⟨inner, h, rfl⟩
    exact .mark h

theorem makes_wrap {k : NodeKind} {body : Rule} :
    Makes rules n (wrap k body) made ts made' ts' ↔
      ∃ inner, Makes rules n body made ts inner ts' ∧ made' = [.node k inner] := by
  constructor
  · intro h
    cases h with
    | wrap h => exact ⟨_, h, rfl⟩
  · rintro ⟨inner, h, rfl⟩
    exact .wrap h

theorem makes_inOrder_nil :
    Makes rules n (inOrder []) made ts made' ts' ↔ made' = made ∧ ts' = ts :=
  makes_done

theorem makes_inOrder_cons {rule : Rule} {more : List Rule} :
    Makes rules n (inOrder (rule :: more)) made ts made' ts' ↔
      ∃ mid us, Makes rules n rule made ts mid us ∧ Makes rules n (inOrder more) mid us made' ts' :=
  makes_seq

/-- Taking what was seen. -/
theorem makes_take_of_sees {kinds : List TokenKind}
    (seen : Look.sees kinds (Look.ahead ts) = true) (h : Makes rules n take made ts made' ts') :
    ∃ t, t.kind ∈ kinds ∧ ts = t :: ts' ∧ made' = made ++ [.leaf t] := by
  obtain ⟨t, rest, rfl, ht⟩ := Look.sees_ahead seen
  obtain ⟨rfl, rfl⟩ := makes_take_cons.mp h
  exact ⟨t, ht, rfl, rfl⟩

/-- Soundness of reading, trivia aside. -/
theorem makes_of_step {again : Rule → List (Tree Token) → List Lexeme → Reading}
    (hagain : ∀ rule made input made' rest, (∀ l ∈ input, l.Proper) →
      again rule made input = .made made' rest →
      (∀ l ∈ rest, l.Proper) ∧ Makes rules n rule (Tree.bareAll made) (input.map Lexeme.token)
        (Tree.bareAll made') (rest.map Lexeme.token))
    (rule : Rule) : ∀ {made : List (Tree Token)} {input : List Lexeme} {made' : List (Tree Token)}
      {rest : List Lexeme}, (∀ l ∈ input, l.Proper) →
      step rules again rule made input = .made made' rest →
      (∀ l ∈ rest, l.Proper) ∧
        Makes rules (n + 1) rule (Tree.bareAll made) (input.map Lexeme.token)
          (Tree.bareAll made') (rest.map Lexeme.token) := by
  induction rule with
  | done =>
    intro made input made' rest hi h
    cases h
    exact ⟨hi, .done⟩
  | expect k =>
    intro made input made' rest hi h
    cases input with
    | nil => simp [step] at h
    | cons l input =>
      rw [step] at h
      split at h
      · rename_i hk
        cases h
        rw [Tree.bareAll_append, (hi l (by simp)).bareAll_elements]
        exact ⟨fun l hl => hi l (by simp [hl]), .expect hk⟩
      · cases h
  | take =>
    intro made input made' rest hi h
    cases input with
    | nil =>
      cases h
      exact ⟨hi, .takeNothing⟩
    | cons l input =>
      cases h
      rw [Tree.bareAll_append, (hi l (by simp)).bareAll_elements]
      exact ⟨fun l hl => hi l (by simp [hl]), .take⟩
  | refuse expected =>
    intro made input made' rest hi h
    cases h
  | seq a b iha ihb =>
    intro made input made' rest hi h
    rw [step] at h
    split at h
    · rename_i mid left ha
      obtain ⟨hleft, first⟩ := iha hi ha
      obtain ⟨hrest, second⟩ := ihb hleft h
      exact ⟨hrest, .seq first second⟩
    · cases h
  | branch look yes no ihyes ihno =>
    intro made input made' rest hi h
    rw [step, Look.words_eq_ahead] at h
    split at h
    · rename_i hlook
      exact ⟨(ihyes hi h).1, .yes hlook (ihyes hi h).2⟩
    · rename_i hlook
      exact ⟨(ihno hi h).1, .no (by simpa using hlook) (ihno hi h).2⟩
  | loop look body ih =>
    intro made input made' rest hi h
    rw [step, Look.words_eq_ahead] at h
    split at h
    · rename_i hlook
      split at h
      · rename_i mid left hb
        obtain ⟨hleft, first⟩ := ih hi hb
        obtain ⟨hrest, more⟩ := hagain _ _ _ _ _ hleft h
        exact ⟨hrest, .round hlook first more⟩
      · cases h
    · rename_i hlook
      cases h
      exact ⟨hi, .last (by simpa using hlook)⟩
  | node k body ih =>
    intro made input made' rest hi h
    rw [step] at h
    split at h
    · rename_i inner left hb
      cases h
      obtain ⟨hleft, body⟩ := ih hi hb
      rw [Tree.bareAll_append]
      exact ⟨hleft, .node body⟩
    · cases h
  | mark body ih =>
    intro made input made' rest hi h
    rw [step] at h
    split at h
    · rename_i inner left hb
      cases h
      obtain ⟨hleft, body⟩ := ih hi hb
      rw [Tree.bareAll_append]
      exact ⟨hleft, .mark body⟩
    · cases h
  | wrap k body ih =>
    intro made input made' rest hi h
    rw [step] at h
    split at h
    · rename_i inner left hb
      cases h
      exact ⟨(ih hi hb).1, .wrap (ih hi hb).2⟩
    · cases h
  | call name =>
    intro made input made' rest hi h
    obtain ⟨hrest, body⟩ := hagain _ _ _ _ _ hi h
    exact ⟨hrest, .call body⟩

theorem makes_of_read (fuel : Nat) {rule : Rule} {input rest : List Lexeme}
    (hi : ∀ l ∈ input, l.Proper) (h : read rules fuel rule made input = .made made' rest) :
    (∀ l ∈ rest, l.Proper) ∧ Makes rules fuel rule (Tree.bareAll made) (input.map Lexeme.token)
      (Tree.bareAll made') (rest.map Lexeme.token) := by
  induction fuel generalizing rule made input made' rest with
  | zero => cases h
  | succ fuel ih => exact makes_of_step (fun _ _ _ _ _ hi h => ih hi h) rule hi h

/-- Items with separators between them. -/
inductive Listed (separator : TokenKind) (Item : List (Tree Token) → Prop) :
    List (Tree Token) → Prop where
  | one {xs} (h : Item xs) : Listed separator Item xs
  | more {xs c ys} (front : Listed separator Item xs) (hc : c.kind = separator) (h : Item ys) :
      Listed separator Item (xs ++ .leaf c :: ys)

/-- Within the bound, the rule keeps what was made before and adds elements of
this form. -/
def Adds (rules : Nonterminal → Rule) (n : Nat) (rule : Rule)
    (Form : List (Tree Token) → Prop) : Prop :=
  ∀ k ≤ n, ∀ {made ts made' ts'}, Makes rules k rule made ts made' ts' →
    ∃ new, made' = made ++ new ∧ Form new

theorem Adds.weaken {rule : Rule} {Form Form' : List (Tree Token) → Prop}
    (h : Adds rules n rule Form) (hf : ∀ xs, Form xs → Form' xs) : Adds rules n rule Form' := by
  intro k hk made ts made' ts' hm
  obtain ⟨new, rfl, hnew⟩ := h k hk hm
  exact ⟨new, rfl, hf new hnew⟩

theorem adds_expect {kind : TokenKind} :
    Adds rules n (expect kind) (fun xs => ∃ t, t.kind = kind ∧ xs = [.leaf t]) := by
  intro k _ made ts made' ts' h
  obtain ⟨t, ht, rfl, rfl⟩ := makes_expect.mp h
  exact ⟨_, rfl, t, ht, rfl⟩

theorem adds_node {kind : NodeKind} {body : Rule} {Form : List (Tree Token) → Prop}
    (h : Adds rules n body Form) :
    Adds rules n (node kind body) (fun xs => ∃ inner, xs = [.node kind inner] ∧ Form inner) := by
  intro k hk made ts made' ts' hm
  obtain ⟨inner, hinner, rfl⟩ := makes_node.mp hm
  obtain ⟨new, hn, hnew⟩ := h k hk hinner
  exact ⟨_, rfl, inner, rfl, hn ▸ hnew⟩

theorem adds_inOrder_nil : Adds rules n (inOrder []) (fun xs => xs = []) := by
  intro k _ made ts made' ts' h
  obtain ⟨rfl, rfl⟩ := makes_inOrder_nil.mp h
  exact ⟨[], by simp, rfl⟩

theorem adds_seq {a b : Rule} {First Second : List (Tree Token) → Prop}
    (ha : Adds rules n a First) (hb : Adds rules n b Second) :
    Adds rules n (seq a b) (fun xs => ∃ ys zs, xs = ys ++ zs ∧ First ys ∧ Second zs) := by
  intro k hk made ts made' ts' h
  obtain ⟨mid, us, first, second⟩ := makes_seq.mp h
  obtain ⟨ys, rfl, hys⟩ := ha k hk first
  obtain ⟨zs, rfl, hzs⟩ := hb k hk second
  exact ⟨ys ++ zs, by simp, ys, zs, rfl, hys, hzs⟩

theorem adds_optional_take {kinds : List TokenKind} :
    Adds rules n (optional (.sees kinds) take)
      (fun xs => xs = [] ∨ ∃ t, t.kind ∈ kinds ∧ xs = [.leaf t]) := by
  intro k hk made ts made' ts' hm
  rcases makes_branch.mp hm with ⟨seen, hm⟩ | ⟨-, hm⟩
  · obtain ⟨t, ht, rfl, rfl⟩ := makes_take_of_sees seen hm
    exact ⟨_, rfl, .inr ⟨t, ht, rfl⟩⟩
  · obtain ⟨rfl, rfl⟩ := makes_done.mp hm
    exact ⟨[], by simp, .inl rfl⟩

/-- The rounds of a loop over separators and items. -/
theorem listed_of_rounds {look : Look} {separator : TokenKind} {item : Rule}
    {Item : List (Tree Token) → Prop} (hi : Adds rules n item Item)
    (hlook : ∀ ts, look (Look.ahead ts) = true → Look.sees [separator] (Look.ahead ts) = true) :
    ∀ k ≤ n, ∀ {made xs ts made' ts'}, Listed separator Item xs →
      Makes rules k (loop look (seq take item)) (made ++ xs) ts made' ts' →
      ∃ ys, made' = made ++ ys ∧ Listed separator Item ys := by
  intro k
  induction k with
  | zero =>
    intro _ made xs ts made' ts' hxs h
    cases h with
    | last h => exact ⟨xs, rfl, hxs⟩
  | succ k ih =>
    intro hk made xs ts made' ts' hxs h
    cases h with
    | last h => exact ⟨xs, rfl, hxs⟩
    | round seen first more =>
      obtain ⟨mid, us, htake, hitem⟩ := makes_seq.mp first
      obtain ⟨c, hc, rfl, rfl⟩ := makes_take_of_sees (hlook _ seen) htake
      obtain ⟨ys, rfl, hys⟩ := hi _ hk hitem
      have hlonger : Listed separator Item (xs ++ .leaf c :: ys) :=
        .more hxs (by simpa using hc) hys
      exact ih (by omega) hlonger (by simpa using more)

theorem adds_separated {separator : TokenKind} {item : Rule} {Item : List (Tree Token) → Prop}
    (hi : Adds rules n item Item) :
    Adds rules n (separated separator item) (Listed separator Item) := by
  intro k hk made ts made' ts' h
  obtain ⟨mid, us, first, more⟩ := makes_seq.mp h
  obtain ⟨xs, rfl, hxs⟩ := hi k hk first
  exact listed_of_rounds hi (fun _ h => h) k hk (.one hxs) more

end Rule
end ConceptQuery
