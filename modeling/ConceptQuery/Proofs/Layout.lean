import ConceptQuery.Proofs.Placed

/-! # Layout

No rule sees more of a token than its kind and its text, and none sees trivia at
all. So two texts with the same words, whatever blank space and comments stand
between them, are read step by step in the same way: up to the first fault, which
shows the same word and expects the same kinds, or to trees with the same words in
the same places.

The comparison is made through a view of tokens, and holds for each view that
tells kinds apart and shows all that the looks of the grammar depend on.
-/
namespace ConceptQuery

namespace Tree
variable {α β : Type}

mutual
/-- The same tree with its leaves changed. -/
def mapped (f : α → β) : Tree α → Tree β
  | leaf a => leaf (f a)
  | node k cs => node k (mappedAll f cs)

def mappedAll (f : α → β) : List (Tree α) → List (Tree β)
  | [] => []
  | t :: ts => mapped f t :: mappedAll f ts
end

@[simp] theorem mappedAll_append (f : α → β) (xs ys : List (Tree α)) :
    mappedAll f (xs ++ ys) = mappedAll f xs ++ mappedAll f ys := by
  induction xs with
  | nil => simp [mappedAll]
  | cons x xs ih => simp [mappedAll, ih]

end Tree

namespace Look
variable {β : Type}

/-- The look depends on no more than the view shows. -/
def Through (view : Token → β) (look : Look) : Prop :=
  ∀ ts us : List Token, ts.map view = us.map view → look (ahead ts) = look (ahead us)

theorem through_word (look : Look) : look.Through Token.word := by
  intro ts us h
  rw [ahead, ahead, List.map_take, List.map_take, h]

end Look

namespace Rule
variable {β : Type}

/-- All looks of the rule depend on no more than the view shows. -/
def Through (view : Token → β) : Rule → Prop
  | seq a b => a.Through view ∧ b.Through view
  | branch look a b => look.Through view ∧ a.Through view ∧ b.Through view
  | loop look body => look.Through view ∧ body.Through view
  | node _ body => body.Through view
  | mark body => body.Through view
  | wrap _ body => body.Through view
  | _ => True

theorem through_word (rule : Rule) : rule.Through Token.word := by
  induction rule with
  | seq a b iha ihb => exact ⟨iha, ihb⟩
  | branch look a b iha ihb => exact ⟨look.through_word, iha, ihb⟩
  | loop look body ih => exact ⟨look.through_word, ih⟩
  | node k body ih => exact ih
  | mark body ih => exact ih
  | wrap k body ih => exact ih
  | _ => trivial

end Rule

section Views
variable {β : Type} {view : Token → β}

/-- Two states of reading that cannot be told apart through the view. -/
structure Same (view : Token → β) (made made' : List (Tree Token))
    (input input' : List Lexeme) : Prop where
  elements : Tree.mappedAll view (Tree.bareAll made) = Tree.mappedAll view (Tree.bareAll made')
  tokens : (input.map Lexeme.token).map view = (input'.map Lexeme.token).map view
  proper : ∀ l ∈ input, l.Proper
  proper' : ∀ l ∈ input', l.Proper

/-- Both readings got to their ends, or both got stuck with the same expectations. -/
inductive Reading.Alike (view : Token → β) : Reading → Reading → Prop where
  | made {xs ys rest rest'} (h : Same view xs ys rest rest') :
      Alike view (.made xs rest) (.made ys rest')
  | stuck {u u' expected rest rest'} (h : Same view [] [] rest rest') :
      Alike view (.stuck u expected rest) (.stuck u' expected rest')

variable {made made' : List (Tree Token)} {input input' : List Lexeme} {l l' : Lexeme}

/-- From other elements on. -/
theorem Same.restart (h : Same view made made' input input') : Same view [] [] input input' :=
  ⟨rfl, h.tokens, h.proper, h.proper'⟩

theorem Same.look {look : Look} (h : Same view made made' input input')
    (hlook : look.Through view) : look (Look.words input) = look (Look.words input') := by
  rw [Look.words_eq_ahead, Look.words_eq_ahead]
  exact hlook _ _ h.tokens

theorem Same.view_eq (h : Same view made made' (l :: input) (l' :: input')) :
    view l.token = view l'.token := by
  have htokens := h.tokens
  simp only [List.map_cons, List.cons.injEq] at htokens
  exact htokens.1

/-- Taking the next lexeme on both sides. -/
theorem Same.take (h : Same view made made' (l :: input) (l' :: input')) :
    Same view (made ++ l.elements) (made' ++ l'.elements) input input' where
  elements := by
    rw [Tree.bareAll_append, Tree.bareAll_append, (h.proper l (by simp)).bareAll_elements,
      (h.proper' l' (by simp)).bareAll_elements, Tree.mappedAll_append, Tree.mappedAll_append,
      h.elements]
    simp only [Tree.mappedAll, Tree.mapped, h.view_eq]
  tokens := by
    have htokens := h.tokens
    simp only [List.map_cons, List.cons.injEq] at htokens
    exact htokens.2
  proper := fun k hk => h.proper k (by simp [hk])
  proper' := fun k hk => h.proper' k (by simp [hk])

/-- One more node on both sides, around elements that cannot be told apart. -/
theorem Same.node {inner inner' : List (Tree Token)} {rest rest' : List Lexeme}
    (h : Same view made made' input input') (hi : Same view inner inner' rest rest')
    (k : NodeKind) : Same view (made ++ [.node k inner]) (made' ++ [.node k inner']) rest rest' where
  elements := by
    simp only [Tree.bareAll_append, Tree.mappedAll_append, h.elements, Tree.bareAll, Tree.bare,
      Tree.mappedAll, Tree.mapped, hi.elements]
  tokens := hi.tokens
  proper := hi.proper
  proper' := hi.proper'

theorem Same.append {more more' : List (Tree Token)} {rest rest' : List Lexeme}
    (h : Same view made made' input input') (hm : Same view more more' rest rest') :
    Same view (made ++ more) (made' ++ more') rest rest' where
  elements := by
    rw [Tree.bareAll_append, Tree.bareAll_append, Tree.mappedAll_append, Tree.mappedAll_append,
      h.elements, hm.elements]
  tokens := hm.tokens
  proper := hm.proper
  proper' := hm.proper'

/-- Either nothing is left on both sides, or a lexeme is next on both. -/
theorem Same.ahead (h : Same view made made' input input') : input = [] ∧ input' = [] ∨
    ∃ l rest l' rest', input = l :: rest ∧ input' = l' :: rest' := by
  have hlength := congrArg List.length h.tokens
  simp only [List.length_map] at hlength
  cases input with
  | nil => exact .inl ⟨rfl, List.length_eq_zero_iff.mp hlength.symm⟩
  | cons l rest =>
    obtain ⟨l', rest', rfl⟩ := List.exists_cons_of_length_eq_add_one hlength.symm
    exact .inr ⟨l, rest, l', rest', rfl, rfl⟩

theorem Reading.Alike.andThen {r r' : Reading}
    {next next' : List (Tree Token) → List Lexeme → Reading} (h : r.Alike view r')
    (hnext : ∀ {xs ys rest rest'}, Same view xs ys rest rest' →
      (next xs rest).Alike view (next' ys rest')) :
    (r.andThen next).Alike view (r'.andThen next') := by
  cases h with
  | made h => exact hnext h
  | stuck h => exact .stuck h

theorem Reading.Alike.shaped {r r' : Reading} {f f' : List (Tree Token) → List (Tree Token)}
    (h : r.Alike view r') (hf : ∀ {xs ys rest rest'}, Same view xs ys rest rest' →
      Same view (f xs) (f' ys) rest rest') (g g' : Unfinished → Unfinished) :
    (r.shaped f g).Alike view (r'.shaped f' g') := by
  cases h with
  | made h => exact .made (hf h)
  | stuck h => exact .stuck h

namespace Rule
variable {rules : Nonterminal → Rule}
variable {again : Rule → List (Tree Token) → List Lexeme → Reading}

/-- Reading a rule keeps two states apart from nothing that the view shows. -/
def ReadsAlike (view : Token → β)
    (again : Rule → List (Tree Token) → List Lexeme → Reading) : Prop :=
  ∀ {rule made made' input input'}, rule.Through view → Same view made made' input input' →
    (again rule made input).Alike view (again rule made' input')

theorem step_alike (hkind : ∀ t u : Token, view t = view u → t.kind = u.kind)
    (hrules : ∀ name, (rules name).Through view) (hagain : ReadsAlike view again) :
    ReadsAlike view (step rules again) := by
  intro rule
  induction rule with
  | done =>
    intro made made' input input' _ hs
    exact .made hs
  | expect k =>
    intro made made' input input' _ hs
    rcases hs.ahead with ⟨rfl, rfl⟩ | ⟨l, rest, l', rest', rfl, rfl⟩
    · exact .stuck hs.restart
    · have hl : l.kind = l'.kind := hkind _ _ hs.view_eq
      simp only [step, hl]
      split
      · exact .made hs.take
      · exact .stuck hs.restart
  | take =>
    intro made made' input input' _ hs
    rcases hs.ahead with ⟨rfl, rfl⟩ | ⟨l, rest, l', rest', rfl, rfl⟩
    · exact .made hs
    · exact .made hs.take
  | refuse expected =>
    intro made made' input input' _ hs
    exact .stuck hs.restart
  | seq a b iha ihb =>
    intro made made' input input' ht hs
    rw [step_seq, step_seq]
    exact (iha ht.1 hs).andThen (ihb ht.2)
  | branch look a b iha ihb =>
    intro made made' input input' ht hs
    simp only [step, hs.look ht.1]
    split
    · exact iha ht.2.1 hs
    · exact ihb ht.2.2 hs
  | loop look body ih =>
    intro made made' input input' ht hs
    have hlook := hs.look ht.1
    by_cases hround : look (Look.words input) = true
    · rw [step_loop_of_look hround, step_loop_of_look (hlook ▸ hround)]
      have hmore : (loop look body).Through view := ht
      exact (ih ht.2 hs).andThen (hagain hmore)
    · rw [step, step, if_neg hround, if_neg (hlook ▸ hround)]
      exact .made hs
  | node k body ih =>
    intro made made' input input' ht hs
    rw [step_node, step_node]
    exact (ih ht hs.restart).shaped (fun h => hs.node h k) _ _
  | mark body ih =>
    intro made made' input input' ht hs
    rw [step_mark, step_mark]
    exact (ih ht hs.restart).shaped (fun h => hs.append h) _ _
  | wrap k body ih =>
    intro made made' input input' ht hs
    rw [step_wrap, step_wrap]
    exact (ih ht hs).shaped (fun h => hs.restart.node h k) _ _
  | call name =>
    intro made made' input input' _ hs
    exact hagain (hrules name) hs

theorem read_alike (hkind : ∀ t u : Token, view t = view u → t.kind = u.kind)
    (hrules : ∀ name, (rules name).Through view) (fuel : Nat) :
    ReadsAlike view (read rules fuel) := by
  induction fuel with
  | zero =>
    intro rule made made' input input' _ hs
    exact .stuck hs.restart
  | succ fuel ih => exact step_alike hkind hrules ih

end Rule

namespace Grammar
open Rule

/-- The view tells kinds apart and shows what the rules of the grammar look at. -/
structure Suffices (view : Token → β) : Prop where
  kind : ∀ t u : Token, view t = view u → t.kind = u.kind
  rules : ∀ name, (rules name).Through view
  statement : statement.Through view

theorem suffices_word : Suffices Token.word where
  kind := fun _ _ h => congrArg Word.kind h
  rules := fun name => (Grammar.rules name).through_word
  statement := Grammar.statement.through_word

theorem readStatement_alike (hv : Suffices view) (hs : Same view [] [] input input') :
    (readStatement input).Alike view (readStatement input') := by
  have hlength : input.length = input'.length := by
    have h := congrArg List.length hs.tokens
    simpa only [List.length_map] using h
  rw [readStatement, readStatement, fuelFor, fuelFor, hlength]
  exact read_alike hv.kind hv.rules _ hv.statement hs

/-- Reading statements from lexemes that cannot be told apart comes to the same, up
to what `brief` says of the first fault. -/
theorem readStatements_alike {γ : Type} (hv : Suffices view) (size size' : Nat) (brief : Fault → γ)
    (hbrief : ∀ expected rest rest', Same view [] [] rest rest' →
      brief (faultAt size expected rest) = brief (faultAt size' expected rest'))
    (fuel : Nat) (hs : Same view [] [] input input') :
    (readStatements size fuel input).2.head?.map brief =
        (readStatements size' fuel input').2.head?.map brief ∧
      ((readStatements size fuel input).2 = [] →
        Tree.mappedAll view (Tree.bareAll (readStatements size fuel input).1) =
          Tree.mappedAll view (Tree.bareAll (readStatements size' fuel input').1)) := by
  induction fuel generalizing input input' with
  | zero => exact ⟨rfl, fun _ => rfl⟩
  | succ fuel ih =>
    rcases hs.ahead with ⟨rfl, rfl⟩ | ⟨l, more, l', more', rfl, rfl⟩
    · exact ⟨rfl, fun _ => rfl⟩
    · have hread := readStatement_alike hv hs
      generalize hr : readStatement (l :: more) = r at hread
      generalize hr' : readStatement (l' :: more') = r' at hread
      cases hread with
      | made h =>
        obtain ⟨hfirst, htrees⟩ := ih h.restart
        rw [readStatements_of_made hr, readStatements_of_made hr']
        refine ⟨hfirst, fun hnone => ?_⟩
        simp only [Tree.bareAll_append, Tree.mappedAll_append, h.elements, htrees hnone]
      | stuck h =>
        rw [readStatements_of_stuck hr, readStatements_of_stuck hr']
        exact ⟨congrArg some (hbrief _ _ _ h), fun hnone => by cases hnone⟩

end Grammar
end Views

/-- The tokens of a text that are no trivia. -/
def Token.significant (text : String) : List Token :=
  (Token.scan text).filter fun t => !t.kind.isTrivia

namespace Lexeme

theorem token_group (startsLine : Bool) (tokens : List Token) :
    (group startsLine tokens).map Lexeme.token = tokens.filter fun t => !t.kind.isTrivia := by
  induction tokens generalizing startsLine with
  | nil => rfl
  | cons t rest ih =>
    rw [group]
    split
    · rename_i ht
      rw [ih, List.filter_cons_of_neg (by simp [ht])]
    · rename_i ht
      rw [List.map_cons, ih, List.filter_cons_of_pos (by simpa using ht)]

end Lexeme

/-- The lexemes of a text. -/
def Lexeme.ofText (text : String) : List Lexeme :=
  Lexeme.group (Lexeme.breaksLine ((Token.scan text).takeWhile fun t => t.kind.isTrivia))
    (Token.scan text)

theorem Lexeme.token_ofText (text : String) :
    (Lexeme.ofText text).map Lexeme.token = Token.significant text :=
  Lexeme.token_group _ _

theorem Lexeme.proper_ofText {text : String} {l : Lexeme} (h : l ∈ Lexeme.ofText text) :
    l.Proper :=
  Lexeme.proper_of_mem_group h

namespace Parsed

theorem faults_ofText (text : String) : (ofText text).faults =
    (Grammar.readStatements text.utf8ByteSize (Lexeme.ofText text).length (Lexeme.ofText text)).2 :=
  rfl

theorem bare_ofText (text : String) : (ofText text).tree.bare = .node .sourceFile
    (Tree.bareAll (Grammar.readStatements text.utf8ByteSize (Lexeme.ofText text).length
      (Lexeme.ofText text)).1) := by
  have hleading : Tree.bareAll
      (((Token.scan text).takeWhile fun t => t.kind.isTrivia).map .leaf) = [] :=
    Tree.bareAll_trivia fun t ht => List.mem_takeWhile_imp (p := fun u : Token => u.kind.isTrivia) ht
  simp only [ofText, Grammar.readTokens, Tree.bare, Tree.bareAll_append, hleading, List.nil_append]
  rfl

end Parsed

/-- What a fault says, wherever it stands. -/
def Fault.complaint (f : Fault) : String × List TokenKind :=
  (f.found, f.expected)

theorem Grammar.complaint_faultAt {size size' : Nat} {rest rest' : List Lexeme}
    (h : Same Token.word [] [] rest rest') (expected : List TokenKind) :
    (Grammar.faultAt size expected rest).complaint =
      (Grammar.faultAt size' expected rest').complaint := by
  rcases h.ahead with ⟨rfl, rfl⟩ | ⟨l, more, l', more', rfl, rfl⟩
  · rfl
  · have htext : l.token.text = l'.token.text := congrArg Word.text h.view_eq
    simp only [Grammar.faultAt, Fault.complaint, htext]

/-- A word without its place. -/
def Leaf.unplaced (leaf : Leaf) : Leaf :=
  ⟨leaf.kind, leaf.text, none, none, none, none⟩

/-- A word under a node of a kind, without its place. -/
def Word.leaf (parent : NodeKind) (w : Word) : Leaf :=
  ⟨Leaf.kindOf parent w.kind, w.text, none, none, none, none⟩

namespace Tree

mutual
/-- A tree of words as the compiler reads it, places aside. -/
def classified : Tree Word → Tree Leaf
  | leaf w => leaf (w.leaf .error)
  | node k cs => node k (classifiedAll k cs)

def classifiedAll (parent : NodeKind) : List (Tree Word) → List (Tree Leaf)
  | [] => []
  | leaf w :: rest => leaf (w.leaf parent) :: classifiedAll parent rest
  | node k cs :: rest => classified (node k cs) :: classifiedAll parent rest
end

mutual
/-- Apart from places, a placed tree depends on the words of the tree of tokens
alone. -/
theorem unplaced_placed (text : List Char) (t : Tree Token) :
    (t.placed text).mapped Leaf.unplaced = (t.bare.mapped Token.word).classified := by
  match t with
  | leaf t => rfl
  | node k cs => rw [placed, mapped, unplaced_placedAll text k cs, bare, mapped, classified]

theorem unplaced_placedAll (text : List Char) (parent : NodeKind) (ts : List (Tree Token)) :
    mappedAll Leaf.unplaced (placedAll text parent ts) =
      classifiedAll parent (mappedAll Token.word (bareAll ts)) := by
  match ts with
  | [] => rfl
  | leaf t :: rest =>
    rw [placedAll, bareAll]
    split
    · exact unplaced_placedAll text parent rest
    · rw [mappedAll, mappedAll, unplaced_placedAll text parent rest]
      rfl
  | node k cs :: rest =>
    have hfirst := unplaced_placed text (node k cs)
    rw [placedAll, bareAll, mappedAll, mappedAll, hfirst, unplaced_placedAll text parent rest, bare,
      mapped, classifiedAll]
end

end Tree

theorem parse_of_no_faults {text : String} (h : (Parsed.ofText text).faults = []) :
    parse text = .ok ((Parsed.ofText text).tree.placed text.toList) := by
  rw [parse, h]

theorem parse_of_faults {text : String} {f : Fault} {fs : List Fault}
    (h : (Parsed.ofText text).faults = f :: fs) :
    parse text = .error ((f :: fs).map (ParseError.ofFault text.toList)) := by
  rw [parse, h]

theorem parse_ok_iff {text : String} :
    (∃ tree, parse text = .ok tree) ↔ (Parsed.ofText text).faults = [] := by
  constructor
  · rintro ⟨tree, hparse⟩
    cases hf : (Parsed.ofText text).faults with
    | nil => rfl
    | cons f fs =>
      rw [parse_of_faults hf] at hparse
      cases hparse
  · intro hnone
    exact ⟨_, parse_of_no_faults hnone⟩

/-- Texts with the same words, whatever blank space and comments stand between
them, both have trees, and these differ in the places of the words at most; or both
have faults, and the first ones show the same word and expect the same kinds. -/
theorem parse_layout {text text' : String}
    (h : (Token.significant text).map Token.word = (Token.significant text').map Token.word) :
    (∃ tree tree', parse text = .ok tree ∧ parse text' = .ok tree' ∧
      tree.mapped Leaf.unplaced = tree'.mapped Leaf.unplaced) ∨
    (∃ f fs f' fs', (Parsed.ofText text).faults = f :: fs ∧
      (Parsed.ofText text').faults = f' :: fs' ∧
      parse text = .error ((f :: fs).map (ParseError.ofFault text.toList)) ∧
      parse text' = .error ((f' :: fs').map (ParseError.ofFault text'.toList)) ∧
      f.found = f'.found ∧ f.expected = f'.expected) := by
  have hsame : Same Token.word [] [] (Lexeme.ofText text) (Lexeme.ofText text') :=
    ⟨rfl, by rw [Lexeme.token_ofText, Lexeme.token_ofText, h],
      fun l hl => Lexeme.proper_ofText hl, fun l hl => Lexeme.proper_ofText hl⟩
  have hlength : (Lexeme.ofText text').length = (Lexeme.ofText text).length := by
    have hcount := congrArg List.length hsame.tokens
    simpa only [List.length_map] using hcount.symm
  obtain ⟨hfirst, htrees⟩ := Grammar.readStatements_alike Grammar.suffices_word
    text.utf8ByteSize text'.utf8ByteSize Fault.complaint
    (fun expected rest rest' hrest => Grammar.complaint_faultAt hrest expected)
    (Lexeme.ofText text).length hsame
  have hfaults' : (Parsed.ofText text').faults = (Grammar.readStatements text'.utf8ByteSize
      (Lexeme.ofText text).length (Lexeme.ofText text')).2 := by
    rw [Parsed.faults_ofText, hlength]
  rw [← Parsed.faults_ofText, ← hfaults'] at hfirst
  rw [← Parsed.faults_ofText] at htrees
  cases hf : (Parsed.ofText text).faults with
  | nil =>
    have hf' : (Parsed.ofText text').faults = [] := by
      rw [hf] at hfirst
      exact List.head?_eq_none_iff.mp (Option.map_eq_none_iff.mp hfirst.symm)
    refine .inl ⟨_, _, parse_of_no_faults hf, parse_of_no_faults hf', ?_⟩
    rw [Tree.unplaced_placed, Tree.unplaced_placed, Parsed.bare_ofText, Parsed.bare_ofText, hlength,
      Tree.mapped, Tree.mapped, htrees hf]
  | cons f fs =>
    cases hf' : (Parsed.ofText text').faults with
    | nil =>
      rw [hf, hf'] at hfirst
      cases hfirst
    | cons f' fs' =>
      have hcomplaint : f.complaint = f'.complaint := by
        rw [hf, hf'] at hfirst
        exact Option.some.inj hfirst
      exact .inr ⟨f, fs, f', fs', rfl, rfl, parse_of_faults hf, parse_of_faults hf',
        congrArg Prod.fst hcomplaint, congrArg Prod.snd hcomplaint⟩

/-- A line break changes where recovery stops, and so the number of faults, but not
the first of them. -/
theorem parse_layout_broken_line :
    (Token.significant "key x select ;").map Token.word =
      (Token.significant "key x // the key\nselect ;").map Token.word ∧
    (Parsed.ofText "key x select ;").faults.length = 1 ∧
    (Parsed.ofText "key x // the key\nselect ;").faults.length = 2 ∧
    ∃ f fs f' fs', (Parsed.ofText "key x select ;").faults = f :: fs ∧
      (Parsed.ofText "key x // the key\nselect ;").faults = f' :: fs' ∧
      f.found = f'.found ∧ f.expected = f'.expected := by
  have hwords : (Token.significant "key x select ;").map Token.word =
      (Token.significant "key x // the key\nselect ;").map Token.word := by decide +kernel
  have hone : (Parsed.ofText "key x select ;").faults.length = 1 := by decide +kernel
  refine ⟨hwords, hone, by decide +kernel, ?_⟩
  rcases parse_layout hwords with ⟨tree, _, hok, -⟩ | ⟨f, fs, f', fs', hf, hf', -, -, hsame⟩
  · obtain ⟨f, hf⟩ := List.length_eq_one_iff.mp hone
    rw [parse_of_faults hf] at hok
    cases hok
  · exact ⟨f, fs, f', fs', hf, hf', hsame⟩

end ConceptQuery
