import ConceptQuery.Proofs.Derivation

/-! # Every sentence is read

Sentences end with a semicolon, so they are read whatever stands behind them:
`reads_sentence`. For the parts of a sentence, what may stand behind them tells where
they end. A comma may be the last thing in a list of items or of columns; what is
behind it then starts no item.
-/
namespace ConceptQuery
namespace Grammar
open Rule

section Parts
variable {made : List (Tree Token)} {rest : List Token} {t : Tree Token} {xs : List (Tree Token)}

theorem reads_oneToken {kind : NodeKind} {token : TokenKind} {u : Token} (hu : u.kind = token) :
    Reads rules (oneToken kind token) made (u :: rest) (made ++ [.node kind [.leaf u]]) rest :=
  .node (reads_expect hu)

theorem reads_phrase (ha : Phrase .disjunction t)
    (hrest : Avoids (Level.continuations .disjunction) rest) :
    Reads rules expression made (t.leaves ++ rest) (made ++ [t]) rest :=
  (parses_phrase ha).1.expression hrest

theorem reads_tokens {kind : TokenKind} {us : List Token} (hu : ∀ u ∈ us, u.kind = kind)
    (hrest : Avoids [kind] rest) :
    Reads rules (loop (.sees [kind]) take) made (us ++ rest) (made ++ us.map .leaf) rest := by
  induction us generalizing made with
  | nil => simpa using reads_last hrest.sees
  | cons u us ih =>
    have hmore : ∀ made, Reads rules (loop (.sees [kind]) take) made (us ++ rest)
        (made ++ us.map .leaf) rest := fun made => ih fun v hv => hu v (by simp [hv])
    have hall : Reads rules (loop (.sees [kind]) take) made (u :: (us ++ rest)) _ rest :=
      .round (starts_cons (by simp [hu u])).sees reads_take (hmore _)
    simpa using hall

/-- A part that may be left out, told by the kind it starts with. -/
theorem reads_atMostOne (made : List (Tree Token)) {kind : TokenKind} {rule : Rule}
    {P : Tree Token → Prop} (h : AtMostOne P xs) (hstart : ∀ t, P t → Starts [kind] t.leaves)
    (hread : ∀ t, P t → Reads rules rule made (t.leaves ++ rest) (made ++ [t]) rest)
    (hrest : Avoids [kind] rest) :
    Reads rules (optional (.sees [kind]) rule) made (Tree.leavesOf xs ++ rest) (made ++ xs) rest := by
  rcases h with rfl | ⟨t, rfl, ht⟩
  · simpa [Tree.leavesOf] using reads_skip hrest.sees
  · have hread := hread t ht
    have hall : Reads rules (optional (.sees [kind]) rule) made (t.leaves ++ rest) _ rest :=
      .optional (hstart t ht).append.sees hread
    simpa [Tree.leavesOf] using hall

theorem starts_atMostOne {kind : TokenKind} {kinds : List TokenKind} {P : Tree Token → Prop}
    (h : AtMostOne P xs) (hstart : ∀ t, P t → Starts [kind] t.leaves) (hrest : Starts kinds rest) :
    Starts (kind :: kinds) (Tree.leavesOf xs ++ rest) := by
  rcases h with rfl | ⟨t, rfl, ht⟩
  · exact hrest.weaken (by simp +contextual)
  · have hs : Starts [kind] (Tree.leavesOf [t] ++ rest) := by
      simpa [Tree.leavesOf] using (hstart t ht).append
    exact hs.weaken (by simp)

end Parts

section Selects
variable {made : List (Tree Token)} {rest : List Token} {t : Tree Token} {xs : List (Tree Token)}

/-- What may stand behind a select item. -/
def behindItem : List TokenKind := punct .comma :: itemEnd

theorem atPlainItem_of_ne {u : Token} {us : List Token} (h : u.kind ≠ .ident) :
    atPlainItem (Look.ahead (u :: us)) = false := by
  cases us with
  | nil => simp [Look.ahead, atPlainItem, Token.word, h]
  | cons v us => simp [Look.ahead, atPlainItem, Token.word, h]

theorem atPlainItem_cons_cons {u v : Token} {us : List Token} :
    atPlainItem (Look.ahead (u :: v :: us)) =
      (decide (u.kind = .ident) && behindItem.contains v.kind) :=
  rfl

/-- A name that starts a phrase is no item of its own: something stands behind it
that is not the end of an item. -/
theorem not_atPlainItem {l : Level} (h : Phrase l t) :
    ∀ {v : Token} (rest : List Token), v.kind ∉ behindItem →
      atPlainItem (Look.ahead (t.leaves ++ v :: rest)) = false := by
  induction h with
  | tighter h p ih => exact ih
  | @chain l m a op b h ho lhs rhs iha ihb =>
    intro v rest _
    have hop : ∀ k ∈ l.operators, k ∉ behindItem := by cases l <;> decide
    simpa [Tree.leaves, Tree.leavesOf] using iha (b.leaves ++ v :: rest) (hop _ ho)
  | not ht p ih =>
    intro v rest _
    exact atPlainItem_of_ne (by simp [ht])
  | @compare a op b ho lhs rhs iha ihb =>
    intro v rest _
    have hop : ∀ k ∈ comparisonOperators, k ∉ behindItem := by decide
    simpa [Tree.leaves, Tree.leavesOf] using iha (b.leaves ++ v :: rest) (hop _ ho)
  | isNull p hi hn hz ih =>
    intro v rest _
    simpa [Tree.leaves, Tree.leavesOf] using ih _ (by rw [hi]; decide)
  | @member a negated i l first more r p hn hi hl hfirst hcomma hmore hr ih ihfirst ihmore =>
    intro v rest _
    rcases hn with rfl | ⟨u, hu, rfl⟩
    · simpa [Tree.leaves, Tree.leavesOf] using ih (v := i) _ (by rw [hi]; decide)
    · simpa [Tree.leaves, Tree.leavesOf] using ih (v := u) _ (by rw [hu]; decide)
  | minus ht p ih =>
    intro v rest _
    exact atPlainItem_of_ne (by simp [ht])
  | literal ht =>
    intro v rest _
    have hne : ∀ k ∈ literalStart, k ≠ .ident := by decide
    exact atPlainItem_of_ne (hne _ ht)
  | paren hl p hr ih =>
    intro v rest _
    exact atPlainItem_of_ne (by simp [hl])
  | @call f l first more r hf hl hfirst hcomma hmore hr ihfirst ihmore =>
    intro v rest _
    simp only [Tree.leaves, Tree.leavesOf, enclosed, List.cons_append, List.nil_append]
    rw [atPlainItem_cons_cons, hl]
    simp [behindItem, itemEnd]
  | @callNothing f l r hf hl hr =>
    intro v rest _
    simp only [Tree.leaves, Tree.leavesOf, enclosed, List.cons_append, List.nil_append]
    rw [atPlainItem_cons_cons, hl]
    simp [behindItem, itemEnd]
  | type ht hn =>
    intro v rest hv
    simp only [Tree.leaves, Tree.leavesOf, List.cons_append, List.nil_append]
    rw [atPlainItem_cons_cons]
    simp [hv]
  | concept ht hn =>
    intro v rest hv
    simp only [Tree.leaves, Tree.leavesOf, List.cons_append, List.nil_append]
    rw [atPlainItem_cons_cons]
    simp [hv]

theorem starts_selectItem (h : SelectItem t) :
    Starts (punct .minusMinus :: Level.starts .disjunction) t.leaves := by
  cases h with
  | @plain hidden u hh hu =>
    cases hidden with
    | nil => exact starts_cons (by rw [hu]; decide)
    | cons d hidden => exact starts_cons (by simp [hh d])
  | @transform hidden a arrow name hh ha harrow hname =>
    cases hidden with
    | nil =>
      have hs : Starts (punct .minusMinus :: Level.starts .disjunction) a.leaves :=
        (starts_of_phrase ha).weaken (by simp +contextual)
      simpa [Tree.leaves, Tree.leavesOf] using hs.append
    | cons d hidden => exact starts_cons (by simp [hh d])

theorem reads_selectTransform {a : Tree Token} {arrow name : Token} (ha : Phrase .disjunction a)
    (harrow : arrow.kind = punct .arrow) (hname : name.kind = .ident) :
    Reads rules (mark (seq expression
      (branch (.sees [punct .arrow]) (wrap .selectTransform (seq take (expect .ident)))
        (refuse [punct .arrow, punct .comma, punct .semicolon])))) made
      (a.leaves ++ arrow :: name :: rest)
      (made ++ [.node .selectTransform [a, .leaf arrow, .leaf name]]) rest := by
  have hexpr : Reads rules expression [] (a.leaves ++ arrow :: name :: rest) [a]
      (arrow :: name :: rest) := reads_phrase ha (avoids_cons (by rw [harrow]; decide))
  have hnamed : Reads rules (seq take (expect .ident)) [a] (arrow :: name :: rest)
      [a, .leaf arrow, .leaf name] rest := reads_take.seq (reads_expect hname)
  exact (hexpr.seq (.yes (starts_cons (by simp [harrow])).sees hnamed.wrap)).mark

theorem reads_selectItem (h : SelectItem t) (hrest : Starts behindItem rest) :
    Reads rules selectItem made (t.leaves ++ rest) (made ++ [t]) rest := by
  cases h with
  | @plain hidden u hh hu =>
    obtain ⟨v, us, rfl, hv⟩ := hrest
    have hplain : atPlainItem (Look.ahead (u :: v :: us)) = true := by
      rw [atPlainItem_cons_cons, hu]
      simpa using hv
    have hhidden : Reads rules (loop (.sees [punct .minusMinus]) take) [] (hidden ++ u :: v :: us)
        _ (u :: v :: us) := reads_tokens hh (avoids_cons (by rw [hu]; decide))
    have hitem : Reads rules selectItem made (hidden ++ u :: v :: us) _ (v :: us) :=
      (hhidden.seq (.yes hplain (reads_oneToken hu))).node
    simpa [Tree.leaves, Tree.leavesOf] using hitem
  | @transform hidden a arrow name hh ha harrow hname =>
    have hstart : Starts (Level.starts .disjunction) (a.leaves ++ arrow :: name :: rest) :=
      (starts_of_phrase ha).append
    have hhidden : Reads rules (loop (.sees [punct .minusMinus]) take) []
        (hidden ++ (a.leaves ++ arrow :: name :: rest)) _ (a.leaves ++ arrow :: name :: rest) :=
      reads_tokens hh (hstart.avoids (by decide))
    have hplain : atPlainItem (Look.ahead (a.leaves ++ arrow :: name :: rest)) = false :=
      not_atPlainItem ha _ (by rw [harrow]; decide)
    have hitem : Reads rules selectItem made (hidden ++ (a.leaves ++ arrow :: name :: rest)) _ rest :=
      (hhidden.seq (.no hplain (reads_selectTransform ha harrow hname))).node
    simpa [Tree.leaves, Tree.leavesOf] using hitem

theorem atNextItem_cons_cons {c u : Token} {us : List Token} (hc : c.kind = punct .comma) :
    atNextItem (Look.ahead (c :: u :: us)) = !itemEnd.contains u.kind := by
  rw [atNextItem, Look.and, sees_cons, hc]
  rfl

theorem starts_whereClause (h : WhereClause t) : Starts [word .whereWord] t.leaves := by
  obtain ⟨hw, ha⟩ := h
  exact starts_cons (by simp [hw])

theorem reads_whereClause (h : WhereClause t)
    (hrest : Avoids (Level.continuations .disjunction) rest) :
    Reads rules whereClause made (t.leaves ++ rest) (made ++ [t]) rest := by
  obtain @⟨w, a, hw, ha⟩ := h
  have hexpr : Reads rules expression [.leaf w] (a.leaves ++ rest) _ rest := reads_phrase ha hrest
  have hall : Reads rules whereClause made (w :: (a.leaves ++ rest)) _ rest :=
    (reads_take.seq hexpr).node
  simpa [Tree.leaves, Tree.leavesOf] using hall

theorem reads_orderItem (h : OrderItem t)
    (hrest : Avoids (word .asc :: word .desc :: Level.continuations .disjunction) rest) :
    Reads rules orderItem made (t.leaves ++ rest) (made ++ [t]) rest := by
  obtain @⟨a, direction, ha, hd⟩ := h
  rcases hd with rfl | ⟨d, hd, rfl⟩
  · have hexpr : Reads rules expression [] (a.leaves ++ rest) _ rest :=
      reads_phrase ha (hrest.weaken (by simp +contextual))
    have hall : Reads rules orderItem made (a.leaves ++ rest) _ rest :=
      (hexpr.seq (reads_skip (hrest.weaken (by simp)).sees)).node
    simpa [Tree.leaves, Tree.leavesOf] using hall
  · have hends : ∀ k ∈ [word .asc, word .desc], k ∉ Level.continuations .disjunction := by decide
    have hexpr : Reads rules expression [] (a.leaves ++ d :: rest) _ (d :: rest) :=
      reads_phrase ha (avoids_cons (hends _ hd))
    have hall : Reads rules orderItem made (a.leaves ++ d :: rest) _ rest :=
      (hexpr.seq (.optional (starts_cons hd).sees reads_take)).node
    simpa [Tree.leaves, Tree.leavesOf] using hall

theorem starts_orderByClause (h : OrderByClause t) : Starts [word .order] t.leaves := by
  obtain ⟨ho, hb, hi⟩ := h
  exact starts_cons (by simp [ho])

theorem reads_orderByClause (h : OrderByClause t)
    (hrest : Avoids (punct .comma :: word .asc :: word .desc :: Level.continuations .disjunction)
      rest) :
    Reads rules orderByClause made (t.leaves ++ rest) (made ++ [t]) rest := by
  obtain @⟨o, b, items, ho, hb, hi⟩ := h
  have hitems : Reads rules (separated (punct .comma) orderItem) [.leaf o, .leaf b]
      (Tree.leavesOf items ++ rest) ([.leaf o, .leaf b] ++ items) rest := by
    refine reads_separated (Avoids (word .asc :: word .desc :: Level.continuations .disjunction))
      ?_ ?_ hi (hrest.weaken ?_) (hrest.weaken (by simp))
    · rintro _ made rest ⟨item, rfl, hitem⟩ hbehind
      simpa [Tree.leavesOf] using reads_orderItem hitem hbehind
    · intro c rest hc
      exact avoids_cons (by rw [hc]; decide)
    · simp +contextual
  have hall : Reads rules orderByClause made (o :: b :: (Tree.leavesOf items ++ rest)) _ rest :=
    (reads_take.cons ((reads_expect hb).cons (hitems.cons reads_nil))).node
  simpa [Tree.leaves, Tree.leavesOf] using hall

theorem starts_limitClause (h : LimitClause t) : Starts [word .limit] t.leaves := by
  obtain ⟨hl, hc⟩ := h
  exact starts_cons (by simp [hl])

theorem reads_limitClause (h : LimitClause t) :
    Reads rules limitClause made (t.leaves ++ rest) (made ++ [t]) rest := by
  obtain @⟨l, count, hl, hc⟩ := h
  exact (reads_take.seq (reads_expect hc)).node

/-- What may stand behind a select, with or without others merged with it. -/
def behindBody : List TokenKind := [punct .semicolon, word .merge, word .align]

/-- The items of a select and the comma behind them. -/
theorem reads_items {comma : List (Tree Token)} {behind : List Rule} {made' : List (Tree Token)}
    {ts' : List Token} (hi : Listed (punct .comma) (One SelectItem) xs)
    (hc : Maybe (punct .comma) comma) (hrest : Starts itemEnd rest)
    (hbehind : Reads rules (inOrder behind) (made ++ xs ++ comma) rest made' ts') :
    Reads rules (inOrder (selectItem :: loop atNextItem (seq take selectItem) ::
      optional (.sees [punct .comma]) take :: behind)) made
      (Tree.leavesOf xs ++ (Tree.leavesOf comma ++ rest)) made' ts' := by
  have hlast : Reads rules (optional (.sees [punct .comma]) take) (made ++ xs)
      (Tree.leavesOf comma ++ rest) (made ++ xs ++ comma) rest :=
    reads_maybe hc (hrest.avoids (by decide))
  have hstop : Starts behindItem (Tree.leavesOf comma ++ rest) ∧
      atNextItem (Look.ahead (Tree.leavesOf comma ++ rest)) = false := by
    rcases hc with rfl | ⟨c, hc, rfl⟩
    · refine ⟨hrest.weaken (by simp +contextual [behindItem]), ?_⟩
      have hcomma : Avoids [punct .comma] rest := hrest.avoids (by decide)
      rw [atNextItem, Look.and, Tree.leavesOf, List.nil_append, hcomma.sees, Bool.false_and]
    · obtain ⟨u, us, rfl, hu⟩ := hrest
      refine ⟨starts_cons (by simp [hc, behindItem]), ?_⟩
      have hnext : atNextItem (Look.ahead (c :: u :: us)) = !itemEnd.contains u.kind :=
        atNextItem_cons_cons hc
      rw [List.contains_iff_mem.mpr hu] at hnext
      exact hnext
  have hlook : ∀ {c xs rest}, c.kind = punct .comma → One SelectItem xs →
      atNextItem (Look.ahead (c :: (Tree.leavesOf xs ++ rest))) = true := by
    rintro c _ rest hc ⟨item, rfl, hitem⟩
    obtain ⟨u, us, hu, hk⟩ := starts_selectItem hitem
    have hends : ∀ k ∈ punct .minusMinus :: Level.starts .disjunction, k ∉ itemEnd := by decide
    rw [Tree.leavesOf, Tree.leavesOf, List.append_nil, hu, List.cons_append,
      atNextItem_cons_cons hc]
    simpa using hends _ hk
  have hitem : ∀ {xs made rest}, One SelectItem xs → Starts behindItem rest →
      Reads rules selectItem made (Tree.leavesOf xs ++ rest) (made ++ xs) rest := by
    rintro _ made rest ⟨item, rfl, hitem⟩ hbehind
    simpa [Tree.leavesOf] using reads_selectItem hitem hbehind
  have hrounds : Reads rules (loop atNextItem (seq take selectItem)) (made ++ xs)
      (Tree.leavesOf comma ++ rest) (made ++ xs) (Tree.leavesOf comma ++ rest) :=
    reads_last hstop.2
  obtain ⟨mid, us, hfirst, hrounds⟩ := reads_listed (Starts behindItem) hitem
    (fun hc => starts_cons (by simp [hc, behindItem])) hlook hi hstop.1 hrounds
  exact hfirst.cons (hrounds.cons (hlast.cons hbehind))

theorem reads_selectBody (h : SelectBody xs) (hrest : Starts behindBody rest) :
    Reads rules selectBody made (Tree.leavesOf xs ++ rest) (made ++ xs) rest := by
  obtain @⟨s, items, comma, condition, ordering, limit, hs, hi, hc, hw, ho, hl⟩ := h
  have hlimit := starts_atMostOne hl (fun t ht => starts_limitClause ht) hrest
  have horder := starts_atMostOne ho (fun t ht => starts_orderByClause ht) hlimit
  have hwhere := starts_atMostOne hw (fun t ht => starts_whereClause ht) horder
  have hlast := reads_atMostOne (made ++ [.leaf s] ++ items ++ comma ++ condition ++ ordering) hl
    (fun t ht => starts_limitClause ht) (fun t ht => reads_limitClause ht)
    (hrest.avoids (by decide))
  have hordered := reads_atMostOne (made ++ [.leaf s] ++ items ++ comma ++ condition) ho
    (fun t ht => starts_orderByClause ht)
    (fun t ht => reads_orderByClause ht (hlimit.avoids (by decide))) (hlimit.avoids (by decide))
  have hfiltered := reads_atMostOne (made ++ [.leaf s] ++ items ++ comma) hw
    (fun t ht => starts_whereClause ht)
    (fun t ht => reads_whereClause ht (horder.avoids (by decide))) (horder.avoids (by decide))
  have hitems := reads_items hi hc (hwhere.weaken (by decide))
    (hfiltered.cons (hordered.cons (hlast.cons reads_nil)))
  have hall : Reads rules selectBody made (s :: _) _ rest := (reads_expect hs).cons hitems
  simpa [Tree.leaves, Tree.leavesOf] using hall

theorem starts_selectBody (h : SelectBody xs) : Starts [word .select] (Tree.leavesOf xs) := by
  obtain ⟨hs, hi, hc, hw, ho, hl⟩ := h
  exact starts_cons (by simp [hs])

end Selects

section Clauses
variable {made : List (Tree Token)} {rest : List Token} {t : Tree Token} {xs : List (Tree Token)}

/-- Tokens of one kind, each in a node of its own or not, behind separators. -/
theorem reads_listedTokens {separator : TokenKind} {item : Rule} {leaf : Token → Tree Token}
    (hleaf : ∀ u, (leaf u).leaves = [u])
    (hitem : ∀ {u made rest}, u.kind = .ident →
      Reads rules item made (u :: rest) (made ++ [leaf u]) rest)
    (h : Listed separator (fun xs => ∃ u, u.kind = .ident ∧ xs = [leaf u]) xs)
    (hrest : Avoids [separator] rest) :
    Reads rules (separated separator item) made (Tree.leavesOf xs ++ rest) (made ++ xs) rest := by
  refine reads_separated (fun _ => True) ?_ (fun _ => trivial) h trivial hrest
  rintro _ made rest ⟨u, hu, rfl⟩ -
  simpa [Tree.leavesOf, hleaf] using hitem hu

theorem reads_alignItem (h : AlignItem t) (hrest : Avoids [punct .comma] rest) :
    Reads rules alignItem made (t.leaves ++ rest) (made ++ [t]) rest := by
  obtain @⟨name, colon, concepts, hn, hc, hi⟩ := h
  have hconcepts : Reads rules (separated (punct .comma) (oneToken .conceptLiteral .ident))
      [.leaf name, .leaf colon] (Tree.leavesOf concepts ++ rest)
      ([.leaf name, .leaf colon] ++ concepts) rest :=
    reads_listedTokens (fun u => rfl) (fun hu => reads_oneToken hu) hi hrest
  have hall : Reads rules alignItem made (name :: colon :: (Tree.leavesOf concepts ++ rest)) _ rest :=
    .node ((reads_expect hn).cons ((reads_expect hc).cons (hconcepts.cons reads_nil)))
  simpa [Tree.leaves, Tree.leavesOf] using hall

theorem starts_alignClause (h : AlignClause t) : Starts [word .align] t.leaves := by
  obtain ⟨ha, hi⟩ := h
  exact starts_cons (by simp [ha])

theorem reads_alignClause (h : AlignClause t) (hrest : Avoids [punct .comma, word .and] rest) :
    Reads rules alignClause made (t.leaves ++ rest) (made ++ [t]) rest := by
  obtain @⟨a, items, ha, hi⟩ := h
  have hitems : Reads rules (separated (word .and) alignItem) [.leaf a]
      (Tree.leavesOf items ++ rest) ([.leaf a] ++ items) rest := by
    refine reads_separated (Avoids [punct .comma]) ?_ ?_ hi (hrest.weaken (by simp))
      (hrest.weaken (by simp))
    · rintro _ made rest ⟨item, rfl, hitem⟩ hbehind
      simpa [Tree.leavesOf] using reads_alignItem hitem hbehind
    · intro c rest hc
      exact avoids_cons (by rw [hc]; decide)
  have hall : Reads rules alignClause made (a :: (Tree.leavesOf items ++ rest)) _ rest :=
    (reads_take.seq hitems).node
  simpa [Tree.leaves, Tree.leavesOf] using hall

theorem reads_column (h : Column xs) (hrest : Avoids [punct .colon] rest) :
    Reads rules column made (Tree.leavesOf xs ++ rest) (made ++ xs) rest := by
  cases h with
  | @plain u hu =>
    have halias : Look.and (.sees [.ident, .string]) (.thenSees (punct .colon))
        (Look.ahead (u :: rest)) = false := by rw [Look.and, hrest.thenSees, Bool.and_false]
    exact (reads_skip halias).seq (reads_expect hu)
  | @named raw colon u hr hc hu =>
    have halias : Look.and (.sees [.ident, .string]) (.thenSees (punct .colon))
        (Look.ahead (raw :: colon :: u :: rest)) = true := by
      rw [Look.and, (starts_cons hr).sees, thenSees_cons_cons, hc]
      rfl
    have hnode : Reads rules (node .columnAlias (seq take take)) made (raw :: colon :: u :: rest)
        (made ++ [.node .columnAlias [.leaf raw, .leaf colon]]) (u :: rest) :=
      .node (reads_take.seq reads_take)
    have hall : Reads rules column made (raw :: colon :: u :: rest) _ rest :=
      (Reads.optional halias hnode).seq (reads_expect hu)
    simpa [Tree.leaves, Tree.leavesOf] using hall

theorem starts_column (h : Column xs) : Starts [.ident, .string] (Tree.leavesOf xs) := by
  cases h with
  | plain hu => exact starts_cons (by simp [hu])
  | named hr hc hu => exact starts_cons hr

theorem atNextColumn_cons_cons {c u : Token} {us : List Token} (hc : c.kind = punct .comma) :
    atNextColumn (Look.ahead (c :: u :: us)) = !decide (u.kind = punct .rightParen) := by
  rw [atNextColumn, Look.and, Look.not, sees_cons, thenSees_cons_cons, hc]
  rfl

theorem reads_columnList (h : ColumnList t) (hrest : Starts [punct .rightParen] rest) :
    Reads rules columnList made (t.leaves ++ rest) (made ++ [t]) rest := by
  obtain @⟨columns, comma, hi, hc⟩ := h
  have hlast : Reads rules (optional (.sees [punct .comma]) take) columns
      (Tree.leavesOf comma ++ rest) (columns ++ comma) rest :=
    reads_maybe hc (hrest.avoids (by decide))
  have hstop : Avoids [punct .colon] (Tree.leavesOf comma ++ rest) ∧
      atNextColumn (Look.ahead (Tree.leavesOf comma ++ rest)) = false := by
    rcases hc with rfl | ⟨c, hc, rfl⟩
    · refine ⟨hrest.avoids (by decide), ?_⟩
      have hcomma : Avoids [punct .comma] rest := hrest.avoids (by decide)
      rw [atNextColumn, Look.and, Tree.leavesOf, List.nil_append, hcomma.sees, Bool.false_and]
    · obtain ⟨u, us, rfl, hu⟩ := hrest
      refine ⟨avoids_cons (by rw [hc]; decide), ?_⟩
      have hnext : atNextColumn (Look.ahead (c :: u :: us)) =
          !decide (u.kind = punct .rightParen) := atNextColumn_cons_cons hc
      rw [decide_eq_true (List.mem_singleton.mp hu)] at hnext
      exact hnext
  have hlook : ∀ {c xs rest}, c.kind = punct .comma → Column xs →
      atNextColumn (Look.ahead (c :: (Tree.leavesOf xs ++ rest))) = true := by
    intro c xs rest hc hcolumn
    obtain ⟨u, us, hu, hk⟩ := starts_column hcolumn
    have hends : ∀ k ∈ [TokenKind.ident, .string], k ≠ punct .rightParen := by decide
    rw [hu, List.cons_append, atNextColumn_cons_cons hc, decide_eq_false (hends _ hk)]
    rfl
  have hrounds : Reads rules (loop atNextColumn (seq take column)) ([] ++ columns)
      (Tree.leavesOf comma ++ rest) columns (Tree.leavesOf comma ++ rest) :=
    reads_last hstop.2
  obtain ⟨mid, us, hfirst, hrounds⟩ := reads_listed (Avoids [punct .colon])
    (fun hx hbehind => reads_column hx hbehind) (fun hc => avoids_cons (by rw [hc]; decide)) hlook
    hi hstop.1 hrounds
  have hall : Reads rules columnList made
      (Tree.leavesOf columns ++ (Tree.leavesOf comma ++ rest)) _ rest :=
    (hfirst.cons (hrounds.cons (hlast.cons reads_nil))).node
  simpa [Tree.leaves] using hall

theorem starts_grainClause (h : GrainClause t) : Starts [word .grain] t.leaves := by
  obtain ⟨hg, hl, hi, hr⟩ := h
  exact starts_cons (by simp [hg])

theorem reads_grainClause (h : GrainClause t) :
    Reads rules grainClause made (t.leaves ++ rest) (made ++ [t]) rest := by
  obtain @⟨g, l, concepts, r, hg, hl, hi, hr⟩ := h
  have hconcepts : Reads rules (separated (punct .comma) (expect .ident)) [.leaf g, .leaf l]
      (Tree.leavesOf concepts ++ r :: rest) ([.leaf g, .leaf l] ++ concepts) (r :: rest) :=
    reads_listedTokens (fun u => rfl) (fun hu => reads_expect hu) hi
      (avoids_cons (by rw [hr]; decide))
  have hall : Reads rules grainClause made (g :: l :: (Tree.leavesOf concepts ++ r :: rest)) _ rest :=
    (reads_take.cons ((reads_expect hl).cons (hconcepts.cons ((reads_expect hr).cons reads_nil)))).node
  simpa [Tree.leaves, Tree.leavesOf, enclosed] using hall

theorem starts_source (h : Source t) : Starts [word .address, word .query] t.leaves := by
  cases h with
  | table ha hu => exact starts_cons (by simp [ha])
  | query hq hu => exact starts_cons (by simp [hq])

theorem reads_source (h : Source t) :
    Reads rules source made (t.leaves ++ rest) (made ++ [t]) rest := by
  cases h with
  | table ha hu =>
    exact .yes (starts_cons (by simp [ha])).sees (.node (reads_take.seq (reads_expect hu)))
  | query hq hu =>
    exact .no (avoids_cons (by rw [hq]; decide)).sees
      (.yes (starts_cons (by simp [hq])).sees (.node (reads_take.seq (reads_expect hu))))

/-- The selects behind a first one. -/
theorem reads_merged {parts : List (Token × List (Tree Token))}
    (hm : ∀ p ∈ parts, p.1.kind = word .merge) (hp : ∀ p ∈ parts, SelectBody p.2)
    (hrest : Starts [punct .semicolon, word .align] rest) :
    Reads rules (loop (.sees [word .merge]) (seq take (node .selectStatement selectBody))) made
      (Tree.leavesOf (merged parts) ++ rest) (made ++ merged parts) rest := by
  induction parts generalizing made with
  | nil => simpa [merged, Tree.leavesOf] using reads_last (hrest.avoids (by decide)).sees
  | cons p parts ih =>
    obtain ⟨m, body⟩ := p
    have hmerge : m.kind = word .merge := hm (m, body) (by simp)
    have hmore : ∀ made, Reads rules (loop (.sees [word .merge])
        (seq take (node .selectStatement selectBody))) made
        (Tree.leavesOf (merged parts) ++ rest) (made ++ merged parts) rest :=
      fun made => ih (fun p h => hm p (by simp [h])) fun p h => hp p (by simp [h])
    have hbehind : Starts behindBody (Tree.leavesOf (merged parts) ++ rest) := by
      cases parts with
      | nil => exact hrest.weaken (by decide)
      | cons q parts => exact starts_cons (by simp [hm q, behindBody])
    have hbody : Reads rules selectBody [] (Tree.leavesOf body ++ (Tree.leavesOf (merged parts) ++ rest))
        body (Tree.leavesOf (merged parts) ++ rest) := reads_selectBody (hp (m, body) (by simp)) hbehind
    have hall : Reads rules (loop (.sees [word .merge])
        (seq take (node .selectStatement selectBody))) made
        (m :: (Tree.leavesOf body ++ (Tree.leavesOf (merged parts) ++ rest))) _ rest :=
      .round (starts_cons (by simp [hmerge])).sees (reads_take.seq hbody.node) (hmore _)
    simpa [merged, Tree.leaves, Tree.leavesOf] using hall

end Clauses

section Sentences
variable {made : List (Tree Token)} {rest : List Token} {t : Tree Token} {body : List (Tree Token)}

theorem atDerivation_cons (k name w : Token) (us : List Token) :
    atDerivation (Look.ahead (k :: name :: w :: us)) =
      (decide (k.kind = word .const) || decide (w.kind = punct .leftArrow)) := by
  have hconst : [word .const].contains k.kind = decide (k.kind = word .const) := by simp
  rw [← hconst]
  rfl

theorem atProperty_cons (k name : Token) (us : List Token) :
    atProperty (Look.ahead (k :: name :: us)) =
      (decide (k.kind = word .property) && decide (name.kind = .ident) &&
        Dotted.isDotted name.text) :=
  rfl

theorem reads_typedDeclaration {kind : NodeKind} {k name type semi : Token}
    {nullable : List (Tree Token)} (hname : name.kind = .ident) (htype : type.kind = .ident)
    (hn : Maybe (punct .question) nullable) (hs : semi.kind = punct .semicolon) :
    Reads rules (typedDeclaration kind) made
      (k :: name :: type :: (Tree.leavesOf nullable ++ semi :: rest))
      (made ++ [.node kind (declared k name type nullable semi)]) rest := by
  have hquestion : Reads rules (optional (.sees [punct .question]) take)
      [.leaf k, .leaf name, .node .datatype [.leaf type]]
      (Tree.leavesOf nullable ++ semi :: rest)
      ([.leaf k, .leaf name, .node .datatype [.leaf type]] ++ nullable) (semi :: rest) :=
    reads_maybe hn (avoids_cons (by rw [hs]; decide))
  have hall : Reads rules (typedDeclaration kind) made
      (k :: name :: type :: (Tree.leavesOf nullable ++ semi :: rest)) _ rest :=
    (reads_take.cons ((reads_expect hname).cons ((reads_oneToken htype).cons
      (hquestion.cons ((reads_expect hs).cons reads_nil))))).node
  simpa [declared] using hall

theorem reads_derivation {k name arrow semi : Token} {a : Tree Token} (hname : name.kind = .ident)
    (harrow : arrow.kind = punct .leftArrow) (ha : Phrase .disjunction a)
    (hs : semi.kind = punct .semicolon) :
    Reads rules derivation made (k :: name :: arrow :: (a.leaves ++ semi :: rest))
      (made ++ [.node .conceptDerivation [.leaf k, .leaf name, .leaf arrow, a, .leaf semi]])
      rest := by
  have hexpr : Reads rules expression [.leaf k, .leaf name, .leaf arrow]
      (a.leaves ++ semi :: rest) [.leaf k, .leaf name, .leaf arrow, a] (semi :: rest) :=
    reads_phrase ha (avoids_cons (by rw [hs]; decide))
  exact .node (reads_take.cons ((reads_expect hname).cons ((reads_expect harrow).cons
    (hexpr.cons ((reads_expect hs).cons reads_nil)))))

/-- The select with its semicolon, once its body is read. -/
theorem reads_selectStatement {semi : Token} (hb : SelectBody body)
    (hs : semi.kind = punct .semicolon) :
    Reads rules selectStatement made (Tree.leavesOf body ++ semi :: rest)
      (made ++ [.node .selectStatement (body ++ [.leaf semi])]) rest := by
  have hbody : Reads rules selectBody [] (Tree.leavesOf body ++ semi :: rest) body (semi :: rest) :=
    reads_selectBody hb (starts_cons (by simp [hs, behindBody]))
  exact (hbody.seq (.no (avoids_cons (by rw [hs]; decide)).sees (reads_expect hs).wrap)).mark

theorem reads_multiSelect {parts : List (Token × List (Tree Token))} {align : List (Tree Token)}
    {semi : Token} (hb : SelectBody body) (hne : parts ≠ [])
    (hm : ∀ p ∈ parts, p.1.kind = word .merge) (hp : ∀ p ∈ parts, SelectBody p.2)
    (ha : AtMostOne AlignClause align) (hs : semi.kind = punct .semicolon) :
    Reads rules selectStatement made (Tree.leavesOf body ++ (Tree.leavesOf (merged parts) ++
      (Tree.leavesOf align ++ semi :: rest)))
      (made ++ [.node .multiSelectStatement
        (.node .selectStatement body :: (merged parts ++ (align ++ [.leaf semi])))]) rest := by
  have hsemi : Starts [punct .semicolon] (semi :: rest) := starts_cons (by simp [hs])
  have hmerge : Starts [word .merge]
      (Tree.leavesOf (merged parts) ++ (Tree.leavesOf align ++ semi :: rest)) := by
    obtain ⟨⟨m, first⟩, parts, rfl⟩ := List.exists_cons_of_ne_nil hne
    have hm : m.kind = word .merge := hm (m, first) (by simp)
    exact starts_cons (by simp [hm])
  have halign := starts_atMostOne ha (fun t ht => starts_alignClause ht) hsemi
  have hbody : Reads rules selectBody [] (Tree.leavesOf body ++ (Tree.leavesOf (merged parts) ++
      (Tree.leavesOf align ++ semi :: rest))) body _ :=
    reads_selectBody hb (hmerge.weaken (by decide))
  have hparts : Reads rules _ [.node .selectStatement body] _
      ([.node .selectStatement body] ++ merged parts) _ :=
    reads_merged hm hp (halign.weaken (by decide))
  have haligned := reads_atMostOne ([.node .selectStatement body] ++ merged parts) ha
    (fun t ht => starts_alignClause ht)
    (fun t ht => reads_alignClause ht (hsemi.avoids (by decide))) (hsemi.avoids (by decide))
  have hmulti := hparts.cons (haligned.cons ((reads_expect hs).cons reads_nil))
  have hall : Reads rules selectStatement made _ _ rest :=
    (hbody.seq (.yes hmerge.sees (.seq (.wrap reads_done) hmulti.wrap))).mark
  simpa using hall

theorem reads_datasource {root grain : List (Tree Token)} {d name l r semi : Token}
    {columns source : Tree Token} (hroot : Maybe (word .root) root) (hd : d.kind = word .datasource)
    (hname : name.kind = .ident) (hl : l.kind = punct .leftParen) (hc : ColumnList columns)
    (hr : r.kind = punct .rightParen) (hg : AtMostOne GrainClause grain) (hsource : Source source)
    (hs : semi.kind = punct .semicolon) :
    Reads rules datasource made (Tree.leavesOf root ++ d :: name :: l :: (columns.leaves ++ r ::
      (Tree.leavesOf grain ++ (source.leaves ++ semi :: rest))))
      (made ++ [.node .datasource (root ++ .leaf d :: .leaf name :: .leaf l :: columns :: .leaf r ::
        (grain ++ [source, .leaf semi]))]) rest := by
  have hbehind : Starts [word .address, word .query] (source.leaves ++ semi :: rest) :=
    (starts_source hsource).append
  have hfirst : Reads rules (optional (.sees [word .root]) take) [] (Tree.leavesOf root ++ d ::
      name :: l :: (columns.leaves ++ r :: (Tree.leavesOf grain ++ (source.leaves ++ semi :: rest))))
      root _ := reads_maybe hroot (avoids_cons (by rw [hd]; decide))
  have hcolumns : Reads rules columnList (root ++ [.leaf d] ++ [.leaf name] ++ [.leaf l])
      (columns.leaves ++ r :: (Tree.leavesOf grain ++ (source.leaves ++ semi :: rest))) _ _ :=
    reads_columnList hc (starts_cons (by simp [hr]))
  have hgrain := reads_atMostOne
    (root ++ [.leaf d] ++ [.leaf name] ++ [.leaf l] ++ [columns] ++ [.leaf r]) hg
    (fun t ht => starts_grainClause ht) (fun t ht => reads_grainClause ht)
    (hbehind.avoids (by decide))
  have htail := hgrain.cons ((reads_source hsource).cons ((reads_expect hs).cons reads_nil))
  have hall : Reads rules datasource made _ _ rest :=
    (hfirst.cons ((reads_expect hd).cons ((reads_expect hname).cons ((reads_expect hl).cons
      (hcolumns.cons ((reads_expect hr).cons htail)))))).node
  simpa using hall

theorem reads_asName {asName : List (Tree Token)}
    (h : asName = [] ∨ ∃ a name, a.kind = word .asWord ∧ name.kind = .ident ∧
      asName = [.leaf a, .leaf name]) (hrest : Avoids [word .asWord] rest) :
    Reads rules (optional (.sees [word .asWord]) (seq take (expect .ident))) made
      (Tree.leavesOf asName ++ rest) (made ++ asName) rest := by
  rcases h with rfl | ⟨a, name, ha, hname, rfl⟩
  · simpa [Tree.leavesOf] using reads_skip hrest.sees
  · have hnamed : Reads rules (seq take (expect .ident)) made (a :: name :: rest) _ rest :=
      reads_take.seq (reads_expect hname)
    have hall : Reads rules (optional (.sees [word .asWord]) (seq take (expect .ident))) made
        (a :: name :: rest) _ rest := .optional (starts_cons (by simp [ha])).sees hnamed
    simpa [Tree.leaves, Tree.leavesOf] using hall

theorem reads_importStatement {i path semi : Token} {asName : List (Tree Token)}
    (hpath : path.kind = .ident) (has : asName = [] ∨ ∃ a name, a.kind = word .asWord ∧
      name.kind = .ident ∧ asName = [.leaf a, .leaf name]) (hs : semi.kind = punct .semicolon) :
    Reads rules importStatement made (i :: path :: (Tree.leavesOf asName ++ semi :: rest))
      (made ++ [.node .importStatement (.leaf i :: .leaf path :: (asName ++ [.leaf semi]))])
      rest := by
  have hnamed : Reads rules _ [.leaf i, .leaf path] (Tree.leavesOf asName ++ semi :: rest)
      ([.leaf i, .leaf path] ++ asName) (semi :: rest) :=
    reads_asName has (avoids_cons (by rw [hs]; decide))
  have hall : Reads rules importStatement made
      (i :: path :: (Tree.leavesOf asName ++ semi :: rest)) _ rest :=
    (reads_take.cons ((reads_expect hpath).cons (hnamed.cons
      ((reads_expect hs).cons reads_nil)))).node
  simpa using hall

theorem reads_persistStatement {p target i table f semi : Token} (ht : target.kind = .ident)
    (hi : i.kind = word .into) (htable : table.kind = .ident) (hf : f.kind = word .fromWord)
    (hb : SelectBody body) (hs : semi.kind = punct .semicolon) :
    Reads rules persistStatement made
      (p :: target :: i :: table :: f :: (Tree.leavesOf body ++ semi :: rest))
      (made ++ [.node .persistStatement [.leaf p, .leaf target, .leaf i, .leaf table, .leaf f,
        .node .selectStatement body, .leaf semi]]) rest := by
  have hbody : Reads rules selectBody [] (Tree.leavesOf body ++ semi :: rest) body (semi :: rest) :=
    reads_selectBody hb (starts_cons (by simp [hs, behindBody]))
  exact .node (reads_take.cons ((reads_expect ht).cons ((reads_expect hi).cons
    ((reads_expect htable).cons ((reads_expect hf).cons (hbody.node.cons
      ((reads_expect hs).cons reads_nil)))))))

theorem reads_rawSqlStatement {w l text r semi : Token} (hl : l.kind = punct .leftParen)
    (ht : text.kind = .string) (hr : r.kind = punct .rightParen)
    (hs : semi.kind = punct .semicolon) :
    Reads rules rawSqlStatement made (w :: l :: text :: r :: semi :: rest)
      (made ++ [.node .rawSqlStatement [.leaf w, .leaf l, .leaf text, .leaf r, .leaf semi]])
      rest :=
  .node (reads_take.cons ((reads_expect hl).cons ((reads_expect ht).cons
    ((reads_expect hr).cons ((reads_expect hs).cons reads_nil)))))

/-- A sentence is read, whatever is behind it. -/
theorem reads_sentence (h : Sentence t) :
    Reads rules statement [] (t.leaves ++ rest) [t] rest := by
  cases h with
  | @declaration k name type nullable semi hk hconst hname hdot htype hn hs =>
    have hderived : atDerivation (Look.ahead
        (k :: name :: type :: (Tree.leavesOf nullable ++ semi :: rest))) = false := by
      rw [atDerivation_cons, htype]
      simp [hconst]
    have hproperty : atProperty (Look.ahead
        (k :: name :: type :: (Tree.leavesOf nullable ++ semi :: rest))) = false := by
      rw [atProperty_cons]
      by_cases hp : k.kind = word .property
      · simp [hdot hp]
      · simp [hp]
    have hall : Reads rules statement []
        (k :: name :: type :: (Tree.leavesOf nullable ++ semi :: rest)) _ rest :=
      .yes (starts_cons hk).sees
        (.no hderived (.no hproperty (reads_typedDeclaration hname htype hn hs)))
    simpa [Tree.leaves, Tree.leavesOf, declared] using hall
  | @property k name type nullable semi hk hname hdot htype hn hs =>
    have hderived : atDerivation (Look.ahead
        (k :: name :: type :: (Tree.leavesOf nullable ++ semi :: rest))) = false := by
      rw [atDerivation_cons, htype, hk]
      decide
    have hproperty : atProperty (Look.ahead
        (k :: name :: type :: (Tree.leavesOf nullable ++ semi :: rest))) = true := by
      rw [atProperty_cons, hk, hname, hdot]
      rfl
    have hall : Reads rules statement []
        (k :: name :: type :: (Tree.leavesOf nullable ++ semi :: rest)) _ rest :=
      .yes (starts_cons (by rw [hk]; decide)).sees
        (.no hderived (.yes hproperty (reads_typedDeclaration hname htype hn hs)))
    simpa [Tree.leaves, Tree.leavesOf, declared] using hall
  | @derivation k name arrow a semi hk hname harrow ha hs =>
    have hderived : atDerivation (Look.ahead
        (k :: name :: arrow :: (a.leaves ++ semi :: rest))) = true := by
      rw [atDerivation_cons, harrow]
      simp
    have hall : Reads rules statement [] (k :: name :: arrow :: (a.leaves ++ semi :: rest)) _ rest :=
      .yes (starts_cons hk).sees (.yes hderived (reads_derivation hname harrow ha hs))
    simpa [Tree.leaves, Tree.leavesOf] using hall
  | @datasource root d name l columns r grain source semi hroot hd hname hl hc hr hg hsource hs =>
    have hstart : Starts [word .root, word .datasource] (Tree.leavesOf root ++ d :: name :: l ::
        (columns.leaves ++ r :: (Tree.leavesOf grain ++ (source.leaves ++ semi :: rest)))) := by
      rcases hroot with rfl | ⟨u, hu, rfl⟩
      · exact starts_cons (by simp [hd])
      · exact starts_cons (by simp [hu])
    have hall : Reads rules statement [] _ _ rest :=
      .no (hstart.avoids (by decide)).sees
        (.yes hstart.sees (reads_datasource hroot hd hname hl hc hr hg hsource hs))
    simpa [Tree.leaves, Tree.leavesOf] using hall
  | @importing i path asName semi hi hpath has hs =>
    have hstart : Starts [word .importWord] (i :: path :: (Tree.leavesOf asName ++ semi :: rest)) :=
      starts_cons (by simp [hi])
    have hall : Reads rules statement [] (i :: path :: (Tree.leavesOf asName ++ semi :: rest)) _ rest :=
      .no (hstart.avoids (by decide)).sees (.no (hstart.avoids (by decide)).sees
        (.yes hstart.sees (reads_importStatement hpath has hs)))
    simpa [Tree.leaves, Tree.leavesOf] using hall
  | @select body semi hb hs =>
    have hstart : Starts [word .select] (Tree.leavesOf body ++ semi :: rest) :=
      (starts_selectBody hb).append
    have hall : Reads rules statement [] (Tree.leavesOf body ++ semi :: rest) _ rest :=
      .no (hstart.avoids (by decide)).sees (.no (hstart.avoids (by decide)).sees
        (.no (hstart.avoids (by decide)).sees (.yes hstart.sees (reads_selectStatement hb hs))))
    simpa [Tree.leaves, Tree.leavesOf] using hall
  | @merge body parts align semi hb hne hm hp ha hs =>
    have hstart : Starts [word .select] (Tree.leavesOf body ++ (Tree.leavesOf (merged parts) ++
        (Tree.leavesOf align ++ semi :: rest))) := (starts_selectBody hb).append
    have hall : Reads rules statement [] _ _ rest :=
      .no (hstart.avoids (by decide)).sees (.no (hstart.avoids (by decide)).sees
        (.no (hstart.avoids (by decide)).sees
          (.yes hstart.sees (reads_multiSelect hb hne hm hp ha hs))))
    simpa [Tree.leaves, Tree.leavesOf] using hall
  | @persist p target i table f body semi hp ht hi htable hf hb hs =>
    have hstart : Starts [word .persist]
        (p :: target :: i :: table :: f :: (Tree.leavesOf body ++ semi :: rest)) :=
      starts_cons (by simp [hp])
    have hall : Reads rules statement []
        (p :: target :: i :: table :: f :: (Tree.leavesOf body ++ semi :: rest)) _ rest :=
      .no (hstart.avoids (by decide)).sees (.no (hstart.avoids (by decide)).sees
        (.no (hstart.avoids (by decide)).sees (.no (hstart.avoids (by decide)).sees
          (.yes hstart.sees (reads_persistStatement ht hi htable hf hb hs)))))
    simpa [Tree.leaves, Tree.leavesOf] using hall
  | @rawSql w l text r semi hw hl ht hr hs =>
    have hstart : Starts [word .rawSql] (w :: l :: text :: r :: semi :: rest) :=
      starts_cons (by simp [hw])
    exact .no (hstart.avoids (by decide)).sees (.no (hstart.avoids (by decide)).sees
      (.no (hstart.avoids (by decide)).sees (.no (hstart.avoids (by decide)).sees
        (.no (hstart.avoids (by decide)).sees
          (.yes hstart.sees (reads_rawSqlStatement hl ht hr hs))))))

end Sentences
end Grammar
end ConceptQuery
