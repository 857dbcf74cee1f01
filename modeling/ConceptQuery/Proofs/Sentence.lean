import ConceptQuery.Proofs.Phrase

/-! # Trees of statements

`Sentence` is the grammar of statements as a property of trees without trivia. A
document without faults is a list of sentences: `sentences_of_parsed`.
-/
namespace ConceptQuery.Grammar
open Rule

/-- One token of this kind. -/
def Single (kind : TokenKind) (xs : List (Tree Token)) : Prop :=
  ∃ t, t.kind = kind ∧ xs = [.leaf t]

/-- A single tree with this property. -/
def One (P : Tree Token → Prop) (xs : List (Tree Token)) : Prop :=
  ∃ t, xs = [t] ∧ P t

/-- Nothing, or a single tree with this property. -/
def AtMostOne (P : Tree Token → Prop) (xs : List (Tree Token)) : Prop :=
  xs = [] ∨ One P xs

inductive SelectItem : Tree Token → Prop where
  | plain {hidden : List Token} {t} (hh : ∀ u ∈ hidden, u.kind = punct .minusMinus)
      (ht : t.kind = .ident) :
      SelectItem (.node .selectItem
        (hidden.map .leaf ++ [.node .conceptAssignment [.leaf t]]))
  | transform {hidden : List Token} {a arrow name}
      (hh : ∀ u ∈ hidden, u.kind = punct .minusMinus) (ha : Phrase .disjunction a)
      (harrow : arrow.kind = punct .arrow) (hname : name.kind = .ident) :
      SelectItem (.node .selectItem
        (hidden.map .leaf ++ [.node .selectTransform [a, .leaf arrow, .leaf name]]))

inductive WhereClause : Tree Token → Prop where
  | intro {w a} (hw : w.kind = word .whereWord) (ha : Phrase .disjunction a) :
      WhereClause (.node .whereClause [.leaf w, a])

inductive OrderItem : Tree Token → Prop where
  | intro {a direction} (ha : Phrase .disjunction a)
      (hd : direction = [] ∨ ∃ d, d.kind ∈ [word .asc, word .desc] ∧ direction = [.leaf d]) :
      OrderItem (.node .orderItem (a :: direction))

inductive OrderByClause : Tree Token → Prop where
  | intro {o b items} (ho : o.kind = word .order) (hb : b.kind = word .byWord)
      (hi : Listed (punct .comma) (One OrderItem) items) :
      OrderByClause (.node .orderByClause (.leaf o :: .leaf b :: items))

inductive LimitClause : Tree Token → Prop where
  | intro {l count} (hl : l.kind = word .limit) (hc : count.kind = .integer) :
      LimitClause (.node .limitClause [.leaf l, .leaf count])

/-- A select without the semicolon. -/
inductive SelectBody : List (Tree Token) → Prop where
  | intro {s items comma condition ordering limit} (hs : s.kind = word .select)
      (hi : Listed (punct .comma) (One SelectItem) items) (hc : Maybe (punct .comma) comma)
      (hw : AtMostOne WhereClause condition) (ho : AtMostOne OrderByClause ordering)
      (hl : AtMostOne LimitClause limit) :
      SelectBody (.leaf s :: (items ++ (comma ++ (condition ++ (ordering ++ limit)))))

inductive AlignItem : Tree Token → Prop where
  | intro {name colon concepts} (hn : name.kind = .ident) (hc : colon.kind = punct .colon)
      (hi : Listed (punct .comma)
        (fun xs => ∃ t, t.kind = .ident ∧ xs = [.node .conceptLiteral [.leaf t]]) concepts) :
      AlignItem (.node .alignItem (.leaf name :: .leaf colon :: concepts))

inductive AlignClause : Tree Token → Prop where
  | intro {a items} (ha : a.kind = word .align) (hi : Listed (word .and) (One AlignItem) items) :
      AlignClause (.node .alignClause (.leaf a :: items))

/-- A column of a datasource, with or without a raw name. -/
inductive Column : List (Tree Token) → Prop where
  | plain {t} (ht : t.kind = .ident) : Column [.leaf t]
  | named {raw colon t} (hr : raw.kind ∈ [.ident, .string]) (hc : colon.kind = punct .colon)
      (ht : t.kind = .ident) :
      Column [.node .columnAlias [.leaf raw, .leaf colon], .leaf t]

inductive ColumnList : Tree Token → Prop where
  | intro {columns comma} (hi : Listed (punct .comma) Column columns)
      (hc : Maybe (punct .comma) comma) : ColumnList (.node .columnList (columns ++ comma))

inductive GrainClause : Tree Token → Prop where
  | intro {g l concepts r} (hg : g.kind = word .grain) (hl : l.kind = punct .leftParen)
      (hi : Listed (punct .comma) (Single .ident) concepts) (hr : r.kind = punct .rightParen) :
      GrainClause (.node .grainClause (.leaf g :: enclosed l concepts r))

/-- Where the rows of a datasource come from. -/
inductive Source : Tree Token → Prop where
  | table {a t} (ha : a.kind = word .address) (ht : t.kind = .ident) :
      Source (.node .addressClause [.leaf a, .leaf t])
  | query {q t} (hq : q.kind = word .query) (ht : t.kind = .string) :
      Source (.node .queryClause [.leaf q, .leaf t])

/-- The children of a declaration with a type. -/
def declared (keyword name type : Token) (nullable : List (Tree Token)) (semicolon : Token) :
    List (Tree Token) :=
  .leaf keyword :: .leaf name :: .node .datatype [.leaf type] :: (nullable ++ [.leaf semicolon])

/-- The selects that are merged with a first one. -/
def merged (parts : List (Token × List (Tree Token))) : List (Tree Token) :=
  parts.flatMap fun p => [.leaf p.1, .node .selectStatement p.2]

inductive Sentence : Tree Token → Prop where
  | declaration {k name type nullable semi} (hk : k.kind ∈ purposes) (hconst : k.kind ≠ word .const)
      (hname : name.kind = .ident)
      (hdot : k.kind = word .property → Dotted.isDotted name.text = false)
      (htype : type.kind = .ident) (hn : Maybe (punct .question) nullable)
      (hs : semi.kind = punct .semicolon) :
      Sentence (.node .conceptDeclaration (declared k name type nullable semi))
  | property {k name type nullable semi} (hk : k.kind = word .property) (hname : name.kind = .ident)
      (hdot : Dotted.isDotted name.text = true) (htype : type.kind = .ident)
      (hn : Maybe (punct .question) nullable) (hs : semi.kind = punct .semicolon) :
      Sentence (.node .propertyDeclaration (declared k name type nullable semi))
  | derivation {k name arrow a semi} (hk : k.kind ∈ purposes) (hname : name.kind = .ident)
      (harrow : arrow.kind = punct .leftArrow) (ha : Phrase .disjunction a)
      (hs : semi.kind = punct .semicolon) :
      Sentence (.node .conceptDerivation [.leaf k, .leaf name, .leaf arrow, a, .leaf semi])
  | datasource {root d name l columns r grain source semi} (hroot : Maybe (word .root) root)
      (hd : d.kind = word .datasource) (hname : name.kind = .ident)
      (hl : l.kind = punct .leftParen) (hc : ColumnList columns) (hr : r.kind = punct .rightParen)
      (hg : AtMostOne GrainClause grain) (hsource : Source source)
      (hs : semi.kind = punct .semicolon) :
      Sentence (.node .datasource (root ++ .leaf d :: .leaf name :: .leaf l :: columns :: .leaf r ::
        (grain ++ [source, .leaf semi])))
  | importing {i path asName semi} (hi : i.kind = word .importWord) (hpath : path.kind = .ident)
      (has : asName = [] ∨ ∃ a name, a.kind = word .asWord ∧ name.kind = .ident ∧
        asName = [.leaf a, .leaf name])
      (hs : semi.kind = punct .semicolon) :
      Sentence (.node .importStatement (.leaf i :: .leaf path :: (asName ++ [.leaf semi])))
  | select {body semi} (hb : SelectBody body) (hs : semi.kind = punct .semicolon) :
      Sentence (.node .selectStatement (body ++ [.leaf semi]))
  | merge {body parts align semi} (hb : SelectBody body) (hne : parts ≠ [])
      (hm : ∀ p ∈ parts, p.1.kind = word .merge) (hp : ∀ p ∈ parts, SelectBody p.2)
      (ha : AtMostOne AlignClause align) (hs : semi.kind = punct .semicolon) :
      Sentence (.node .multiSelectStatement
        (.node .selectStatement body :: (merged parts ++ (align ++ [.leaf semi]))))
  | persist {p target i table f body semi} (hp : p.kind = word .persist) (ht : target.kind = .ident)
      (hi : i.kind = word .into) (htable : table.kind = .ident) (hf : f.kind = word .fromWord)
      (hb : SelectBody body) (hs : semi.kind = punct .semicolon) :
      Sentence (.node .persistStatement [.leaf p, .leaf target, .leaf i, .leaf table, .leaf f,
        .node .selectStatement body, .leaf semi])
  | rawSql {w l text r semi} (hw : w.kind = word .rawSql) (hl : l.kind = punct .leftParen)
      (ht : text.kind = .string) (hr : r.kind = punct .rightParen)
      (hs : semi.kind = punct .semicolon) :
      Sentence (.node .rawSqlStatement
        [.leaf w, .leaf l, .leaf text, .leaf r, .leaf semi])

/-- The last child of every statement is its semicolon. -/
theorem Sentence.getLast?_children {t : Tree Token} (h : Sentence t) :
    ∃ semicolon : Token, t.children.getLast? = some (.leaf semicolon) ∧
      semicolon.kind = .punctuation .semicolon := by
  cases h with
  | declaration _ _ _ _ _ _ hs | property _ _ _ _ _ hs =>
    exact ⟨_, by simp [Tree.children, declared, List.getLast?_cons], hs⟩
  | derivation _ _ _ _ hs | datasource _ _ _ _ _ _ _ _ hs | importing _ _ _ hs | select _ hs
  | merge _ _ _ _ _ hs | persist _ _ _ _ _ _ hs | rawSql _ _ _ _ hs =>
    exact ⟨_, by simp [Tree.children, List.getLast?_cons], hs⟩

section Clauses
variable {n : Nat}

theorem adds_maybe {kind : TokenKind} :
    Adds rules n (optional (.sees [kind]) take) (Maybe kind) :=
  adds_optional_take.weaken fun xs h => by simpa [Maybe] using h

/-- A clause that starts with the keyword that was seen. -/
theorem adds_clause {kind : TokenKind} {body : Rule} {Form : List (Tree Token) → Prop}
    (name : NodeKind) (h : Adds rules n body Form) :
    Adds rules n (optional (.sees [kind]) (node name (seq take body)))
      (fun xs => xs = [] ∨ ∃ t inner, t.kind = kind ∧ Form inner ∧
        xs = [.node name (.leaf t :: inner)]) := by
  intro k hk made ts made' ts' hm
  rcases makes_branch.mp hm with ⟨seen, hm⟩ | ⟨-, hm⟩
  · obtain ⟨whole, hbody, rfl⟩ := makes_node.mp hm
    obtain ⟨mid, us, htake, hinner⟩ := makes_seq.mp hbody
    obtain ⟨t, ht, rfl, rfl⟩ := makes_take_of_sees seen htake
    obtain ⟨inner, rfl, hf⟩ := h k hk hinner
    exact ⟨_, rfl, .inr ⟨t, inner, by simpa using ht, hf, by simp⟩⟩
  · obtain ⟨rfl, rfl⟩ := makes_done.mp hm
    exact ⟨[], by simp, .inl rfl⟩

theorem adds_whereClause :
    Adds rules n (optional (.sees [word .whereWord]) whereClause) (AtMostOne WhereClause) :=
  (adds_clause .whereClause (adds_expression n)).weaken fun xs => by
    rintro (rfl | ⟨w, inner, hw, ⟨a, rfl, ha⟩, rfl⟩)
    · exact .inl rfl
    · exact .inr ⟨_, rfl, .intro hw ha⟩

theorem adds_orderItem : Adds rules n orderItem (One OrderItem) :=
  (adds_node (adds_seq (adds_expression n) adds_optional_take)).weaken fun xs => by
    rintro ⟨inner, rfl, _, direction, rfl, ⟨a, rfl, ha⟩, hd⟩
    exact ⟨_, rfl, .intro ha hd⟩

theorem adds_orderByClause :
    Adds rules n (optional (.sees [word .order]) orderByClause) (AtMostOne OrderByClause) :=
  (adds_clause .orderByClause
    (adds_seq adds_expect (adds_seq (adds_separated adds_orderItem) adds_inOrder_nil))).weaken
    fun xs => by
      rintro (rfl | ⟨o, inner, ho, ⟨_, _, rfl, ⟨b, hb, rfl⟩, items, _, rfl, hi, rfl⟩, rfl⟩)
      · exact .inl rfl
      · exact .inr ⟨_, rfl, by simpa using OrderByClause.intro ho hb hi⟩

theorem adds_limitClause :
    Adds rules n (optional (.sees [word .limit]) limitClause) (AtMostOne LimitClause) :=
  (adds_clause .limitClause adds_expect).weaken fun xs => by
    rintro (rfl | ⟨l, inner, hl, ⟨count, hc, rfl⟩, rfl⟩)
    · exact .inl rfl
    · exact .inr ⟨_, rfl, .intro hl hc⟩

theorem adds_tokens {kind : TokenKind} :
    Adds rules n (loop (.sees [kind]) take)
      (fun xs => ∃ us : List Token, (∀ u ∈ us, u.kind = kind) ∧ xs = us.map .leaf) := by
  intro k
  induction k with
  | zero =>
    intro _ made ts made' ts' h
    cases h with
    | last _ => exact ⟨[], by simp, [], by simp, rfl⟩
  | succ k ih =>
    intro hk made ts made' ts' h
    cases h with
    | last _ => exact ⟨[], by simp, [], by simp, rfl⟩
    | round seen first more =>
      obtain ⟨t, ht, rfl, rfl⟩ := makes_take_of_sees seen first
      obtain ⟨new, rfl, us, hus, rfl⟩ := ih (by omega) more
      refine ⟨.leaf t :: us.map .leaf, by simp, t :: us, ?_, by simp⟩
      simpa using ⟨by simpa using ht, hus⟩

/-- An item and rounds of more items, with something behind them. -/
theorem adds_items {look : Look} {separator : TokenKind} {item : Rule} {behind : List Rule}
    {Item Rest : List (Tree Token) → Prop} (hi : Adds rules n item Item)
    (hlook : ∀ ts, look (Look.ahead ts) = true → Look.sees [separator] (Look.ahead ts) = true)
    (hr : Adds rules n (inOrder behind) Rest) :
    Adds rules n (inOrder (item :: loop look (seq take item) :: behind))
      (fun xs => ∃ items rest, xs = items ++ rest ∧ Listed separator Item items ∧ Rest rest) := by
  intro k hk made ts made' ts' h
  simp only [makes_inOrder_cons] at h
  obtain ⟨_, _, hitem, _, _, hrounds, hbehind⟩ := h
  obtain ⟨first, rfl, hfirst⟩ := hi k hk hitem
  obtain ⟨items, rfl, hitems⟩ := listed_of_rounds hi hlook k hk (.one hfirst) hrounds
  obtain ⟨rest, rfl, hrest⟩ := hr k hk hbehind
  exact ⟨items ++ rest, by simp, items, rest, rfl, hitems, hrest⟩

theorem adds_selectTransform :
    Adds rules n (mark (seq expression
      (branch (.sees [punct .arrow]) (wrap .selectTransform (seq take (expect .ident)))
        (refuse [punct .arrow, punct .comma, punct .semicolon]))))
      (fun xs => ∃ a arrow name, Phrase .disjunction a ∧ arrow.kind = punct .arrow ∧
        name.kind = .ident ∧ xs = [.node .selectTransform [a, .leaf arrow, .leaf name]]) := by
  intro k hk made ts made' ts' h
  obtain ⟨inner, hbody, rfl⟩ := makes_mark.mp h
  obtain ⟨mid, us, hexpr, hrest⟩ := makes_seq.mp hbody
  obtain ⟨new, rfl, a, rfl, ha⟩ := adds_expression n k hk hexpr
  rcases makes_branch.mp hrest with ⟨seen, h⟩ | ⟨-, h⟩
  · obtain ⟨whole, hwhole, rfl⟩ := makes_wrap.mp h
    obtain ⟨mid, us, htake, hexpect⟩ := makes_seq.mp hwhole
    obtain ⟨arrow, harrow, rfl, rfl⟩ := makes_take_of_sees seen htake
    obtain ⟨name, hname, rfl, rfl⟩ := makes_expect.mp hexpect
    exact ⟨_, rfl, a, arrow, name, ha, by simpa using harrow, hname, rfl⟩
  · exact absurd h not_makes_refuse

theorem adds_branch {look : Look} {a b : Rule} {Yes No : List (Tree Token) → Prop}
    (ha : Adds rules n a Yes) (hb : Adds rules n b No) :
    Adds rules n (branch look a b) (fun xs => Yes xs ∨ No xs) := by
  intro k hk made ts made' ts' h
  rcases makes_branch.mp h with ⟨-, h⟩ | ⟨-, h⟩
  · obtain ⟨new, rfl, hnew⟩ := ha k hk h
    exact ⟨new, rfl, .inl hnew⟩
  · obtain ⟨new, rfl, hnew⟩ := hb k hk h
    exact ⟨new, rfl, .inr hnew⟩

theorem adds_selectItem : Adds rules n selectItem (One SelectItem) :=
  (adds_node (adds_seq adds_tokens (adds_branch adds_oneToken adds_selectTransform))).weaken
    fun xs => by
      rintro ⟨_, rfl, _, _, rfl, ⟨hidden, hh, rfl⟩,
        ⟨t, ht, rfl⟩ | ⟨a, arrow, name, ha, harrow, hname, rfl⟩⟩
      · exact ⟨_, rfl, .plain hh ht⟩
      · exact ⟨_, rfl, .transform hh ha harrow hname⟩

theorem sees_comma_of_atNextItem (ts : List Token) (h : atNextItem (Look.ahead ts) = true) :
    Look.sees [punct .comma] (Look.ahead ts) = true :=
  (Bool.and_eq_true_iff.mp h).1

theorem adds_selectBody : Adds rules n selectBody SelectBody :=
  (adds_seq adds_expect (adds_items adds_selectItem sees_comma_of_atNextItem
    (adds_seq adds_maybe (adds_seq adds_whereClause (adds_seq adds_orderByClause
      (adds_seq adds_limitClause adds_inOrder_nil)))))).weaken fun xs => by
    rintro ⟨_, _, rfl, ⟨s, hs, rfl⟩, items, _, rfl, hi, comma, _, rfl, hc, condition, _, rfl, hw,
      ordering, _, rfl, ho, limit, _, rfl, hl, rfl⟩
    simpa using SelectBody.intro hs hi hc hw ho hl

theorem adds_alignItem : Adds rules n alignItem (One AlignItem) :=
  (adds_node (adds_seq adds_expect (adds_seq adds_expect
    (adds_seq (adds_separated adds_oneToken) adds_inOrder_nil)))).weaken fun xs => by
    rintro ⟨_, rfl, _, _, rfl, ⟨name, hn, rfl⟩, _, _, rfl, ⟨colon, hc, rfl⟩, concepts, _, rfl, hi,
      rfl⟩
    exact ⟨_, rfl, by simpa using AlignItem.intro hn hc hi⟩

theorem adds_alignClause :
    Adds rules n (optional (.sees [word .align]) alignClause) (AtMostOne AlignClause) :=
  (adds_clause .alignClause (adds_separated adds_alignItem)).weaken fun xs => by
    rintro (rfl | ⟨a, items, ha, hi, rfl⟩)
    · exact .inl rfl
    · exact .inr ⟨_, rfl, .intro ha hi⟩

theorem adds_column : Adds rules n column Column := by
  intro k hk made ts made' ts' h
  obtain ⟨mid, us, halias, hname⟩ := makes_seq.mp h
  obtain ⟨t, ht, rfl, rfl⟩ := makes_expect.mp hname
  rcases makes_branch.mp halias with ⟨seen, hnode⟩ | ⟨-, hdone⟩
  · obtain ⟨seen, seenColon⟩ := Bool.and_eq_true_iff.mp seen
    obtain ⟨raw, rest, rfl, hraw⟩ := Look.sees_ahead seen
    obtain ⟨colon, rest, rfl, hcolon⟩ := Look.thenSees_ahead seenColon
    obtain ⟨inner, hbody, rfl⟩ := makes_node.mp hnode
    obtain ⟨_, _, hfirst, hsecond⟩ := makes_seq.mp hbody
    obtain ⟨rfl, rfl⟩ := makes_take_cons.mp hfirst
    obtain ⟨rfl, rfl⟩ := makes_take_cons.mp hsecond
    exact ⟨_, List.append_assoc _ _ _, .named hraw hcolon ht⟩
  · obtain ⟨rfl, rfl⟩ := makes_done.mp hdone
    exact ⟨_, rfl, .plain ht⟩

theorem sees_comma_of_atNextColumn (ts : List Token) (h : atNextColumn (Look.ahead ts) = true) :
    Look.sees [punct .comma] (Look.ahead ts) = true :=
  (Bool.and_eq_true_iff.mp h).1

theorem adds_columnList : Adds rules n columnList (One ColumnList) :=
  (adds_node (adds_items adds_column sees_comma_of_atNextColumn
    (adds_seq adds_maybe adds_inOrder_nil))).weaken fun xs => by
    rintro ⟨_, rfl, columns, _, rfl, hi, comma, _, rfl, hc, rfl⟩
    exact ⟨_, rfl, by simpa using ColumnList.intro hi hc⟩

theorem adds_grainClause :
    Adds rules n (optional (.sees [word .grain]) grainClause) (AtMostOne GrainClause) :=
  (adds_clause .grainClause (adds_seq adds_expect (adds_seq (adds_separated adds_expect)
    (adds_seq adds_expect adds_inOrder_nil)))).weaken fun xs => by
    rintro (rfl | ⟨g, _, hg, ⟨_, _, rfl, ⟨l, hl, rfl⟩, concepts, _, rfl, hi, _, _, rfl,
      ⟨r, hr, rfl⟩, rfl⟩, rfl⟩)
    · exact .inl rfl
    · exact .inr ⟨_, rfl, .intro hg hl hi hr⟩

theorem adds_source : Adds rules n source (One Source) := by
  intro k hk made ts made' ts' h
  rcases makes_branch.mp h with ⟨seen, h⟩ | ⟨-, h⟩
  · obtain ⟨inner, hbody, rfl⟩ := makes_node.mp h
    obtain ⟨_, _, htake, hexpect⟩ := makes_seq.mp hbody
    obtain ⟨a, ha, rfl, rfl⟩ := makes_take_of_sees seen htake
    obtain ⟨t, ht, rfl, rfl⟩ := makes_expect.mp hexpect
    exact ⟨_, rfl, _, rfl, .table (by simpa using ha) ht⟩
  rcases makes_branch.mp h with ⟨seen, h⟩ | ⟨-, h⟩
  · obtain ⟨inner, hbody, rfl⟩ := makes_node.mp h
    obtain ⟨_, _, htake, hexpect⟩ := makes_seq.mp hbody
    obtain ⟨q, hq, rfl, rfl⟩ := makes_take_of_sees seen htake
    obtain ⟨t, ht, rfl, rfl⟩ := makes_expect.mp hexpect
    exact ⟨_, rfl, _, rfl, .query (by simpa using hq) ht⟩
  · exact absurd h not_makes_refuse

end Clauses

section Statements
variable {n : Nat} {made made' : List (Tree Token)} {ts ts' : List Token}

/-- A node that starts with the keyword that was seen. -/
theorem makes_after_keyword {kinds : List TokenKind} {name : NodeKind} {body : List Rule}
    {Form : List (Tree Token) → Prop} (hbody : Adds rules n (inOrder body) Form)
    (seen : Look.sees kinds (Look.ahead ts) = true)
    (h : Makes rules n (node name (inOrder (take :: body))) made ts made' ts') :
    ∃ t inner, t.kind ∈ kinds ∧ Form inner ∧ made' = made ++ [.node name (.leaf t :: inner)] := by
  obtain ⟨whole, hwhole, rfl⟩ := makes_node.mp h
  obtain ⟨_, _, htake, hrest⟩ := makes_inOrder_cons.mp hwhole
  obtain ⟨t, ht, rfl, rfl⟩ := makes_take_of_sees seen htake
  obtain ⟨inner, rfl, hinner⟩ := hbody n le_rfl hrest
  exact ⟨t, inner, ht, hinner, by simp⟩

theorem makes_typedDeclaration {kind : NodeKind}
    (seen : Look.sees purposes (Look.ahead ts) = true)
    (h : Makes rules n (typedDeclaration kind) made ts made' ts') :
    ∃ k name type nullable semi rest, ts = k :: name :: rest ∧ k.kind ∈ purposes ∧
      name.kind = .ident ∧ type.kind = .ident ∧ Maybe (punct .question) nullable ∧
      semi.kind = punct .semicolon ∧
      made' = made ++ [.node kind (declared k name type nullable semi)] := by
  obtain ⟨whole, hwhole, rfl⟩ := makes_node.mp h
  simp only [makes_inOrder_cons, makes_inOrder_nil, makes_expect] at hwhole
  obtain ⟨_, _, htake, _, _, ⟨name, hname, rfl, rfl⟩, _, _, htype, _, _, hnull, _, _,
    ⟨semi, hs, rfl, rfl⟩, rfl, rfl⟩ := hwhole
  obtain ⟨k, hk, rfl, rfl⟩ := makes_take_of_sees seen htake
  obtain ⟨_, rfl, type, ht, rfl⟩ := adds_oneToken n le_rfl htype
  obtain ⟨nullable, rfl, hn⟩ := adds_maybe n le_rfl hnull
  exact ⟨k, name, type, nullable, semi, _, rfl, hk, hname, ht, hn, hs, by simp [declared]⟩

theorem makes_derivation (seen : Look.sees purposes (Look.ahead ts) = true)
    (h : Makes rules n derivation made ts made' ts') : ∃ t, made' = made ++ [t] ∧ Sentence t := by
  obtain ⟨k, _, hk, ⟨_, _, rfl, ⟨name, hname, rfl⟩, _, _, rfl, ⟨arrow, harrow, rfl⟩, _, _, rfl,
    ⟨a, rfl, ha⟩, _, _, rfl, ⟨semi, hs, rfl⟩, rfl⟩, rfl⟩ :=
    makes_after_keyword (adds_seq adds_expect (adds_seq adds_expect (adds_seq (adds_expression n)
      (adds_seq adds_expect adds_inOrder_nil)))) seen h
  exact ⟨_, rfl, .derivation hk hname harrow ha hs⟩

/-- The look for a declaration with a type says what its words are not. -/
theorem makes_conceptStatement (seen : Look.sees purposes (Look.ahead ts) = true)
    (h : Makes rules n conceptStatement made ts made' ts') :
    ∃ t, made' = made ++ [t] ∧ Sentence t := by
  rcases makes_branch.mp h with ⟨-, h⟩ | ⟨hderived, h⟩
  · exact makes_derivation seen h
  rcases makes_branch.mp h with ⟨hproperty, h⟩ | ⟨hproperty, h⟩
  · obtain ⟨k, name, type, nullable, semi, rest, rfl, -, hname, ht, hn, hs, rfl⟩ :=
      makes_typedDeclaration seen h
    have hlook : k.kind = word .property ∧ Dotted.isDotted name.text = true := by
      simpa [atProperty, Look.ahead, Token.word, hname] using hproperty
    exact ⟨_, rfl, .property hlook.1 hname hlook.2 ht hn hs⟩
  · obtain ⟨k, name, type, nullable, semi, rest, rfl, hk, hname, ht, hn, hs, rfl⟩ :=
      makes_typedDeclaration seen h
    have hconst : k.kind ≠ word .const := by
      intro hc
      simp [atDerivation, Look.ahead, Look.sees, Token.word, hc] at hderived
    have hdot : k.kind = word .property → Dotted.isDotted name.text = false := by
      intro hc
      simpa [atProperty, Look.ahead, Token.word, hname, hc] using hproperty
    exact ⟨_, rfl, .declaration hk hconst hname hdot ht hn hs⟩

theorem adds_datasource : Adds rules n datasource (One Sentence) :=
  (adds_node (adds_seq adds_maybe (adds_seq adds_expect (adds_seq adds_expect (adds_seq adds_expect
    (adds_seq adds_columnList (adds_seq adds_expect (adds_seq adds_grainClause
      (adds_seq adds_source (adds_seq adds_expect adds_inOrder_nil)))))))))).weaken fun xs => by
    rintro ⟨_, rfl, root, _, rfl, hroot, _, _, rfl, ⟨d, hd, rfl⟩, _, _, rfl, ⟨name, hname, rfl⟩,
      _, _, rfl, ⟨l, hl, rfl⟩, _, _, rfl, ⟨columns, rfl, hc⟩, _, _, rfl, ⟨r, hr, rfl⟩, grain, _,
      rfl, hg, _, _, rfl, ⟨source, rfl, hsource⟩, _, _, rfl, ⟨semi, hs, rfl⟩, rfl⟩
    exact ⟨_, rfl, by simpa using Sentence.datasource hroot hd hname hl hc hr hg hsource hs⟩

theorem adds_asName :
    Adds rules n (optional (.sees [word .asWord]) (seq take (expect .ident)))
      (fun xs => xs = [] ∨ ∃ a name, a.kind = word .asWord ∧ name.kind = .ident ∧
        xs = [.leaf a, .leaf name]) := by
  intro k hk made ts made' ts' h
  rcases makes_branch.mp h with ⟨seen, h⟩ | ⟨-, h⟩
  · obtain ⟨_, _, htake, hexpect⟩ := makes_seq.mp h
    obtain ⟨a, ha, rfl, rfl⟩ := makes_take_of_sees seen htake
    obtain ⟨name, hname, rfl, rfl⟩ := makes_expect.mp hexpect
    exact ⟨[.leaf a, .leaf name], by simp, .inr ⟨a, name, by simpa using ha, hname, rfl⟩⟩
  · obtain ⟨rfl, rfl⟩ := makes_done.mp h
    exact ⟨[], by simp, .inl rfl⟩

theorem makes_importStatement (seen : Look.sees [word .importWord] (Look.ahead ts) = true)
    (h : Makes rules n importStatement made ts made' ts') :
    ∃ t, made' = made ++ [t] ∧ Sentence t := by
  obtain ⟨i, _, hi, ⟨_, _, rfl, ⟨path, hpath, rfl⟩, asName, _, rfl, has, _, _, rfl,
    ⟨semi, hs, rfl⟩, rfl⟩, rfl⟩ :=
    makes_after_keyword (adds_seq adds_expect (adds_seq adds_asName
      (adds_seq adds_expect adds_inOrder_nil))) seen h
  exact ⟨_, rfl, by simpa using Sentence.importing (by simpa using hi) hpath has hs⟩

theorem makes_persistStatement (seen : Look.sees [word .persist] (Look.ahead ts) = true)
    (h : Makes rules n persistStatement made ts made' ts') :
    ∃ t, made' = made ++ [t] ∧ Sentence t := by
  obtain ⟨p, _, hp, ⟨_, _, rfl, ⟨target, ht, rfl⟩, _, _, rfl, ⟨i, hi, rfl⟩, _, _, rfl,
    ⟨table, htable, rfl⟩, _, _, rfl, ⟨f, hf, rfl⟩, _, _, rfl, ⟨body, rfl, hb⟩, _, _, rfl,
    ⟨semi, hs, rfl⟩, rfl⟩, rfl⟩ :=
    makes_after_keyword (adds_seq adds_expect (adds_seq adds_expect (adds_seq adds_expect
      (adds_seq adds_expect (adds_seq (adds_node adds_selectBody)
        (adds_seq adds_expect adds_inOrder_nil)))))) seen h
  exact ⟨_, rfl, .persist (by simpa using hp) ht hi htable hf hb hs⟩

theorem makes_rawSqlStatement (seen : Look.sees [word .rawSql] (Look.ahead ts) = true)
    (h : Makes rules n rawSqlStatement made ts made' ts') :
    ∃ t, made' = made ++ [t] ∧ Sentence t := by
  obtain ⟨w, _, hw, ⟨_, _, rfl, ⟨l, hl, rfl⟩, _, _, rfl, ⟨text, ht, rfl⟩, _, _, rfl,
    ⟨r, hr, rfl⟩, _, _, rfl, ⟨semi, hs, rfl⟩, rfl⟩, rfl⟩ :=
    makes_after_keyword (adds_seq adds_expect (adds_seq adds_expect (adds_seq adds_expect
      (adds_seq adds_expect adds_inOrder_nil)))) seen h
  exact ⟨_, rfl, .rawSql (by simpa using hw) hl ht hr hs⟩

/-- The selects behind a first one; there are some if a `merge` was seen. -/
theorem makes_merged : ∀ k ≤ n, ∀ {made ts made' ts'},
    Makes rules k (loop (.sees [word .merge]) (seq take (node .selectStatement selectBody)))
      made ts made' ts' →
    ∃ parts, made' = made ++ merged parts ∧ (∀ p ∈ parts, p.1.kind = word .merge) ∧
      (∀ p ∈ parts, SelectBody p.2) ∧
      (parts = [] → Look.sees [word .merge] (Look.ahead ts) = false) := by
  intro k
  induction k with
  | zero =>
    intro _ made ts made' ts' h
    cases h with
    | last h => exact ⟨[], by simp [merged], by simp, by simp, fun _ => h⟩
  | succ k ih =>
    intro hk made ts made' ts' h
    cases h with
    | last h => exact ⟨[], by simp [merged], by simp, by simp, fun _ => h⟩
    | round seen first more =>
      obtain ⟨_, _, htake, hnode⟩ := makes_seq.mp first
      obtain ⟨m, hm, rfl, rfl⟩ := makes_take_of_sees seen htake
      obtain ⟨_, rfl, body, rfl, hbody⟩ := adds_node adds_selectBody _ hk hnode
      obtain ⟨parts, rfl, hmerge, hparts, -⟩ := ih (by omega) more
      refine ⟨(m, body) :: parts, by simp [merged], ?_, ?_, by simp⟩
      · simpa using ⟨by simpa using hm, fun a b hp => hmerge (a, b) hp⟩
      · simpa using ⟨hbody, fun a b hp => hparts (a, b) hp⟩

theorem makes_selectStatement (h : Makes rules n selectStatement made ts made' ts') :
    ∃ t, made' = made ++ [t] ∧ Sentence t := by
  obtain ⟨inner, hall, rfl⟩ := makes_mark.mp h
  obtain ⟨_, us, hbody, hrest⟩ := makes_seq.mp hall
  obtain ⟨body, rfl, hb⟩ := adds_selectBody n le_rfl hbody
  rcases makes_branch.mp hrest with ⟨seen, h⟩ | ⟨-, h⟩
  · obtain ⟨_, _, hfirst, hmulti⟩ := makes_seq.mp h
    obtain ⟨_, hdone, rfl⟩ := makes_wrap.mp hfirst
    obtain ⟨rfl, rfl⟩ := makes_done.mp hdone
    obtain ⟨_, hwhole, rfl⟩ := makes_wrap.mp hmulti
    simp only [makes_inOrder_cons, makes_inOrder_nil, makes_expect] at hwhole
    obtain ⟨_, _, hloop, _, _, halign, _, _, ⟨semi, hs, rfl, rfl⟩, rfl, rfl⟩ := hwhole
    obtain ⟨parts, rfl, hm, hp, hne⟩ := makes_merged n le_rfl hloop
    obtain ⟨align, rfl, ha⟩ := adds_alignClause n le_rfl halign
    refine ⟨_, rfl, ?_⟩
    have hne : parts ≠ [] := fun he => by
      rw [hne he] at seen
      cases seen
    simpa using Sentence.merge hb hne hm hp ha hs
  · obtain ⟨_, hwhole, rfl⟩ := makes_wrap.mp h
    obtain ⟨semi, hs, rfl, rfl⟩ := makes_expect.mp hwhole
    exact ⟨_, rfl, .select hb hs⟩

theorem makes_statement (h : Makes rules n statement made ts made' ts') :
    ∃ t, made' = made ++ [t] ∧ Sentence t := by
  rcases makes_branch.mp h with ⟨seen, h⟩ | ⟨-, h⟩
  · exact makes_conceptStatement seen h
  rcases makes_branch.mp h with ⟨-, h⟩ | ⟨-, h⟩
  · obtain ⟨_, rfl, t, rfl, ht⟩ := adds_datasource n le_rfl h
    exact ⟨t, rfl, ht⟩
  rcases makes_branch.mp h with ⟨seen, h⟩ | ⟨-, h⟩
  · exact makes_importStatement seen h
  rcases makes_branch.mp h with ⟨-, h⟩ | ⟨-, h⟩
  · exact makes_selectStatement h
  rcases makes_branch.mp h with ⟨seen, h⟩ | ⟨-, h⟩
  · exact makes_persistStatement seen h
  rcases makes_branch.mp h with ⟨seen, h⟩ | ⟨-, h⟩
  · exact makes_rawSqlStatement seen h
  · exact absurd h not_makes_refuse

end Statements

theorem sentence_of_readStatement {lexemes rest : List Lexeme} {elements : List (Tree Token)}
    (hl : ∀ l ∈ lexemes, l.Proper) (h : readStatement lexemes = .made elements rest) :
    (∀ l ∈ rest, l.Proper) ∧ ∃ t, Tree.bareAll elements = [t] ∧ Sentence t := by
  obtain ⟨hrest, hm⟩ := makes_of_read _ hl h
  exact ⟨hrest, makes_statement hm⟩

section Documents
variable {textSize fuel : Nat} {l : Lexeme} {lexemes rest : List Lexeme}

theorem readStatements_of_made {elements : List (Tree Token)}
    (h : readStatement (l :: lexemes) = .made elements rest) :
    readStatements textSize (fuel + 1) (l :: lexemes) =
      (elements ++ (readStatements textSize fuel rest).1, (readStatements textSize fuel rest).2) := by
  rw [readStatements, h]
  simp

theorem readStatements_of_stuck {unfinished : Unfinished} {expected : List TokenKind}
    (h : readStatement (l :: lexemes) = .stuck unfinished expected rest) :
    readStatements textSize (fuel + 1) (l :: lexemes) =
      (unfinished.close (.node .error (swallow rest).1) ++
          (readStatements textSize fuel (swallow rest).2).1,
        faultAt textSize expected rest :: (readStatements textSize fuel (swallow rest).2).2) := by
  rw [readStatements, h]
  simp

/-- Without faults, the statements that are read are sentences. -/
theorem sentences_of_readStatements (hl : ∀ l ∈ lexemes, l.Proper)
    (h : (readStatements textSize fuel lexemes).2 = []) :
    ∀ t ∈ Tree.bareAll (readStatements textSize fuel lexemes).1, Sentence t := by
  induction fuel generalizing lexemes with
  | zero => simp [readStatements, Tree.bareAll]
  | succ fuel ih =>
    cases lexemes with
    | nil => simp [readStatements, Tree.bareAll]
    | cons l lexemes =>
      cases hr : readStatement (l :: lexemes) with
      | made elements rest =>
        rw [readStatements_of_made hr] at h ⊢
        obtain ⟨hrest, t, ht, hsentence⟩ := sentence_of_readStatement hl hr
        intro u hu
        rw [Tree.bareAll_append, ht] at hu
        rcases List.mem_append.mp hu with hu | hu
        · exact List.mem_singleton.mp hu ▸ hsentence
        · exact ih hrest h u hu
      | stuck unfinished expected rest =>
        rw [readStatements_of_stuck hr] at h
        cases h

end Documents

/-- A document without faults is a list of sentences. -/
theorem sentences_of_parsed {text : String} (h : (Parsed.ofText text).faults = []) :
    ∃ sentences, (Parsed.ofText text).tree.bare = .node .sourceFile sentences ∧
      ∀ t ∈ sentences, Sentence t := by
  refine ⟨_, rfl, ?_⟩
  rw [Tree.bareAll_append, Tree.bareAll_trivia fun t ht =>
    List.mem_takeWhile_imp (p := fun u : Token => u.kind.isTrivia) ht]
  exact sentences_of_readStatements (fun l hl => Lexeme.proper_of_mem_group hl) h

end ConceptQuery.Grammar
