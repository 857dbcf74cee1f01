import ConceptQuery.Proofs.Anticipated
import ConceptQuery.Proofs.Names

/-! # Statements that the compiler understands

For each form of a sentence, what the compiler looks for is there. The errors left
are the anticipated ones.
-/
namespace ConceptQuery.Compile
open Grammar

/-- A result with no error but an anticipated one. -/
abbrev Fine {α : Type} (flaw : Flaw) : Except CompileError α → Prop :=
  Ends (fun _ => True) (CompileError.Anticipated flaw)

/-- A step with no error but an anticipated one, whatever the environment. -/
abbrev Build.Fine {α : Type} (flaw : Flaw) (step : Build α) : Prop :=
  Build.Ensures (fun _ => True) step (fun _ _ => True) (CompileError.Anticipated flaw)

section Parts
variable {flaw : Flaw} {text : List Char} {t : Tree Token} {kind : NodeKind}
  {cs : List (Tree Token)}

theorem ends_need {α : Type} {rule message : String} {line : Nat} {value : Option α} {a : α}
    {bad : CompileError → Prop} (h : value = some a) :
    Ends (fun b => b = a) bad (need rule line message value) := by
  rw [h]
  rfl

theorem fine_orFail {α : Type} {x : Except CompileError α} (h : Fine flaw x) :
    Sound flaw (orFail x) :=
  Ends.orFail h

theorem fine_resolveNow (env : Environment) (name : String) (line : Nat) :
    Fine flaw (resolveNow env name line) := by
  unfold resolveNow
  split
  · trivial
  · trivial

theorem fine_resolveLeaves (env : Environment) (line : Nat) (leaves : List Leaf) :
    Fine flaw (resolveLeaves env line leaves) := by
  have hall : ∀ x ∈ leaves.map (fun l => resolveNow env l.text (leafLine l line)), Fine flaw x := by
    intro x hx
    obtain ⟨l, -, rfl⟩ := List.mem_map.mp hx
    exact fine_resolveNow _ _ _
  exact ends_inSequence hall

theorem fine_exprNow {env : Environment} {l : Level} (h : Phrase l t) (hs : t.Spelled) :
    Fine flaw (exprNow env (t.placed text)) :=
  Ends.mapError (sound_expr h hs)

theorem kindOf_purpose {k : Token} (hk : k.kind ∈ purposes) (parent : NodeKind) :
    Leaf.kindOf parent k.kind = .keyword := by
  simp only [purposes, List.mem_cons, List.not_mem_nil, or_false] at hk
  rcases hk with h | h | h | h | h <;> rw [h] <;> rfl

theorem fine_purposeOf {k : Token} {us : List Token} (h : t.words = k :: us)
    (hk : k.kind ∈ purposes) (hs : k.kind.Spells k.text.toList) :
    Fine flaw (purposeOf (t.placed text)) := by
  have hfind : (t.placed text).ownLeaves.find? (fun l => l.kind = .keyword) =
      some (Leaf.ofToken text t.kind k) := by
    rw [Tree.ownLeaves_placed, h, List.map_cons, List.find?_cons_of_pos]
    simp [Leaf.ofToken, kindOf_purpose hk]
  obtain ⟨purpose, hp⟩ := Option.isSome_iff_exists.mp (text_satisfies purposes_satisfy hk hs)
  apply (ends_need hfind).bind
  rintro leaf rfl
  exact (ends_need hp).weaken (fun _ _ => trivial) (fun _ h => h)

theorem head?_identifiers {name : Token} {us : List Token} (hd : kind ≠ .datatype)
    (hl : kind ≠ .typeLiteral)
    (h : ((Tree.wordsOf cs).filter fun u => u.kind = .ident) = name :: us) :
    ((Tree.node kind cs).placed text).identifiers.head? =
      some (Leaf.ofToken text kind name) := by
  rw [Tree.identifiers_placed text cs hd hl, h]
  rfl

theorem ends_nameOf {name : Token} {us : List Token} (hd : kind ≠ .datatype)
    (hl : kind ≠ .typeLiteral)
    (h : ((Tree.wordsOf cs).filter fun u => u.kind = .ident) = name :: us) (rule : String) :
    Ends (fun leaf => leaf = Leaf.ofToken text kind name) (CompileError.Anticipated flaw)
      (nameOf ((Tree.node kind cs).placed text) rule) :=
  ends_need (head?_identifiers hd hl h)

theorem fine_datatypeOf {type : Token} (h : t.child? .datatype = some (.node .datatype [.leaf type]))
    (htype : type.kind = .ident) : Fine flaw (datatypeOf (t.placed text)) := by
  have hleaf : (((t.placed text).child? .datatype).bind fun d => d.ownLeaves.head?) =
      some (Leaf.ofToken text .datatype type) := by
    rw [Tree.child?_placed, h, Option.map_some, Option.bind_some, Tree.ownLeaves_placed]
    simp [Tree.wordsOf, htype, TokenKind.isTrivia, Tree.kind]
  apply (ends_need hleaf).bind
  rintro leaf rfl
  split
  · trivial
  · trivial

end Parts

section Declarations
variable {flaw : Flaw} {text : List Char} {env : Environment} {lines : List (List Char)}
variable {k name type semi : Token} {nullable : List (Tree Token)}

theorem purpose_ne_ident (hk : k.kind ∈ purposes) : k.kind ≠ .ident := by
  intro h
  rw [h] at hk
  revert hk
  decide

theorem wordsOf_declared (hk : k.kind ∈ purposes) :
    Tree.wordsOf (declared k name type nullable semi) =
      k :: Tree.wordsOf (.leaf name :: (nullable ++ [.leaf semi])) := by
  rw [declared, Tree.wordsOf_leaf (notTrivia hk (by decide))]
  simp [Tree.wordsOf]

theorem names_declared (hk : k.kind ∈ purposes) (hname : name.kind = .ident)
    (hn : Maybe (punct .question) nullable) (hs : semi.kind = punct .semicolon) :
    ((Tree.wordsOf (declared k name type nullable semi)).filter fun u => u.kind = .ident) =
      name :: [] := by
  rw [wordsOf_declared hk]
  rcases hn with rfl | ⟨q, hq, rfl⟩
  · simp [Tree.wordsOf, purpose_ne_ident hk, hname, hs, TokenKind.isTrivia]
  · simp [Tree.wordsOf, purpose_ne_ident hk, hname, hs, hq, TokenKind.isTrivia]

theorem datatype_declared {kind : NodeKind} :
    (Tree.node kind (declared k name type nullable semi)).child? .datatype =
      some (.node .datatype [.leaf type]) :=
  rfl

theorem fine_purposeOf_declared {kind : NodeKind} (hk : k.kind ∈ purposes)
    (hspelled : (Tree.node kind (declared k name type nullable semi)).Spelled) :
    Fine flaw (purposeOf ((Tree.node kind (declared k name type nullable semi)).placed text)) := by
  have hwords : (Tree.node kind (declared k name type nullable semi)).words =
      k :: Tree.wordsOf (.leaf name :: (nullable ++ [.leaf semi])) := wordsOf_declared hk
  exact fine_purposeOf hwords hk (hspelled.leaf (by simp [declared]))

theorem fine_declaredConcept (hk : k.kind ∈ purposes) (hname : name.kind = .ident)
    (htype : type.kind = .ident) (hn : Maybe (punct .question) nullable)
    (hs : semi.kind = punct .semicolon)
    (hspelled : (Tree.node .conceptDeclaration (declared k name type nullable semi)).Spelled) :
    Fine flaw (declaredConcept lines env
      ((Tree.node .conceptDeclaration (declared k name type nullable semi)).placed text)) := by
  refine (fine_purposeOf_declared hk hspelled).bind fun _ _ => ?_
  refine (ends_nameOf (by decide) (by decide) (names_declared hk hname hn hs) _).bind fun _ _ => ?_
  exact (fine_datatypeOf datatype_declared htype).bind fun _ _ => trivial

theorem sound_property (hk : k.kind = word .property) (hname : name.kind = .ident)
    (hdot : Dotted.isDotted name.text = true) (htype : type.kind = .ident)
    (hn : Maybe (punct .question) nullable) (hs : semi.kind = punct .semicolon)
    (hspelled : (Tree.node .propertyDeclaration (declared k name type nullable semi)).Spelled) :
    Sound flaw (derivedConcept lines env
      ((Tree.node .propertyDeclaration (declared k name type nullable semi)).placed text)) := by
  have hk : k.kind ∈ purposes := by
    rw [hk]
    decide
  obtain ⟨parent, last, hsplit⟩ := Dotted.splitLast?_isSome hdot
  refine (fine_orFail (fine_purposeOf_declared hk hspelled)).bind fun purpose _ => ?_
  refine (Ends.orFail
    (ends_nameOf (by decide) (by decide) (names_declared hk hname hn hs) _)).bind ?_
  rintro leaf rfl
  have hproperty : Sound flaw (propertyConcept env
      ((Tree.node .propertyDeclaration (declared k name type nullable semi)).placed text) purpose
      (Leaf.ofToken text .propertyDeclaration name)) := by
    refine (Ends.orFail (ends_need hsplit)).bind ?_
    rintro _ rfl
    refine (sound_resolveLater parent).bind fun _ _ => ?_
    exact (fine_orFail (fine_datatypeOf datatype_declared htype)).bind fun _ _ => trivial
  simp only [Tree.kind]
  exact hproperty.bind fun _ _ => trivial

section Derivations
variable {arrow : Token} {a : Tree Token} (hk : k.kind ∈ purposes) (hname : name.kind = .ident)
  (harrow : arrow.kind = punct .leftArrow) (ha : Phrase .disjunction a)
  (hs : semi.kind = punct .semicolon)
include hk hname harrow ha hs

theorem words_derivation : (Tree.node .conceptDerivation
    [.leaf k, .leaf name, .leaf arrow, a, .leaf semi]).words = k :: name :: arrow :: semi :: [] := by
  rw [Tree.words_node, Tree.wordsOf_leaf (notTrivia hk (by decide)),
    Tree.wordsOf_leaf (by rw [hname]; rfl), Tree.wordsOf_leaf (by rw [harrow]; rfl),
    wordsOf_phrase ha, Tree.wordsOf_leaf (by rw [hs]; rfl), Tree.wordsOf_nil]

theorem names_derivation :
    ((Tree.wordsOf [.leaf k, .leaf name, .leaf arrow, a, .leaf semi]).filter
      fun u => u.kind = .ident) = name :: [] := by
  rw [← Tree.words_node .conceptDerivation, words_derivation hk hname harrow ha hs]
  simp [purpose_ne_ident hk, hname, harrow, hs]

theorem sound_derivation (hspelled : (Tree.node .conceptDerivation
      [.leaf k, .leaf name, .leaf arrow, a, .leaf semi]).Spelled) :
    Sound flaw (derivedConcept lines env ((Tree.node .conceptDerivation
      [.leaf k, .leaf name, .leaf arrow, a, .leaf semi]).placed text)) := by
  have hwords := words_derivation hk hname harrow ha hs
  have hnames := names_derivation hk hname harrow ha hs
  have hnode : ((Tree.node .conceptDerivation
      [.leaf k, .leaf name, .leaf arrow, a, .leaf semi]).placed text).nodes.head? =
        some (a.placed text) := by
    rw [Tree.nodes_placed, Tree.nodes_node]
    simp [filter_isNode_phrase ha]
  refine (fine_orFail (fine_purposeOf hwords hk (hspelled.leaf (by simp)))).bind
    fun purpose _ => ?_
  refine (Ends.orFail (ends_nameOf (by decide) (by decide) hnames _)).bind fun leaf _ => ?_
  have hlineage : Sound flaw (lineageConcept env ((Tree.node .conceptDerivation
      [.leaf k, .leaf name, .leaf arrow, a, .leaf semi]).placed text) purpose leaf) := by
    refine (Ends.orFail (ends_need hnode)).bind ?_
    rintro _ rfl
    exact (sound_expr ha (hspelled.child (by simp))).bind fun _ _ => trivial
  simp only [Tree.kind]
  exact hlineage.bind fun _ _ => trivial

end Derivations
end Declarations
end ConceptQuery.Compile
