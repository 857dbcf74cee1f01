import Mathlib.Logic.Relation
import ConceptQuery.Compile.Pass
import ConceptQuery.Proofs.Queries

/-! # What compiling a document can end with

Each statement of a document is compiled at once or waits in a slot. Rounds over
the slots leave no concept behind, so only queries reach the last step. Hence a
document that the grammar accepts only ever fails because of its form where a limit in
it is too large or an alignment has more or fewer concepts than selects, and the same
goes for what it imports: `Compilation.error_anticipated`.
-/
namespace ConceptQuery.Compile
open Grammar

/-- The kinds of statements that declare a concept and mention others. -/
def conceptKinds : List NodeKind := [.propertyDeclaration, .conceptDerivation]

/-- The kinds of statements that are compiled last. -/
def queryKinds : List NodeKind :=
  [.selectStatement, .multiSelectStatement, .persistStatement]

/-- The kinds of statements that the first pass may leave. -/
def laterKinds : List NodeKind := conceptKinds ++ .datasource :: queryKinds

/-- The path of an import statement. -/
def importedPath? (node : Tree Leaf) : Option String :=
  if node.kind = .importStatement then node.identifiers.head?.map Leaf.text else none

/-- The paths that a tree has import statements for. -/
def importsOf (tree : Tree Leaf) : List String :=
  tree.nodes.filterMap importedPath?

theorem importedPath?_eq {node : Tree Leaf} (h : node.kind = .importStatement) :
    importedPath? node = node.identifiers.head?.map Leaf.text :=
  if_pos h

/-- A slot that is filled, or has a sentence of one of these kinds in it. -/
def Slot.Holds (flaw : Flaw) (text : List Char) (kinds : List NodeKind) : Slot → Prop
  | .ready _ => True
  | .pending node => ∃ t : Tree Token,
      node = t.placed text ∧ Sentence t ∧ t.Spelled ∧ t.kind ∈ kinds ∧ Admits flaw node

section FirstPass
variable {flaw : Flaw} {text : List Char} {lines : List (List Char)} {importer : Importer}
  {t : Tree Token}

theorem isConceptNode_placed (t : Tree Token) :
    isConceptNode (t.placed text) = true ↔ t.kind ∈ conceptKinds := by
  simp [isConceptNode, Tree.kind_placed, conceptKinds]

/-- A concept that waits for others, or an anticipated error. -/
theorem sound_derivedConcept {env : Environment} (h : Sentence t) (hs : t.Spelled)
    (hk : t.kind ∈ conceptKinds) : Sound flaw (derivedConcept lines env (t.placed text)) := by
  cases h with
  | property hkey hname hdot htype hn hsemi =>
    exact sound_property hkey hname hdot htype hn hsemi hs
  | derivation hkey hname harrow ha hsemi => exact sound_derivation hkey hname harrow ha hsemi hs
  | _ => simp [conceptKinds, Tree.kind] at hk

theorem fine_tryConcept {node : Tree Leaf}
    (h : ∀ env, Sound flaw (derivedConcept lines env node)) :
    Build.Fine flaw (tryConcept lines node) := by
  refine Build.ensures_get.bind fun env => ?_
  intro env' henv'
  have hsound := h env
  cases hc : derivedConcept lines env node with
  | ok c =>
    simp only
    exact ((fine_register c _).bind fun _ => Build.ensures_pure fun _ _ => trivial) env' trivial
  | error b =>
    rw [hc] at hsound
    cases b with
    | unresolved name line => trivial
    | failed e => exact hsound

theorem fine_absorb (module : Environment) (space : String) (line : Nat) :
    Build.Fine flaw (absorb module space line) := by
  refine (Build.ensures_forM fun c _ => fine_addConcept _ _).bind fun _ => ?_
  exact Build.ensures_forM fun d _ => fine_addDatasource _ _

theorem fine_importStatement {node : Tree Leaf} {path : Leaf}
    (h : node.identifiers.head? = some path) (himporter : Fine flaw (importer path.text)) :
    Build.Fine flaw (importStatement importer node) := by
  have hpath : Build.Ensures (fun _ => True) (Build.lift fun _ =>
      need "import_statement" (lineOf node) "missing path" node.identifiers.head?)
      (fun found _ => found = path) (CompileError.Anticipated flaw) :=
    Build.ensures_lift fun env _ => ends_need h
  have himport : ∀ found : Leaf, Build.Ensures (fun _ => found = path)
      (Build.lift fun _ => importer found.text) (fun _ _ => True)
      (CompileError.Anticipated flaw) := by
    intro found
    refine Build.ensures_lift fun env hfound => ?_
    rw [hfound]
    exact himporter
  have hrecord : ∀ r : ImportRecord, Build.Fine flaw (modify fun env => env.addImport r) :=
    fun _ => Build.ensures_modify fun _ _ => trivial
  refine hpath.bind fun found => (himport found).bind fun module => ?_
  refine (fine_absorb module _ _).bind fun _ => ?_
  exact (hrecord _).bind fun _ => Build.ensures_pure fun _ _ => trivial

theorem fine_rawSql {w l u r semi : Token} (hw : w.kind = word .rawSql)
    (hl : l.kind = punct .leftParen) (hu : u.kind = .string) :
    Fine flaw (rawSql ((Tree.node .rawSqlStatement
      [.leaf w, .leaf l, .leaf u, .leaf r, .leaf semi]).placed text)) := by
  have hfind : ((Tree.node .rawSqlStatement
      [.leaf w, .leaf l, .leaf u, .leaf r, .leaf semi]).placed text).ownLeaves.find?
        (fun l => l.kind = .string) = some (Leaf.ofToken text .rawSqlStatement u) := by
    rw [Tree.ownLeaves_placed, Tree.words_node, Tree.wordsOf_leaf (by rw [hw]; rfl),
      Tree.wordsOf_leaf (by rw [hl]; rfl), Tree.wordsOf_leaf (by rw [hu]; rfl)]
    simp [Leaf.ofToken, Leaf.kindOf, hw, hl, hu, Tree.kind, Punctuation.isOperator]
  exact (ends_need hfind).bind fun _ _ => trivial

/-- The first pass compiles a statement or leaves it for later. -/
theorem firstPass_holds
    (himporter : ∀ path, importedPath? (t.placed text) = some path → Fine flaw (importer path))
    (h : Sentence t) (hs : t.Spelled) (hflaw : Admits flaw (t.placed text)) :
    Build.Ensures (fun _ => True) (firstPass importer lines (t.placed text))
      (fun slot _ => slot.Holds flaw text laterKinds) (CompileError.Anticipated flaw) := by
  -- what is left waits as it is
  have hleft : t.kind ∈ laterKinds → Slot.Holds flaw text laterKinds (.pending (t.placed text)) :=
    fun hk => ⟨t, rfl, h, hs, hk, hflaw⟩
  have hconcept : t.kind ∈ conceptKinds →
      Build.Ensures (fun _ => True) (firstPass importer lines (t.placed text))
        (fun slot _ => slot.Holds flaw text laterKinds) (CompileError.Anticipated flaw) := by
    intro hk
    rw [firstPass_of_concept ((isConceptNode_placed t).mpr hk)]
    refine Build.Ensures.map ((fine_tryConcept fun env =>
      sound_derivedConcept h hs hk).weaken (fun _ h => h) fun result _ _ => ?_)
    cases result with
    | ok statement => trivial
    | error name => exact hleft (List.mem_append_left _ hk)
  unfold firstPass
  rw [Tree.kind_placed]
  cases h with
  | declaration hk hconst hname hdot htype hn hsemi =>
    refine (Build.ensures_lift fun env _ =>
      fine_declaredConcept hk hname htype hn hsemi hs).bind fun c => ?_
    refine (fine_register c _).bind fun _ => ?_
    exact Build.ensures_pure fun _ _ => trivial
  | property hk hname hdot htype hn hsemi => exact hconcept (by simp [Tree.kind, conceptKinds])
  | derivation hk hname harrow ha hsemi => exact hconcept (by simp [Tree.kind, conceptKinds])
  | datasource hroot hd hname hl hc hr hg hsource hsemi =>
    exact Build.ensures_pure fun _ _ => hleft (by simp [Tree.kind, laterKinds, queryKinds])
  | @importing i path asName semi hi hpath has hsemi =>
    have hname : ((Tree.node .importStatement
        (.leaf i :: .leaf path :: (asName ++ [.leaf semi]))).placed text).identifiers.head? =
          some (Leaf.ofToken text .importStatement path) := by
      rw [Tree.identifiers_placed text _ (by decide) (by decide),
        Tree.wordsOf_leaf (by rw [hi]; rfl), Tree.wordsOf_leaf (by rw [hpath]; rfl)]
      simp [hi, hpath]
    have himport : Fine flaw (importer (Leaf.ofToken text .importStatement path).text) := by
      apply himporter
      rw [importedPath?_eq rfl, hname]
      rfl
    refine (fine_importStatement hname himport).bind fun _ => ?_
    exact Build.ensures_pure fun _ _ => trivial
  | select hb hsemi =>
    exact Build.ensures_pure fun _ _ => hleft (by simp [Tree.kind, laterKinds, queryKinds])
  | merge hb hne hm hp ha hsemi =>
    exact Build.ensures_pure fun _ _ => hleft (by simp [Tree.kind, laterKinds, queryKinds])
  | persist hp ht hi htable hf hb hsemi =>
    exact Build.ensures_pure fun _ _ => hleft (by simp [Tree.kind, laterKinds, queryKinds])
  | rawSql hw hl hu hr hsemi =>
    refine (Build.ensures_lift fun env _ => fine_rawSql hw hl hu).bind fun _ => ?_
    exact Build.ensures_pure fun _ _ => trivial

end FirstPass

section SecondPass
variable {flaw : Flaw} {text : List Char} {lines : List (List Char)} {slots : List Slot}

/-- A slot in which a concept waits. -/
def Slot.isConcept : Slot → Bool
  | .ready _ => false
  | .pending node => isConceptNode node

/-- How many concepts wait. -/
def waiting (slots : List Slot) : Nat :=
  slots.countP Slot.isConcept

/-- What a round over the slots comes to: no more concepts wait than before, fewer
if one got done, and none if no name blocks. -/
structure RoundSound (flaw : Flaw) (text : List Char) (slots : List Slot) (r : Round) :
    Prop where
  holds : ∀ s ∈ r.slots, s.Holds flaw text laterKinds
  le : waiting r.slots ≤ waiting slots
  lt : r.progressed = true → waiting r.slots < waiting slots
  none : r.blocked = .none → waiting r.slots = 0

theorem sweep_sound (h : ∀ s ∈ slots, s.Holds flaw text laterKinds) :
    Build.Ensures (fun _ => True) (sweep lines slots) (fun r _ => RoundSound flaw text slots r)
      (CompileError.Anticipated flaw) := by
  induction slots with
  | nil => exact Build.ensures_pure fun _ _ => ⟨by simp, le_rfl, by simp, fun _ => rfl⟩
  | cons s slots ih =>
    have hrest := ih fun s hs => h s (by simp [hs])
    cases s with
    | ready statement =>
      refine hrest.bind fun r => Build.ensures_pure fun _ hr => ?_
      exact ⟨List.forall_mem_cons.mpr ⟨trivial, hr.holds⟩, hr.le, hr.lt, hr.none⟩
    | pending node =>
      obtain ⟨t, rfl, hsentence, hspelled, hk, hflaw⟩ := h (.pending node) (by simp)
      have hkeep : Slot.Holds flaw text laterKinds (.pending (t.placed text)) :=
        ⟨t, rfl, hsentence, hspelled, hk, hflaw⟩
      rw [sweep]
      by_cases hc : isConceptNode (t.placed text) = true
      · have hcount : waiting (.pending (t.placed text) :: slots) = waiting slots + 1 :=
          List.countP_cons_of_pos hc
        rw [if_pos hc]
        refine (fine_tryConcept fun env => sound_derivedConcept hsentence hspelled
          ((isConceptNode_placed t).mp hc)).bind fun result => ?_
        cases result with
        | ok statement =>
          refine (hrest.weaken (fun _ _ => trivial) fun _ _ h => h).bind fun r =>
            Build.ensures_pure fun _ hr => ?_
          have hle := hr.le
          refine ⟨List.forall_mem_cons.mpr ⟨trivial, hr.holds⟩, ?_, fun _ => ?_, hr.none⟩
          · rw [hcount]
            exact hle.trans (Nat.le_succ _)
          · rw [hcount]
            exact Nat.lt_succ_of_le hle
        | error name =>
          refine (hrest.weaken (fun _ _ => trivial) fun _ _ h => h).bind fun r =>
            Build.ensures_pure fun _ hr => ?_
          have hcount' : waiting (.pending (t.placed text) :: r.slots) = waiting r.slots + 1 :=
            List.countP_cons_of_pos hc
          refine ⟨List.forall_mem_cons.mpr ⟨hkeep, hr.holds⟩, ?_, fun hp => ?_, by simp⟩
          · rw [hcount, hcount']
            exact Nat.succ_le_succ hr.le
          · rw [hcount, hcount']
            exact Nat.succ_lt_succ (hr.lt hp)
      · have hcount : ∀ more, waiting (.pending (t.placed text) :: more) = waiting more := fun more =>
          List.countP_cons_of_neg hc
        rw [if_neg hc]
        refine hrest.bind fun r => Build.ensures_pure fun _ hr => ?_
        refine ⟨List.forall_mem_cons.mpr ⟨hkeep, hr.holds⟩, ?_, fun hp => ?_, fun hn => ?_⟩
        · rw [hcount, hcount]
          exact hr.le
        · rw [hcount, hcount]
          exact hr.lt hp
        · rw [hcount]
          exact hr.none hn

/-- Each round but the last gets a concept done, so the fuel is enough and no
concept is left. -/
theorem resolvePending_sound {fuel : Nat} (h : ∀ s ∈ slots, s.Holds flaw text laterKinds)
    (hfuel : waiting slots < fuel) :
    Build.Ensures (fun _ => True) (resolvePending lines fuel slots)
      (fun slots _ => (∀ s ∈ slots, s.Holds flaw text laterKinds) ∧ waiting slots = 0)
      (CompileError.Anticipated flaw) := by
  induction fuel generalizing slots with
  | zero => omega
  | succ fuel ih =>
    refine (sweep_sound h).bind fun r => ?_
    cases hb : r.blocked with
    | none => exact Build.ensures_pure fun _ hr => ⟨hr.holds, hr.none hb⟩
    | some name =>
      by_cases hp : r.progressed = true
      · intro env hr
        have hlt := hr.lt hp
        simp only [hp, if_true]
        exact ih hr.holds (by omega) env trivial
      · simp only [hp]
        exact Build.ensures_throw trivial

/-- Whatever the slots hold, a round leaves no more concepts waiting than before, and
fewer if one got done. -/
theorem sweep_waiting (lines : List (List Char)) (slots : List Slot) :
    Build.Ensures (fun _ => True) (sweep lines slots)
      (fun r _ => waiting r.slots ≤ waiting slots ∧
        (r.progressed = true → waiting r.slots < waiting slots)) (fun _ => True) := by
  have hnext : ∀ {α : Type} (step : Build α),
      Build.Ensures (fun _ => True) step (fun _ _ => True) (fun _ => True) := by
    intro α step env _
    split <;> trivial
  induction slots with
  | nil => exact Build.ensures_pure fun _ _ => ⟨le_rfl, by simp⟩
  | cons slot slots ih =>
    cases slot with
    | ready statement => exact ih.bind fun r => Build.ensures_pure fun _ hr => hr
    | pending node =>
      rw [sweep]
      by_cases hc : isConceptNode node = true
      · have hcount : ∀ more, waiting (.pending node :: more) = waiting more + 1 :=
          fun more => List.countP_cons_of_pos hc
        rw [if_pos hc]
        refine (hnext _).bind fun result => ?_
        cases result with
        | ok statement =>
          refine ih.bind fun r => Build.ensures_pure fun _ hr => ?_
          have hle : waiting r.slots < waiting slots + 1 := Nat.lt_succ_of_le hr.1
          rw [hcount]
          exact ⟨hle.le, fun _ => hle⟩
        | error name =>
          refine ih.bind fun r => Build.ensures_pure fun _ hr => ?_
          rw [hcount, hcount]
          exact ⟨Nat.succ_le_succ hr.1, fun hp => Nat.succ_lt_succ (hr.2 hp)⟩
      · have hcount : ∀ more, waiting (.pending node :: more) = waiting more :=
          fun more => List.countP_cons_of_neg hc
        rw [if_neg hc]
        refine ih.bind fun r => Build.ensures_pure fun _ hr => ?_
        rw [hcount, hcount]
        exact hr

/-- Once there are more rounds than concepts that wait, it does not matter how many. -/
theorem resolvePending_fuel {fuel fuel' : Nat} (h : waiting slots < fuel)
    (h' : waiting slots < fuel') :
    resolvePending lines fuel slots = resolvePending lines fuel' slots := by
  induction fuel generalizing fuel' slots with
  | zero => omega
  | succ fuel ih =>
    obtain ⟨fuel', rfl⟩ : ∃ more, fuel' = more + 1 := ⟨fuel' - 1, by omega⟩
    apply ExceptT.ext
    funext env
    change (resolvePending lines (fuel + 1) slots).run.run env =
      (resolvePending lines (fuel' + 1) slots).run.run env
    have hround := sweep_waiting lines slots env trivial
    rw [resolvePending, resolvePending, Build.run_bind, Build.run_bind]
    rcases hs : (sweep lines slots).run.run env with ⟨result, env'⟩
    rw [hs] at hround
    cases result with
    | error e => rfl
    | ok r =>
      dsimp only
      cases hb : r.blocked with
      | none => rfl
      | some name =>
        by_cases hp : r.progressed = true
        · have hlt := hround.2 hp
          have hrest : resolvePending lines fuel r.slots = resolvePending lines fuel' r.slots :=
            ih (by omega) (by omega)
          simp only [if_pos hp, hrest]
        · simp only [if_neg hp]

/-- A datasource has its columns, its grain if there is one, and its source. -/
theorem nodes_datasource {root grain : List (Tree Token)} {d name l r semi : Token}
    {columns source : Tree Token} (hroot : Maybe (word .root) root) (hc : ColumnList columns)
    (hsource : Source source) :
    (Tree.node .datasource (root ++ .leaf d :: .leaf name :: .leaf l :: columns :: .leaf r ::
      (grain ++ [source, .leaf semi]))).nodes =
        columns :: (grain.filter Tree.isNode ++ [source]) := by
  have hcolumnsNode : columns.isNode = true := by
    cases hc
    rfl
  have hsourceNode : source.isNode = true := by
    cases hsource <;> rfl
  rw [Tree.nodes_node, List.filter_append, filter_isNode_maybe hroot]
  simp [List.filter_cons_of_pos, hcolumnsNode, hsourceNode]

theorem fine_datasource_sentence {t : Tree Token} (h : Sentence t) (hk : t.kind = .datasource) :
    Build.Fine flaw (datasource (t.placed text)) := by
  cases h with
  | @datasource root d name l columns r grain source semi hroot hd hname hl hc hr hg hsource hsemi =>
    have hcolumns : SourcePart columns.kind columns := by
      cases hc
      trivial
    have hnodes : (Tree.node .datasource (root ++ .leaf d :: .leaf name :: .leaf l :: columns ::
        .leaf r :: (grain ++ [source, .leaf semi]))).nodes =
          columns :: (grain.filter Tree.isNode ++ [source]) := nodes_datasource hroot hc hsource
    have hwords : ((Tree.node .datasource (root ++ .leaf d :: .leaf name :: .leaf l :: columns ::
        .leaf r :: (grain ++ [source, .leaf semi]))).words.filter fun u => u.kind = .ident) =
          name :: [] := by
      have hgrainWords : Tree.wordsOf grain = [] := by
        rcases hg with rfl | ⟨g, rfl, hg⟩
        · rfl
        · cases hg
          rfl
      have hcolumnsWords : ∀ cs, Tree.wordsOf (columns :: cs) = Tree.wordsOf cs := by
        cases hc
        exact fun _ => rfl
      have hsourceWords : ∀ cs, Tree.wordsOf (source :: cs) = Tree.wordsOf cs := by
        cases hsource <;> exact fun _ => rfl
      rcases hroot with rfl | ⟨q, hq, rfl⟩
      · simp [Tree.wordsOf, hcolumnsWords, hsourceWords, hgrainWords, hd, hname, hl, hr, hsemi,
          TokenKind.isTrivia]
      · simp [Tree.wordsOf, hcolumnsWords, hsourceWords, hgrainWords, hq, hd, hname, hl, hr, hsemi,
          TokenKind.isTrivia]
    refine fine_datasource rfl hwords ?_ (by simp [hnodes]) hsource
    intro n hn
    rw [hnodes] at hn
    rcases List.mem_cons.mp hn with rfl | hn
    · exact hcolumns
    rcases List.mem_append.mp hn with hn | hn
    · cases of_mem_atMostOne hg hn
      trivial
    · rw [List.mem_singleton.mp hn]
      exact sourcePart_of_source hsource
  | _ => simp [Tree.kind] at hk

theorem fine_query {t : Tree Token} (h : Sentence t) (hs : t.Spelled) (hk : t.kind ∈ queryKinds)
    (hflaw : Admits flaw (t.placed text)) : Build.Fine flaw (query (t.placed text)) := by
  unfold query
  rw [Tree.kind_placed]
  cases h with
  | @select body semi hb hsemi =>
    have hnodes : (Tree.node .selectStatement (body ++ [.leaf semi])).nodes =
        body.filter Tree.isNode := by simp
    exact (fine_select (hasClauses_of_body hb hnodes) hs
      fun hhuge => hflaw (.limit (.inl rfl) rfl hhuge)).map
  | merge hb hne hm hp ha hsemi =>
    exact fine_multiSelect rfl (fun n hn => mergePart_of_mem hb hp ha hn) hs hflaw
  | persist hp ht hi htable hf hb hsemi => exact fine_persist hp ht hi htable hf hb hsemi hs hflaw
  | _ => simp [Tree.kind, queryKinds] at hk

/-- After the datasources only queries are left. -/
theorem bindDatasources_sound (h : ∀ s ∈ slots, s.Holds flaw text laterKinds)
    (hwaiting : waiting slots = 0) :
    Build.Ensures (fun _ => True) (bindDatasources slots)
      (fun slots _ => ∀ s ∈ slots, s.Holds flaw text queryKinds)
      (CompileError.Anticipated flaw) := by
  induction slots with
  | nil => exact Build.ensures_pure fun _ _ => by simp
  | cons s slots ih =>
    obtain ⟨hs, hslots⟩ := List.forall_mem_cons.mp h
    cases s with
    | ready statement =>
      refine (ih hslots hwaiting).bind fun more => Build.ensures_pure fun _ hmore => ?_
      exact List.forall_mem_cons.mpr ⟨trivial, hmore⟩
    | pending node =>
      obtain ⟨t, rfl, hsentence, hspelled, hk, hflaw⟩ := hs
      have hconcept : ¬ Slot.isConcept (.pending (t.placed text)) = true :=
        List.countP_eq_zero.mp hwaiting (.pending (t.placed text)) (by simp)
      have hrest := ih hslots (by
        rw [waiting, List.countP_cons_of_neg hconcept] at hwaiting
        exact hwaiting)
      have hmore : ∀ slot : Slot, Build.Ensures (fun _ => slot.Holds flaw text queryKinds)
          (do return slot :: (← bindDatasources slots))
          (fun slots _ => ∀ s ∈ slots, s.Holds flaw text queryKinds)
          (CompileError.Anticipated flaw) := by
        intro slot env hslot
        refine (hrest.bind fun more => Build.ensures_pure fun _ hmore => ?_) env trivial
        exact List.forall_mem_cons.mpr ⟨hslot, hmore⟩
      rw [bindDatasources]
      by_cases hd : (t.placed text).kind = .datasource
      · have hready : Build.Ensures (fun _ => True) (Slot.ready <$> datasource (t.placed text))
            (fun slot _ => slot.Holds flaw text queryKinds) (CompileError.Anticipated flaw) := by
          rw [Tree.kind_placed] at hd
          exact ((fine_datasource_sentence hsentence hd).weaken (fun _ h => h)
            fun _ _ _ => trivial).map
        simp only [hd, if_true]
        exact hready.bind hmore
      · have hkeep : Slot.Holds flaw text queryKinds (.pending (t.placed text)) := by
          refine ⟨t, rfl, hsentence, hspelled, ?_, hflaw⟩
          have hne : t.kind ∉ conceptKinds := fun hc => hconcept ((isConceptNode_placed t).mpr hc)
          rw [Tree.kind_placed] at hd
          rcases List.mem_append.mp hk with hk | hk
          · exact absurd hk hne
          · exact (List.mem_cons.mp hk).resolve_left hd
        simp only [hd]
        exact (Build.ensures_pure fun _ _ => hkeep).bind hmore

theorem finish_sound (h : ∀ s ∈ slots, s.Holds flaw text queryKinds) :
    Build.Fine flaw (finish slots) := by
  induction slots with
  | nil => exact Build.ensures_pure fun _ _ => trivial
  | cons s slots ih =>
    obtain ⟨hs, hslots⟩ := List.forall_mem_cons.mp h
    cases s with
    | ready statement =>
      exact (ih hslots).bind fun _ => Build.ensures_pure fun _ _ => trivial
    | pending node =>
      obtain ⟨t, rfl, hsentence, hspelled, hk, hflaw⟩ := hs
      refine (fine_query hsentence hspelled hk hflaw).bind fun _ => ?_
      exact (ih hslots).bind fun _ => Build.ensures_pure fun _ _ => trivial

theorem fine_secondPass (h : ∀ s ∈ slots, s.Holds flaw text laterKinds) :
    Build.Fine flaw (secondPass lines slots) := by
  have hfuel : waiting slots < slots.length + 1 := Nat.lt_succ_of_le List.countP_le_length
  refine (resolvePending_sound h hfuel).bind fun slots => ?_
  intro env hslots
  refine ((bindDatasources_sound hslots.1 hslots.2).bind fun bound => ?_) env trivial
  intro env hbound
  exact finish_sound hbound env trivial

end SecondPass

section Documents
variable {flaw : Flaw} {importer : Importer} {text : List Char} {b : Builder}

/-- A builder that is prepared and whose slots the second pass can fill. -/
structure Ready (flaw : Flaw) (text : List Char) (b : Builder) : Prop where
  prepared : b.prepared = true
  slots : ∀ s ∈ b.slots, s.Holds flaw text laterKinds

theorem firstPasses_sound {sentences : List (Tree Token)}
    (himporter : ∀ path ∈ (sentences.map (Tree.placed text)).filterMap importedPath?,
      Fine flaw (importer path))
    (h : ∀ t ∈ sentences, Sentence t ∧ t.Spelled)
    (hflaw : ∀ t ∈ sentences, Admits flaw (t.placed text)) (hb : Ready flaw text b) :
    Fine flaw (b.firstPasses importer (sentences.map (Tree.placed text))).1 ∧
      Ready flaw text (b.firstPasses importer (sentences.map (Tree.placed text))).2 := by
  induction sentences generalizing b with
  | nil => exact ⟨trivial, hb⟩
  | cons t sentences ih =>
    obtain ⟨⟨hsentence, hspelled⟩, hrest⟩ := List.forall_mem_cons.mp h
    obtain ⟨hadmits, hflaws⟩ := List.forall_mem_cons.mp hflaw
    rw [List.map_cons] at himporter
    have hhead : ∀ path, importedPath? (t.placed text) = some path → Fine flaw (importer path) :=
      fun path hpath => himporter path (List.mem_filterMap.mpr ⟨_, List.mem_cons_self, hpath⟩)
    have htail : ∀ path ∈ (sentences.map (Tree.placed text)).filterMap importedPath?,
        Fine flaw (importer path) := by
      intro path hpath
      obtain ⟨node, hnode, hnamed⟩ := List.mem_filterMap.mp hpath
      exact himporter path (List.mem_filterMap.mpr ⟨node, List.mem_cons_of_mem _ hnode, hnamed⟩)
    have hpass : Build.Ensures (fun _ => True) (firstPass importer b.lines (t.placed text))
        (fun slot _ => slot.Holds flaw text laterKinds) (CompileError.Anticipated flaw) :=
      firstPass_holds hhead hsentence hspelled hadmits
    have hrun := hpass b.env trivial
    rw [List.map_cons, Builder.firstPasses]
    rcases hr : (firstPass importer b.lines (t.placed text)).run.run b.env with ⟨result, env⟩
    rw [hr] at hrun
    cases result with
    | error e => exact ⟨hrun, hb.prepared, hb.slots⟩
    | ok slot =>
      refine ih htail hrest hflaws ⟨hb.prepared, fun s hs => ?_⟩
      rcases List.mem_append.mp hs with hs | hs
      · exact hb.slots s hs
      · rw [List.mem_singleton.mp hs]
        exact hrun

theorem fine_runSecondPass (hb : Ready flaw text b) : Fine flaw b.runSecondPass.1 := by
  have hpass : Build.Fine flaw (secondPass b.lines b.slots) := fine_secondPass hb.slots
  have hrun := hpass b.env trivial
  rw [Builder.runSecondPass, if_pos hb.prepared]
  rcases hr : (secondPass b.lines b.slots).run.run b.env with ⟨result, env⟩
  rw [hr] at hrun
  cases result with
  | ok statements => trivial
  | error e => exact hrun

section Trees
variable {text : String} {tree : Tree Leaf} (hparse : parse text = .ok tree)
  (himporter : ∀ path ∈ importsOf tree, Fine flaw (importer path))
  (hflaw : ∀ node ∈ tree.nodes, Admits flaw node)
include hparse himporter hflaw

theorem transform_sound (hb : Ready flaw text.toList b) :
    Fine flaw (b.transform importer tree).1 ∧
      Ready flaw text.toList (b.transform importer tree).2 := by
  obtain ⟨sentences, hnodes, hs⟩ := sentences_of_parse hparse
  rw [importsOf, hnodes] at himporter
  rw [hnodes] at hflaw
  rw [Builder.transform, if_pos hb.prepared, hnodes]
  exact firstPasses_sound himporter hs (List.forall_mem_map.mp hflaw) hb

theorem fine_compileText : Fine flaw (compileText importer text tree) := by
  have hready : Ready flaw text.toList (({ env := .initial : Builder }.setText text).prepare) :=
    ⟨rfl, by simp [Builder.prepare]⟩
  obtain ⟨hfine, hnext⟩ := transform_sound hparse himporter hflaw hready
  unfold compileText
  rcases ht : (({ env := .initial : Builder }.setText text).prepare).transform importer tree with
    ⟨result, next⟩
  rw [ht] at hfine hnext
  simp only [ht]
  cases result with
  | error e => exact hfine
  | ok u =>
    have hsecond := fine_runSecondPass hnext
    rcases hr : next.runSecondPass with ⟨result, last⟩
    rw [hr] at hsecond
    simp only [hr]
    cases result with
    | error e => exact hsecond
    | ok statements => trivial

end Trees

/-- A loader that fails only because there is nothing to load. -/
def Loader.OnlyMisses (load : Loader) : Prop :=
  ∀ path e, load path = .error e → ∃ missing reason, e = .importNotFound missing reason

/-- The module behind the first path has an import statement for the second. -/
def Loader.Imports (load : Loader) (p q : String) : Prop :=
  ∃ text tree, load p = .ok text ∧ parse text = .ok tree ∧ q ∈ importsOf tree

/-- A path to which the imports of a document lead. -/
def Loader.Reaches (load : Loader) (document : Tree Leaf) (q : String) : Prop :=
  ∃ p ∈ importsOf document, Relation.ReflTransGen load.Imports p q

/-- The trees that compiling a document comes to: its own, and those of the modules to which
its imports lead. -/
def Loader.Reads (load : Loader) (document tree : Tree Leaf) : Prop :=
  tree = document ∨
    ∃ path text, load.Reaches document path ∧ load path = .ok text ∧ parse text = .ok tree

theorem Loader.Reads.imported {load : Loader} {document module tree : Tree Leaf}
    {path text : String} (hpath : path ∈ importsOf document) (hload : load path = .ok text)
    (hparse : parse text = .ok module) (h : load.Reads module tree) : load.Reads document tree := by
  rcases h with rfl | ⟨last, inner, ⟨first, hfirst, hreach⟩, hinner⟩
  · exact .inr ⟨path, text, ⟨path, hpath, .refl⟩, hload, hparse⟩
  · have himports : load.Imports path first := ⟨text, module, hload, hparse, hfirst⟩
    exact .inr ⟨last, inner, ⟨path, hpath, .head himports hreach⟩, hinner⟩

/-- What is wrong with the form of a statement of the document, or of a module. -/
def Loader.Flaws (load : Loader) (document : Tree Leaf) : Flaw := fun rule line message =>
  ∃ tree, load.Reads document tree ∧ ∃ node ∈ tree.nodes, Flawed node rule line message

theorem Loader.admits_flaws {load : Loader} {document : Tree Leaf} :
    ∀ node ∈ document.nodes, Admits (load.Flaws document) node :=
  fun node hnode _ _ _ h => ⟨document, .inl rfl, node, hnode, h⟩

/-- The flaws of a module are flaws of what imports it. -/
theorem Loader.flaws_imported {load : Loader} {document module : Tree Leaf} {path text : String}
    (hpath : path ∈ importsOf document) (hload : load path = .ok text)
    (hparse : parse text = .ok module) {rule : String} {line : Nat} {message : String}
    (h : load.Flaws module rule line message) : load.Flaws document rule line message := by
  obtain ⟨tree, hreads, hnode⟩ := h
  exact ⟨tree, hreads.imported hpath hload hparse, hnode⟩

theorem openModule_sound {load : Loader} (hload : load.OnlyMisses) (stack : List String)
    (path : String) :
    Ends (fun opened => load path = .ok opened.1 ∧ parse opened.1 = .ok opened.2)
      (CompileError.Anticipated flaw) (openModule load stack path) := by
  unfold openModule
  split
  · trivial
  · split
    · rename_i e he
      obtain ⟨missing, reason, rfl⟩ := hload path e he
      trivial
    · rename_i text htext
      cases hp : parse text with
      | ok tree => exact ⟨htext, hp⟩
      | error errors => trivial

theorem compileModule_zero (load : Loader) (stack : List String) (path : String) :
    compileModule load 0 stack path =
      (openModule load stack path >>= fun _ => .error (.circularImport path)) := by
  rw [compileModule]
  cases openModule load stack path with
  | ok opened => rfl
  | error e => rfl

theorem compileModule_succ (load : Loader) (depth : Nat) (stack : List String) (path : String) :
    compileModule load (depth + 1) stack path = (openModule load stack path >>= fun opened =>
      compileText (compileModule load depth (stack ++ [path])) opened.1 opened.2) := by
  rw [compileModule]
  cases openModule load stack path with
  | ok opened => rfl
  | error e => rfl

/-- Imports within imports, to any depth. -/
theorem fine_compileModule {load : Loader} (hload : load.OnlyMisses) (depth : Nat)
    (stack : List String) {path : String}
    (hflaw : ∀ text tree, load path = .ok text → parse text = .ok tree →
      ∀ rule line message, load.Flaws tree rule line message → flaw rule line message) :
    Fine flaw (compileModule load depth stack path) := by
  induction depth generalizing stack path with
  | zero =>
    rw [compileModule_zero]
    exact (openModule_sound hload stack path).bind fun _ _ => trivial
  | succ depth ih =>
    rw [compileModule_succ]
    refine (openModule_sound hload stack path).bind fun opened hopened => ?_
    obtain ⟨htext, hparse⟩ := hopened
    have hown := hflaw opened.1 opened.2 htext hparse
    apply fine_compileText hparse
    · intro inner hinner
      refine ih (stack ++ [path]) fun text tree htext' hparse' rule line message h => ?_
      exact hown rule line message (Loader.flaws_imported hinner htext' hparse' h)
    · intro node hnode rule line message h
      exact hown rule line message (Loader.admits_flaws node hnode h)

end Documents
end Compile

open Compile

/-- A document that the grammar accepts never fails because of its form: passes run
in order, and what is malformed is a limit beyond every count or an alignment with
too many or too few concepts, in a statement of the document or of a module that it imports,
on the line of this statement. -/
theorem Compilation.error_anticipated {load : Loader} (hload : load.OnlyMisses) (depth : Nat)
    (stack : List String) (env : Environment) {text : String} {tree : Tree Leaf}
    (hparse : parse text = .ok tree) {e : CompileError}
    (he : (Compilation.run (compileModule load depth stack) env text tree).error = some e) :
    e.Anticipated (load.Flaws tree) := by
  have hready : Ready (load.Flaws tree) text.toList
      (({ env := env : Builder }.setText text).prepare) := ⟨rfl, by simp [Builder.prepare]⟩
  have himporter : ∀ path ∈ importsOf tree,
      Fine (load.Flaws tree) (compileModule load depth stack path) := fun path hpath =>
    fine_compileModule hload depth stack fun _ _ htext hparse _ _ _ h =>
      Loader.flaws_imported hpath htext hparse h
  obtain ⟨hfine, hnext⟩ := transform_sound hparse himporter Loader.admits_flaws hready
  simp only [Compilation.run, Pass.declare, if_true] at he
  rcases ht : (({ env := env : Builder }.setText text).prepare).transform
    (compileModule load depth stack) tree with ⟨result, next⟩
  rw [ht] at hfine hnext
  simp only [ht] at he
  cases result with
  | error e' =>
    cases he
    exact hfine
  | ok u =>
    have hsecond := fine_runSecondPass hnext
    simp only [Pass.resolve, if_true] at he
    rcases hr : next.runSecondPass with ⟨result, last⟩
    rw [hr] at hsecond
    simp only [hr] at he
    cases result with
    | error e' =>
      cases he
      exact hsecond
    | ok statements => cases he

/-- A fact about the tree of a text, from the computed one. -/
theorem exists_tree {α : Type} {text : String} {f : Tree Leaf → Option α} {a : α}
    (h : (parse text).toOption.bind f = some a) : ∃ tree, parse text = .ok tree ∧ f tree = some a := by
  cases hp : parse text with
  | error errors =>
    rw [hp] at h
    cases h
  | ok tree =>
    rw [hp] at h
    exact ⟨tree, rfl, h⟩

/-- A fact about a result, from the computed one. -/
theorem exists_of_any {ε α : Type} {x : Except ε α} {p : α → Bool} (h : x.toOption.any p = true) :
    ∃ a, x = .ok a ∧ p a = true := by
  cases x with
  | error e => cases h
  | ok a => exact ⟨a, rfl, h⟩

/-- The selects of a document that stand by themselves. -/
def Compilation.selects (c : Compilation) : List Select :=
  c.statements.filterMap fun s => match s with
    | .select s => some s
    | _ => none

/-- A limit beyond every count is such an error. -/
theorem Compilation.error_anticipated_limit :
    let load : Loader := fun path => .error (.importNotFound path "nowhere")
    ∃ tree, parse "const x <- 1;\nselect x limit 18446744073709551616;" = .ok tree ∧
      (Compilation.run (compileModule load 0 []) .initial
        "const x <- 1;\nselect x limit 18446744073709551616;" tree).error =
          some (.malformed "limit" 2 "number too large to fit in target type") ∧
      load.Flaws tree "limit" 2 "number too large to fit in target type" := by
  intro load
  have hparse : ∃ tree, parse "const x <- 1;\nselect x limit 18446744073709551616;" = .ok tree ∧
      (Compilation.run (compileModule load 0 []) .initial
        "const x <- 1;\nselect x limit 18446744073709551616;" tree).error =
          some (.malformed "limit" 2 "number too large to fit in target type") := by
    apply exists_tree
    decide +kernel
  obtain ⟨tree, hparse, he⟩ := hparse
  have hload : load.OnlyMisses := by
    intro path e h
    cases h
    exact ⟨path, "nowhere", rfl⟩
  exact ⟨tree, hparse, he, Compilation.error_anticipated hload 0 [] .initial hparse he⟩

end ConceptQuery
