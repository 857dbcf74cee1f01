import ConceptQuery.Symbol.Location
import ConceptQuery.Proofs.Strays

/-! # Two ways to resolve a name

The compiler looks for the name, the name in the namespace of the document, and
last for a property of a parent. The editor looks for the address as recorded, and
then takes the first segment for a namespace if any symbol is in it. On a name
without dots both find the same. On others `resolve?_agrees_iff` says exactly when.
-/
namespace ConceptQuery

/-- A concept that the editor has metadata of. -/
def Concept.isShown (c : Concept) : Bool :=
  decide (c.name ≠ "") && !c.isInternal

namespace Environment
variable {env : Environment} {address name : String}

/-- The editor has metadata under this address. -/
def Shows (env : Environment) (address : String) : Prop :=
  ∃ c, env.concept? address = some c ∧ c.isShown = true

/-- The segment is a namespace to the editor: the address of a symbol goes on behind it. -/
def HasSpace (env : Environment) (first : String) : Prop :=
  ∃ address, env.Shows address ∧ ∃ rest, address = Dotted.qualify first rest

instance (env : Environment) (address : String) : Decidable (env.Shows address) :=
  decidable_of_iff ((env.concept? address).any Concept.isShown = true)
    (by simp [Shows, Option.any_eq_true])

theorem Shows.knows (h : env.Shows address) : env.Knows address := by
  obtain ⟨c, hc, -⟩ := h
  exact knows_of_concept? hc

theorem hasSpace_iff_mem_keys {first : String} : env.HasSpace first ↔
    ∃ address ∈ env.concepts.keys, env.Shows address ∧ (Dotted.under? first address).isSome = true := by
  constructor
  · rintro ⟨address, hshows, rest, rfl⟩
    refine ⟨_, hshows.knows, hshows, ?_⟩
    rw [Dotted.under?_eq_some_iff.mpr rfl]
    rfl
  · rintro ⟨address, -, hshows, hunder⟩
    obtain ⟨rest, hrest⟩ := Option.isSome_iff_exists.mp hunder
    exact ⟨address, hshows, rest, Dotted.under?_eq_some_iff.mp hrest⟩

instance (env : Environment) (first : String) : Decidable (env.HasSpace first) :=
  decidable_of_iff _ hasSpace_iff_mem_keys.symm

section Metadata

theorem metadata?_view (c : Concept) : (Extraction.ofView c.view).metadata? =
    if c.isShown then some c.view.toMetadata else none := by
  unfold Extraction.ofView
  by_cases hname : c.view.name = ""
  · have hshown : c.isShown = false := by simp [Concept.isShown, show c.name = "" from hname]
    rw [if_pos hname, hshown]
    rfl
  · rw [if_neg hname]
    by_cases hinternal : internalSpace.toList.isPrefixOf c.view.space.toList = true
    · have hshown : c.isShown = false := by
        simp [Concept.isShown, show c.isInternal = true from hinternal]
      rw [if_pos hinternal, hshown]
      rfl
    · have hshown : c.isShown = true := by
        have hname : c.name ≠ "" := hname
        have hinternal : c.isInternal = false := Bool.eq_false_iff.mpr hinternal
        simp [Concept.isShown, hname, hinternal]
      -- the view of a concept leaves nothing out
      have hmissing : (MetadataField.all.filter fun f => !c.view.provided.contains f) = [] := by
        show (MetadataField.all.filter fun f => !MetadataField.all.contains f) = []
        decide
      rw [if_neg hinternal, hmissing, hshown]
      rfl

theorem filterMap_views (concepts : List Concept) :
    (concepts.map Concept.view).filterMap (fun v => (Extraction.ofView v).metadata?) =
      (concepts.filter Concept.isShown).map fun c => c.view.toMetadata := by
  induction concepts with
  | nil => rfl
  | cons c concepts ih =>
    rw [List.map_cons, List.filterMap_cons, metadata?_view, ih]
    by_cases hshown : c.isShown = true
    · simp [hshown]
    · simp [hshown]

theorem Tidy.keys_eq (h : env.Tidy) : env.concepts.keys = env.concepts.values.map Concept.address := by
  rw [Catalog.keys, Catalog.values, List.map_map]
  apply List.map_congr_left
  rintro ⟨key, c⟩ hmem
  exact h.named hmem

theorem Tidy.nodup_shown (h : env.Tidy) :
    ((env.concepts.values.filter Concept.isShown).map Concept.address).Nodup := by
  have hsub := (List.filter_sublist (p := Concept.isShown) (l := env.concepts.values)).map
    Concept.address
  rw [← h.keys_eq] at hsub
  exact h.nodup.sublist hsub

theorem Tidy.entries_metadata (h : env.Tidy) : env.metadata.entries =
    (env.concepts.values.filter Concept.isShown).map fun c => (c.address, c.view.toMetadata) := by
  have hentries : env.metadata = .ofList
      ((env.concepts.values.filter Concept.isShown).map fun c => (c.address, c.view.toMetadata)) := by
    rw [metadata, MetadataMap.ofViews, filterMap_views, List.map_map]
    rfl
  rw [hentries]
  apply Catalog.entries_ofList
  rw [List.map_map]
  exact h.nodup_shown

theorem Tidy.nodup_metadata (h : env.Tidy) : env.metadata.keys.Nodup := by
  rw [Catalog.keys, h.entries_metadata, List.map_map]
  exact h.nodup_shown

/-- The metadata under an address is that of the concept there. -/
theorem Tidy.get?_metadata (h : env.Tidy) {m : Metadata} : env.metadata.get? address = some m ↔
    ∃ c, env.concept? address = some c ∧ c.isShown = true ∧ c.view.toMetadata = m := by
  constructor
  · intro hget
    have hmem := Catalog.mem_entries_of_get? hget
    rw [h.entries_metadata] at hmem
    obtain ⟨c, hc, heq⟩ := List.mem_map.mp hmem
    obtain ⟨rfl, rfl⟩ := Prod.mk.inj heq
    obtain ⟨hvalue, hshown⟩ := List.mem_filter.mp hc
    exact ⟨c, h.concept?_address hvalue, hshown, rfl⟩
  · rintro ⟨c, hc, hshown, rfl⟩
    apply Catalog.get?_of_mem h.nodup_metadata
    rw [h.entries_metadata]
    refine List.mem_map.mpr ⟨c, List.mem_filter.mpr ⟨mem_values_of_concept? hc, hshown⟩, ?_⟩
    rw [h.address_of_concept? hc]

theorem Tidy.address_metadata (h : env.Tidy) {m : Metadata}
    (hm : env.metadata.get? address = some m) : m.address = address ∧ env.Shows address := by
  obtain ⟨c, hc, hshown, rfl⟩ := h.get?_metadata.mp hm
  exact ⟨h.address_of_concept? hc, c, hc, hshown⟩

theorem Tidy.get?_metadata_of_shows (h : env.Tidy) (hs : env.Shows address) :
    ∃ m, env.metadata.get? address = some m ∧ m.address = address := by
  obtain ⟨c, hc, hshown⟩ := hs
  exact ⟨_, h.get?_metadata.mpr ⟨c, hc, hshown, rfl⟩, h.address_of_concept? hc⟩

end Metadata

section Names

theorem resolve?_eq (env : Environment) (name : String) : ∃ property : Option String,
    env.resolve? name =
      if env.concepts.contains name then some name
      else if env.concepts.contains (Dotted.qualify env.space name) then
        some (Dotted.qualify env.space name)
      else property := by
  have hjoin : Dotted.join ((Dotted.segments name).reverse).reverse = name := by
    rw [List.reverse_reverse, Dotted.join_segments]
  unfold resolve?
  cases hs : (Dotted.segments name).reverse with
  | nil => exact absurd (List.reverse_eq_nil_iff.mp hs) (Dotted.segments_ne_nil name)
  | cons last parents =>
    rw [hs] at hjoin
    rw [resolveSegments?, hjoin]
    exact ⟨_, rfl⟩

theorem resolve?_of_knows (h : env.Knows name) : env.resolve? name = some name := by
  obtain ⟨property, heq⟩ := env.resolve?_eq name
  rw [heq, if_pos (knows_iff_contains.mp h)]

theorem resolve?_of_knows_own (hnot : ¬ env.Knows name)
    (h : env.Knows (Dotted.qualify env.space name)) :
    env.resolve? name = some (Dotted.qualify env.space name) := by
  obtain ⟨property, heq⟩ := env.resolve?_eq name
  rw [heq, if_neg (mt knows_iff_contains.mpr hnot), if_pos (knows_iff_contains.mp h)]

/-- A name without dots stands for itself or for a concept of the document. -/
theorem knows_of_resolve?_undotted (hname : Dotted.isDotted name = false)
    (h : env.resolve? name = some address) :
    env.Knows name ∨ env.Knows (Dotted.qualify env.space name) := by
  by_contra hnot
  rw [not_or] at hnot
  rw [resolve?, Dotted.segments_of_undotted hname, List.reverse_singleton, resolveSegments?] at h
  have hraw : Dotted.join [name] = name := String.intercalate_singleton
  rw [List.reverse_singleton, hraw, if_neg (mt knows_iff_contains.mpr hnot.1),
    if_neg (mt knows_iff_contains.mpr hnot.2)] at h
  cases h

theorem Tidy.isDotted (h : env.Tidy) (hk : env.Knows name) : Dotted.isDotted name = true := by
  obtain ⟨⟨key, c⟩, hmem, rfl⟩ := List.mem_map.mp hk
  rw [show (key, c).1 = c.address from h.named hmem, Concept.address]
  exact Dotted.isDotted_qualify c.space c.name

/-- A concept of the document with a plain name is shown. -/
theorem Tidy.shows_own (h : env.Tidy) (hname : Dotted.isDotted name = false) (hne : name ≠ "")
    (hk : env.Knows (Dotted.qualify localSpace name)) :
    env.Shows (Dotted.qualify localSpace name) := by
  obtain ⟨⟨key, c⟩, hmem, hkey⟩ := List.mem_map.mp hk
  obtain rfl : key = Dotted.qualify localSpace name := hkey
  have hc := Catalog.get?_of_mem h.nodup hmem
  have haddress : Dotted.qualify c.space c.name = Dotted.qualify localSpace name :=
    (h.named hmem).symm
  refine ⟨c, hc, ?_⟩
  rcases Dotted.qualify_eq_qualify (by decide) haddress with ⟨hspace, rfl⟩ | ⟨more, hspace⟩
  · have hinternal : c.isInternal = false := by
      rw [Concept.isInternal, hspace]
      decide
    simp [Concept.isShown, hne, hinternal]
  · -- a longer namespace would leave a dot for the name
    have hdots : (Dotted.qualify localSpace name).toList =
        localSpace.toList ++ '.' :: (more.toList ++ '.' :: c.name.toList) := by
      rw [← haddress, hspace]
      simp
    rw [Dotted.toList_qualify] at hdots
    have hname' := (List.cons.inj (List.append_cancel_left hdots)).2
    simp [Dotted.isDotted, hname'] at hname

end Names

section Agreement
variable {first rest : String}

/-- The addresses that the editor may find for a dotted name. -/
def Reads (env : Environment) (first rest address : String) : Prop :=
  address = Dotted.qualify first rest ∨
    env.HasSpace first ∧ address = Dotted.qualify first (Dotted.lastSegment rest) ∨
    ¬ env.HasSpace first ∧ (address = Dotted.qualify localSpace (Dotted.qualify first rest) ∨
      address = Dotted.qualify localSpace (Dotted.lastSegment rest))

instance (env : Environment) (first rest address : String) :
    Decidable (env.Reads first rest address) :=
  inferInstanceAs (Decidable (_ ∨ _ ∧ _ ∨ ¬ _ ∧ (_ ∨ _)))

theorem Tidy.hasSpace_iff (h : env.Tidy) : env.HasSpace first ↔
    (env.metadata.keys.any fun key => (Dotted.under? first key).isSome) = true := by
  rw [List.any_eq_true]
  constructor
  · rintro ⟨address, hshows, more, rfl⟩
    obtain ⟨m, hm, -⟩ := h.get?_metadata_of_shows hshows
    refine ⟨_, Catalog.mem_keys_of_mem (Catalog.mem_entries_of_get? hm), ?_⟩
    rw [Dotted.under?_eq_some_iff.mpr rfl]
    rfl
  · rintro ⟨key, hkey, hunder⟩
    obtain ⟨more, hmore⟩ := Option.isSome_iff_exists.mp hunder
    obtain ⟨⟨_, m⟩, hmem, rfl⟩ := List.mem_map.mp hkey
    have hget := Catalog.get?_of_mem h.nodup_metadata hmem
    exact ⟨_, (h.address_metadata hget).2, more, Dotted.under?_eq_some_iff.mp hmore⟩

theorem segments_of_first (rest : String) (hfirst : Dotted.isDotted first = false) :
    ∃ second more, Dotted.segments (Dotted.qualify first rest) = first :: second :: more := by
  rw [Dotted.segments_qualify, Dotted.segments_of_undotted hfirst]
  cases hs : Dotted.segments rest with
  | nil => exact absurd hs (Dotted.segments_ne_nil rest)
  | cons second more => exact ⟨second, more, rfl⟩

/-- Behind a namespace the editor looks for the last segment. -/
theorem Tidy.resolve?_metadata_space (h : env.Tidy) (hfirst : Dotted.isDotted first = false)
    (hspace : env.HasSpace first)
    (hnone : env.metadata.get? (Dotted.qualify first rest) = none) :
    env.metadata.resolve? (Dotted.qualify first rest) =
      if Dotted.isDotted rest then
        env.metadata.get? (Dotted.qualify first (Dotted.lastSegment rest))
      else none := by
  obtain ⟨second, more, hs⟩ := segments_of_first rest hfirst
  have hsplit : MetadataMap.split env.metadata (Dotted.qualify first rest) first = (first, rest) := by
    rw [MetadataMap.split, if_pos (h.hasSpace_iff.mp hspace),
      Dotted.under?_eq_some_iff.mpr rfl]
    rfl
  unfold MetadataMap.resolve?
  rw [hnone, hs]
  dsimp only
  rw [hsplit]
  dsimp only
  rw [hnone]

/-- Otherwise it looks in the namespace of the document. -/
theorem Tidy.resolve?_metadata_own (h : env.Tidy) (hfirst : Dotted.isDotted first = false)
    (hspace : ¬ env.HasSpace first)
    (hnone : env.metadata.get? (Dotted.qualify first rest) = none) :
    env.metadata.resolve? (Dotted.qualify first rest) =
      (env.metadata.get? (Dotted.qualify localSpace (Dotted.qualify first rest))).or
        (env.metadata.get? (Dotted.qualify localSpace (Dotted.lastSegment rest))) := by
  obtain ⟨second, more, hs⟩ := segments_of_first rest hfirst
  have hsplit : MetadataMap.split env.metadata (Dotted.qualify first rest) first =
      (localSpace, Dotted.qualify first rest) := by
    rw [MetadataMap.split, if_neg (mt h.hasSpace_iff.mpr hspace)]
  unfold MetadataMap.resolve?
  rw [hnone, hs]
  dsimp only
  rw [hsplit]
  dsimp only
  rw [Dotted.isDotted_qualify, if_pos rfl, Dotted.lastSegment_qualify]
  cases env.metadata.get? (Dotted.qualify localSpace (Dotted.qualify first rest)) with
  | none => rfl
  | some m => rfl

/-- What the editor finds for a dotted name is one of the addresses it reads. -/
theorem Tidy.reads_of_resolve? (h : env.Tidy) (hfirst : Dotted.isDotted first = false)
    {m : Metadata} (hm : env.metadata.resolve? (Dotted.qualify first rest) = some m) :
    env.Shows m.address ∧ env.Reads first rest m.address := by
  have hfound : ∀ {address}, env.metadata.get? address = some m →
      env.Reads first rest address → env.Shows m.address ∧ env.Reads first rest m.address := by
    intro address hget hreads
    obtain ⟨rfl, hshows⟩ := h.address_metadata hget
    exact ⟨hshows, hreads⟩
  cases hget : env.metadata.get? (Dotted.qualify first rest) with
  | some found =>
    have hsame : found = m := by
      rw [MetadataMap.resolve?, hget] at hm
      exact Option.some.inj hm
    exact hfound (hsame ▸ hget) (.inl rfl)
  | none =>
    by_cases hspace : env.HasSpace first
    · rw [h.resolve?_metadata_space hfirst hspace hget] at hm
      split at hm
      · exact hfound hm (.inr (.inl ⟨hspace, rfl⟩))
      · cases hm
    · rw [h.resolve?_metadata_own hfirst hspace hget, Option.or_eq_some_iff] at hm
      rcases hm with hm | ⟨-, hm⟩
      · exact hfound hm (.inr (.inr ⟨hspace, .inl rfl⟩))
      · exact hfound hm (.inr (.inr ⟨hspace, .inr rfl⟩))

/-- The editor and the compiler agree on a dotted name exactly if the compiler finds
a concept that the editor shows, under an address that the editor reads. -/
theorem Tidy.resolve?_agrees_iff (h : env.Tidy) (hlocal : env.space = localSpace)
    (hfirst : Dotted.isDotted first = false) :
    (∃ m, env.metadata.resolve? (Dotted.qualify first rest) = some m ∧
      env.resolve? (Dotted.qualify first rest) = some m.address) ↔
    ∃ address, env.resolve? (Dotted.qualify first rest) = some address ∧ env.Shows address ∧
      env.Reads first rest address := by
  constructor
  · rintro ⟨m, hm, haddress⟩
    exact ⟨m.address, haddress, h.reads_of_resolve? hfirst hm⟩
  · rintro ⟨address, haddress, hshows, hreads⟩
    rw [haddress]
    obtain ⟨m, hm, rfl⟩ := h.get?_metadata_of_shows hshows
    refine ⟨m, ?_, rfl⟩
    cases hget : env.metadata.get? (Dotted.qualify first rest) with
    | some found =>
      -- the compiler takes the name itself, too
      obtain ⟨hfound, hknown⟩ := h.address_metadata hget
      rw [resolve?_of_knows hknown.knows] at haddress
      rw [MetadataMap.resolve?, hget, ← hm, ← Option.some.inj haddress, hget]
    | none =>
      have hne : m.address ≠ Dotted.qualify first rest := by
        intro heq
        rw [heq, hget] at hm
        cases hm
      have hnot : ¬ env.Knows (Dotted.qualify first rest) := by
        intro hknown
        rw [resolve?_of_knows hknown] at haddress
        exact hne (Option.some.inj haddress).symm
      rcases hreads with heq | ⟨hspace, heq⟩ | ⟨hspace, heq⟩
      · exact absurd heq hne
      · have hdotted : Dotted.isDotted rest = true := by
          by_contra hrest
          rw [Bool.not_eq_true] at hrest
          rw [Dotted.lastSegment_of_undotted hrest] at heq
          exact hne heq
        rw [h.resolve?_metadata_space hfirst hspace hget, if_pos hdotted, ← heq, hm]
      · rw [h.resolve?_metadata_own hfirst hspace hget]
        cases hown : env.metadata.get? (Dotted.qualify localSpace (Dotted.qualify first rest)) with
        | some found =>
          -- so does the compiler
          obtain ⟨hfound, hknown⟩ := h.address_metadata hown
          rw [← hlocal] at hknown
          rw [resolve?_of_knows_own hnot hknown.knows, hlocal] at haddress
          rw [Option.some_or, ← hown, Option.some.inj haddress, hm]
        | none =>
          rw [Option.none_or]
          rcases heq with heq | heq
          · rw [heq, hown] at hm
            cases hm
          · rw [← heq, hm]

end Agreement
end Environment
end ConceptQuery
