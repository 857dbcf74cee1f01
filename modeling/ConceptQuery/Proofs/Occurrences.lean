import ConceptQuery.Editor.Navigation
import ConceptQuery.Proofs.Cursors

/-! # Occurrences of a symbol

A location stands for the symbol that it resolves to or, if there is none, for the
address it is recorded under. No symbol has an address that resolves to another one,
so these two never get mixed up. As a cursor touches one location at most, asking
for the references at any place of a location gives all locations that stand for
the same, in the order of the text: `references_partition`.
-/
namespace ConceptQuery
open Position

namespace Catalog
variable {α : Type} {named : α → String} {c : Catalog α}

/-- Every value is found under its own name only. -/
def NamedBy (named : α → String) (c : Catalog α) : Prop :=
  ∀ key value, c.get? key = some value → named value = key

theorem namedBy_empty : (empty : Catalog α).NamedBy named := by
  rintro key value ⟨⟩

theorem NamedBy.insert (h : c.NamedBy named) (value : α) : (c.insert (named value) value).NamedBy named := by
  intro key found hfound
  rw [get?_insert] at hfound
  split at hfound
  · rename_i hkey
    rw [← Option.some.inj hfound, hkey]
  · exact h key found hfound

theorem namedBy_ofList (values : List α) :
    (ofList (values.map fun value => (named value, value))).NamedBy named := by
  have hmore : ∀ c : Catalog α, c.NamedBy named → ((values.map fun value => (named value, value)).foldl
      (fun c entry => c.insert entry.1 entry.2) c).NamedBy named := by
    induction values with
    | nil => exact fun c hc => hc
    | cons value values ih => exact fun c hc => ih _ (hc.insert value)
  exact hmore empty namedBy_empty

end Catalog

namespace MetadataMap
variable {map : MetadataMap} {address : String} {m : Metadata}

theorem exists_get?_of_resolve? (h : map.resolve? address = some m) :
    ∃ key, map.get? key = some m := by
  unfold resolve? at h
  split at h
  · rename_i found hget
    exact ⟨_, hget.trans h⟩
  · split at h
    · dsimp only at h
      split at h
      · rename_i found hget
        exact ⟨_, hget.trans h⟩
      · split at h
        · exact ⟨_, h⟩
        · cases h
    · cases h

/-- The address of a symbol resolves to the symbol. -/
theorem resolve?_address (hmap : map.NamedBy Metadata.address) (h : map.resolve? address = some m) :
    map.resolve? m.address = some m := by
  obtain ⟨key, hget⟩ := exists_get?_of_resolve? h
  obtain rfl := hmap key m hget
  rw [resolve?, hget]

end MetadataMap

namespace Compilation

theorem namedBy_metadata (importer : Compile.Importer) (env : Environment) (text : String)
    (tree : Tree Leaf) :
    (Compilation.run importer env text tree).metadata.NamedBy Metadata.address := by
  unfold Compilation.run
  dsimp only
  split
  · exact Catalog.namedBy_empty
  · split
    · exact Catalog.namedBy_empty
    · exact Catalog.namedBy_ofList _

end Compilation

namespace Location

/-- What a location stands for: its symbol, or the address it is recorded under. -/
def meaning (map : MetadataMap) (l : Location) : String :=
  (map.resolveAddress? l.address).getD l.address

/-- Both locations resolve to one symbol, or both to none and they are recorded under
one address. -/
def Alike (map : MetadataMap) (l m : Location) : Prop :=
  map.resolve? l.address = map.resolve? m.address ∧
    (map.resolve? l.address = none → l.address = m.address)

variable {map : MetadataMap} {l m : Location} {address : String}

theorem standsFor_iff : standsFor map address l = true ↔ l.meaning map = address := by
  unfold standsFor meaning MetadataMap.resolveAddress?
  cases map.resolve? l.address with
  | none => simp
  | some found => simp

/-- An address that is recorded and does not resolve is that of no symbol. -/
theorem meaning_ne (hmap : map.NamedBy Metadata.address) {found : Metadata}
    (hl : map.resolve? l.address = some found) (hm : map.resolve? m.address = none) :
    found.address ≠ m.address := by
  intro heq
  rw [← heq, MetadataMap.resolve?_address hmap hl] at hm
  cases hm

theorem meaning_eq_iff (hmap : map.NamedBy Metadata.address) :
    l.meaning map = m.meaning map ↔ Alike map l m := by
  unfold meaning Alike MetadataMap.resolveAddress?
  cases hl : map.resolve? l.address with
  | none =>
    cases hm : map.resolve? m.address with
    | none => simp
    | some found => simpa using (meaning_ne hmap hm hl).symm
  | some found =>
    cases hm : map.resolve? m.address with
    | none => simpa using meaning_ne hmap hl hm
    | some other =>
      simp only [Option.map_some, Option.getD_some, Option.some.injEq, reduceCtorEq,
        false_implies, and_true]
      constructor
      · intro heq
        have hfound := MetadataMap.resolve?_address hmap hl
        rw [heq, MetadataMap.resolve?_address hmap hm] at hfound
        exact (Option.some.inj hfound).symm
      · exact congrArg Metadata.address

end Location

theorem Span.toRange_between (p q : Position) : (Span.between p q).toRange = ⟨p, q⟩ :=
  rfl

theorem Span.covers_start {s : Span} {p q : Position} (h : s = .between p q) (hline : p.line = q.line)
    (hcolumn : p.column ≤ q.column) : s.covers p = true := by
  subst h
  simp [covers, contains, between, hline, hcolumn]

section Places
variable {text : String} {tree : Tree Leaf} {space : String} {l : Location}

/-- A later leaf starts at a later place. -/
theorem Leaf.Comes.start_before {t u : Token} {leaf leaf' : Leaf} (h : leaf.Comes text t)
    (h' : leaf'.Comes text u) (hapart : t.Apart u) :
    leaf.span.toRange.start.Before leaf'.span.toRange.start := by
  obtain ⟨front, back, hstands, hspan⟩ := h.stands
  obtain ⟨front', back', hstands', hspan'⟩ := h'.stands
  obtain ⟨more, rfl, -⟩ := hapart.exists_between hstands hstands'
  rw [hspan, hspan', Span.toRange_between, Span.toRange_between, List.append_assoc]
  exact before_behind_append front (by simp [h.text_ne])

/-- The locations of a text are recorded in its order. -/
theorem locations_pairwise (h : parse text = .ok tree) :
    (Location.ofTree space tree).Pairwise fun l m =>
      l.span.toRange.start.Before m.span.toRange.start := by
  have hleaves : tree.leaves.Pairwise fun a b =>
      a.span.toRange.start.Before b.span.toRange.start :=
    pairwise_of_forall₂ (leaves_of_parse h) (apart_significant text) fun ha hb hapart =>
      ha.start_before hb hapart
  rw [Location.ofTree_eq, List.pairwise_map]
  have hnamings := List.pairwise_map.mp
    ((hleaves.filter Leaf.isIdentifier).sublist (Tree.namings_sublist tree))
  exact hnamings

theorem covers_of_ofTree (h : parse text = .ok tree) (hl : l ∈ Location.ofTree space tree) :
    l.span.covers l.span.toRange.start = true := by
  rw [Location.ofTree_eq] at hl
  obtain ⟨⟨kind, leaf⟩, hnaming, rfl⟩ := List.mem_map.mp hl
  obtain ⟨hid, t, -, hcomes⟩ := comes_of_namings h hnaming
  obtain ⟨front, back, -, hspan⟩ := hcomes.stands
  have hname : (Location.ofLeaf space kind leaf).span = leaf.span := rfl
  rw [behind_append front (hcomes.newline_not_mem hid)] at hspan
  rw [hname, hspan]
  exact Span.covers_start rfl rfl (Nat.le_add_right _ _)

theorem touching?_ofTree (h : parse text = .ok tree) {p : Position} :
    Location.touching? (Location.ofTree space tree) p = some l ↔
      l ∈ Location.ofTree space tree ∧ l.span.covers p = true := by
  apply find?_eq_some_iff_of_pairwise
  rw [Location.ofTree_eq, List.pairwise_map]
  exact (namings_pairwise h).imp fun hab => hab p

end Places

/-- Locations in the order of a text, each of which a cursor can touch, and none
together with another one. -/
structure Location.Separate (locations : List Location) : Prop where
  ordered : locations.Pairwise fun l m => l.span.toRange.start.Before m.span.toRange.start
  touched : ∀ l ∈ locations, l.span.covers l.span.toRange.start = true
  touching : ∀ {l p}, touching? locations p = some l ↔ l ∈ locations ∧ l.span.covers p = true

theorem Location.Separate.eq_of_mention {locations : List Location} (h : Separate locations)
    {l m : Location} (hl : l ∈ locations) (hm : m ∈ locations)
    (heq : Mention.ofLocation l = Mention.ofLocation m) : l = m := by
  have hstart : l.span.toRange.start = m.span.toRange.start :=
    congrArg (fun mention => mention.range.start) heq
  have hnodup : (locations.map fun l => l.span.toRange.start).Nodup := by
    rw [List.Nodup, List.pairwise_map]
    refine h.ordered.imp fun hbefore hsame => ?_
    rw [hsame] at hbefore
    exact not_before_self _ hbefore
  exact List.inj_on_of_nodup_map hnodup hl hm hstart

namespace Snapshot
variable {s : Snapshot} {l m : Location} {p q : Position}

theorem separate_build (dialect : Dialect) (config : Config) (files : FileTree)
    (document text : String) :
    Location.Separate (build dialect config files document text).locations := by
  unfold build
  cases hparse : parse text with
  | error errors =>
    refine ⟨.nil, by simp [ofErrors], fun {l p} => ?_⟩
    simp [ofErrors, Location.touching?]
  | ok tree =>
    exact ⟨locations_pairwise hparse, fun l hl => covers_of_ofTree hparse hl,
      touching?_ofTree hparse⟩

theorem namedBy_build (dialect : Dialect) (config : Config) (files : FileTree)
    (document text : String) :
    (build dialect config files document text).metadata.NamedBy Metadata.address := by
  unfold build
  cases parse text with
  | error errors => exact Catalog.namedBy_empty
  | ok tree => exact Compilation.namedBy_metadata _ _ _ _

/-- The references at a cursor on a location are those that mean the same. -/
theorem referencesAt_of_covers (hs : Location.Separate s.locations) (hl : l ∈ s.locations)
    (hp : l.span.covers p = true) (withDefinitions : Bool) :
    s.referencesAt p withDefinitions =
      { address := some (l.meaning s.metadata)
        mentions := ((s.locations.filter fun m =>
          decide (m.meaning s.metadata = l.meaning s.metadata)).filter fun m =>
            withDefinitions || !m.isDefinition).map Mention.ofLocation } := by
  have hstands : Location.standsFor s.metadata (l.meaning s.metadata) =
      fun m => decide (m.meaning s.metadata = l.meaning s.metadata) := by
    funext m
    rw [Bool.eq_iff_iff, Location.standsFor_iff, decide_eq_true_iff]
  rw [referencesAt, hs.touching.mpr ⟨hl, hp⟩]
  dsimp only
  rw [Location.matching, ← Location.meaning, hstands]

theorem mem_referencesAt_iff (hs : Location.Separate s.locations) (hl : l ∈ s.locations)
    (hm : m ∈ s.locations) (hp : l.span.covers p = true) :
    Mention.ofLocation m ∈ (s.referencesAt p true).mentions ↔
      l.meaning s.metadata = m.meaning s.metadata := by
  rw [referencesAt_of_covers hs hl hp]
  constructor
  · intro hmem
    obtain ⟨other, hother, heq⟩ := List.mem_map.mp hmem
    have hother := (List.mem_filter.mp hother).1
    obtain ⟨hmem, hmeaning⟩ := List.mem_filter.mp hother
    rw [← hs.eq_of_mention hmem hm heq]
    exact (of_decide_eq_true hmeaning).symm
  · intro hmeaning
    exact List.mem_map_of_mem (List.mem_filter.mpr
      ⟨List.mem_filter.mpr ⟨hm, decide_eq_true hmeaning.symm⟩, by simp⟩)

/-- What is found does not depend on which of the occurrences the cursor is on. -/
theorem referencesAt_congr (hs : Location.Separate s.locations) (hl : l ∈ s.locations)
    (hm : m ∈ s.locations) (hp : l.span.covers p = true) (hq : m.span.covers q = true)
    (h : l.meaning s.metadata = m.meaning s.metadata) (withDefinitions : Bool) :
    s.referencesAt p withDefinitions = s.referencesAt q withDefinitions := by
  rw [referencesAt_of_covers hs hl hp, referencesAt_of_covers hs hm hq, h]

theorem mentions_pairwise (hs : Location.Separate s.locations) (p : Position)
    (withDefinitions : Bool) : (s.referencesAt p withDefinitions).mentions.Pairwise fun a b =>
      a.range.start.Before b.range.start := by
  unfold referencesAt
  cases Location.touching? s.locations p with
  | none => exact .nil
  | some l =>
    dsimp only
    rw [List.pairwise_map]
    exact (hs.ordered.filter _).filter _

theorem referencesAt_false (s : Snapshot) (p : Position) :
    s.referencesAt p false =
      { s.referencesAt p true with
        mentions := (s.referencesAt p true).mentions.filter fun m => !m.isDefinition } := by
  unfold referencesAt
  cases Location.touching? s.locations p with
  | none => rfl
  | some l =>
    simp only [Bool.false_or, Bool.true_or, List.filter_true, List.filter_map]
    rfl

/-- Asking for references divides the locations of a text among the things that they
stand for. Two locations are in one part exactly if they resolve to one symbol, or to
none and are recorded under one address. At any place of any location of a part the
answer is the whole part, in the order of the text, and without declarations it is the
same less the places that declare. -/
theorem references_partition (dialect : Dialect) (config : Config) (files : FileTree)
    (document text : String) {s : Snapshot} (hs : build dialect config files document text = s) :
    (∀ l ∈ s.locations, (∃ p, l.span.covers p = true) ∧
      ∀ m ∈ s.locations, ∀ p, l.span.covers p = true →
        (Mention.ofLocation m ∈ (s.referencesAt p true).mentions ↔ l.Alike s.metadata m)) ∧
    Equivalence (fun l m : { l // l ∈ s.locations } => ∃ p, l.1.span.covers p = true ∧
      Mention.ofLocation m.1 ∈ (s.referencesAt p true).mentions) ∧
    (∀ l ∈ s.locations, ∀ m ∈ s.locations, ∀ p q, l.span.covers p = true →
      m.span.covers q = true → Mention.ofLocation m ∈ (s.referencesAt p true).mentions →
        (s.referencesAt p true).address.isSome = true ∧
        ∀ withDefinitions, s.referencesAt q withDefinitions = s.referencesAt p withDefinitions) ∧
    ∀ p,
      ((s.referencesAt p true).mentions.Pairwise fun a b => a.range.start.Before b.range.start) ∧
      s.referencesAt p false =
        { s.referencesAt p true with
          mentions := (s.referencesAt p true).mentions.filter fun m => !m.isDefinition } := by
  have hseparate : Location.Separate s.locations := by
    rw [← hs]
    exact separate_build dialect config files document text
  have hnamed : s.metadata.NamedBy Metadata.address := by
    rw [← hs]
    exact namedBy_build dialect config files document text
  have hmem : ∀ l m : { l // l ∈ s.locations },
      (∃ p, l.1.span.covers p = true ∧ Mention.ofLocation m.1 ∈ (s.referencesAt p true).mentions) ↔
        l.1.meaning s.metadata = m.1.meaning s.metadata := by
    intro l m
    constructor
    · rintro ⟨p, hp, hfound⟩
      exact (mem_referencesAt_iff hseparate l.2 m.2 hp).mp hfound
    · intro hmeaning
      have hp := hseparate.touched l.1 l.2
      exact ⟨_, hp, (mem_referencesAt_iff hseparate l.2 m.2 hp).mpr hmeaning⟩
  refine ⟨fun l hl => ⟨⟨_, hseparate.touched l hl⟩, fun m hm p hp => ?_⟩, ?_, ?_, fun p => ?_⟩
  · rw [mem_referencesAt_iff hseparate hl hm hp, Location.meaning_eq_iff hnamed]
  · refine ⟨fun l => (hmem l l).mpr rfl, fun {l m} h => ?_, fun {l m n} h h' => ?_⟩
    · exact (hmem m l).mpr ((hmem l m).mp h).symm
    · exact (hmem l n).mpr (((hmem l m).mp h).trans ((hmem m n).mp h'))
  · intro l hl m hm p q hp hq hfound
    have hmeaning := (mem_referencesAt_iff hseparate hl hm hp).mp hfound
    refine ⟨?_, fun withDefinitions => ?_⟩
    · rw [referencesAt_of_covers hseparate hl hp]
      rfl
    · exact (referencesAt_congr hseparate hl hm hp hq hmeaning withDefinitions).symm
  · exact ⟨mentions_pairwise hseparate p true, s.referencesAt_false p⟩

/-- A property behind its parent, where it is declared and where it is selected, and the
same property behind the namespace. -/
theorem references_partition_property :
    ∃ s l m, build DuckDb.dialect {} .empty "d"
        "key k int;\nproperty k.p string;\nselect k.p, local.p;" = s ∧
      l ∈ s.locations ∧ m ∈ s.locations ∧ l.address = "local.k.p" ∧ m.address = "local.p" ∧
      l.isDefinition = true ∧ m.isDefinition = false ∧ l.span.covers ⟨1, 12⟩ = true ∧
      m.span.covers ⟨2, 12⟩ = true ∧
      Mention.ofLocation m ∈ (s.referencesAt ⟨1, 12⟩ true).mentions ∧
      Mention.ofLocation l ∈ (s.referencesAt ⟨2, 12⟩ true).mentions ∧
      s.referencesAt ⟨2, 12⟩ true = s.referencesAt ⟨1, 12⟩ true := by
  have hcomputed : (fun s : Snapshot => (s.locations,
      decide (s.metadata.resolve? "local.k.p" = s.metadata.resolve? "local.p"),
      (s.metadata.resolve? "local.k.p").isSome))
      (build DuckDb.dialect {} .empty "d" "key k int;\nproperty k.p string;\nselect k.p, local.p;") =
      ([⟨"local.k", ⟨1, 5, 1, 6⟩, true⟩, ⟨"local.k.p", ⟨2, 10, 2, 13⟩, true⟩,
        ⟨"k.p", ⟨3, 8, 3, 11⟩, false⟩, ⟨"local.p", ⟨3, 13, 3, 20⟩, false⟩], true, true) := by
    decide +kernel
  obtain ⟨hlocations, hsame, hsome⟩ := by simpa only [Prod.mk.injEq] using hcomputed
  obtain ⟨l, hl⟩ : ∃ l : Location, l = ⟨"local.k.p", ⟨2, 10, 2, 13⟩, true⟩ := ⟨_, rfl⟩
  obtain ⟨m, hm⟩ : ∃ m : Location, m = ⟨"local.p", ⟨3, 13, 3, 20⟩, false⟩ := ⟨_, rfl⟩
  obtain ⟨s, hs⟩ : ∃ s, build DuckDb.dialect {} .empty "d"
    "key k int;\nproperty k.p string;\nselect k.p, local.p;" = s := ⟨_, rfl⟩
  obtain ⟨hmembers, -, hone, -⟩ := references_partition _ _ _ _ _ hs
  rw [hs] at hlocations hsame hsome
  have hlmem : l ∈ s.locations := by simp [hlocations, hl]
  have hmmem : m ∈ s.locations := by simp [hlocations, hm]
  have hlp : l.span.covers ⟨1, 12⟩ = true := by rw [hl]; decide
  have hmq : m.span.covers ⟨2, 12⟩ = true := by rw [hm]; decide
  have halike : l.Alike s.metadata m := by
    rw [hl, hm]
    exact ⟨of_decide_eq_true hsame, fun hnone => by rw [hnone] at hsome; cases hsome⟩
  have hfound := ((hmembers l hlmem).2 m hmmem _ hlp).mpr halike
  have hself := ((hmembers l hlmem).2 l hlmem _ hlp).mpr ⟨rfl, fun _ => rfl⟩
  have heq := (hone l hlmem m hmmem _ _ hlp hmq hfound).2 true
  exact ⟨s, l, m, hs, hlmem, hmmem, by rw [hl], by rw [hm], by rw [hl], by rw [hm], hlp, hmq,
    hfound, heq ▸ hself, heq⟩

end Snapshot
end ConceptQuery
