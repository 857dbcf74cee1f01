import ConceptQuery.Proofs.Rounds

/-! # Mentions that get lost on the way

A module hands over the concepts that users may see, and all its datasources. What
these mention is renamed on the way by a rule of its own. So a mention strays if
it is of a concept that is not handed over, or of one whose own name is changed
differently. `Strayed` follows such mentions through any number of imports.

Without them an environment is layered: each concept mentions only concepts that
were there before it.
-/
namespace ConceptQuery

/-- What an environment holds and a module may hand over. -/
inductive Member where
  | concept (c : Concept)
  | datasource (d : Datasource)

namespace Member

def mentions : Member → List String
  | concept c => c.mentions
  | datasource d => d.mentions

/-- The member as another document gets it through an import. -/
def moved (space : String) : Member → Member
  | concept c => concept (c.moved space)
  | datasource d => datasource (d.requalified space)

theorem mem_mentions_moved {m : Member} {space a : String} :
    a ∈ (m.moved space).mentions ↔ ∃ b ∈ m.mentions, requalify space b = a := by
  cases m with
  | concept c => exact Concept.mem_mentions_moved
  | datasource d => exact Datasource.mem_mentions_requalified

end Member

namespace Environment

def Holds (env : Environment) : Member → Prop
  | .concept c => c ∈ env.concepts.values
  | .datasource d => d ∈ env.datasources.values

/-- What other documents get of a module. -/
def Offers (env : Environment) : Member → Prop
  | .concept c => c ∈ env.userConcepts
  | .datasource d => d ∈ env.datasources.values

/-- The name of a concept that is handed over, and whose name moves as it does. -/
def Carries (env : Environment) (address : String) : Prop :=
  ∃ c ∈ env.userConcepts, c.address = address ∧ Dotted.under? localSpace c.space = none

end Environment

/-- A mention in what was imported that was lost on the way here: in the module
itself, or in one that the module imports. -/
inductive Strayed (load : Compile.Loader) : Nat → List String → Member → String → Prop where
  | lost {depth stack path module m space a}
      (himport : Compile.compileModule load depth stack path = .ok module)
      (hoffer : module.Offers m) (hmention : a ∈ m.mentions) (hlost : ¬ module.Carries a) :
      Strayed load depth stack (m.moved space) (requalify space a)
  | inherited {depth stack path module m space a}
      (himport : Compile.compileModule load (depth + 1) stack path = .ok module)
      (hoffer : module.Offers m) (hstray : Strayed load depth (stack ++ [path]) m a) :
      Strayed load (depth + 1) stack (m.moved space) (requalify space a)

theorem Strayed.mem_mentions {load : Compile.Loader} {depth : Nat} {stack : List String}
    {m : Member} {a : String} (h : Strayed load depth stack m a) : a ∈ m.mentions := by
  induction h with
  | lost himport hoffer hmention hlost => exact Member.mem_mentions_moved.mpr ⟨_, hmention, rfl⟩
  | inherited himport hoffer hstray ih => exact Member.mem_mentions_moved.mpr ⟨_, ih, rfl⟩

namespace Environment

section Tidy

/-- Every concept is kept under its address, and under that alone. -/
structure Tidy (env : Environment) : Prop where
  named : ∀ {key c}, (key, c) ∈ env.concepts.entries → key = c.address
  nodup : env.concepts.keys.Nodup

variable {importer : Compile.Importer} {env env' : Environment} {c : Concept}

theorem tidy_initial : Tidy initial where
  named h := by
    obtain ⟨rfl, rfl⟩ := Prod.mk.inj (List.mem_singleton.mp h)
    rfl
  nodup := List.nodup_singleton _

theorem Tidy.withConcept (h : env.Tidy) (hnew : ¬ env.Knows c.address) :
    (env.withConcept c).Tidy where
  named hmem := by
    rcases (Catalog.mem_entries_insert hnew).mp hmem with hold | hlast
    · exact h.named hold
    · obtain ⟨rfl, rfl⟩ := Prod.mk.inj hlast
      rfl
  nodup := Catalog.nodup_insert hnew h.nodup

theorem Step.tidy (h : Step importer env env') (ht : env.Tidy) : env'.Tidy := by
  cases h with
  | concept hnew hown => exact ht.withConcept hnew
  | moved himport hsplit hfront hnew => exact ht.withConcept hnew
  | datasource hnew hknown => exact ⟨ht.named, ht.nodup⟩
  | movedDatasource himport hmem hall hnew => exact ⟨ht.named, ht.nodup⟩
  | imported => exact ⟨ht.named, ht.nodup⟩

theorem Steps.tidy (h : Steps importer env env') (ht : env.Tidy) : env'.Tidy := by
  induction h with
  | refl => exact ht
  | tail _ hstep ih => exact hstep.tidy ih

theorem mem_values_iff : c ∈ env.concepts.values ↔ ∃ key, (key, c) ∈ env.concepts.entries := by
  simp [Catalog.values]

theorem Tidy.concept?_address (h : env.Tidy) (hc : c ∈ env.concepts.values) :
    env.concept? c.address = some c := by
  obtain ⟨key, hmem⟩ := mem_values_iff.mp hc
  obtain rfl := h.named hmem
  exact Catalog.get?_of_mem h.nodup hmem

theorem mem_values_of_concept? {address : String} (h : env.concept? address = some c) :
    c ∈ env.concepts.values :=
  mem_values_iff.mpr ⟨address, Catalog.mem_entries_of_get? h⟩

theorem Tidy.address_of_concept? (h : env.Tidy) {address : String}
    (hc : env.concept? address = some c) : c.address = address :=
  (h.named (Catalog.mem_entries_of_get? hc)).symm

theorem mem_userConcepts_iff :
    c ∈ env.userConcepts ↔ c ∈ env.concepts.values ∧ c.isInternal = false := by
  simp [userConcepts]

/-- The concepts in front of one that users may see. -/
theorem split_userConcepts {front back : List Concept}
    (h : env.userConcepts = front ++ c :: back) :
    ∃ before key after, env.concepts.entries = before ++ (key, c) :: after ∧
      ∀ e ∈ before.map Prod.snd, e.isInternal = false → e ∈ front := by
  obtain ⟨first, second, hvalues, hfront, hback⟩ := List.filter_eq_append_iff.mp h
  obtain ⟨skipped, rest, rfl, hskipped, -, -⟩ := List.filter_eq_cons_iff.mp hback
  have hentries : env.concepts.entries.map Prod.snd = (first ++ skipped) ++ c :: rest := by
    rw [List.append_assoc]
    exact hvalues
  obtain ⟨before, behind, hsplit, hbefore, hbehind⟩ := List.map_eq_append_iff.mp hentries
  obtain ⟨⟨key, c'⟩, after, rfl, rfl, -⟩ := List.map_eq_cons_iff.mp hbehind
  refine ⟨before, key, after, hsplit, ?_⟩
  intro e he huser
  rw [hbefore] at he
  rcases List.mem_append.mp he with hmem | hmem
  · rw [← hfront]
    exact List.mem_filter.mpr ⟨hmem, by simp [huser]⟩
  · exact absurd (by simp [huser]) (hskipped e hmem)

end Tidy

section Layers
variable {load : Compile.Loader} {depth : Nat} {stack : List String} {env env' : Environment}
  {c : Concept}

/-- Each concept mentions only what was there before it, datasources only what is
there, strays apart. -/
structure Layered (load : Compile.Loader) (depth : Nat) (stack : List String)
    (env : Environment) : Prop extends env.Tidy where
  before : ∀ {front key c back}, env.concepts.entries = front ++ (key, c) :: back →
    ∀ a ∈ c.mentions, a ∈ front.map Prod.fst ∨ Strayed load depth stack (.concept c) a
  known : ∀ d ∈ env.datasources.values,
    ∀ a ∈ d.mentions, env.Knows a ∨ Strayed load depth stack (.datasource d) a

theorem layered_initial : Layered load depth stack initial where
  toTidy := tidy_initial
  before := by
    intro front key c back h a ha
    have hmem : (key, c) ∈ initial.concepts.entries := by simp [h]
    obtain ⟨rfl, rfl⟩ := Prod.mk.inj (List.mem_singleton.mp hmem)
    cases ha
  known := by
    intro d hd
    cases hd

theorem Layered.withConcept (h : Layered load depth stack env) (hnew : ¬ env.Knows c.address)
    (hc : ∀ a ∈ c.mentions, env.Knows a ∨ Strayed load depth stack (.concept c) a) :
    Layered load depth stack (env.withConcept c) where
  toTidy := h.toTidy.withConcept hnew
  before := by
    intro front key c' back hsplit a ha
    have hentries : (env.withConcept c).concepts.entries =
        env.concepts.entries ++ [(c.address, c)] := Catalog.entries_insert hnew
    rw [hentries] at hsplit
    rcases List.eq_nil_or_concat back with rfl | ⟨back, last, rfl⟩
    · obtain ⟨hfront, hlast⟩ := List.append_inj' hsplit rfl
      obtain ⟨-, rfl⟩ := Prod.mk.inj (List.cons.inj hlast).1
      rw [← hfront]
      exact hc a ha
    · have hold : env.concepts.entries = front ++ (key, c') :: back := by
        have hassoc : env.concepts.entries ++ [(c.address, c)] =
            (front ++ (key, c') :: back) ++ [last] := by simp [hsplit]
        exact (List.append_inj' hassoc rfl).1
      exact h.before hold a ha
  known := by
    intro d hd a ha
    rcases h.known d hd a ha with hknown | hstray
    · exact .inl ((knows_withConcept hnew).mpr (.inl hknown))
    · exact .inr hstray

theorem Layered.withDatasource {d : Datasource} (h : Layered load depth stack env)
    (hnew : d.identifier ∉ env.datasources.keys)
    (hd : ∀ a ∈ d.mentions, env.Knows a ∨ Strayed load depth stack (.datasource d) a) :
    Layered load depth stack (env.withDatasource d) where
  named := h.named
  nodup := h.nodup
  before := h.before
  known := by
    intro d' hd' a ha
    have hvalues : (env.withDatasource d).datasources.values = env.datasources.values ++ [d] :=
      Catalog.values_insert hnew
    rw [hvalues] at hd'
    rcases List.mem_append.mp hd' with hold | hlast
    · exact h.known d' hold a ha
    · obtain rfl := List.mem_singleton.mp hlast
      exact hd a ha

/-- What modules are, if they are compiled this deep: layered one level down. -/
def ModulesLayered (load : Compile.Loader) (depth : Nat) : Prop :=
  ∀ stack path module, Compile.compileModule load depth stack path = .ok module →
    ∃ below, depth = below + 1 ∧ Layered load below (stack ++ [path]) module

/-- A name that a module carries is that of a concept that it hands over, and the
concept is in front if the name is. -/
theorem Layered.mention_moved (hmodules : ModulesLayered load depth) {path space : String}
    {module : Environment} (himport : Compile.compileModule load depth stack path = .ok module)
    {front back : List Concept} (hsplit : module.userConcepts = front ++ c :: back)
    (hfront : ∀ e ∈ front, env.Knows (e.moved space).address) {a : String}
    (ha : a ∈ (c.moved space).mentions) :
    env.Knows a ∨ Strayed load depth stack (.concept (c.moved space)) a := by
  obtain ⟨b, hb, rfl⟩ := Concept.mem_mentions_moved.mp ha
  have hoffer : module.Offers (.concept c) := by
    show c ∈ module.userConcepts
    simp [hsplit]
  obtain ⟨below, rfl, hmodule⟩ := hmodules stack path module himport
  by_cases hcarries : module.Carries b
  · obtain ⟨before, key, after, hentries, husers⟩ := split_userConcepts hsplit
    rcases hmodule.before hentries b hb with hbefore | hstray
    · obtain ⟨e, he, rfl, hspace⟩ := hcarries
      obtain ⟨hvalue, huser⟩ := mem_userConcepts_iff.mp he
      obtain ⟨⟨key', e'⟩, hmem, heq⟩ := List.mem_map.mp hbefore
      -- two concepts under one address are the same
      have hsame : e' = e := by
        have hentry : (key', e') ∈ module.concepts.entries := by simp [hentries, hmem]
        have hfound := Catalog.get?_of_mem hmodule.nodup hentry
        rw [show key' = e.address from heq] at hfound
        exact Option.some.inj (hfound.symm.trans (hmodule.concept?_address hvalue))
      have hmoved : env.Knows (e.moved space).address := by
        apply hfront
        exact husers e (List.mem_map.mpr ⟨_, hmem, hsame⟩) huser
      rw [requalify_address hspace]
      exact .inl hmoved
    · exact .inr (.inherited himport hoffer hstray)
  · exact .inr (.lost himport hoffer hb hcarries)

theorem Step.layered (hmodules : ModulesLayered load depth)
    (hstep : Step (Compile.compileModule load depth stack) env env')
    (h : Layered load depth stack env) : Layered load depth stack env' := by
  cases hstep with
  | concept hnew hown => exact h.withConcept hnew fun a ha => .inl (hown.known a ha)
  | moved himport hsplit hfront hnew =>
    exact h.withConcept hnew fun a ha =>
      Layered.mention_moved hmodules himport hsplit hfront ha
  | datasource hnew hknown => exact h.withDatasource hnew fun a ha => .inl (hknown a ha)
  | @movedDatasource path module space d himport hmem hall hnew =>
    apply h.withDatasource hnew
    intro a ha
    obtain ⟨b, hb, rfl⟩ := Datasource.mem_mentions_requalified.mp ha
    by_cases hcarries : module.Carries b
    · obtain ⟨e, he, rfl, hspace⟩ := hcarries
      rw [requalify_address hspace]
      exact .inl (hall e he)
    · exact .inr (Strayed.lost himport (m := .datasource d) hmem hb hcarries)
  | imported => exact ⟨⟨h.named, h.nodup⟩, h.before, h.known⟩

theorem Steps.layered (hmodules : ModulesLayered load depth)
    (hsteps : Steps (Compile.compileModule load depth stack) initial env) :
    Layered load depth stack env := by
  induction hsteps with
  | refl => exact layered_initial
  | tail _ hstep ih => exact hstep.layered hmodules ih

theorem modulesLayered (load : Compile.Loader) (depth : Nat) : ModulesLayered load depth := by
  induction depth with
  | zero =>
    intro stack path module h
    rw [Compile.compileModule] at h
    split at h
    · cases h
    · cases h
  | succ depth ih =>
    intro stack path module h
    rw [Compile.compileModule] at h
    split at h
    · cases h
    · exact ⟨depth, rfl, Steps.layered ih (Compile.steps_of_compileText h)⟩

/-- An environment that compiling made is layered, strays apart. -/
theorem layered_of_steps
    (h : Steps (Compile.compileModule load depth stack) initial env) :
    Layered load depth stack env :=
  Steps.layered (modulesLayered load depth) h

end Layers
end Environment
end ConceptQuery
