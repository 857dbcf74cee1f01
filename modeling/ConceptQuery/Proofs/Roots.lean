import ConceptQuery.Plan.Select
import ConceptQuery.Proofs.Lineage

/-! # What a select has to read

From the concepts that a select mentions, the search for roots goes on through the
lineages of those that no datasource binds. `Needs` is what it comes to. Without
circles it comes to all of that, though it passes no concept twice: what has been passed
has been searched to the end. So either something is missing, and the search says so, or
it ends with exactly the roots that the select needs.
-/
namespace ConceptQuery.Plan
open Environment Relation

/-- The one concept is computed from the other, since no datasource binds it. -/
def Follows (env : Environment) (a b : String) : Prop :=
  isBound env a = false ∧ env.Uses a b

abbrev Reaches (env : Environment) : String → String → Prop :=
  ReflTransGen (Follows env)

/-- An address that the concepts of a select lead to. -/
def Needs (env : Environment) (select : Select) (a : String) : Prop :=
  ∃ start ∈ select.mentions, Reaches env start a

/-- A concept that has to be read: a datasource binds it, or it has no lineage. -/
def IsRoot (env : Environment) (a : String) : Prop :=
  ∃ c, env.concept? a = some c ∧ (c.lineage = none ∨ isBound env a = true)

theorem mem_needed {select : Select} {a : String} : a ∈ needed select ↔ a ∈ select.mentions := by
  simp only [needed, Select.mentions, mem_firstPlaces, List.mem_append, List.mem_flatMap,
    Expr.mem_concepts]

theorem mem_addOnce {set : List String} {name a : String} :
    a ∈ addOnce set name ↔ a ∈ set ∨ a = name := by
  unfold addOnce
  split
  · next h =>
    have hmem : name ∈ set := List.contains_iff_mem.mp h
    exact ⟨.inl, fun h => h.elim id fun heq => heq ▸ hmem⟩
  · simp

section Search
variable {env : Environment} {a b r x : String}

theorem not_follows_of_isRoot (h : IsRoot env a) : ¬ Follows env a b := by
  rintro ⟨hfree, c, hc, hb⟩
  obtain ⟨d, hd, hlineage | hbound⟩ := h
  · obtain rfl := Option.some.inj (hc.symm.trans hd)
    rw [Concept.uses, hlineage] at hb
    cases hb
  · rw [hbound] at hfree
    cases hfree

/-- From a root nothing is reached but the root. -/
theorem reaches_of_isRoot (h : IsRoot env a) : Reaches env a b ↔ b = a := by
  constructor
  · intro hreach
    rcases hreach.cases_head with rfl | ⟨next, hnext, -⟩
    · rfl
    · exact absurd hnext (not_follows_of_isRoot h)
  · rintro rfl
    exact .refl

/-- All that is reached from an address is there, and the roots among it are found. -/
def Settled (env : Environment) (roots : List String) (a : String) : Prop :=
  ∀ b, Reaches env a b → env.Knows b ∧ (IsRoot env b → b ∈ roots)

theorem Settled.mono {roots roots' : List String} (h : Settled env roots a)
    (hroots : ∀ r ∈ roots, r ∈ roots') : Settled env roots' a :=
  fun b hb => ⟨(h b hb).1, fun hroot => hroots b ((h b hb).2 hroot)⟩

theorem Settled.reached {roots : List String} (h : Settled env roots a) (hb : Reaches env a b) :
    Settled env roots b :=
  fun c hc => h c (hb.trans hc)

/-- What a search that succeeds does, from any number of starts. -/
structure Found (env : Environment) (starts : List String) (before after : Search) : Prop where
  settled : ∀ s ∈ starts, Settled env after.roots s
  roots : ∀ r, r ∈ after.roots ↔ r ∈ before.roots ∨ ∃ s ∈ starts, Reaches env s r ∧ IsRoot env r
  passed : ∀ x ∈ after.passed, x ∈ before.passed ∨ ∃ s ∈ starts, Reaches env s x

/-- A search finds what it should, or the error names an address that is missing. -/
def Searched (env : Environment) (starts : List String) (before : Search)
    (result : Except RenderError Search) : Prop :=
  (∃ after, result = .ok after ∧ Found env starts before after) ∨
    ∃ a, result = .error (.unknownConcept a) ∧ (∃ s ∈ starts, Reaches env s a) ∧ ¬ env.Knows a

/-- Of what is reached from a start, all that has been passed is settled. -/
def Resumable (env : Environment) (search : Search) (start : String) : Prop :=
  ∀ x ∈ search.passed, Reaches env start x → Settled env search.roots x

theorem found_nil (search : Search) : Found env [] search search :=
  ⟨by simp, by simp, by simp⟩

theorem Found.cons {before between after : Search} {start : String} {starts : List String}
    (h : Found env [start] before between) (h' : Found env starts between after) :
    Found env (start :: starts) before after where
  settled := by
    rw [List.forall_mem_cons]
    refine ⟨?_, h'.settled⟩
    exact (h.settled start List.mem_cons_self).mono fun r hr => (h'.roots r).mpr (.inl hr)
  roots r := by
    rw [h'.roots, h.roots, List.exists_mem_cons_iff]
    simp [or_assoc]
  passed x hx := by
    rw [List.exists_mem_cons_iff]
    rcases h'.passed x hx with hx | hx
    · exact (h.passed x hx).imp_right fun hx => .inl (by simpa using hx)
    · exact .inr (.inr hx)

/-- Another start can be searched from after a search. -/
theorem Resumable.after {before after : Search} {start other : String}
    (h : Resumable env before other) (hfound : Found env [start] before after) :
    Resumable env after other := by
  intro x hx hother
  rcases hfound.passed x hx with hold | ⟨s, hs, hreach⟩
  · exact (h x hold hother).mono fun r hr => (hfound.roots r).mpr (.inl hr)
  · exact (hfound.settled s hs).reached hreach

/-- Searching from several starts, one after the other. -/
theorem searched_foldlM {search : Search → String → Except RenderError Search}
    {starts : List String} {before : Search}
    (hone : ∀ s ∈ starts, ∀ sofar, Resumable env sofar s → Searched env [s] sofar (search sofar s))
    (hstarts : ∀ s ∈ starts, Resumable env before s) :
    Searched env starts before (starts.foldlM search before) := by
  induction starts generalizing before with
  | nil => exact .inl ⟨before, rfl, found_nil before⟩
  | cons start starts ih =>
    rw [List.forall_mem_cons] at hone hstarts
    rw [List.foldlM_cons]
    rcases hone.1 before hstarts.1 with ⟨between, hbetween, hfound⟩ | ⟨a, ha, ⟨s, hs, hreach⟩, hno⟩
    · rw [hbetween]
      rcases ih hone.2 fun s hs => (hstarts.2 s hs).after hfound with
        ⟨after, hafter, hrest⟩ | ⟨a, ha, ⟨s, hs, hreach⟩, hno⟩
      · exact .inl ⟨after, hafter, hfound.cons hrest⟩
      · exact .inr ⟨a, ha, ⟨s, List.mem_cons_of_mem start hs, hreach⟩, hno⟩
    · rw [ha]
      obtain rfl := List.mem_singleton.mp hs
      exact .inr ⟨a, rfl, ⟨s, List.mem_cons_self, hreach⟩, hno⟩

/-- A concept that is settled by what its lineage mentions. -/
structure Computed (env : Environment) (a : String) (c : Concept) (lineage : Expr) : Prop where
  concept : env.concept? a = some c
  lineage : c.lineage = some lineage
  free : isBound env a = false

theorem Computed.follows_iff {c : Concept} {lineage : Expr} (h : Computed env a c lineage) :
    Follows env a b ↔ b ∈ lineage.concepts := by
  rw [Expr.mem_concepts]
  constructor
  · rintro ⟨-, d, hd, hb⟩
    obtain rfl := Option.some.inj (h.concept.symm.trans hd)
    rw [Concept.uses, h.lineage] at hb
    exact hb
  · intro hb
    exact ⟨h.free, c, h.concept, by rw [Concept.uses, h.lineage]; exact hb⟩

theorem Computed.not_isRoot {c : Concept} {lineage : Expr} (h : Computed env a c lineage) :
    ¬ IsRoot env a := by
  rintro ⟨d, hd, hnone | hbound⟩
  · obtain rfl := Option.some.inj (h.concept.symm.trans hd)
    cases h.lineage.symm.trans hnone
  · cases h.free.symm.trans hbound

theorem isRoot_or_computed {c : Concept} (hc : env.concept? a = some c) :
    IsRoot env a ∨ ∃ lineage, Computed env a c lineage := by
  cases hlineage : c.lineage with
  | none => exact .inl ⟨c, hc, .inl hlineage⟩
  | some lineage =>
    cases hbound : isBound env a with
    | true => exact .inl ⟨c, hc, .inr hbound⟩
    | false => exact .inr ⟨lineage, hc, hlineage, hbound⟩

theorem Computed.settled {c : Concept} {lineage : Expr} {roots : List String}
    (h : Computed env a c lineage) (hall : ∀ b ∈ lineage.concepts, Settled env roots b) :
    Settled env roots a := by
  intro b hb
  rcases hb.cases_head with rfl | ⟨next, hnext, hrest⟩
  · exact ⟨knows_of_concept? h.concept, fun hroot => absurd hroot h.not_isRoot⟩
  · exact hall next (h.follows_iff.mp hnext) b hrest

/-- Searching from what a lineage mentions is searching from its concept. -/
theorem Computed.found {c : Concept} {lineage : Expr} {before after : Search}
    (h : Computed env a c lineage)
    (hfound : Found env lineage.concepts { before with passed := before.passed ++ [a] } after) :
    Found env [a] before after where
  settled := by
    rw [List.forall_mem_singleton]
    exact h.settled hfound.settled
  roots r := by
    simp only [List.mem_singleton, exists_eq_left]
    constructor
    · intro hr
      refine ((hfound.roots r).mp hr).imp_right ?_
      rintro ⟨b, hb, hreach, hroot⟩
      exact ⟨hreach.head (h.follows_iff.mpr hb), hroot⟩
    · rintro (hr | ⟨hreach, hroot⟩)
      · exact (hfound.roots r).mpr (.inl hr)
      · exact (h.settled hfound.settled r hreach).2 hroot
  passed x hx := by
    simp only [List.mem_singleton, exists_eq_left]
    rcases hfound.passed x hx with hx | ⟨b, hb, hreach⟩
    · refine (List.mem_append.mp hx).imp_right fun hx => ?_
      rw [List.mem_singleton.mp hx]
    · exact .inr (hreach.head (h.follows_iff.mpr hb))

theorem found_root {before : Search} (h : IsRoot env a) :
    Found env [a] before ⟨addOnce before.roots a, before.passed ++ [a]⟩ where
  settled := by
    rw [List.forall_mem_singleton]
    intro b hb
    obtain rfl := (reaches_of_isRoot h).mp hb
    obtain ⟨c, hc, -⟩ := h
    exact ⟨knows_of_concept? hc, fun _ => mem_addOnce.mpr (.inr rfl)⟩
  roots r := by
    simp only [mem_addOnce, List.mem_singleton, exists_eq_left, reaches_of_isRoot h]
    exact or_congr_right ⟨fun hr => ⟨hr, hr ▸ h⟩, And.left⟩
  passed x hx := by
    refine (List.mem_append.mp hx).imp_right fun hx => ⟨a, List.mem_singleton_self a, ?_⟩
    rw [List.mem_singleton.mp hx]

/-- Without circles the search from an address is complete. What was passed before has to
be settled; the address itself and those on the way to it are not among what it leads to. -/
theorem searched_collectRoots (h : env.Acyclic) {fuel : Nat} {search : Search}
    (hfuel : env.height a < fuel) (hpassed : Resumable env search a) :
    Searched env [a] search (collectRoots env fuel search a) := by
  induction fuel generalizing a search with
  | zero => omega
  | succ fuel ih =>
    rw [collectRoots]
    split
    · next hmem =>
      have hsettled := hpassed a (List.contains_iff_mem.mp hmem) .refl
      refine .inl ⟨search, rfl, by simpa using hsettled, fun r => ?_, fun x hx => .inl hx⟩
      refine ⟨.inl, fun hr => hr.elim id ?_⟩
      rintro ⟨s, hs, hreach, hroot⟩
      obtain rfl := List.mem_singleton.mp hs
      exact (hsettled r hreach).2 hroot
    · cases hc : env.concept? a with
      | none =>
        exact .inr ⟨a, rfl, ⟨a, List.mem_singleton_self a, .refl⟩, concept?_eq_none_iff.mp hc⟩
      | some c =>
        rcases isRoot_or_computed hc with hroot | ⟨lineage, hcomputed⟩
        · refine .inl ⟨_, ?_, found_root hroot⟩
          obtain ⟨d, hd, hnone | hbound⟩ := hroot
          · obtain rfl := Option.some.inj (hc.symm.trans hd)
            simp only [hnone]
          · cases hlineage : c.lineage with
            | none => simp only [hlineage]
            | some lineage => simp only [hlineage, hbound, if_true]
        · simp only [hcomputed.lineage, hcomputed.free, Bool.false_eq_true, if_false]
          have hone : ∀ b ∈ lineage.concepts, ∀ sofar, Resumable env sofar b →
              Searched env [b] sofar (collectRoots env fuel sofar b) := by
            intro b hb sofar hresumable
            have hlt := h.height_lt (hcomputed.follows_iff.mpr hb).2
            exact ih (by omega) hresumable
          have hresumable : ∀ b ∈ lineage.concepts,
              Resumable env { search with passed := search.passed ++ [a] } b := by
            intro b hb x hx hreach
            have hfollows : Follows env a b := hcomputed.follows_iff.mpr hb
            rcases List.mem_append.mp hx with hx | hx
            · exact hpassed x hx (hreach.head hfollows)
            · -- the way back to the address would close a circle
              rw [List.mem_singleton.mp hx] at hreach
              have hback : ReflTransGen env.Uses b a :=
                ReflTransGen.mono (fun _ _ hstep => hstep.2) b a hreach
              exact absurd (TransGen.head' hfollows.2 hback) (h a)
          rcases searched_foldlM hone hresumable with
            ⟨after, hafter, hfound⟩ | ⟨x, hx, ⟨b, hb, hreach⟩, hno⟩
          · exact .inl ⟨after, hafter, hcomputed.found hfound⟩
          · exact .inr ⟨x, hx, ⟨a, List.mem_singleton_self a,
              hreach.head (hcomputed.follows_iff.mpr hb)⟩, hno⟩

/-- The roots found so far, with those of one more concept. -/
def moreRoots (env : Environment) (roots : List String) (address : String) :
    Except RenderError (List String) := do
  let search ← collectRoots env (env.concepts.size + 1) ⟨roots, []⟩ address
  return search.roots

/-- Each concept is searched from anew; only the roots are handed on. -/
theorem foldlM_moreRoots (h : env.Acyclic) (starts sofar : List String) :
    (∃ roots, starts.foldlM (moreRoots env) sofar = .ok roots ∧
        Found env starts ⟨sofar, []⟩ ⟨roots, []⟩) ∨
      ∃ a, starts.foldlM (moreRoots env) sofar = .error (.unknownConcept a) ∧
        (∃ s ∈ starts, Reaches env s a) ∧ ¬ env.Knows a := by
  induction starts generalizing sofar with
  | nil => exact .inl ⟨sofar, rfl, found_nil _⟩
  | cons start starts ih =>
    have hheight : env.height start < env.concepts.size + 1 :=
      Nat.lt_succ_of_le (env.height_le_size start)
    have hresumable : Resumable env ⟨sofar, []⟩ start := fun x hx => by cases hx
    rw [List.foldlM_cons, moreRoots]
    rcases searched_collectRoots h hheight hresumable with
      ⟨after, hafter, hfound⟩ | ⟨a, ha, ⟨s, hs, hreach⟩, hno⟩
    · rw [hafter]
      have hforgotten : Found env [start] ⟨sofar, []⟩ ⟨after.roots, []⟩ :=
        ⟨hfound.settled, hfound.roots, fun x hx => by cases hx⟩
      rcases ih after.roots with ⟨roots, hroots, hrest⟩ | ⟨a, ha, ⟨s, hs, hreach⟩, hno⟩
      · exact .inl ⟨roots, hroots, hforgotten.cons hrest⟩
      · exact .inr ⟨a, ha, ⟨s, List.mem_cons_of_mem start hs, hreach⟩, hno⟩
    · rw [ha]
      obtain rfl := List.mem_singleton.mp hs
      exact .inr ⟨a, rfl, ⟨s, List.mem_cons_self, hreach⟩, hno⟩

/-- Where nothing is missing that the select needs, the roots found are those it needs;
else an address that is missing is named. -/
theorem rootsOf_cases (h : env.Acyclic) (select : Select) :
    (∃ roots, rootsOf env (needed select) = .ok roots ∧
        (∀ a, Needs env select a → env.Knows a) ∧
        ∀ r, r ∈ roots ↔ Needs env select r ∧ IsRoot env r) ∨
      ∃ a, rootsOf env (needed select) = .error (.unknownConcept a) ∧ Needs env select a ∧
        ¬ env.Knows a := by
  rcases foldlM_moreRoots h (needed select) [] with
    ⟨roots, hroots, hfound⟩ | ⟨a, ha, ⟨s, hs, hreach⟩, hno⟩
  · refine .inl ⟨roots, hroots, ?_, fun r => ?_⟩
    · rintro a ⟨s, hs, hreach⟩
      exact (hfound.settled s (mem_needed.mpr hs) a hreach).1
    · simp only [hfound.roots r, List.not_mem_nil, false_or, mem_needed, Needs]
      exact ⟨fun ⟨s, hs, hreach, hroot⟩ => ⟨⟨s, hs, hreach⟩, hroot⟩,
        fun ⟨⟨s, hs, hreach⟩, hroot⟩ => ⟨s, hs, hreach, hroot⟩⟩
  · exact .inr ⟨a, ha, ⟨s, mem_needed.mp hs, hreach⟩, hno⟩

end Search
end ConceptQuery.Plan
