import ConceptQuery.Plan.Select
import ConceptQuery.Proofs.Cover
import ConceptQuery.Proofs.Passes
import ConceptQuery.Proofs.Quoting

/-! # What joins equate

A datasource is joined to one partner, the first in front of it that shares any
concept with it, on all that the two share. If it shares more with another one, that
is not equated. `Choice.JoinsShared` says that the columns of a concept are equal in
every joined row, wherever it is bound. This holds if every partner binds all that
its datasource shares with those in front; and in no other case, as long as columns
can be told apart.
-/
namespace ConceptQuery

section Closures
variable {α : Type} {R : α → α → Prop} {pairs : List (α × α)} {x y : α}

/-- What is related to nothing is equivalent to itself only. -/
theorem eq_of_eqvGen (h : Relation.EqvGen R x y) {z : α} (hz : ∀ w, ¬ R z w ∧ ¬ R w z) :
    x = z ↔ y = z := by
  induction h with
  | rel x y hxy =>
    constructor
    · rintro rfl
      exact absurd hxy (hz y).1
    · rintro rfl
      exact absurd hxy (hz x).2
  | refl x => exact Iff.rfl
  | symm x y _ ih => exact ih.symm
  | trans x y w _ _ ih ih' => exact ih.trans ih'

/-- The other end of the first pair that ends here. -/
def retract [DecidableEq α] (pairs : List (α × α)) (x : α) : α :=
  ((pairs.find? fun p => p.2 = x).map Prod.fst).getD x

theorem retract_of_not_mem [DecidableEq α] (h : ∀ l, (l, x) ∉ pairs) : retract pairs x = x := by
  have hnone : (pairs.find? fun p => p.2 = x) = none := by
    rw [List.find?_eq_none]
    rintro ⟨l, r⟩ hp
    simp only [decide_eq_true_eq]
    rintro rfl
    exact h l hp
  rw [retract, hnone]
  rfl

theorem retract_of_mem [DecidableEq α] {l : α} (h : (l, x) ∈ pairs)
    (hunique : ∀ l', (l', x) ∈ pairs → l' = l) : retract pairs x = l := by
  have hsome : ((pairs.find? fun p => p.2 = x).isSome) = true := by
    rw [List.find?_isSome]
    exact ⟨_, h, decide_eq_true rfl⟩
  obtain ⟨⟨l', r⟩, hfound⟩ := Option.isSome_iff_exists.mp hsome
  obtain rfl : r = x := by simpa using List.find?_some hfound
  rw [retract, hfound]
  exact hunique l' (List.mem_of_find?_eq_some hfound)

/-- Pairs whose right ends are new, each with one left end, equate nothing more among
what was there before. -/
theorem eqvGen_retract [DecidableEq α]
    (hold : ∀ {x y}, R x y → (∀ l, (l, x) ∉ pairs) ∧ ∀ l, (l, y) ∉ pairs)
    (hleft : ∀ {l r}, (l, r) ∈ pairs → ∀ l', (l', l) ∉ pairs)
    (hunique : ∀ {l l' r}, (l, r) ∈ pairs → (l', r) ∈ pairs → l' = l)
    (h : Relation.EqvGen (fun x y => R x y ∨ (x, y) ∈ pairs) x y) :
    Relation.EqvGen R (retract pairs x) (retract pairs y) := by
  induction h with
  | rel x y hxy =>
    rcases hxy with hxy | hxy
    · rw [retract_of_not_mem (hold hxy).1, retract_of_not_mem (hold hxy).2]
      exact .rel x y hxy
    · rw [retract_of_not_mem (hleft hxy), retract_of_mem hxy fun _ h => hunique hxy h]
      exact .refl x
  | refl x => exact .refl _
  | symm x y _ ih => exact .symm _ _ ih
  | trans x y z _ _ ih ih' => exact .trans _ _ _ ih ih'

end Closures

namespace Plan

/-- A join of the plan equates the two columns. -/
def Choice.Equates (choice : Choice) (left right : String) : Prop :=
  ∃ source ∈ choice.sources, (left, right) ∈ source.joinOn

/-- The columns of a concept in the chosen datasources are equal in every joined row, by
what the joins equate. -/
def Choice.JoinsShared (choice : Choice) : Prop :=
  ∀ a, ∀ d ∈ choice.chosen, ∀ e ∈ choice.chosen, ∀ left right,
    columnIn a d = some left → columnIn a e = some right →
      Relation.EqvGen choice.Equates left right

/-- The partner of a datasource binds all that the datasource shares with any in front. -/
def PartnerSharesAll (front : List Datasource) (d : Datasource) : Prop :=
  ∀ e ∈ front, ∀ a, e.binds a = true → d.binds a = true →
    ∃ partner, joinPartner? front d = some partner ∧ partner.binds a = true

def PartnersShareAll (chosen : List Datasource) : Prop :=
  ∀ front d back, chosen = front ++ d :: back → PartnerSharesAll front d

/-- No two datasources have one alias, and none binds a column twice. -/
structure ToldApart (chosen : List Datasource) : Prop where
  aliases : (chosen.map aliasFor).Nodup
  columns : ∀ d ∈ chosen, (d.columns.map ColumnBinding.column).Nodup

instance (front : List Datasource) (d : Datasource) : Decidable (PartnerSharesAll front d) :=
  decidable_of_iff (∀ e ∈ front, ∀ b ∈ e.columns, d.binds b.concept = true →
      (joinPartner? front d).any fun partner => partner.binds b.concept) (by
    simp only [PartnerSharesAll, Option.any_eq_true]
    refine forall₂_congr fun e _ => ⟨fun h a ha => ?_, fun h b hb => ?_⟩
    · obtain ⟨b, hb⟩ := Datasource.binds_iff.mp ha
      obtain ⟨hmem, rfl⟩ := Datasource.columnFor?_eq_some hb
      exact h b hmem
    · exact h _ (Datasource.binds_of_mem hb))

instance (chosen : List Datasource) : Decidable (PartnersShareAll chosen) :=
  decidable_of_iff (∀ i : Fin chosen.length, PartnerSharesAll (chosen.take i) (chosen.get i)) (by
    constructor
    · rintro h front d back rfl
      simpa using h ⟨front.length, by simp⟩
    · intro h i
      refine h _ _ (chosen.drop (i + 1)) ?_
      rw [List.get_eq_getElem, List.getElem_cons_drop, List.take_append_drop])

instance (chosen : List Datasource) : Decidable (ToldApart chosen) :=
  decidable_of_iff ((chosen.map aliasFor).Nodup ∧
      ∀ d ∈ chosen, (d.columns.map ColumnBinding.column).Nodup)
    ⟨fun h => ⟨h.1, h.2⟩, fun h => ⟨h.aliases, h.columns⟩⟩

section Adding
variable {choice : Choice} {d : Datasource} {front : List Datasource} {left right a b : String}

theorem equates_add : (choice.add d).Equates left right ↔
    choice.Equates left right ∨ (left, right) ∈ joinColumns choice.chosen d := by
  simp [Choice.Equates, Choice.add, or_and_right, exists_or]

theorem partnersShareAll_concat :
    PartnersShareAll (front ++ [d]) ↔ PartnersShareAll front ∧ PartnerSharesAll front d := by
  constructor
  · intro h
    refine ⟨fun f e back hsplit => ?_, h front d [] rfl⟩
    apply h f e (back ++ [d])
    rw [hsplit, List.append_assoc, List.cons_append]
  · rintro ⟨hfront, hlast⟩ f e back hsplit
    rcases split_concat hsplit with ⟨rfl, rfl⟩ | ⟨back', hsplit'⟩
    · exact hlast
    · exact hfront f e back' hsplit'

/-- If its partner shares all, a new datasource keeps the columns of each concept equal. -/
theorem Choice.JoinsShared.add (h : choice.JoinsShared) (hall : PartnerSharesAll choice.chosen d) :
    (choice.add d).JoinsShared := by
  have hmono : ∀ {l r}, Relation.EqvGen choice.Equates l r →
      Relation.EqvGen (choice.add d).Equates l r :=
    fun hlr => Relation.EqvGen.mono (fun _ _ hold => equates_add.mpr (.inl hold)) _ _ hlr
  have hnew : ∀ {a e l r}, e ∈ choice.chosen → columnIn a e = some l → columnIn a d = some r →
      Relation.EqvGen (choice.add d).Equates l r := by
    intro a e l r he hl hr
    obtain ⟨partner, hpartner, hbinds⟩ := hall e he a
      (binds_iff_columnIn.mpr ⟨l, hl⟩) (binds_iff_columnIn.mpr ⟨r, hr⟩)
    obtain ⟨m, hm⟩ := binds_iff_columnIn.mp hbinds
    have hjoin : (m, r) ∈ joinColumns choice.chosen d :=
      mem_joinColumns.mpr ⟨partner, a, hpartner, hm, hr⟩
    refine .trans _ _ _ (hmono ?_) (.rel _ _ (equates_add.mpr (.inr hjoin)))
    exact h a e he partner (joinPartner?_eq_some hpartner).1 l m hl hm
  intro a x hx y hy l r hl hr
  rw [Choice.chosen_add, List.mem_append, List.mem_singleton] at hx hy
  rcases hx with hx | rfl
  · rcases hy with hy | rfl
    · exact hmono (h a x hx y hy l r hl hr)
    · exact hnew hx hl hr
  · rcases hy with hy | rfl
    · exact .symm _ _ (hnew hy hr hl)
    · obtain rfl := Option.some.inj (hl.symm.trans hr)
      exact .refl l

/-- Both ends of every join are columns of chosen datasources. -/
def Choice.EquatesColumns (choice : Choice) : Prop :=
  ∀ {left right}, choice.Equates left right →
    (∃ d ∈ choice.chosen, ∃ a, columnIn a d = some left) ∧
      ∃ d ∈ choice.chosen, ∃ a, columnIn a d = some right

theorem Choice.EquatesColumns.add (h : choice.EquatesColumns) (d : Datasource) :
    (choice.add d).EquatesColumns := by
  intro left right hequates
  rw [Choice.chosen_add]
  rcases equates_add.mp hequates with hold | hnew
  · obtain ⟨⟨e, he, hleft⟩, e', he', hright⟩ := h hold
    exact ⟨⟨e, List.mem_append_left _ he, hleft⟩, e', List.mem_append_left _ he', hright⟩
  · obtain ⟨partner, a, hpartner, hleft, hright⟩ := mem_joinColumns.mp hnew
    have hmem := (joinPartner?_eq_some hpartner).1
    exact ⟨⟨partner, List.mem_append_left _ hmem, a, hleft⟩, d, by simp, a, hright⟩

theorem ToldApart.columnIn_ne (h : ToldApart (front ++ [d])) {e : Datasource} (he : e ∈ front)
    (hleft : columnIn a e = some left) : columnIn b d ≠ some left := by
  intro hright
  obtain ⟨x, -, hx⟩ := columnIn_eq_some.mp hleft
  obtain ⟨y, -, hy⟩ := columnIn_eq_some.mp hright
  have halias : aliasFor e = aliasFor d := (columnRef_inj (hx.trans hy.symm)).1
  have hnodup := h.aliases
  rw [List.map_append, List.nodup_append] at hnodup
  exact hnodup.2.2 _ (List.mem_map_of_mem he) _ List.mem_cons_self halias

theorem concept_eq_of_columnIn (h : (d.columns.map ColumnBinding.column).Nodup)
    (ha : columnIn a d = some right) (hb : columnIn b d = some right) : a = b := by
  obtain ⟨x, hx, hxtext⟩ := columnIn_eq_some.mp ha
  obtain ⟨y, hy, hytext⟩ := columnIn_eq_some.mp hb
  obtain ⟨hxmem, rfl⟩ := Datasource.columnFor?_eq_some hx
  obtain ⟨hymem, rfl⟩ := Datasource.columnFor?_eq_some hy
  have hcolumn := (columnRef_inj (hxtext.trans hytext.symm)).2
  rw [List.inj_on_of_nodup_map h hxmem hymem hcolumn]

/-- No join of a new datasource ends at a column of those in front. -/
theorem ToldApart.not_mem_joinColumns (h : ToldApart (front ++ [d])) {e : Datasource}
    (he : e ∈ front) (htext : columnIn a e = some right) (l : String) :
    (l, right) ∉ joinColumns front d := by
  intro hl
  obtain ⟨_, b, -, -, hb⟩ := mem_joinColumns.mp hl
  exact h.columnIn_ne he htext hb

/-- A new datasource equates nothing among those in front: what holds of its columns holds
of those of its partner. -/
theorem eqvGen_of_add (hold : choice.EquatesColumns) (happart : ToldApart (choice.chosen ++ [d]))
    (h : Relation.EqvGen (choice.add d).Equates left right) :
    Relation.EqvGen choice.Equates (retract (joinColumns choice.chosen d) left)
      (retract (joinColumns choice.chosen d) right) := by
  rw [show (choice.add d).Equates = fun l r => choice.Equates l r ∨
    (l, r) ∈ joinColumns choice.chosen d from funext₂ fun l r => propext equates_add] at h
  refine eqvGen_retract ?_ ?_ ?_ h
  · intro l r hlr
    obtain ⟨⟨e, he, b, hb⟩, e', he', b', hb'⟩ := hold hlr
    exact ⟨happart.not_mem_joinColumns he hb, happart.not_mem_joinColumns he' hb'⟩
  · intro l r hlr
    obtain ⟨partner, b, hpartner, hb, -⟩ := mem_joinColumns.mp hlr
    exact happart.not_mem_joinColumns (joinPartner?_eq_some hpartner).1 hb
  · intro l l' r hl hl'
    obtain ⟨partner, b, hpartner, hb, hr⟩ := mem_joinColumns.mp hl
    obtain ⟨partner', b', hpartner', hb', hr'⟩ := mem_joinColumns.mp hl'
    obtain rfl := Option.some.inj (hpartner.symm.trans hpartner')
    obtain rfl := concept_eq_of_columnIn (happart.columns d (by simp)) hr hr'
    exact Option.some.inj (hb'.symm.trans hb)

theorem joinsShared_of_add (hold : choice.EquatesColumns)
    (happart : ToldApart (choice.chosen ++ [d])) (h : (choice.add d).JoinsShared) :
    choice.JoinsShared := by
  intro a x hx y hy l r hl hr
  have hlr := eqvGen_of_add hold happart (h a x (by simp [hx]) y (by simp [hy]) l r hl hr)
  rwa [retract_of_not_mem (happart.not_mem_joinColumns hx hl),
    retract_of_not_mem (happart.not_mem_joinColumns hy hr)] at hlr

/-- The columns of a new datasource are equal only to what its partner binds as well. -/
theorem partnerSharesAll_of_add (hold : choice.EquatesColumns)
    (happart : ToldApart (choice.chosen ++ [d])) (h : (choice.add d).JoinsShared) :
    PartnerSharesAll choice.chosen d := by
  intro e he a hea hda
  by_contra hno
  obtain ⟨l, hl⟩ := binds_iff_columnIn.mp hea
  obtain ⟨r, hr⟩ := binds_iff_columnIn.mp hda
  have hunjoined : ∀ m, (m, r) ∉ joinColumns choice.chosen d := by
    intro m hm
    obtain ⟨partner, b, hpartner, hb, hbr⟩ := mem_joinColumns.mp hm
    obtain rfl := concept_eq_of_columnIn (happart.columns d (by simp)) hbr hr
    exact hno ⟨partner, hpartner, binds_iff_columnIn.mpr ⟨m, hb⟩⟩
  have hlr := eqvGen_of_add hold happart (h a e (by simp [he]) d (by simp) l r hl hr)
  rw [retract_of_not_mem (happart.not_mem_joinColumns he hl), retract_of_not_mem hunjoined] at hlr
  -- before the join the column of the new datasource is equated to nothing
  have halone : ∀ w, ¬ choice.Equates r w ∧ ¬ choice.Equates w r := by
    refine fun w => ⟨fun hw => ?_, fun hw => ?_⟩
    · obtain ⟨⟨e', he', b, hb⟩, -⟩ := hold hw
      exact happart.columnIn_ne he' hb hr
    · obtain ⟨-, e', he', b, hb⟩ := hold hw
      exact happart.columnIn_ne he' hb hr
  have hsame : l = r := (eq_of_eqvGen hlr halone).mpr rfl
  exact happart.columnIn_ne he (hsame ▸ hl) hr

theorem ToldApart.init (h : ToldApart (front ++ [d])) : ToldApart front where
  aliases := by
    have haliases := h.aliases
    rw [List.map_append] at haliases
    exact haliases.of_append_left
  columns e he := h.columns e (List.mem_append_left _ he)

end Adding

section Choosing
variable {env : Environment} {roots : List String} {choice : Choice}

theorem equatesColumns_of_rounds (h : Rounds env roots {} choice) : choice.EquatesColumns := by
  induction h with
  | refl =>
    rintro left right ⟨source, hsource, -⟩
    cases hsource
  | tail _ hround ih =>
    obtain ⟨d, -, rfl⟩ := hround
    exact ih.add d

theorem joinsShared_of_partners (h : Rounds env roots {} choice)
    (hall : PartnersShareAll choice.chosen) : choice.JoinsShared := by
  induction h with
  | refl => exact fun a d hd => by cases hd
  | tail _ hround ih =>
    obtain ⟨d, -, rfl⟩ := hround
    obtain ⟨hfront, hlast⟩ := partnersShareAll_concat.mp hall
    exact (ih hfront).add hlast

theorem partners_of_joinsShared (h : Rounds env roots {} choice)
    (happart : ToldApart choice.chosen) (hjoins : choice.JoinsShared) :
    PartnersShareAll choice.chosen := by
  induction h with
  | refl =>
    intro front d back hsplit
    simp at hsplit
  | tail hrounds hround ih =>
    obtain ⟨d, -, rfl⟩ := hround
    have hcolumns : Choice.EquatesColumns _ := equatesColumns_of_rounds hrounds
    have hfront := joinsShared_of_add hcolumns happart hjoins
    exact partnersShareAll_concat.mpr
      ⟨ih happart.init hfront, partnerSharesAll_of_add hcolumns happart hjoins⟩

end Choosing

/-- The columns of each shared concept are equal in every joined row if every partner
binds what its datasource shares with those in front, and only if so where columns can be
told apart. -/
theorem chooseSources_joinsShared_iff {env : Environment} {roots : List String} {choice : Choice}
    (h : chooseSources env .empty roots = .ok choice) :
    (PartnersShareAll choice.chosen → choice.JoinsShared) ∧
      (ToldApart choice.chosen → choice.JoinsShared → PartnersShareAll choice.chosen) :=
  ⟨joinsShared_of_partners (rounds_of_chooseSources h).1,
    partners_of_joinsShared (rounds_of_chooseSources h).1⟩

/-- Customers, orders of customers, and payments with the given columns. -/
def shop (payments : List ColumnBinding) : Environment :=
  let source (name : String) (columns : List ColumnBinding) : String × Datasource :=
    (name, ⟨name, localSpace, columns, [], .table name, false⟩)
  { Environment.initial with datasources := ⟨[
      source "customers" [⟨"id", "customer"⟩, ⟨"name", "name"⟩],
      source "orders" [⟨"customer", "customer"⟩, ⟨"id", "order"⟩, ⟨"day", "day"⟩],
      source "payments" payments]⟩ }

/-- Payments of orders share one concept with one datasource in front of them. -/
theorem chooseSources_joinsShared_iff_chain :
    ∃ choice, chooseSources (shop [⟨"order", "order"⟩, ⟨"paid", "paid"⟩]) .empty
        ["name", "day", "paid"] = .ok choice ∧
      choice.chosen.length = 3 ∧ PartnersShareAll choice.chosen ∧ choice.JoinsShared := by
  have hcomputed : (chooseSources (shop [⟨"order", "order"⟩, ⟨"paid", "paid"⟩]) .empty
      ["name", "day", "paid"]).toOption.any (fun choice =>
        decide (choice.chosen.length = 3 ∧ PartnersShareAll choice.chosen)) = true := by
    decide +kernel
  obtain ⟨choice, hchoice, hp⟩ := exists_of_any hcomputed
  obtain ⟨hlength, hall⟩ := of_decide_eq_true hp
  exact ⟨choice, hchoice, hlength, hall, (chooseSources_joinsShared_iff hchoice).1 hall⟩

end Plan

open Compile Plan

/-- As in a shop where payments are kept with their order and its customer. -/
def triangle : String :=
  "key c int;\nkey o int;\nauto n int;\nauto d int;\nauto p int;\n" ++
  "datasource s (c, n) address s;\ndatasource t (c, o, d) address t;\n" ++
  "datasource u (c, o, p) address u;\nselect n, d, p;"

/-- There the third datasource is joined to the first, so that nothing equates what it
shares with the second. -/
theorem Plan.joinsShared_fails_triangle :
    ∃ tree c, parse triangle = .ok tree ∧
      Compilation.run (compileModule (Library.mk [] id).load 0 []) .initial triangle tree = c ∧
      c.error = none ∧
      ∃ s ∈ c.selects, ∃ roots choice, rootsOf c.env (needed s) = .ok roots ∧
        chooseSources c.env .empty roots = .ok choice ∧ ¬ choice.JoinsShared := by
  have hcomputed : ∃ tree, parse triangle = .ok tree ∧
      (fun c : Compilation => some (c.error, c.selects.any fun s =>
          (rootsOf c.env (needed s)).toOption.any fun roots =>
            (chooseSources c.env .empty roots).toOption.any fun choice =>
              decide (ToldApart choice.chosen ∧ ¬ PartnersShareAll choice.chosen)))
        (Compilation.run (compileModule (Library.mk [] id).load 0 []) .initial triangle tree) =
        some (none, true) := by
    apply exists_tree
    decide +kernel
  obtain ⟨tree, hparse, hcomputed⟩ := hcomputed
  obtain ⟨hresolved, hsources⟩ := Prod.mk.inj (Option.some.inj hcomputed)
  obtain ⟨s, hs, hsources⟩ := List.any_eq_true.mp hsources
  obtain ⟨roots, hroots, hsources⟩ := exists_of_any hsources
  obtain ⟨choice, hchoice, hp⟩ := exists_of_any hsources
  obtain ⟨happart, hnot⟩ := of_decide_eq_true hp
  exact ⟨tree, _, hparse, rfl, hresolved, s, hs, roots, choice, hroots, hchoice, fun hjoins =>
    hnot (partners_of_joinsShared (rounds_of_chooseSources hchoice).1 happart hjoins)⟩

end ConceptQuery
