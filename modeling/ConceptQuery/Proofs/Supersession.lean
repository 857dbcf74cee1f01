import Mathlib.Data.List.Nodup
import ConceptQuery.Proofs.Protocol

/-! # What overlapping validations publish

`Host.Sound` ties the session to what has happened in it. Every step keeps it, and so
it holds after any run, in whichever order the steps were taken. What carries the rest is
`stopped`: a validation under way that has been overridden is cancelled, because the one
in flight is always the latest that has not finished.
-/
namespace ConceptQuery
namespace Host

/-- How the session follows from what has happened. -/
structure Sound (files : Nat → FileTree) (dialect : Dialect) (config : Config)
    (past : List Event) (h : Host) : Prop where
  settings : h.session.dialect = dialect ∧ h.session.config = config
  /-- Generations count the validations. -/
  below : ∀ v, .began v ∈ past → v.generation < h.session.nextGeneration
  rising : (begun past).Pairwise fun new old => old.generation < new.generation
  began : ∀ v, .published v ∈ past ∨ .finished v ∈ past → .began v ∈ past
  runs : ∀ v, (h.running v).isSome ↔ .began v ∈ past ∧ .finished v ∉ past
  /-- A build that goes on has not published. -/
  unpublished : ∀ v stage, h.running v = some (.building stage) → .published v ∉ past
  outcome : ∀ v stage, h.running v = some (.building stage) →
    stage.outcome dialect config (files v.generation) v.document v.text =
      Snapshot.build dialect config (files v.generation) v.document v.text
  inflight : ∀ document, h.session.inflight.get? document =
    (latest document past).bind fun v => if .finished v ∈ past then none else some v.generation
  stopped : ∀ v, (h.running v).isSome → Overridden v past → h.session.isCancelled v = true
  snapshot : ∀ document, h.session.snapshot? document = (publisher document past).map fun v =>
    Snapshot.build dialect config (files v.generation) document v.text
  increasing : ∀ document,
    (publications document past).Pairwise fun new old => old.generation < new.generation

variable {files : Nat → FileTree} {dialect : Dialect} {config : Config} {past : List Event}
  {h h' : Host} {v w : Validation} {e : Event}

theorem sound_idle : Sound files dialect config [] (idle dialect config) where
  settings := ⟨rfl, rfl⟩
  below v hbegan := by cases hbegan
  rising := List.Pairwise.nil
  began v hpast := by rcases hpast with hpast | hpast <;> cases hpast
  runs v := by simp [idle]
  unpublished v stage hphase := by cases hphase
  outcome v stage hphase := by cases hphase
  inflight document := rfl
  stopped v hrunning := by cases hrunning
  snapshot document := rfl
  increasing document := List.Pairwise.nil

namespace Sound
variable (hs : Sound files dialect config past h)
include hs

/-- A generation belongs to one validation. -/
theorem eq_of_generation (hv : .began v ∈ past) (hw : .began w ∈ past)
    (heq : v.generation = w.generation) : v = w := by
  have hnodup : ((begun past).map Validation.generation).Nodup :=
    List.pairwise_map.mpr (hs.rising.imp fun hlt => Nat.ne_of_gt hlt)
  exact List.inj_on_of_nodup_map hnodup (mem_begun.mpr hv) (mem_begun.mpr hw) heq

/-- No validation of a document has a greater generation than the latest. -/
theorem le_of_latest (hlatest : latest w.document past = some v) (hw : .began w ∈ past) :
    w.generation ≤ v.generation := by
  have hrising := hs.rising
  clear hs
  induction past with
  | nil => cases hw
  | cons e past ih =>
    cases e with
    | began u =>
      rw [begun, List.pairwise_cons] at hrising
      rw [latest] at hlatest
      rcases List.mem_cons.mp hw with heq | hearlier
      · cases heq
        rw [if_pos rfl] at hlatest
        exact Nat.le_of_eq (congrArg Validation.generation (Option.some.inj hlatest))
      · split at hlatest
        · rw [← Option.some.inj hlatest]
          exact Nat.le_of_lt (hrising.1 w (mem_begun.mpr hearlier))
        · exact ih hlatest hearlier hrising.2
    | _ =>
      rcases List.mem_cons.mp hw with heq | hearlier
      · cases heq
      · exact ih hlatest hearlier hrising

/-- A validation that is wanted and under way is the one in flight. -/
theorem inflight_of_wanted (hrunning : (h.running v).isSome) (hwanted : ¬ Overridden v past) :
    h.session.inflight.get? v.document = some v.generation := by
  obtain ⟨hbegan, hunfinished⟩ := (hs.runs v).mp hrunning
  rw [hs.inflight, latest_of_not_overridden hbegan hwanted]
  exact if_neg hunfinished

/-- Whatever cancels a document stops all its validations under way. -/
theorem cancelled_of_document (hrunning : (h.running v).isSome) :
    (h.session.cancel v.document).isCancelled v = true := by
  rw [Session.isCancelled_cancel]
  by_cases hover : Overridden v past
  · exact .inr (hs.stopped v hrunning hover)
  · exact .inl (hs.inflight_of_wanted hrunning hover)

/-- A generation that is drawn next has not begun. -/
theorem not_began_next {document text : String} :
    .began ⟨document, text, h.session.nextGeneration⟩ ∉ past :=
  fun hbegan => Nat.lt_irrefl _ (hs.below _ hbegan)

theorem settings_step (heffect : Effect files h e h') :
    h'.session.dialect = dialect ∧ h'.session.config = config := by
  cases heffect <;> exact hs.settings

theorem below_step (heffect : Effect files h e h') :
    ∀ v, .began v ∈ e :: past → v.generation < h'.session.nextGeneration := by
  intro v hbegan
  cases heffect with
  | begin document text =>
    rcases List.mem_cons.mp hbegan with heq | hearlier
    · cases heq
      exact Nat.lt_succ_self _
    · exact Nat.lt_succ_of_lt (hs.below v hearlier)
  | _ => exact hs.below v (by simpa using hbegan)

theorem rising_step (heffect : Effect files h e h') :
    (begun (e :: past)).Pairwise fun new old => old.generation < new.generation := by
  cases heffect with
  | begin document text =>
    exact List.pairwise_cons.mpr ⟨fun v hv => hs.below v (mem_begun.mp hv), hs.rising⟩
  | _ => exact hs.rising

theorem began_step (heffect : Effect files h e h') :
    ∀ v, .published v ∈ e :: past ∨ .finished v ∈ e :: past → .began v ∈ e :: past := by
  intro v hpast
  -- what has just happened, happened to a validation under way
  have hrunning : e = .published v ∨ e = .finished v → .began v ∈ past := by
    intro he
    apply ((hs.runs v).mp _).1
    cases heffect with
    | publish hphase hwanted =>
      obtain rfl : _ = v := by simpa using he
      rw [hphase]
      rfl
    | finish hphase =>
      obtain rfl : _ = v := by simpa using he
      rw [hphase]
      rfl
    | _ => simp at he
  apply List.mem_cons_of_mem
  rcases hpast with hpast | hpast
  · rcases List.mem_cons.mp hpast with heq | hearlier
    · exact hrunning (.inl heq.symm)
    · exact hs.began v (.inl hearlier)
  · rcases List.mem_cons.mp hpast with heq | hearlier
    · exact hrunning (.inr heq.symm)
    · exact hs.began v (.inr hearlier)

/-- A validation in a phase is under way. -/
theorem under_way {phase : Phase} (hphase : h.running v = some phase) :
    .began v ∈ past ∧ .finished v ∉ past :=
  (hs.runs v).mp (by rw [hphase]; rfl)

theorem runs_step (heffect : Effect files h e h') :
    ∀ w, (h'.running w).isSome ↔ .began w ∈ e :: past ∧ .finished w ∉ e :: past := by
  intro w
  have hbefore := hs.runs w
  have hkeeps : ∀ {v phase}, h.running v = some phase → w = v →
      .began w ∈ past ∧ .finished w ∉ past := by
    rintro v phase hphase rfl
    exact hs.under_way hphase
  cases heffect with
  | begin document text =>
    by_cases hw : w = ⟨document, text, h.session.nextGeneration⟩
    · have hfresh : .finished w ∉ past := by
        intro hfinished
        subst hw
        exact hs.not_began_next (hs.began _ (.inr hfinished))
      simp [hw, hw ▸ hfresh]
    · simp [become_running_of_ne hw, hbefore, hw]
  | @finish v hphase =>
    by_cases hw : w = v
    · simp [hw]
    · simp [become_running_of_ne hw, hbefore, hw]
  | cancel document => simpa using hbefore
  | close document => simpa using hbefore
  | @advance v stage hphase =>
    by_cases hw : w = v
    · simpa [hw] using hkeeps hphase hw
    · simpa [become_running_of_ne hw] using hbefore
  | @publish v snapshot hphase hwanted =>
    by_cases hw : w = v
    · simpa [hw] using hkeeps hphase hw
    · simpa [become_running_of_ne hw] using hbefore
  | @refuse v stage hphase =>
    by_cases hw : w = v
    · simpa [hw] using hkeeps hphase hw
    · simpa [become_running_of_ne hw] using hbefore

theorem unpublished_step (heffect : Effect files h e h') :
    ∀ w stage, h'.running w = some (.building stage) → .published w ∉ e :: past := by
  intro w stage hafter
  rcases heffect.building hafter with ⟨hphase, hnot⟩ | ⟨rfl, hnext, -⟩ | ⟨rfl, before, hphase, -⟩
  · rw [List.mem_cons, not_or]
    exact ⟨Ne.symm hnot, hs.unpublished w stage hphase⟩
  · have hfresh : .published w ∉ past := fun hpublished =>
      Nat.ne_of_lt (hs.below w (hs.began w (.inl hpublished))) hnext
    simpa using hfresh
  · simpa using hs.unpublished w before hphase

theorem outcome_step (heffect : Effect files h e h') :
    ∀ w stage, h'.running w = some (.building stage) →
      stage.outcome dialect config (files w.generation) w.document w.text =
        Snapshot.build dialect config (files w.generation) w.document w.text := by
  intro w stage hafter
  rcases heffect.building hafter with ⟨hphase, -⟩ | ⟨-, -, rfl⟩ | ⟨-, before, hphase, hadvance⟩
  · exact hs.outcome w stage hphase
  · rfl
  · rw [← Session.advance_ok hadvance, hs.settings.1, hs.settings.2, Snapshot.Stage.outcome_next]
    exact hs.outcome w before hphase

theorem inflight_step (heffect : Effect files h e h') :
    ∀ document, h'.session.inflight.get? document =
      (latest document (e :: past)).bind fun v =>
        if .finished v ∈ e :: past then none else some v.generation := by
  intro document
  have hbefore := hs.inflight document
  cases heffect with
  | begin other text =>
    rw [latest, become_session]
    dsimp only
    rw [Catalog.get?_insert]
    split
    · have hfresh : .finished ⟨other, text, h.session.nextGeneration⟩ ∉ past := fun hfinished =>
        hs.not_began_next (hs.began _ (.inr hfinished))
      simp [hfresh]
    · simpa using hbefore
  | @finish v hphase =>
    have hv : .began v ∈ past := (hs.under_way hphase).1
    have hlater : latest document (.finished v :: past) = latest document past := rfl
    rw [hlater, become_session]
    dsimp only
    rw [Catalog.get?_eraseIf, hbefore]
    cases hlatest : latest document past with
    | none => simp
    | some u =>
      have hdocument : u.document = document := document_of_latest hlatest
      have hu : .began u ∈ past := began_of_latest hlatest
      by_cases hfinished : .finished u ∈ past
      · simp [hfinished]
      · by_cases heq : u = v
        · subst heq
          simp [hfinished, hdocument]
        · have hne : u.generation ≠ v.generation := fun hgeneration =>
            heq (hs.eq_of_generation hu hv hgeneration)
          simp [hfinished, heq, hne]
  | _ => simpa [latest] using hbefore

theorem stopped_step (heffect : Effect files h e h') :
    ∀ w, (h'.running w).isSome → Overridden w (e :: past) → h'.session.isCancelled w = true := by
  intro w hafter hover
  rcases hover with ⟨hoverrides, hdocument, hbegan⟩ | hover
  · -- the step itself overrides, and what was under way before it is stopped by it
    have hunfinished : .finished w ∉ e :: past := ((hs.runs_step heffect w).mp hafter).2
    have hbefore : (h.running w).isSome :=
      (hs.runs w).mpr ⟨hbegan, fun hfinished => hunfinished (List.mem_cons_of_mem _ hfinished)⟩
    have hcancelled := hs.cancelled_of_document hbefore
    rw [← hdocument, Session.cancel_eq] at hcancelled
    cases heffect with
    | begin document text => exact hcancelled
    | cancel document => exact hcancelled
    | close document => exact hcancelled
    | _ => cases hoverrides
  · by_cases hbefore : (h.running w).isSome
    · exact heffect.isCancelled (hs.stopped w hbefore hover)
    · -- a validation that has begun does not start again
      have hbegan : .began w ∈ past := hover.began
      have hfinished : .finished w ∈ past := by
        by_contra hunfinished
        exact hbefore ((hs.runs w).mpr ⟨hbegan, hunfinished⟩)
      exact absurd (List.mem_cons_of_mem e hfinished) ((hs.runs_step heffect w).mp hafter).2

theorem snapshot_step (heffect : Effect files h e h') :
    ∀ document, h'.session.snapshot? document = (publisher document (e :: past)).map fun v =>
      Snapshot.build dialect config (files v.generation) document v.text := by
  intro document
  have hbefore := hs.snapshot document
  cases heffect with
  | @publish v snapshot hphase hwanted =>
    rw [publisher, become_session, Session.snapshot?]
    dsimp only
    rw [Catalog.get?_insert]
    split
    · rename_i hdocument
      rw [← hdocument, Option.map_some, ← hs.outcome v _ hphase]
      rfl
    · exact hbefore
  | close other =>
    rw [publisher, Session.snapshot?]
    dsimp only
    rw [Catalog.get?_erase]
    split
    · rfl
    · exact hbefore
  | _ => exact hbefore

theorem increasing_step (heffect : Effect files h e h') :
    ∀ document, (publications document (e :: past)).Pairwise
      fun new old => old.generation < new.generation := by
  intro document
  have hbefore := hs.increasing document
  cases heffect with
  | @publish v snapshot hphase hwanted =>
    rw [publications]
    split
    · rename_i hdocument
      refine List.pairwise_cons.mpr ⟨?_, hbefore⟩
      intro w hw
      obtain ⟨hpublished, hsame⟩ := published_of_mem_publications hw
      have hbegan : .began w ∈ past := hs.began w (.inl hpublished)
      -- what publishes is not cancelled, so nothing overrides it and it is the latest
      have hnot : ¬ Overridden v past := by
        intro hover
        have hcancelled := hs.stopped v (by rw [hphase]; rfl) hover
        rw [hwanted] at hcancelled
        cases hcancelled
      have hlatest : latest w.document past = some v := by
        rw [hsame, ← hdocument]
        exact latest_of_not_overridden (hs.under_way hphase).1 hnot
      apply Nat.lt_of_le_of_ne (hs.le_of_latest hlatest hbegan)
      intro hgeneration
      have heq : w = v := hs.eq_of_generation hbegan (hs.under_way hphase).1 hgeneration
      exact hs.unpublished v _ hphase (heq ▸ hpublished)
    · exact hbefore
  | _ => exact hbefore

protected theorem step (hstep : Step files h e h') : Sound files dialect config (e :: past) h' where
  settings := hs.settings_step hstep.effect
  below := hs.below_step hstep.effect
  rising := hs.rising_step hstep.effect
  began := hs.began_step hstep.effect
  runs := hs.runs_step hstep.effect
  unpublished := hs.unpublished_step hstep.effect
  outcome := hs.outcome_step hstep.effect
  inflight := hs.inflight_step hstep.effect
  stopped := hs.stopped_step hstep.effect
  snapshot := hs.snapshot_step hstep.effect
  increasing := hs.increasing_step hstep.effect

end Sound

theorem Runs.sound (hruns : Runs files (idle dialect config) past h) :
    Sound files dialect config past h := by
  induction hruns with
  | none => exact sound_idle
  | more hruns hstep ih => exact ih.step hstep

namespace Sound
variable (hs : Sound files dialect config past h)
include hs

/-- What is in flight for a document is a validation of it. -/
theorem document_of_inflight {document : String} (hv : .began v ∈ past)
    (hinflight : h.session.inflight.get? document = some v.generation) : v.document = document := by
  rw [hs.inflight] at hinflight
  obtain ⟨u, hlatest, hgeneration⟩ := Option.bind_eq_some_iff.mp hinflight
  split at hgeneration
  · cases hgeneration
  · have heq : u = v := hs.eq_of_generation (began_of_latest hlatest) hv (Option.some.inj hgeneration)
    rw [← heq]
    exact document_of_latest hlatest

/-- Cancelling a document cancels no validation of another. -/
theorem isCancelled_other {document : String} (hv : .began v ∈ past)
    (hother : v.document ≠ document) :
    ((h.session.inflight.get? document).toList ++ h.session.cancelled).contains v.generation =
      h.session.isCancelled v := by
  rw [Session.isCancelled, Bool.eq_iff_iff, List.contains_iff_mem, List.contains_iff_mem,
    List.mem_append, Option.mem_toList]
  constructor
  · rintro (hinflight | hcancelled)
    · exact absurd (hs.document_of_inflight hv hinflight) hother
    · exact hcancelled
  · exact .inr

/-- A step leaves alone what belongs to other documents. -/
theorem other_document (heffect : Effect files h e h') {document : String}
    (hother : e.document ≠ document) :
    h'.session.snapshot? document = h.session.snapshot? document ∧
    h'.session.inflight.get? document = h.session.inflight.get? document ∧
    ∀ v, v.document = document → h'.running v = h.running v ∧
      (.began v ∈ past → h'.session.isCancelled v = h.session.isCancelled v) := by
  have hphase : ∀ {s w phase}, w.document ≠ document → ∀ v, v.document = document →
      (h.become s w phase).running v = h.running v := by
    rintro s w phase hw v rfl
    apply become_running_of_ne
    rintro rfl
    exact hw rfl
  have hcancelled : ∀ {other}, other ≠ document → ∀ v, v.document = document → .began v ∈ past →
      ((h.session.inflight.get? other).toList ++ h.session.cancelled).contains v.generation =
        h.session.isCancelled v := by
    rintro other hne v rfl hv
    exact hs.isCancelled_other hv (Ne.symm hne)
  cases heffect with
  | begin other text =>
    refine ⟨rfl, ?_, fun v hv => ⟨hphase hother v hv, hcancelled hother v hv⟩⟩
    exact (Catalog.get?_insert document).trans (if_neg hother)
  | advance => exact ⟨rfl, rfl, fun v hv => ⟨hphase hother v hv, fun _ => rfl⟩⟩
  | publish =>
    refine ⟨?_, rfl, fun v hv => ⟨hphase hother v hv, fun _ => rfl⟩⟩
    exact (Catalog.get?_insert document).trans (if_neg hother)
  | refuse => exact ⟨rfl, rfl, fun v hv => ⟨hphase hother v hv, fun _ => rfl⟩⟩
  | finish =>
    refine ⟨rfl, ?_, fun v hv => ⟨hphase hother v hv, fun _ => rfl⟩⟩
    exact (Catalog.get?_eraseIf document).trans (if_neg fun hboth => hother hboth.1)
  | cancel other => exact ⟨rfl, rfl, fun v hv => ⟨rfl, hcancelled hother v hv⟩⟩
  | close other =>
    refine ⟨?_, rfl, fun v hv => ⟨rfl, hcancelled hother v hv⟩⟩
    exact (Catalog.get?_erase document).trans (if_neg hother)

/-- A validation that is overridden or cancelled stays so, and publishes no more. -/
theorem not_published {after : List Event}
    (hstop : Overridden v past ∨ h.session.isCancelled v = true) (hruns : Runs files h after h') :
    .published v ∉ after := by
  suffices hmore : .published v ∉ after ∧ Sound files dialect config (after ++ past) h' ∧
      (Overridden v (after ++ past) ∨ h'.session.isCancelled v = true) from hmore.1
  induction hruns with
  | none => exact ⟨nofun, hs, hstop⟩
  | @more after e between last hruns hstep ih =>
    obtain ⟨hbefore, hsound, hstill⟩ := ih
    refine ⟨?_, hsound.step hstep, ?_⟩
    · intro hpublished
      rcases List.mem_cons.mp hpublished with rfl | hearlier
      · cases hstep.effect with
        | publish hphase hwanted =>
          rcases hstill with hover | hcancelled
          · rw [hsound.stopped v (by rw [hphase]; rfl) hover] at hwanted
            cases hwanted
          · rw [hcancelled] at hwanted
            cases hwanted
      · exact hbefore hearlier
    · rcases hstill with hover | hcancelled
      · exact .inl (.inr hover)
      · exact .inr (hstep.effect.isCancelled hcancelled)

theorem began_once (hv : .began v ∈ past) : past.count (.began v) = 1 := by
  have hnodup : (begun past).Nodup := hs.rising.imp fun hlt heq =>
    Nat.ne_of_gt hlt (congrArg Validation.generation heq)
  rw [← count_begun]
  exact List.count_eq_one_of_mem hnodup (mem_begun.mpr hv)

/-- A document has an entry in flight as long as its latest validation has not finished. -/
theorem inflight_iff {document : String} {generation : Nat} :
    h.session.inflight.get? document = some generation ↔
      ∃ v, latest document past = some v ∧ .finished v ∉ past ∧ v.generation = generation := by
  rw [hs.inflight, Option.bind_eq_some_iff]
  constructor
  · rintro ⟨v, hlatest, hgeneration⟩
    split at hgeneration
    · cases hgeneration
    · rename_i hunfinished
      exact ⟨v, hlatest, hunfinished, Option.some.inj hgeneration⟩
  · rintro ⟨v, hlatest, hunfinished, rfl⟩
    exact ⟨v, hlatest, if_neg hunfinished⟩

theorem inflight_empty (hdone : ∀ v, .began v ∈ past → .finished v ∈ past) :
    h.session.inflight = .empty := by
  apply Catalog.eq_empty_of_get?
  intro document
  rw [hs.inflight, Option.bind_eq_none_iff]
  intro v hlatest
  exact if_pos (hdone v (began_of_latest hlatest))

end Sound

/-- After any run of a session: what is stored for a document is the build of the one
validation that published it; publications of a document have rising generations; a
validation that has been overridden or cancelled publishes no more, whatever follows; a
document is in flight exactly as long as its latest validation has not finished; and a step
changes nothing that belongs to another document. -/
theorem Runs.safe (hruns : Runs files (idle dialect config) past h) :
    (∀ document snapshot, h.session.snapshot? document = some snapshot →
      ∃ v, publisher document past = some v ∧ v.document = document ∧
        past.count (.began v) = 1 ∧
        snapshot = Snapshot.build dialect config (files v.generation) document v.text) ∧
    (∀ document, (publications document past).Pairwise
      fun new old => old.generation < new.generation) ∧
    (∀ v, Overridden v past ∨ h.session.isCancelled v = true →
      ∀ after h', Runs files h after h' → .published v ∉ after) ∧
    (∀ document generation, h.session.inflight.get? document = some generation ↔
      ∃ v, latest document past = some v ∧ .finished v ∉ past ∧ v.generation = generation) ∧
    ((∀ v, .began v ∈ past → .finished v ∈ past) → h.session.inflight = .empty) ∧
    ∀ e h', Step files h e h' → ∀ document, e.document ≠ document →
      h'.session.snapshot? document = h.session.snapshot? document ∧
      h'.session.inflight.get? document = h.session.inflight.get? document ∧
      ∀ v, v.document = document → h'.running v = h.running v ∧
        (.began v ∈ past → h'.session.isCancelled v = h.session.isCancelled v) := by
  have hs : Sound files dialect config past h := hruns.sound
  refine ⟨?_, hs.increasing, ?_, ?_, hs.inflight_empty, ?_⟩
  · intro document snapshot hsnapshot
    rw [hs.snapshot, Option.map_eq_some_iff] at hsnapshot
    obtain ⟨v, hpublisher, hbuild⟩ := hsnapshot
    obtain ⟨hpublished, hdocument⟩ := publisher_spec hpublisher
    exact ⟨v, hpublisher, hdocument, hs.began_once (hs.began v (.inl hpublished)), hbuild.symm⟩
  · intro v hstop after h' hafter
    exact hs.not_published hstop hafter
  · intro document generation
    exact hs.inflight_iff
  · intro e h' hstep document hother
    exact hs.other_document hstep.effect hother

/-- A second validation begins before the first has finished. The first gives up where it
looks next, and the second is published. -/
theorem Runs.safe_overlapping :
    ∃ h, Runs (fun _ => .empty) (idle DuckDb.dialect {})
        [.published ⟨"d", "x", 1⟩, .advanced ⟨"d", "x", 1⟩, .advanced ⟨"d", "", 0⟩,
          .began ⟨"d", "x", 1⟩, .advanced ⟨"d", "", 0⟩, .began ⟨"d", "", 0⟩] h ∧
      h.running ⟨"d", "", 0⟩ = some .ending ∧
      (∃ snapshot, h.session.snapshot? "d" = some snapshot ∧
        snapshot = Snapshot.build DuckDb.dialect {} .empty "d" "x") ∧
      ∀ after h', Runs (fun _ => .empty) h after h' → .published ⟨"d", "", 0⟩ ∉ after := by
  have hruns : Runs (fun _ => .empty) (idle DuckDb.dialect {}) _ _ :=
    (((((Runs.none.more (.begin (Session.start_eq "d" ""))).more
      (.advance (v := ⟨"d", "", 0⟩) rfl rfl)).more
      (.begin (Session.start_eq "d" "x"))).more
      (.advance (v := ⟨"d", "", 0⟩) rfl rfl)).more
      (.advance (v := ⟨"d", "x", 1⟩) rfl rfl)).more
      (.publish (v := ⟨"d", "x", 1⟩) rfl rfl)
  obtain ⟨hstored, -, hstop, -⟩ := Runs.safe hruns
  refine ⟨_, hruns, rfl, ?_, hstop ⟨"d", "", 0⟩ (.inl ?_)⟩
  · obtain ⟨v, hpublisher, -, -, hbuild⟩ := hstored "d" _ rfl
    cases hpublisher
    exact ⟨_, rfl, hbuild⟩
  · -- what overrides the first validation is that the second began
    exact .inr (.inr (.inr (.inl ⟨rfl, rfl, .tail _ (.head _)⟩)))

end Host
end ConceptQuery
