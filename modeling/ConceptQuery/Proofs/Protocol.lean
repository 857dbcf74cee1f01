import Mathlib.Data.List.Nodup
import Mathlib.Logic.Function.Basic
import ConceptQuery.Editor.Session
import ConceptQuery.Proofs.Catalogs

/-! # Validations that overlap

Any number of validations run in one session, of the same document or of others,
while documents are cancelled and closed. `Host.Step` takes one of them one step
further; beginning, publishing, finishing, cancelling and closing are one step each,
and a build takes one step per stage. What has happened so far is kept as a list of
events, newest first. `Effect` says what a step does to each part of the session. A
validation that runs with nothing in between is a run as well.
-/
namespace ConceptQuery

/-- What a validation under way has to do: go on with its build and publish it, or
only finish. -/
inductive Phase where
  | building (stage : Snapshot.Stage)
  | ending

/-- The phase after a build tried to go on. -/
def Phase.ofAttempt : Except EditorError Snapshot.Stage → Phase
  | .ok stage => .building stage
  | .error _ => .ending

/-- A session and what its validations under way have to do. -/
structure Host where
  session : Session
  running : Validation → Option Phase

inductive Event where
  | began (v : Validation)
  | advanced (v : Validation)
  | published (v : Validation)
  | refused (v : Validation)
  | finished (v : Validation)
  | cancelled (document : String)
  | closed (document : String)
deriving DecidableEq

namespace Event

def document : Event → String
  | began v | advanced v | published v | refused v | finished v => v.document
  | cancelled document | closed document => document

/-- Events after which an earlier validation of their document is no longer wanted. -/
def overrides : Event → Bool
  | began _ | cancelled _ | closed _ => true
  | advanced _ | published _ | refused _ | finished _ => false

end Event

section History

/-- The validations that began, newest first. -/
def begun : List Event → List Validation
  | [] => []
  | .began v :: past => v :: begun past
  | _ :: past => begun past

/-- The validation of a document that began last. -/
def latest (document : String) : List Event → Option Validation
  | [] => none
  | .began v :: past => if v.document = document then some v else latest document past
  | _ :: past => latest document past

/-- The validation of a document that published last, unless the document was closed
since. -/
def publisher (document : String) : List Event → Option Validation
  | [] => none
  | .published v :: past => if v.document = document then some v else publisher document past
  | .closed other :: past => if other = document then none else publisher document past
  | _ :: past => publisher document past

/-- The validations of a document that published, newest first. -/
def publications (document : String) : List Event → List Validation
  | [] => []
  | .published v :: past =>
    if v.document = document then v :: publications document past else publications document past
  | _ :: past => publications document past

/-- The validation began, and later its document was validated anew, cancelled or
closed. -/
def Overridden (v : Validation) : List Event → Prop
  | [] => False
  | e :: past =>
    e.overrides = true ∧ e.document = v.document ∧ .began v ∈ past ∨ Overridden v past

variable {v : Validation} {document : String} {past : List Event}

theorem mem_begun : v ∈ begun past ↔ .began v ∈ past := by
  induction past with
  | nil => simp [begun]
  | cons e past ih =>
    cases e with
    | began w => simp [begun, ih]
    | _ => simp [begun, ih]

theorem count_begun : (begun past).count v = past.count (.began v) := by
  induction past with
  | nil => rfl
  | cons e past ih =>
    cases e with
    | began w => simp [begun, List.count_cons, ih]
    | _ => simp [begun, ih]

theorem Overridden.began (h : Overridden v past) : .began v ∈ past := by
  induction past with
  | nil => cases h
  | cons e past ih =>
    rcases h with ⟨-, -, hbegan⟩ | h
    · exact List.mem_cons_of_mem e hbegan
    · exact List.mem_cons_of_mem e (ih h)

theorem document_of_latest (h : latest document past = some v) : v.document = document := by
  induction past with
  | nil => cases h
  | cons e past ih =>
    cases e with
    | began w =>
      rw [latest] at h
      split at h
      · rename_i hw
        rw [← Option.some.inj h]
        exact hw
      · exact ih h
    | _ => exact ih h

theorem began_of_latest (h : latest document past = some v) : .began v ∈ past := by
  induction past with
  | nil => cases h
  | cons e past ih =>
    cases e with
    | began w =>
      rw [latest] at h
      split at h
      · rw [Option.some.inj h]
        exact List.mem_cons_self
      · exact List.mem_cons_of_mem _ (ih h)
    | _ => exact List.mem_cons_of_mem _ (ih h)

/-- As long as nothing overrides a validation, none began after it. -/
theorem latest_of_not_overridden (hbegan : .began v ∈ past) (h : ¬ Overridden v past) :
    latest v.document past = some v := by
  induction past with
  | nil => cases hbegan
  | cons e past ih =>
    rw [Overridden, not_or] at h
    rcases List.mem_cons.mp hbegan with rfl | hearlier
    · rw [latest, if_pos rfl]
    · cases e with
      | began w =>
        have hother : w.document ≠ v.document := fun heq => h.1 ⟨rfl, heq, hearlier⟩
        rw [latest, if_neg hother]
        exact ih hearlier h.2
      | _ => exact ih hearlier h.2

theorem published_of_mem_publications (h : v ∈ publications document past) :
    .published v ∈ past ∧ v.document = document := by
  induction past with
  | nil => cases h
  | cons e past ih =>
    cases e with
    | published w =>
      rw [publications] at h
      split at h
      · rename_i hw
        rcases List.mem_cons.mp h with rfl | h
        · exact ⟨List.mem_cons_self, hw⟩
        · exact ⟨List.mem_cons_of_mem _ (ih h).1, (ih h).2⟩
      · exact ⟨List.mem_cons_of_mem _ (ih h).1, (ih h).2⟩
    | _ => exact ⟨List.mem_cons_of_mem _ (ih h).1, (ih h).2⟩

theorem publisher_spec (h : publisher document past = some v) :
    .published v ∈ past ∧ v.document = document := by
  induction past with
  | nil => cases h
  | cons e past ih =>
    cases e with
    | published w =>
      rw [publisher] at h
      split at h
      · rename_i hw
        obtain rfl := Option.some.inj h
        exact ⟨List.mem_cons_self, hw⟩
      · exact ⟨List.mem_cons_of_mem _ (ih h).1, (ih h).2⟩
    | closed other =>
      rw [publisher] at h
      split at h
      · cases h
      · exact ⟨List.mem_cons_of_mem _ (ih h).1, (ih h).2⟩
    | _ => exact ⟨List.mem_cons_of_mem _ (ih h).1, (ih h).2⟩

end History

section Stages
variable {dialect : Dialect} {config : Config} {files : FileTree} {document text : String}

/-- The snapshot that a build comes to from a stage on. -/
def Snapshot.Stage.outcome (dialect : Dialect) (config : Config) (files : FileTree)
    (document text : String) : Snapshot.Stage → Snapshot
  | unread => Snapshot.build dialect config files document text
  | parsed tree => Snapshot.ofTree dialect config files document text tree
  | surveyed tree surface =>
    surface.withCompilation dialect
      (Snapshot.compile files (Snapshot.workingPath config document) text tree)
  | compiled surface result => surface.withCompilation dialect result
  | complete snapshot => snapshot

/-- No stage changes what the build comes to. -/
theorem Snapshot.Stage.outcome_next (stage : Snapshot.Stage) :
    (stage.next dialect config files document text).outcome dialect config files document text =
      stage.outcome dialect config files document text := by
  cases stage with
  | unread =>
    rw [next, outcome, Snapshot.build]
    cases parse text with
    | ok tree => rfl
    | error errors => rfl
  | _ => rfl

theorem Snapshot.Stage.eq_complete {stage : Snapshot.Stage} {snapshot : Snapshot}
    (h : stage.snapshot? = some snapshot) : stage = .complete snapshot := by
  cases stage with
  | complete other => rw [Option.some.inj h]
  | _ => cases h

end Stages

namespace Session
variable {s : Session} {v : Validation} {document : String}

/-- Cancelling a document cancels what is in flight for it, and does nothing else. -/
theorem cancel_eq : s.cancel document =
    { s with cancelled := (s.inflight.get? document).toList ++ s.cancelled } := by
  unfold cancel
  split
  · rename_i generation hget
    rw [hget]
    rfl
  · rename_i hget
    rw [hget]
    rfl

/-- Finishing a validation takes it out of flight if it is there, and does nothing else. -/
theorem finish_eq : s.finish v =
    { s with inflight :=
        if s.inflight.get? v.document = some v.generation then s.inflight.erase v.document
        else s.inflight } := by
  unfold finish
  split
  · rfl
  · rfl

/-- Beginning a validation draws a generation, puts it into flight and cancels what was
there before. -/
theorem start_eq (document text : String) : s.start document text =
    (⟨document, text, s.nextGeneration⟩,
      { s with
        cancelled := (s.inflight.get? document).toList ++ s.cancelled
        inflight := s.inflight.insert document s.nextGeneration
        nextGeneration := s.nextGeneration + 1 }) := by
  rw [start, cancel_eq]

theorem close_eq : s.close document =
    { s with
      cancelled := (s.inflight.get? document).toList ++ s.cancelled
      published := s.published.erase document } := by
  rw [close, cancel_eq]

theorem publish_ok {snapshot : Snapshot} {diagnostics : List Diagnostic} {s' : Session}
    (h : s.publish v snapshot = (.ok diagnostics, s')) :
    s.isCancelled v = false ∧ s' = { s with published := s.published.insert v.document snapshot } := by
  unfold publish at h
  split at h
  · cases (Prod.mk.inj h).1
  · rename_i hwanted
    exact ⟨Bool.eq_false_iff.mpr hwanted, (Prod.mk.inj h).2.symm⟩

theorem publish_error {snapshot : Snapshot} {e : EditorError} {s' : Session}
    (h : s.publish v snapshot = (.error e, s')) : s' = s := by
  unfold publish at h
  split at h
  · exact (Prod.mk.inj h).2.symm
  · cases (Prod.mk.inj h).1

theorem advance_ok {files : FileTree} {stage next : Snapshot.Stage}
    (h : s.advance files v stage = .ok next) :
    stage.next s.dialect s.config files v.document v.text = next := by
  unfold advance at h
  split at h
  · cases h
  · exact Except.ok.inj h

theorem buildFrom_complete {files : FileTree} {stage : Snapshot.Stage} {snapshot : Snapshot}
    (h : stage.snapshot? = some snapshot) : s.buildFrom files v stage = .ok snapshot := by
  unfold buildFrom
  split
  · rename_i other hother
    rw [h] at hother
    rw [Option.some.inj hother]
  · rename_i hnone
    rw [h] at hnone
    cases hnone

theorem buildFrom_next {files : FileTree} {stage : Snapshot.Stage} (h : stage.snapshot? = none) :
    s.buildFrom files v stage = (s.advance files v stage).bind (s.buildFrom files v) := by
  rw [buildFrom]
  split
  · rename_i snapshot hsome
    rw [h] at hsome
    cases hsome
  · split
    · rename_i next hadvance
      rw [hadvance]
      rfl
    · rename_i e hadvance
      rw [hadvance]
      rfl

theorem isCancelled_cancel : (s.cancel document).isCancelled v = true ↔
    s.inflight.get? document = some v.generation ∨ s.isCancelled v = true := by
  rw [cancel_eq]
  simp only [isCancelled, List.contains_eq_mem, decide_eq_true_eq, List.mem_append,
    Option.mem_toList]

end Session

namespace Host

/-- The host in another session, with one validation in another phase. -/
def become (h : Host) (session : Session) (v : Validation) (phase : Option Phase) : Host :=
  ⟨session, Function.update h.running v phase⟩

section Become
variable {h : Host} {session : Session} {v w : Validation} {phase : Option Phase}

@[simp] theorem become_session : (h.become session v phase).session = session := rfl

@[simp] theorem become_running_self : (h.become session v phase).running v = phase :=
  Function.update_self ..

theorem become_running_of_ne (hne : w ≠ v) :
    (h.become session v phase).running w = h.running w :=
  Function.update_of_ne hne ..

end Become

/-- One validation goes one step further, or a document is cancelled or closed.
`files` are the files as the validation of each generation finds them. -/
inductive Step (files : Nat → FileTree) : Host → Event → Host → Prop where
  | begin {h document text v s} (hstart : h.session.start document text = (v, s)) :
      Step files h (.began v) (h.become s v (some (.building .unread)))
  | advance {h v stage} (hphase : h.running v = some (.building stage))
      (hleft : stage.snapshot? = none) :
      Step files h (.advanced v)
        (h.become h.session v (some (.ofAttempt (h.session.advance (files v.generation) v stage))))
  | publish {h v snapshot diagnostics s}
      (hphase : h.running v = some (.building (.complete snapshot)))
      (hpublish : h.session.publish v snapshot = (.ok diagnostics, s)) :
      Step files h (.published v) (h.become s v (some .ending))
  | refuse {h v snapshot e s} (hphase : h.running v = some (.building (.complete snapshot)))
      (hpublish : h.session.publish v snapshot = (.error e, s)) :
      Step files h (.refused v) (h.become s v (some .ending))
  | finish {h v} (hphase : h.running v = some .ending) :
      Step files h (.finished v) (h.become (h.session.finish v) v none)
  | cancel {h document} :
      Step files h (.cancelled document) { h with session := h.session.cancel document }
  | close {h document} :
      Step files h (.closed document) { h with session := h.session.close document }

/-- What a step does to the session and to the phase of its validation, field by field. -/
inductive Effect (files : Nat → FileTree) (h : Host) : Event → Host → Prop where
  | begin (document text : String) :
      Effect files h (.began ⟨document, text, h.session.nextGeneration⟩)
        (h.become
          { h.session with
            cancelled := (h.session.inflight.get? document).toList ++ h.session.cancelled
            inflight := h.session.inflight.insert document h.session.nextGeneration
            nextGeneration := h.session.nextGeneration + 1 }
          ⟨document, text, h.session.nextGeneration⟩ (some (.building .unread)))
  | advance {v stage} (hphase : h.running v = some (.building stage)) :
      Effect files h (.advanced v)
        (h.become h.session v (some (.ofAttempt (h.session.advance (files v.generation) v stage))))
  | publish {v snapshot} (hphase : h.running v = some (.building (.complete snapshot)))
      (hwanted : h.session.isCancelled v = false) :
      Effect files h (.published v)
        (h.become { h.session with published := h.session.published.insert v.document snapshot } v
          (some .ending))
  | refuse {v stage} (hphase : h.running v = some (.building stage)) :
      Effect files h (.refused v) (h.become h.session v (some .ending))
  | finish {v} (hphase : h.running v = some .ending) :
      Effect files h (.finished v)
        (h.become
          { h.session with
            inflight :=
              if h.session.inflight.get? v.document = some v.generation then
                h.session.inflight.erase v.document
              else h.session.inflight }
          v none)
  | cancel (document : String) :
      Effect files h (.cancelled document)
        ⟨{ h.session with
            cancelled := (h.session.inflight.get? document).toList ++ h.session.cancelled },
          h.running⟩
  | close (document : String) :
      Effect files h (.closed document)
        ⟨{ h.session with
            cancelled := (h.session.inflight.get? document).toList ++ h.session.cancelled
            published := h.session.published.erase document },
          h.running⟩

theorem Step.effect {files : Nat → FileTree} {h h' : Host} {e : Event}
    (hstep : Step files h e h') : Effect files h e h' := by
  cases hstep with
  | @begin document text v s hstart =>
    rw [Session.start_eq] at hstart
    cases hstart
    exact .begin document text
  | advance hphase hleft => exact .advance hphase
  | publish hphase hpublish =>
    obtain ⟨hwanted, rfl⟩ := Session.publish_ok hpublish
    exact .publish hphase hwanted
  | refuse hphase hpublish =>
    obtain rfl := Session.publish_error hpublish
    exact .refuse hphase
  | finish hphase =>
    rw [Session.finish_eq]
    exact .finish hphase
  | cancel =>
    rw [Session.cancel_eq]
    exact .cancel _
  | close =>
    rw [Session.close_eq]
    exact .close _

/-- A build that is under way after a step was under way before and its validation has not
published, or it has just begun, or it has just come from the stage before. -/
theorem Effect.building {files : Nat → FileTree} {h h' : Host} {e : Event} {v : Validation}
    {stage : Snapshot.Stage} (heffect : Effect files h e h')
    (hafter : h'.running v = some (.building stage)) :
    h.running v = some (.building stage) ∧ e ≠ .published v ∨
    e = .began v ∧ v.generation = h.session.nextGeneration ∧ stage = .unread ∨
    e = .advanced v ∧ ∃ before, h.running v = some (.building before) ∧
      h.session.advance (files v.generation) v before = .ok stage := by
  cases heffect with
  | begin document text =>
    by_cases hv : v = ⟨document, text, h.session.nextGeneration⟩
    · subst hv
      rw [become_running_self] at hafter
      cases hafter
      exact .inr (.inl ⟨rfl, rfl, rfl⟩)
    · rw [become_running_of_ne hv] at hafter
      exact .inl ⟨hafter, nofun⟩
  | @advance w before hphase =>
    by_cases hv : v = w
    · subst hv
      rw [become_running_self] at hafter
      refine .inr (.inr ⟨rfl, before, hphase, ?_⟩)
      cases hadvance : h.session.advance (files v.generation) v before with
      | error e => simp [hadvance, Phase.ofAttempt] at hafter
      | ok next =>
        simp only [hadvance, Phase.ofAttempt, Option.some.injEq, Phase.building.injEq] at hafter
        rw [hafter]
    · rw [become_running_of_ne hv] at hafter
      exact .inl ⟨hafter, nofun⟩
  | @publish w snapshot hphase hwanted =>
    by_cases hv : v = w
    · subst hv
      rw [become_running_self] at hafter
      cases hafter
    · rw [become_running_of_ne hv] at hafter
      exact .inl ⟨hafter, fun heq => hv (Event.published.inj heq).symm⟩
  | @refuse w before hphase =>
    by_cases hv : v = w
    · subst hv
      rw [become_running_self] at hafter
      cases hafter
    · rw [become_running_of_ne hv] at hafter
      exact .inl ⟨hafter, nofun⟩
  | @finish w hphase =>
    by_cases hv : v = w
    · subst hv
      rw [become_running_self] at hafter
      cases hafter
    · rw [become_running_of_ne hv] at hafter
      exact .inl ⟨hafter, nofun⟩
  | cancel document => exact .inl ⟨hafter, nofun⟩
  | close document => exact .inl ⟨hafter, nofun⟩

/-- A session forgets nothing that was cancelled. -/
theorem Effect.isCancelled {files : Nat → FileTree} {h h' : Host} {e : Event} {v : Validation}
    (heffect : Effect files h e h') (hbefore : h.session.isCancelled v = true) :
    h'.session.isCancelled v = true := by
  have hmore : ∀ more, (more ++ h.session.cancelled).contains v.generation = true := by
    intro more
    rw [List.contains_iff_mem, List.mem_append]
    exact .inr (List.contains_iff_mem.mp hbefore)
  cases heffect with
  | begin document text => exact hmore _
  | cancel document => exact hmore _
  | close document => exact hmore _
  | _ => exact hbefore

/-- Steps in a row, with what happened in them, newest first. -/
inductive Runs (files : Nat → FileTree) (h : Host) : List Event → Host → Prop where
  | none : Runs files h [] h
  | more {past e between after} (hruns : Runs files h past between)
      (hstep : Step files between e after) : Runs files h (e :: past) after

/-- A session in which nothing has happened yet. -/
def idle (dialect : Dialect) (config : Config) : Host :=
  ⟨{ dialect, config }, fun _ => Option.none⟩

section Alone
variable {files : Nat → FileTree} {h : Host} {v : Validation} {document text : String}

theorem Runs.append {past after : List Event} {between last : Host}
    (hpast : Runs files h past between) (hafter : Runs files between after last) :
    Runs files h (after ++ past) last := by
  induction hafter with
  | none => exact hpast
  | more hruns hstep ih => exact .more ih hstep

theorem become_become {s s' : Session} {phase phase' : Option Phase} :
    (h.become s v phase).become s' v phase' = h.become s' v phase' := by
  rw [become, become, Function.update_idem]
  rfl

theorem become_self {phase : Option Phase} (hphase : h.running v = phase) :
    h.become h.session v phase = h := by
  rw [become, ← hphase, Function.update_eq_self]

/-- A build goes from stage to stage, to a snapshot or to an early end. -/
theorem runs_buildFrom (stage : Snapshot.Stage) (hphase : h.running v = some (.building stage)) :
    ∃ events, Runs files h events (h.become h.session v (some (.ofAttempt
      ((h.session.buildFrom (files v.generation) v stage).map .complete)))) := by
  induction hleft : stage.left using Nat.strongRecOn generalizing h stage with
  | ind left ih =>
    cases hsnapshot : stage.snapshot? with
    | some snapshot =>
      rw [Session.buildFrom_complete hsnapshot, become_self]
      · exact ⟨[], .none⟩
      · rw [hphase, Snapshot.Stage.eq_complete hsnapshot]
        rfl
    | none =>
      have hstep : Step files h (.advanced v) _ := .advance hphase hsnapshot
      rw [Session.buildFrom_next hsnapshot]
      cases hadvance : h.session.advance (files v.generation) v stage with
      | error e =>
        rw [hadvance] at hstep
        exact ⟨_, .more .none hstep⟩
      | ok next =>
        rw [hadvance] at hstep
        have hless : next.left < left := hleft ▸ Session.left_of_advance hsnapshot hadvance
        have hphase' : (h.become h.session v (some (.building next))).running v = _ :=
          become_running_self
        obtain ⟨events, hruns⟩ := ih next.left hless next hphase' rfl
        rw [become_become, become_session] at hruns
        exact ⟨_, Runs.append (.more .none hstep) hruns⟩

/-- A validation that has begun comes to its end in a run. -/
theorem runs_complete (hphase : h.running v = some (.building .unread)) :
    ∃ events, Runs files h events
      (h.become (h.session.complete (files v.generation) v).2 v none) := by
  -- whatever comes before, the validation ends by finishing
  have hfinish : ∀ {events s}, Runs files h events (h.become s v (some .ending)) →
      ∃ events, Runs files h events (h.become (s.finish v) v none) := by
    intro events s hruns
    have hstep : Step files (h.become s v (some .ending)) (.finished v) _ :=
      .finish become_running_self
    rw [become_become, become_session] at hstep
    exact ⟨_, .more hruns hstep⟩
  obtain ⟨events, hruns⟩ : ∃ events, Runs files h events _ := runs_buildFrom .unread hphase
  rw [Session.complete, Session.build]
  cases hbuild : h.session.buildFrom (files v.generation) v .unread with
  | error e =>
    rw [hbuild] at hruns
    exact hfinish hruns
  | ok snapshot =>
    rw [hbuild] at hruns
    have hready : (h.become h.session v (some (.building (.complete snapshot)))).running v = _ :=
      become_running_self
    dsimp only
    cases hpublish : h.session.publish v snapshot with
    | mk result s =>
      cases result with
      | error e =>
        have hstep : Step files _ (.refused v) _ := .refuse hready hpublish
        rw [become_become] at hstep
        exact hfinish (.more hruns hstep)
      | ok diagnostics =>
        have hstep : Step files _ (.published v) _ := .publish hready hpublish
        rw [become_become] at hstep
        exact hfinish (.more hruns hstep)

/-- Validating with nothing in between is a run. -/
theorem runs_validate (document text : String) :
    ∃ events, Runs files h events
      (h.become
        (h.session.validate (files h.session.nextGeneration) document text).2
        ⟨document, text, h.session.nextGeneration⟩ none) := by
  cases hstart : h.session.start document text with
  | mk v s =>
    have hv : v = ⟨document, text, h.session.nextGeneration⟩ := by
      rw [Session.start_eq] at hstart
      exact (Prod.mk.inj hstart).1.symm
    have hphase : (h.become s v (some (.building .unread))).running v = _ := become_running_self
    obtain ⟨events, hruns⟩ : ∃ events, Runs files _ events _ := runs_complete hphase
    rw [become_become, become_session] at hruns
    rw [Session.validate, hstart, ← hv]
    subst hv
    exact ⟨_, Runs.append (.more .none (.begin hstart)) hruns⟩

end Alone

end Host
end ConceptQuery
