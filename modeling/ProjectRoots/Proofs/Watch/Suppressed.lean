import ProjectRoots.Proofs.Watch.Chronicle
import ProjectRoots.Proofs.Watch.Notified

/- Batches that are not judged. A batch is suppressed if its thread has no permit, if the model is
   gone, if nobody listens, or if something is being told. That is found out in its first phase; the
   second one may meet another state of affairs, but it goes by what the first one has left.

     1. `before_of_suppressed` — a suppressed first phase changes nothing but what it leaves for the
        second one.
     2. `after_of_suppressed` — a second phase that finds itself suppressed changes nothing but the
        journal.
     3. `unheard_of_suppressed` — so of a suppressed batch nothing remains but its relocations in
        the journal, whatever the host does between the phases; and the same is true of all phases
        that are begun while something is being told. -/
namespace ProjectRoots

/-- Whether the command is about the permit, the lifecycle or the listener. -/
def Command.isGate : Command → Bool
  | .acquire _ => true
  | .release _ => true
  | .isHeld _ => true
  | .markReady => true
  | .dispose => true
  | .install _ _ => true
  | .uninstall => true
  | _ => false

namespace Watcher

/-- A phase that answers `none` and leaves everything as it was, except that the journal goes on
with `noted` and that `left` is now what waits for a second phase. -/
def OnlyNotes (watcher : Watcher) (noted : List Relocation) (left : Option Pending)
    (answered : Watcher × Impact) : Prop :=
  answered =
    ({ watcher with
        pending := left
        journal := ⟨watcher.journal.entries ++ noted⟩ }, .none)

section
variable {watcher : Watcher} {noted : List Relocation} {left : Option Pending}
  {answered : Watcher × Impact} (h : watcher.OnlyNotes noted left answered)
include h

theorem OnlyNotes.project : answered.1.project = watcher.project := by
  rw [show answered = _ from h]

theorem OnlyNotes.log : answered.1.log = watcher.log := by
  rw [show answered = _ from h]

theorem OnlyNotes.entries : answered.1.journal.entries = watcher.journal.entries ++ noted := by
  rw [show answered = _ from h]

end

theorem onlyNotes_nil (watcher : Watcher) (left : Option Pending) :
    watcher.OnlyNotes [] left ({ watcher with pending := left }, .none) := by
  unfold OnlyNotes
  rw [List.append_nil]

theorem onlyNotes_record (watcher : Watcher) (batch : Batch) (left : Option Pending) :
    watcher.OnlyNotes (recorded batch) left
      ({ watcher.record batch with pending := left }, .none) := by
  have hentries := entries_recordAll watcher.journal (relocationsOf batch)
  unfold OnlyNotes record recorded
  rw [← hentries]

section
variable {watcher : Watcher}

/-- While something is being told, both phases are suppressed, and what waits goes on waiting. -/
theorem onlyNotes_of_dispatching (htelling : watcher.dispatch = .dispatching) (caller : Thread)
    (batch : Batch) :
    watcher.OnlyNotes [] watcher.pending (watcher.before caller batch) ∧
      watcher.OnlyNotes (recorded batch) watcher.pending (watcher.after caller batch) := by
  rw [before_of_dispatching htelling, after_of_dispatching htelling]
  exact ⟨watcher.onlyNotes_nil watcher.pending, watcher.onlyNotes_record batch watcher.pending⟩

theorem before_of_suppressed (hidle : watcher.dispatch = .idle) {caller : Thread}
    (hsuppressed : watcher.suppression caller ≠ none) (batch : Batch) :
    watcher.before caller batch = ({ watcher with pending := some ⟨.none, true⟩ }, .none) := by
  have hfound : watcher.found caller batch = .none := if_neg hsuppressed
  have hsome : (watcher.suppression caller).isSome = true := Option.isSome_iff_ne_none.2 hsuppressed
  rw [before_of_idle hidle, if_pos hfound, judged, hfound, hsome]

theorem settled_of_suppressed {caller : Thread} (hsuppressed : watcher.isSuppressed caller = true)
    (batch : Batch) :
    watcher.settled caller batch = { watcher.record batch with pending := none } := by
  have hdue : watcher.due caller batch = [] := by
    unfold due
    rw [hsuppressed, Bool.or_true, if_pos rfl]
  unfold settled settle
  rw [if_pos hdue, hsuppressed, if_pos rfl]

theorem after_of_suppressed (hidle : watcher.dispatch = .idle)
    (hpending : watcher.pending = some ⟨.none, true⟩) (caller : Thread) (batch : Batch) :
    watcher.after caller batch = ({ watcher.record batch with pending := none }, .none) := by
  have hawaited : watcher.awaited = .none := by
    unfold awaited
    rw [hpending]
  have hsuppressed : watcher.isSuppressed caller = true := by
    unfold isSuppressed
    rw [hpending]
  rw [after_of_idle hidle, if_pos hawaited, hawaited, settled_of_suppressed hsuppressed]

end

/-! ## What happens between the phases -/

theorem project_of_isGate (watcher : Watcher) (caller : Thread) {command : Command}
    (hgate : command.isGate = true) :
    (watcher.run caller command).1.project = watcher.project := by
  cases command with
  | acquire thread => rfl
  | release thread => rfl
  | isHeld thread => rfl
  | markReady => rfl
  | dispose => rfl
  | install onBefore onChanged => rfl
  | uninstall => rfl
  | _ => cases hgate

theorem project_perform (watcher : Watcher) {steps : List Step}
    (hgates : ∀ step ∈ steps, step.command.isGate = true) :
    (watcher.perform steps).project = watcher.project := by
  refine relates_perform (fun watcher next => next.project = watcher.project) (fun _ => rfl)
    (fun hfirst hsecond => hsecond.trans hfirst) ?_ watcher
  intro step hmem watcher
  exact watcher.project_of_isGate step.caller (hgates step hmem)

theorem entries_perform (watcher : Watcher) {steps : List Step}
    (hcalm : ∀ step ∈ steps, step.command.isPhase = false) :
    (watcher.perform steps).journal.entries = watcher.journal.entries := by
  refine relates_perform (fun watcher next => next.journal.entries = watcher.journal.entries)
    (fun _ => rfl) (fun hfirst hsecond => hsecond.trans hfirst) ?_ watcher
  intro step hmem watcher
  rw [step_of_calm watcher (hcalm step hmem)]
  exact entries_of_calm watcher step.caller (hcalm step hmem)

end Watcher

namespace Crossing
variable {crossing : Crossing} {watcher : Watcher}

/-- The batch leaves nothing behind but its relocations. -/
structure Unheard (crossing : Crossing) (watcher : Watcher) (noted : List Relocation) : Prop where
  /-- The relocations are those of the batch, in the order of its events. -/
  chronicle : Chronicle crossing.batch noted
  opened : ∃ left, watcher.OnlyNotes [] left (crossing.opened watcher)
  closed : ∃ left, (crossing.ready watcher).OnlyNotes noted left (crossing.closed watcher)
  /-- The journal behind the second phase is the one before the first phase, and the relocations. -/
  entries : (crossing.closed watcher).1.journal.entries = watcher.journal.entries ++ noted
  /-- From the beginning to the end nobody is told anything. -/
  log : (crossing.closed watcher).1.log = watcher.log
  /-- The project is only changed by what the host does to it. -/
  project : (∀ step ∈ crossing.meanwhile, step.command.isGate = true) →
    (crossing.closed watcher).1.project = watcher.project

/-- What each phase does decides what both do together with the steps between them. -/
theorem unheard_of_onlyNotes {left kept : Option Pending}
    (hcalm : ∀ step ∈ crossing.meanwhile, step.command.isPhase = false)
    (hopened : watcher.OnlyNotes [] left (crossing.opened watcher))
    (hclosed : (crossing.ready watcher).OnlyNotes (recorded crossing.batch) kept
      (crossing.closed watcher)) :
    crossing.Unheard watcher (recorded crossing.batch) := by
  have hlog := ((crossing.opened watcher).1.frame_perform hcalm).2
  have hentries : (crossing.ready watcher).journal.entries = watcher.journal.entries := by
    rw [ready, Watcher.entries_perform _ hcalm, hopened.entries, List.append_nil]
  refine ⟨chronicle_recorded crossing.batch, ⟨left, hopened⟩, ⟨kept, hclosed⟩, ?_, ?_, ?_⟩
  · rw [hclosed.entries, hentries]
  · exact hclosed.log.trans (hlog.trans hopened.log)
  · intro hgates
    have hproject := (crossing.opened watcher).1.project_perform hgates
    exact hclosed.project.trans (hproject.trans hopened.project)

theorem unheard_of_dispatching (htelling : watcher.dispatch = .dispatching)
    (hcalm : ∀ step ∈ crossing.meanwhile, step.command.isPhase = false) :
    crossing.Unheard watcher (recorded crossing.batch) := by
  have hopened := (Watcher.onlyNotes_of_dispatching htelling crossing.opener crossing.batch).1
  have hstill : (crossing.ready watcher).dispatch = .dispatching := by
    refine ((crossing.opened watcher).1.frame_perform hcalm).1.dispatch.trans ?_
    rw [opened, Watcher.before_of_dispatching htelling]
    exact htelling
  exact unheard_of_onlyNotes hcalm hopened
    (Watcher.onlyNotes_of_dispatching hstill crossing.closer crossing.batch).2

/-- Whatever the host does between the phases, the second one finds the mark that the first one has
left. -/
theorem unheard_of_idle (hidle : watcher.dispatch = .idle)
    (hsuppressed : watcher.suppression crossing.opener ≠ none)
    (hcalm : ∀ step ∈ crossing.meanwhile, step.command.isPhase = false) :
    crossing.Unheard watcher (recorded crossing.batch) := by
  have hopened : crossing.opened watcher =
      ({ watcher with pending := some ⟨.none, true⟩ }, .none) :=
    Watcher.before_of_suppressed hidle hsuppressed crossing.batch
  have hframe := ((crossing.opened watcher).1.frame_perform hcalm).1
  rw [hopened] at hframe
  have hready : (crossing.ready watcher).dispatch = .idle ∧
      (crossing.ready watcher).pending = some ⟨.none, true⟩ := by
    unfold ready
    rw [hopened]
    exact ⟨hframe.dispatch.trans hidle, hframe.pending⟩
  apply unheard_of_onlyNotes hcalm
  · rw [hopened]
    exact watcher.onlyNotes_nil (some ⟨.none, true⟩)
  · rw [closed, Watcher.after_of_suppressed hready.1 hready.2]
    exact (crossing.ready watcher).onlyNotes_record crossing.batch none

theorem unheard_of_suppressed (hsuppressed : watcher.suppression crossing.opener ≠ none)
    (hcalm : ∀ step ∈ crossing.meanwhile, step.command.isPhase = false) :
    (∃ noted, crossing.Unheard watcher noted) ∧
      ∀ telling : Watcher, telling.dispatch = .dispatching → ∀ (caller : Thread) (batch : Batch),
        telling.OnlyNotes [] telling.pending (telling.before caller batch) ∧
          ∃ noted, Chronicle batch noted ∧
            telling.OnlyNotes noted telling.pending (telling.after caller batch) := by
  refine ⟨⟨recorded crossing.batch, ?_⟩, ?_⟩
  · cases hdispatch : watcher.dispatch with
    | dispatching => exact unheard_of_dispatching hdispatch hcalm
    | idle => exact unheard_of_idle hdispatch hsuppressed hcalm
  · intro telling htelling caller batch
    obtain ⟨hbefore, hafter⟩ := Watcher.onlyNotes_of_dispatching htelling caller batch
    exact ⟨hbefore, recorded batch, chronicle_recorded batch, hafter⟩

/-- A removal and two renames in `Watcher.sample`, of a thread that gets the permit too late. One of
the renames leads to no path. -/
def belated : Crossing where
  opener := 2
  batch := [.delete "/proj/a", .rename "/proj/x" "/proj/y" true, .rename "/proj/z" "../z" false]
  meanwhile := [⟨1, .release 1⟩, ⟨2, .acquire 2⟩, ⟨2, .install [.pending] []⟩]
  closer := 2

theorem unheard_of_suppressed_belated :
    Watcher.sample.suppression belated.opener ≠ none ∧
      (belated.ready Watcher.sample).suppression belated.closer = none ∧
      (∀ step ∈ belated.meanwhile, step.command.isPhase = false) ∧
      (belated.closed Watcher.sample).1.journal.entries =
        [⟨"/proj/x".toList, "/proj/y".toList, .rename, true⟩] ∧
      (∃ noted, belated.Unheard Watcher.sample noted) ∧
      (Watcher.sample.telling .beforeChanged).dispatch = .dispatching ∧
      ∀ telling : Watcher, telling.dispatch = .dispatching → ∀ (caller : Thread) (batch : Batch),
        telling.OnlyNotes [] telling.pending (telling.before caller batch) ∧
          ∃ noted, Chronicle batch noted ∧
            telling.OnlyNotes noted telling.pending (telling.after caller batch) := by
  have hsuppressed : Watcher.sample.suppression belated.opener ≠ none := by decide +kernel
  have hcalm : ∀ step ∈ belated.meanwhile, step.command.isPhase = false := by decide
  obtain ⟨hunheard, htelling⟩ := unheard_of_suppressed hsuppressed hcalm
  exact ⟨hsuppressed, by decide +kernel, hcalm, by decide +kernel, hunheard, rfl, htelling⟩

end Crossing

end ProjectRoots
