import ProjectRoots.Proofs.Dependent.Round
import ProjectRoots.Proofs.Watch.Chronicle
import ProjectRoots.Proofs.Watch.Notified

/- Suppression only delays renames. While batches are suppressed their renames wait in the journal,
   and the next batch that is not suppressed carries out all that waits. What a dependent is owed is
   the path it will store when that has happened.

     1. `spared_perform`, `spared_before` — neither the host between the phases of a batch, nor a
        first phase, changes what dependents store or what waits.
     2. `owed_settled`, `owed_passed` — a batch moves what is owed by its renames, whether it is
        suppressed or not.
     3. `paths_of_course` — so after batches of which the last one is not suppressed nothing waits,
        and the dependents store their first paths moved by all renames in the order of the events,
        however these were cut into batches. -/
namespace ProjectRoots

/-- Whether the command leaves alone what dependents store and what waits to be carried out: it
begins no second phase, and it registers no dependent. -/
def Command.spares : Command → Bool
  | .after _ => false
  | .process _ => false
  | .register _ => false
  | _ => true

/-- Whether the event takes something to another directory. -/
def Event.isMove : Event → Bool
  | .move _ _ => true
  | _ => false

theorem renames_recorded {batch : Batch} (hmoveless : ∀ event ∈ batch, event.isMove = false) :
    Renames (recorded batch) := by
  intro relocation hmem
  obtain ⟨hmem, hnotes⟩ := List.mem_filter.1 hmem
  obtain ⟨event, hevent, hrelocation⟩ := List.mem_filterMap.1 hmem
  have hmoveless := hmoveless event hevent
  cases Event.relocation_eq_some_iff.1 ⟨hrelocation, hnotes⟩ with
  | move hold hnew hne => cases hmoveless
  | rename hold hnew hne => rfl

namespace Watcher

/-- The paths that the dependents store. -/
def paths (watcher : Watcher) : List (List Char) :=
  watcher.project.dependents.map Dependent.path

/-- The paths that the dependents will store when what waits has been carried out. -/
def owed (watcher : Watcher) : List (List Char) :=
  watcher.paths.map (replay watcher.journal.entries)

/-- Only renames wait, and every dependent stores what it is told to store. -/
structure Willing (watcher : Watcher) : Prop where
  entries : Renames watcher.journal.entries
  dependents : ∀ dependent ∈ watcher.project.dependents, dependent.Willing

/-- The listener begins no second phase and registers nothing when it is told something. -/
def Discreet (watcher : Watcher) : Prop :=
  ∀ listener ∈ watcher.listener, ∀ command ∈ listener.onBefore ++ listener.onChanged,
    command.spares = true

instance (watcher : Watcher) : Decidable watcher.Discreet :=
  inferInstanceAs (Decidable (∀ listener ∈ watcher.listener,
    ∀ command ∈ listener.onBefore ++ listener.onChanged, command.spares = true))

/-- The dependents and the journal are the same. -/
structure Spared (watcher next : Watcher) : Prop where
  dependents : next.project.dependents = watcher.project.dependents
  journal : next.journal = watcher.journal

theorem Spared.refl (watcher : Watcher) : Spared watcher watcher :=
  ⟨rfl, rfl⟩

theorem Spared.trans {a b c : Watcher} (first : Spared a b) (second : Spared b c) : Spared a c :=
  ⟨second.dependents.trans first.dependents, second.journal.trans first.journal⟩

theorem Spared.owed_eq {watcher next : Watcher} (h : Spared watcher next) :
    next.owed = watcher.owed := by
  simp only [owed, paths, h.dependents, h.journal]

theorem Spared.willing {watcher next : Watcher} (h : Spared watcher next)
    (hwilling : watcher.Willing) : next.Willing where
  entries := h.journal ▸ hwilling.entries
  dependents := h.dependents ▸ hwilling.dependents

/-! ## What spares the dependents and the journal -/

theorem spared_quietly (watcher : Watcher) (caller : Thread) {command : Command}
    (hspares : command.spares = true) : Spared watcher (watcher.quietly caller command).1 := by
  cases command with
  | after batch => cases hspares
  | process batch => cases hspares
  | register dependent => cases hspares
  | commit base changes =>
    simp only [quietly]
    split <;> exact ⟨rfl, rfl⟩
  | intern raw =>
    simp only [quietly]
    split <;> exact ⟨rfl, rfl⟩
  | _ => exact ⟨rfl, rfl⟩

theorem spared_deliver (watcher : Watcher) (caller : Thread) (hdiscreet : watcher.Discreet)
    (notification : Notification) :
    Spared watcher (watcher.deliver caller notification) := by
  apply relates_deliver watcher caller Spared .refl .trans (fun _ _ _ => ⟨rfl, rfl⟩)
  intro listener hlistener command hmem watcher
  apply spared_quietly watcher caller
  apply hdiscreet listener hlistener command
  cases notification with
  | beforeChanged => exact List.mem_append_left _ hmem
  | changed impact => exact List.mem_append_right _ hmem

theorem spared_before {watcher : Watcher} (hidle : watcher.dispatch = .idle) (caller : Thread)
    (batch : Batch) (hdiscreet : watcher.Discreet) :
    Spared watcher (watcher.before caller batch).1 := by
  have hjudged : Spared watcher (watcher.judged caller batch) := ⟨rfl, rfl⟩
  rw [before_of_idle hidle]
  split
  · exact hjudged
  · apply hjudged.trans
    exact spared_deliver (watcher.judged caller batch) caller hdiscreet .beforeChanged

theorem spared_perform (watcher : Watcher) {steps : List Step}
    (hcalm : ∀ step ∈ steps, step.command.isPhase = false)
    (hspares : ∀ step ∈ steps, step.command.spares = true) :
    Spared watcher (watcher.perform steps) := by
  apply relates_perform Spared .refl .trans
  intro step hmem watcher
  rw [step_of_calm watcher (hcalm step hmem)]
  exact spared_quietly watcher step.caller (hspares step hmem)

/-! ## Second phases -/

theorem dependents_settled {watcher : Watcher} (caller : Thread) {batch : Batch}
    (hwilling : watcher.Willing) (hrenames : Renames (recorded batch)) :
    (watcher.settled caller batch).project.dependents =
      watcher.project.dependents.map fun dependent =>
        { dependent with path := replay (watcher.due caller batch) dependent.path } := by
  have hdue : Renames (watcher.due caller batch) := by
    unfold due
    split
    · intro relocation hmem
      cases hmem
    · rw [entries_record]
      exact hwilling.entries.append hrenames
  unfold settled settle
  split
  · rename_i hnothing
    simp [hnothing, replay, record]
  · exact Project.dependents_round _ _ hdue hwilling.dependents

section
variable {watcher : Watcher} (hidle : watcher.dispatch = .idle) (caller : Thread) {batch : Batch}
include hidle

theorem willing_settled (hwilling : watcher.Willing) (hrenames : Renames (recorded batch)) :
    (watcher.settled caller batch).Willing where
  entries := by
    intro relocation hmem
    apply hwilling.entries.append hrenames relocation
    rw [← due_append_entries_settled hidle caller batch]
    exact List.mem_append_right _ hmem
  dependents := by
    rw [dependents_settled caller hwilling hrenames]
    intro dependent hmem
    obtain ⟨first, hfirst, rfl⟩ := List.mem_map.1 hmem
    exact (hwilling.dependents first hfirst).moved _

/-- What a second phase carries out and what it lets wait are, together, what waited and the renames
of the batch. -/
theorem owed_settled (hwilling : watcher.Willing) (hrenames : Renames (recorded batch)) :
    (watcher.settled caller batch).owed = watcher.owed.map (replay (recorded batch)) := by
  have hsplit := due_append_entries_settled hidle caller batch
  simp only [owed, paths, dependents_settled caller hwilling hrenames, List.map_map]
  apply List.map_congr_left
  intro dependent _
  simp only [Function.comp]
  rw [← replay_append, hsplit, replay_append]

/-- The delivery at the end of a second phase changes neither. -/
theorem spared_after (hdiscreet : watcher.Discreet) :
    Spared (watcher.settled caller batch) (watcher.after caller batch).1 ∧
      (watcher.after caller batch).1.dispatch = .idle := by
  have hsettled : (watcher.settled caller batch).dispatch = .idle := by simpa using hidle
  have hlisteners : (watcher.settled caller batch).Discreet := by
    unfold Discreet
    rw [settled_listener]
    exact hdiscreet
  rw [after_of_idle hidle]
  split
  · exact ⟨.refl _, hsettled⟩
  · refine ⟨spared_deliver _ caller hlisteners _, ?_⟩
    exact (frame_deliver _ caller hsettled _).dispatch.trans hsettled

end

end Watcher

/-! ## Batches -/

namespace Passage

/-- The events of the batch move nothing to another directory, and neither the host nor the
listeners that are told of the batch register dependents or begin second phases. -/
structure Plain (passage : Passage) (watcher : Watcher) : Prop where
  moveless : ∀ event ∈ passage.batch, event.isMove = false
  spares : ∀ step ∈ passage.meanwhile ++ passage.afterwards, step.command.spares = true
  opening : watcher.Discreet
  closing : (passage.ready watcher).Discreet

instance (passage : Passage) (watcher : Watcher) : Decidable (passage.Plain watcher) :=
  decidable_of_iff
    ((∀ event ∈ passage.batch, event.isMove = false) ∧
      (∀ step ∈ passage.meanwhile ++ passage.afterwards, step.command.spares = true) ∧
      watcher.Discreet ∧ (passage.ready watcher).Discreet)
    ⟨fun ⟨moveless, spares, opening, closing⟩ => ⟨moveless, spares, opening, closing⟩,
      fun plain => ⟨plain.moveless, plain.spares, plain.opening, plain.closing⟩⟩

section
variable {passage : Passage} {watcher : Watcher} (hidle : watcher.dispatch = .idle)
  (hplain : passage.Plain watcher)
include hidle hplain

theorem spared_ready : Watcher.Spared watcher (passage.ready watcher) := by
  apply (Watcher.spared_before hidle passage.opener passage.batch hplain.opening).trans
  apply Watcher.spared_perform _ passage.calm_meanwhile
  intro step hmem
  exact hplain.spares step (List.mem_append_left _ hmem)

theorem spared_passed :
    Watcher.Spared ((passage.ready watcher).settled passage.closer passage.batch)
      (passage.passed watcher) ∧ (passage.passed watcher).dispatch = .idle := by
  have hready := (Crossing.awaited_of_calm hidle passage.calm_meanwhile).1
  obtain ⟨hafter, hclosed⟩ :=
    @Watcher.spared_after _ hready passage.closer passage.batch hplain.closing
  refine ⟨hafter.trans (Watcher.spared_perform _ passage.calm_afterwards ?_), ?_⟩
  · intro step hmem
    exact hplain.spares step (List.mem_append_right _ hmem)
  · exact (Watcher.frame_perform _ passage.calm_afterwards).1.dispatch.trans hclosed

theorem owed_passed (hwilling : watcher.Willing) :
    (passage.passed watcher).Willing ∧
      (passage.passed watcher).owed = watcher.owed.map (replay (recorded passage.batch)) := by
  have hready := (Crossing.awaited_of_calm hidle passage.calm_meanwhile).1
  have hspared := spared_ready hidle hplain
  have hrenames := renames_recorded hplain.moveless
  have hpassed := (spared_passed hidle hplain).1
  refine ⟨hpassed.willing ?_, ?_⟩
  · exact Watcher.willing_settled hready passage.closer (hspared.willing hwilling) hrenames
  · rw [hpassed.owed_eq, Watcher.owed_settled hready passage.closer (hspared.willing hwilling)
      hrenames, hspared.owed_eq]

/-- Behind a batch that is not suppressed nothing waits. -/
theorem entries_passed (hfree : watcher.suppression passage.opener = none) :
    (passage.passed watcher).journal.entries = [] := by
  have hopen := Watcher.opens_before hidle passage.opener passage.batch
  have hpending : (passage.ready watcher).pending = some ⟨(passage.opened watcher).2, false⟩ := by
    have hframe := (Watcher.frame_perform (passage.opened watcher).1 passage.calm_meanwhile).1
    refine hframe.pending.trans (hopen.pending.trans ?_)
    rw [hfree]
    rfl
  have hunsuppressed : (passage.ready watcher).isSuppressed passage.closer = false := by
    unfold Watcher.isSuppressed
    rw [hpending]
  rw [(spared_passed hidle hplain).1.journal]
  exact Watcher.entries_settled_of_free hunsuppressed passage.batch

end

end Passage

namespace Watcher

/-- The watcher behind passages, one after another. -/
def pass (watcher : Watcher) (passages : List Passage) : Watcher :=
  passages.foldl (fun watcher passage => passage.passed watcher) watcher

/-- Batches, one after another, that begin when nothing waits and no notification is being
delivered. The last of them is not suppressed. -/
structure Course (watcher : Watcher) (passages : List Passage) : Prop where
  idle : watcher.dispatch = .idle
  clean : watcher.journal.entries = []
  willing : ∀ dependent ∈ watcher.project.dependents, dependent.Willing
  plain : ∀ visit ∈ watcher.visits passages, visit.2.Plain visit.1
  last : ∀ visit ∈ (watcher.visits passages).getLast?,
    visit.1.suppression visit.2.opener = none

/-- The events of batches. -/
def eventsOf (passages : List Passage) : List Event :=
  passages.flatMap fun passage => passage.batch

theorem eventsOf_cons (passage : Passage) (rest : List Passage) :
    eventsOf (passage :: rest) = passage.batch ++ eventsOf rest :=
  List.flatMap_cons

section
variable {watcher : Watcher} {passages : List Passage}

theorem owed_pass (hidle : watcher.dispatch = .idle) (hwilling : watcher.Willing)
    (hplain : ∀ visit ∈ watcher.visits passages, visit.2.Plain visit.1) :
    (watcher.pass passages).owed = watcher.owed.map (replay (recorded (eventsOf passages))) := by
  induction passages generalizing watcher with
  | nil => exact (List.map_id _).symm
  | cons passage rest ih =>
    have hfirst := hplain (watcher, passage) List.mem_cons_self
    obtain ⟨hnext, howed⟩ := Passage.owed_passed hidle hfirst hwilling
    have hrest := ih (Passage.spared_passed hidle hfirst).2 hnext
      (fun visit hmem => hplain visit (List.mem_cons_of_mem _ hmem))
    show ((passage.passed watcher).pass rest).owed = _
    rw [hrest, howed, List.map_map, eventsOf_cons, recorded_append]
    apply List.map_congr_left
    intro path _
    exact (replay_append _ _ _).symm

/-- What waited at first, and what earlier batches let wait, is carried out by the last batch. -/
theorem entries_pass (hidle : watcher.dispatch = .idle)
    (hplain : ∀ visit ∈ watcher.visits passages, visit.2.Plain visit.1)
    (hlast : ∀ visit ∈ (watcher.visits passages).getLast?,
      visit.1.suppression visit.2.opener = none) (hsome : passages ≠ []) :
    (watcher.pass passages).journal.entries = [] := by
  induction passages generalizing watcher with
  | nil => exact absurd rfl hsome
  | cons passage rest ih =>
    have hfirst := hplain (watcher, passage) List.mem_cons_self
    cases rest with
    | nil => exact Passage.entries_passed hidle hfirst (hlast (watcher, passage) rfl)
    | cons next rest =>
      apply ih (Passage.spared_passed hidle hfirst).2
      · intro visit hmem
        exact hplain visit (List.mem_cons_of_mem _ hmem)
      · intro visit hmem
        apply hlast visit
        rw [visits, visits, List.getLast?_cons_cons]
        exact hmem
      · exact List.cons_ne_nil next rest

theorem Course.settles (course : watcher.Course passages) :
    (watcher.pass passages).journal.entries = [] ∧
      (watcher.pass passages).paths =
        watcher.paths.map (replay (recorded (eventsOf passages))) := by
  have hentries : (watcher.pass passages).journal.entries = [] := by
    by_cases hnone : passages = []
    · rw [hnone]
      exact course.clean
    · exact entries_pass course.idle course.plain course.last hnone
  have hpaid : ∀ {watcher : Watcher}, watcher.journal.entries = [] →
      watcher.owed = watcher.paths := by
    intro watcher hempty
    unfold owed
    rw [hempty]
    exact List.map_id _
  have hwilling : watcher.Willing := by
    refine ⟨?_, course.willing⟩
    rw [course.clean]
    intro relocation hmem
    cases hmem
  refine ⟨hentries, ?_⟩
  rw [← hpaid hentries, owed_pass course.idle hwilling course.plain, hpaid course.clean]

theorem paths_of_course (course : watcher.Course passages) :
    (watcher.pass passages).journal.entries = [] ∧
      (watcher.pass passages).paths =
        watcher.paths.map (replay (recorded (eventsOf passages))) ∧
      ∀ {other : Watcher} {others : List Passage}, other.Course others →
        other.paths = watcher.paths → eventsOf others = eventsOf passages →
        (other.pass others).paths = (watcher.pass passages).paths := by
  obtain ⟨hentries, hpaths⟩ := course.settles
  refine ⟨hentries, hpaths, ?_⟩
  intro other others hother hsame hevents
  rw [hother.settles.2, hpaths, hsame, hevents]

end

/-- A watcher of one module, whose listener asks what waits. -/
def depot : Watcher where
  rules := {}
  project :=
    { workspace := Workspace.ofGraph (Graph.ofList
        [⟨"module:a", .module, "a", [⟨"content_root", "/p/src", false⟩]⟩])
      dependents := [{ path := "/p/a.iml".toList, entity := some "module:a" },
        { path := "/p/src/x.txt".toList }] }
  permit := ⟨some 1⟩
  listener := some ⟨[.before []], [.pending]⟩

theorem calm_nil : ∀ step ∈ ([] : List Step), step.command.isPhase = false := by
  intro step hmem
  cases hmem

/-- A swap of two directories that is cut into three batches. The first two are begun by a thread
without the permit. -/
def depotPassages : List Passage :=
  [{ opener := 2
     batch := [.rename "/p" "/t" true]
     meanwhile := [⟨2, .classify [.delete "/p"]⟩]
     closer := 1
     afterwards := []
     calm_meanwhile := by decide
     calm_afterwards := calm_nil },
   { opener := 2
     batch := [.rename "/q" "/p" true, .rename "/t/src" "/t/lib" true]
     meanwhile := []
     closer := 2
     afterwards := [⟨1, .release 1⟩, ⟨2, .acquire 2⟩]
     calm_meanwhile := calm_nil
     calm_afterwards := by decide },
   { opener := 2
     batch := [.rename "/t" "/q" true]
     meanwhile := []
     closer := 2
     afterwards := []
     calm_meanwhile := calm_nil
     calm_afterwards := calm_nil }]

theorem paths_of_course_depot :
    depot.Course depotPassages ∧
      (depot.visits depotPassages).map (fun visit =>
        (visit.1.suppression visit.2.opener).isSome) = [true, true, false] ∧
      (depot.pass depotPassages).paths = ["/q/a.iml".toList, "/q/lib/x.txt".toList] ∧
      (depot.pass depotPassages).journal.entries = [] ∧
      (depot.pass depotPassages).paths =
        depot.paths.map (replay (recorded (eventsOf depotPassages))) ∧
      ∀ {other : Watcher} {others : List Passage}, other.Course others →
        other.paths = depot.paths → eventsOf others = eventsOf depotPassages →
        (other.pass others).paths = (depot.pass depotPassages).paths := by
  have course : depot.Course depotPassages := by
    refine ⟨rfl, rfl, ?_, by decide +kernel, by decide +kernel⟩
    intro dependent hmem
    rcases List.mem_pair.1 hmem with rfl | rfl <;> exact ⟨rfl, fun _ => rfl⟩
  exact ⟨course, by decide +kernel, by decide +kernel, paths_of_course course⟩

end Watcher

end ProjectRoots
