import ProjectRoots.Dependent.Round
import ProjectRoots.Settings.Written
import ProjectRoots.Watch.Command
import ProjectRoots.Watch.Judgement

/- The watcher. Every batch passes it twice. Before the batch happens it is judged on the present
   state of the project, unless something suppresses that, and listeners are told if roots will be
   touched. After it has happened its relocations are noted, the noted ones are carried out unless
   the batch was suppressed, and listeners are told the impact found before. While a notification
   is being delivered, a batch is not judged: its first phase does nothing, and its second one only
   notes relocations.

   Correspondence (term ↔ Lean):
     batch processor                 ↔ `Watcher`
     its before and after phase      ↔ `before`, `after`
     what is kept between the phases ↔ `Pending`
     draining the tracking table     ↔ `due`, `settle`
     call from within a notification ↔ `quietly` -/
namespace ProjectRoots

/-- What the first phase of a batch leaves for the second one. -/
structure Pending where
  impact : Impact
  suppressed : Bool
deriving DecidableEq

/-- A watcher, what it watches, and what it has told. -/
structure Watcher where
  rules : Rules
  project : Project
  permit : Permit := {}
  lifecycle : Lifecycle := .ready
  listener : Option Listener := none
  dispatch : Dispatch := .idle
  pending : Option Pending := none
  journal : Journal := {}
  log : List LogEntry := []

/-- The relocation that an event is, between the paths that its texts denote. What is moved may
always be a directory. -/
def Event.relocation (event : Event) : Option Relocation :=
  match event with
  | .move old new => between old new .move true
  | .rename old new isDirectory => between old new .rename isDirectory
  | _ => none
where
  /-- The relocation between two texts that denote paths. -/
  between (old new : String) (cause : RelocationCause) (isDirectory : Bool) : Option Relocation :=
    match Url.parse old, Url.parse new with
    | .ok old, .ok new => some ⟨old.path, new.path, cause, isDirectory⟩
    | _, _ => none

/-- The relocations of a batch, in the order of its events. -/
def relocationsOf (batch : Batch) : List Relocation :=
  batch.filterMap Event.relocation

/-- Note relocations one after another. -/
def Journal.recordAll (journal : Journal) (relocations : List Relocation) : Journal :=
  relocations.foldl Journal.record journal

namespace Watcher

/-- Why a batch of this thread would not be judged now. -/
def suppression (watcher : Watcher) (caller : Thread) : Option Suppression :=
  if watcher.dispatch.isDispatching then some .reentrant
  else if !watcher.permit.isHeld caller then some .noPermit
  else if watcher.lifecycle.isDisposed then some .disposed
  else if watcher.listener.isNone then some .notWired
  else none

/-- The impact of a batch on the present state of the project. -/
def classify (watcher : Watcher) (batch : Batch) : Impact :=
  watcher.project.workspace.classify watcher.rules batch

/-- How entities are renamed. -/
def policy (watcher : Watcher) : Policy where
  descriptorExtensions := watcher.rules.settings.descriptorExtensions

/-- Note the relocations of a batch. -/
def record (watcher : Watcher) (batch : Batch) : Watcher :=
  { watcher with journal := watcher.journal.recordAll (relocationsOf batch) }

/-- Carry out a command without telling anybody anything. Phases of a batch do what they do while
a notification is being delivered. -/
def quietly (watcher : Watcher) (caller : Thread) : Command → Watcher × Answer
  | .before _ => (watcher, .impact .none)
  | .after batch => (watcher.record batch, .impact .none)
  | .process batch => (watcher.record batch, .phases .none .none)
  | .classify batch => (watcher, .impact (watcher.classify batch))
  | .suppression => (watcher, .suppression (watcher.suppression caller))
  | .pending => (watcher, .count watcher.journal.entries.length)
  | .settings => (watcher, .settings watcher.rules.settings.text)
  | .dispose => ({ watcher with lifecycle := .disposed }, .done)
  | .markReady =>
    let (lifecycle, done) := watcher.lifecycle.markReady
    ({ watcher with lifecycle := lifecycle }, .flag done)
  | .install onBefore onChanged =>
    ({ watcher with listener := some ⟨onBefore, onChanged⟩ }, .done)
  | .uninstall => ({ watcher with listener := none }, .done)
  | .commit base changes =>
    let workspace := watcher.project.workspace
    match workspace.commit ⟨base.getD workspace.version, changes⟩ with
    | .ok next =>
      ({ watcher with project := { watcher.project with workspace := next } },
        .committed next.version next.current.graph.size)
    | .error fault => (watcher, .refused fault)
  | .register dependent =>
    let project := watcher.project.register dependent
    ({ watcher with project := project }, .registered project.dependents.length)
  | .intern raw =>
    match Url.parse raw with
    | .ok url =>
      let workspace := watcher.project.workspace.intern url
      ({ watcher with project := { watcher.project with workspace := workspace } },
        .interned (workspace.atlas.idOf url))
    | .error fault => (watcher, .noPath fault)
  | .acquire thread =>
    let (permit, done) := watcher.permit.acquire thread
    ({ watcher with permit := permit }, .flag done)
  | .release thread =>
    let (permit, done) := watcher.permit.release thread
    ({ watcher with permit := permit }, .flag done)
  | .isHeld thread => (watcher, .flag (watcher.permit.isHeld thread))

/-- Carry out the commands of a listener, and log the answers. -/
def runScript (caller : Thread) (watcher : Watcher) (script : List Command) : Watcher :=
  script.foldl
    (fun watcher command =>
      let (watcher, answer) := watcher.quietly caller command
      { watcher with log := watcher.log ++ [.nested answer] })
    watcher

/-- Tell the listener something, if there is one and nothing is being told. -/
def deliver (watcher : Watcher) (caller : Thread) (notification : Notification) : Watcher :=
  match watcher.listener, watcher.dispatch with
  | some listener, .idle =>
    let told :=
      { watcher with
        dispatch := .dispatching
        log := watcher.log ++ [.notified notification] }
    let watcher := runScript caller told (listener.script notification)
    { watcher with dispatch := .idle, log := watcher.log ++ [.returned] }
  | _, _ => watcher

/-- The first phase of a batch: judge it, and tell listeners if roots will be touched. -/
def before (watcher : Watcher) (caller : Thread) (batch : Batch) : Watcher × Impact :=
  if watcher.dispatch.isDispatching then (watcher, .none)
  else
    let suppressed := (watcher.suppression caller).isSome
    let impact := if suppressed then .none else watcher.classify batch
    let watcher := { watcher with pending := some ⟨impact, suppressed⟩ }
    (if impact = .none then watcher else watcher.deliver caller .beforeChanged, impact)

/-- Whether the second phase of a batch only notes relocations: its first phase was suppressed or,
if there was none, it would be suppressed now. -/
def isSuppressed (watcher : Watcher) (caller : Thread) : Bool :=
  match watcher.pending with
  | some pending => pending.suppressed
  | none => (watcher.suppression caller).isSome

/-- The relocations that the second phase of a batch carries out. -/
def due (watcher : Watcher) (caller : Thread) (batch : Batch) : List Relocation :=
  if watcher.dispatch.isDispatching || watcher.isSuppressed caller then []
  else (watcher.record batch).journal.entries

/-- Carry out the relocations that are due. -/
def settle (watcher : Watcher) (relocations : List Relocation) : Watcher :=
  if relocations = [] then watcher
  else { watcher with project := (watcher.project.round watcher.policy relocations).1 }

/-- The second phase of a batch: note its relocations, carry out what is due, and tell listeners
the impact that the first phase found. -/
def after (watcher : Watcher) (caller : Thread) (batch : Batch) : Watcher × Impact :=
  let recorded := watcher.record batch
  if watcher.dispatch.isDispatching then (recorded, .none)
  else
    let impact :=
      match watcher.pending with
      | some pending => pending.impact
      | none => .none
    let journal := if watcher.isSuppressed caller then recorded.journal else {}
    let watcher :=
      { recorded with pending := none, journal := journal }.settle (watcher.due caller batch)
    (if impact = .none then watcher else watcher.deliver caller (.changed impact), impact)

/-- Carry out a command. -/
def run (watcher : Watcher) (caller : Thread) : Command → Watcher × Answer
  | .before batch =>
    let (watcher, impact) := watcher.before caller batch
    (watcher, .impact impact)
  | .after batch =>
    let (watcher, impact) := watcher.after caller batch
    (watcher, .impact impact)
  | .process batch =>
    let (watcher, first) := watcher.before caller batch
    let (watcher, second) := watcher.after caller batch
    (watcher, .phases first second)
  | command => watcher.quietly caller command

/-- While a notification is being delivered, the first phase of a batch does nothing. -/
theorem before_of_dispatching {watcher : Watcher} (h : watcher.dispatch = .dispatching)
    (caller : Thread) (batch : Batch) : watcher.before caller batch = (watcher, .none) := by
  simp [before, Dispatch.isDispatching, h]

/-- While a notification is being delivered, the second phase of a batch notes relocations. -/
theorem after_of_dispatching {watcher : Watcher} (h : watcher.dispatch = .dispatching)
    (caller : Thread) (batch : Batch) :
    watcher.after caller batch = (watcher.record batch, .none) := by
  simp [after, Dispatch.isDispatching, h]

/-- While a notification is being delivered, every command is carried out quietly. -/
theorem run_of_dispatching {watcher : Watcher} (h : watcher.dispatch = .dispatching)
    (caller : Thread) (command : Command) :
    watcher.run caller command = watcher.quietly caller command := by
  cases command with
  | before batch => simp [run, quietly, before_of_dispatching h]
  | after batch => simp [run, quietly, after_of_dispatching h]
  | process batch => simp [run, quietly, before_of_dispatching h, after_of_dispatching h]
  | _ => rfl

theorem dispatch_quietly (watcher : Watcher) (caller : Thread) (command : Command) :
    (watcher.quietly caller command).1.dispatch = watcher.dispatch := by
  cases command with
  | commit base changes =>
    simp only [quietly]
    split <;> rfl
  | intern raw =>
    simp only [quietly]
    split <;> rfl
  | _ => rfl

/-- The commands of a listener are carried out like any others: that nothing is told meanwhile
follows from the notification that is being delivered. -/
theorem runScript_eq_foldl_run {watcher : Watcher} (h : watcher.dispatch = .dispatching)
    (caller : Thread) (script : List Command) :
    runScript caller watcher script =
      script.foldl
        (fun watcher command =>
          let (watcher, answer) := watcher.run caller command
          { watcher with log := watcher.log ++ [.nested answer] })
        watcher := by
  unfold runScript
  induction script generalizing watcher with
  | nil => rfl
  | cons command rest ih =>
    rw [List.foldl_cons, List.foldl_cons, run_of_dispatching h]
    exact ih ((dispatch_quietly watcher caller command).trans h)

theorem entries_recordAll (journal : Journal) (relocations : List Relocation) :
    (journal.recordAll relocations).entries =
      journal.entries ++ relocations.filter Journal.notes := by
  unfold Journal.recordAll
  induction relocations generalizing journal with
  | nil => simp
  | cons relocation rest ih =>
    rw [List.foldl_cons, ih, Journal.entries_record, List.append_assoc, ← List.filter_append,
      List.singleton_append]

end Watcher

end ProjectRoots
