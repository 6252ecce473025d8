import ProjectRoots.Proofs.Watch.Run

/- What the journal of a watcher holds. An event is worth an entry if it moves or renames something
   and its two texts denote different paths; the entries that events are worth, in their order, are
   their chronicle.

     1. `chronicle_iff` — noting the relocations of events one after another writes their
        chronicle.
     2. `entries_quietly` — a command that is carried out quietly notes the batch of the second
        phase that it begins, and nothing is carried out.
     3. `due_append_entries_settled` — a second phase notes its batch, and hands over either all
        that the journal holds then or nothing. -/
namespace ProjectRoots

/-- What is at one path is at another one after the event, and this is the entry for it. What is
moved counts as a directory. -/
inductive Event.Relocates : Event → Relocation → Prop
  | move {old new : String} {source target : Url} (hold : Url.parse old = .ok source)
    (hnew : Url.parse new = .ok target) (hne : source.path ≠ target.path) :
    Relocates (.move old new) ⟨source.path, target.path, .move, true⟩
  | rename {old new : String} {isDirectory : Bool} {source target : Url}
    (hold : Url.parse old = .ok source) (hnew : Url.parse new = .ok target)
    (hne : source.path ≠ target.path) :
    Relocates (.rename old new isDirectory) ⟨source.path, target.path, .rename, isDirectory⟩

/-- The relocations are the entries of the events: one for each event that is worth one, in the
order of the events. -/
inductive Chronicle : List Event → List Relocation → Prop
  | nil : Chronicle [] []
  | kept {event : Event} {relocation : Relocation} {events : List Event}
    {relocations : List Relocation} (hworth : event.Relocates relocation)
    (hrest : Chronicle events relocations) :
    Chronicle (event :: events) (relocation :: relocations)
  | passedOver {event : Event} {events : List Event} {relocations : List Relocation}
    (hworthless : ∀ relocation, ¬event.Relocates relocation)
    (hrest : Chronicle events relocations) : Chronicle (event :: events) relocations

/-- The relocations of a batch that a journal notes. -/
def recorded (batch : Batch) : List Relocation :=
  (relocationsOf batch).filter Journal.notes

@[simp] theorem recorded_nil : recorded [] = [] :=
  rfl

theorem recorded_append (first second : Batch) :
    recorded (first ++ second) = recorded first ++ recorded second := by
  simp [recorded, relocationsOf]

theorem recorded_cons (event : Event) (rest : Batch) :
    recorded (event :: rest) = recorded [event] ++ recorded rest :=
  recorded_append [event] rest

theorem Event.relocation_eq_some_iff {event : Event} {relocation : Relocation} :
    event.relocation = some relocation ∧ Journal.notes relocation = true ↔
      event.Relocates relocation := by
  have hbetween : ∀ {old new : String} {cause : RelocationCause} {isDirectory : Bool},
      Event.relocation.between old new cause isDirectory = some relocation ↔
        ∃ source target, Url.parse old = .ok source ∧ Url.parse new = .ok target ∧
          relocation = ⟨source.path, target.path, cause, isDirectory⟩ := by
    intro old new cause isDirectory
    unfold Event.relocation.between
    cases Url.parse old <;> cases Url.parse new <;> simp [eq_comm]
  constructor
  · rintro ⟨hrelocation, hnotes⟩
    cases event with
    | move old new =>
      obtain ⟨source, target, hold, hnew, rfl⟩ := hbetween.1 hrelocation
      exact .move hold hnew (by simpa [Journal.notes] using hnotes)
    | rename old new isDirectory =>
      obtain ⟨source, target, hold, hnew, rfl⟩ := hbetween.1 hrelocation
      exact .rename hold hnew (by simpa [Journal.notes] using hnotes)
    | _ => cases hrelocation
  · intro hworth
    cases hworth with
    | move hold hnew hne => exact ⟨hbetween.2 ⟨_, _, hold, hnew, rfl⟩, by simpa [Journal.notes]⟩
    | rename hold hnew hne => exact ⟨hbetween.2 ⟨_, _, hold, hnew, rfl⟩, by simpa [Journal.notes]⟩

theorem recorded_of_relocates {event : Event} {relocation : Relocation}
    (hworth : event.Relocates relocation) : recorded [event] = [relocation] := by
  obtain ⟨hrelocation, hnotes⟩ := Event.relocation_eq_some_iff.2 hworth
  simp [recorded, relocationsOf, hrelocation, hnotes]

theorem recorded_of_worthless {event : Event}
    (hworthless : ∀ relocation, ¬event.Relocates relocation) : recorded [event] = [] := by
  cases hrelocation : event.relocation with
  | none => simp [recorded, relocationsOf, hrelocation]
  | some relocation =>
    have hnotes : ¬Journal.notes relocation = true := fun hnotes =>
      hworthless relocation (Event.relocation_eq_some_iff.1 ⟨hrelocation, hnotes⟩)
    simp [recorded, relocationsOf, hrelocation, hnotes]

theorem chronicle_recorded (events : List Event) : Chronicle events (recorded events) := by
  induction events with
  | nil => exact .nil
  | cons event rest ih =>
    rw [recorded_cons]
    by_cases hworth : ∃ relocation, event.Relocates relocation
    · obtain ⟨relocation, hworth⟩ := hworth
      rw [recorded_of_relocates hworth]
      exact .kept hworth ih
    · have hworthless := not_exists.1 hworth
      rw [recorded_of_worthless hworthless]
      exact .passedOver hworthless ih

/-- Events have one chronicle. -/
theorem chronicle_iff {events : List Event} {relocations : List Relocation} :
    Chronicle events relocations ↔ relocations = recorded events := by
  constructor
  · intro h
    induction h with
    | nil => rfl
    | kept hworth _ ih =>
      rw [recorded_cons, recorded_of_relocates hworth, ← ih, List.singleton_append]
    | passedOver hworthless _ ih =>
      rw [recorded_cons, recorded_of_worthless hworthless, ← ih, List.nil_append]
  · rintro rfl
    exact chronicle_recorded events

namespace Watcher

theorem entries_record (watcher : Watcher) (batch : Batch) :
    (watcher.record batch).journal.entries = watcher.journal.entries ++ recorded batch :=
  entries_recordAll watcher.journal (relocationsOf batch)

end Watcher

/-- The batches of the second phases that the command begins. -/
def Command.closings : Command → List Batch
  | .after batch => [batch]
  | .process batch => [batch]
  | _ => []

namespace Watcher

theorem entries_quietly (watcher : Watcher) (caller : Thread) (command : Command) :
    (watcher.quietly caller command).1.journal.entries =
      watcher.journal.entries ++ recorded command.closings.flatten := by
  cases command with
  | after batch => simp [quietly, Command.closings, entries_record]
  | process batch => simp [quietly, Command.closings, entries_record]
  | commit base changes =>
    simp only [quietly]
    split <;> simp [Command.closings]
  | intern raw =>
    simp only [quietly]
    split <;> simp [Command.closings]
  | _ => simp [quietly, Command.closings]

theorem entries_of_calm (watcher : Watcher) (caller : Thread) {command : Command}
    (hcalm : command.isPhase = false) :
    (watcher.quietly caller command).1.journal.entries = watcher.journal.entries := by
  have hnone : command.closings = [] := by
    cases command with
    | after batch => cases hcalm
    | process batch => cases hcalm
    | _ => rfl
  rw [entries_quietly, hnone, List.flatten_nil, recorded_nil, List.append_nil]

/-- Nothing is carried out while something is being told. -/
theorem due_of_dispatching {watcher : Watcher} (htelling : watcher.dispatch = .dispatching)
    (caller : Thread) (batch : Batch) : watcher.due caller batch = [] := by
  simp [due, Dispatch.isDispatching, htelling]

theorem journal_settle (watcher : Watcher) (relocations : List Relocation) :
    (watcher.settle relocations).journal = watcher.journal := by
  unfold settle
  split <;> rfl

/-- A second phase that is not suppressed leaves nothing in the journal. -/
theorem entries_settled_of_free {watcher : Watcher} {caller : Thread}
    (hfree : watcher.isSuppressed caller = false) (batch : Batch) :
    (watcher.settled caller batch).journal.entries = [] := by
  unfold settled
  rw [journal_settle, hfree]
  rfl

/-- What a second phase hands over and what it leaves in the journal are, together, what the journal
held and what the batch adds. -/
theorem due_append_entries_settled {watcher : Watcher} (hidle : watcher.dispatch = .idle)
    (caller : Thread) (batch : Batch) :
    watcher.due caller batch ++ (watcher.settled caller batch).journal.entries =
      watcher.journal.entries ++ recorded batch := by
  have hquiet : watcher.dispatch.isDispatching = false := by
    simp [Dispatch.isDispatching, hidle]
  unfold settled due
  rw [journal_settle, hquiet, Bool.false_or, ← entries_record]
  cases watcher.isSuppressed caller <;> simp

end Watcher

end ProjectRoots
