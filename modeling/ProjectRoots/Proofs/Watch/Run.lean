import Mathlib.Data.List.Forall2
import ProjectRoots.Watch.Watcher

/- Runs of a watcher. A run is a list of steps, each a command of some thread, carried out one
   after another by `perform`. What is proved here of a single command is all that the theorems
   about runs use:

     1. `frame_quietly`, `frame_runScript` — a command that is carried out quietly, and so all
        commands of a listener, leave the dispatch and what a first phase has left for its second
        one as they were (`Frame`).
     2. `told_deliver` — a delivery adds one notification to the log, the answers to the commands
        of the listener, none of which is more than `none` for a phase, and the return (`Told`).
     3. `opens_before`, `closes_after` — what the two phases of a batch do when nothing is being
        told: which impact they answer, what they leave and what they add to the log (`Adds`).
     4. `frame_perform` — steps that are no phases keep the frame and tell nothing.

   A `Crossing` is one batch with the steps between its phases; `kept_iff_awaited` reduces what its
   second phase answers and reports to what it finds waiting. -/
namespace ProjectRoots

/-- A command and the thread that gives it. -/
structure Step where
  caller : Thread
  command : Command

namespace Command

/-- Whether the command is a phase of a batch, or both phases. -/
def isPhase : Command → Bool
  | before _ => true
  | after _ => true
  | process _ => true
  | _ => false

/-- The answer says of every phase that the command begins that no root is touched. -/
def Muted (command : Command) (answer : Answer) : Prop :=
  match command with
  | before _ => answer = .impact .none
  | after _ => answer = .impact .none
  | process _ => answer = .phases .none .none
  | _ => True

end Command

namespace Watcher

/-- The watcher at the beginning of a delivery. -/
def telling (watcher : Watcher) (notification : Notification) : Watcher :=
  { watcher with
    dispatch := .dispatching
    log := watcher.log ++ [.notified notification] }

/-- The answers to commands that are carried out like any others, one after another, and are
logged. -/
def replies (caller : Thread) (watcher : Watcher) : List Command → List Answer
  | [] => []
  | command :: rest =>
    let (next, answer) := watcher.run caller command
    answer :: replies caller { next with log := next.log ++ [.nested answer] } rest

/-- The log of `next` continues the one of `watcher` by one delivery: the notification, the answers
to the commands that the listener gives meanwhile, and the return. No phase that the listener
begins finds anything. -/
def Told (watcher next : Watcher) (caller : Thread) (notification : Notification) : Prop :=
  ∃ listener answers, watcher.listener = some listener ∧
    answers = replies caller (watcher.telling notification) (listener.script notification) ∧
    List.Forall₂ Command.Muted (listener.script notification) answers ∧
    next.log = watcher.log ++ .notified notification :: (answers.map .nested ++ [.returned])

/-- The log of `next` continues the one of `watcher` by the delivery of `news`, or by nothing if
there is no news. The delivery may begin in a state that differs from `watcher` in what is neither
told nor listens. -/
def Adds (watcher next : Watcher) (caller : Thread) (news : Option Notification) : Prop :=
  match news with
  | none => next.log = watcher.log
  | some notification =>
    ∃ start : Watcher, start.listener = watcher.listener ∧ start.log = watcher.log ∧
      start.Told next caller notification

/-- The dispatch and what a first phase has left are the same. -/
structure Frame (watcher next : Watcher) : Prop where
  dispatch : next.dispatch = watcher.dispatch
  pending : next.pending = watcher.pending

theorem Frame.refl (watcher : Watcher) : Frame watcher watcher :=
  ⟨rfl, rfl⟩

theorem Frame.trans {a b c : Watcher} (first : Frame a b) (second : Frame b c) : Frame a c :=
  ⟨second.dispatch.trans first.dispatch, second.pending.trans first.pending⟩

/-! ## Commands that are carried out quietly -/

section
variable (watcher : Watcher) (caller : Thread)

theorem frame_quietly (command : Command) : Frame watcher (watcher.quietly caller command).1 := by
  cases command with
  | commit base changes =>
    simp only [quietly]
    split <;> exact ⟨rfl, rfl⟩
  | intern raw =>
    simp only [quietly]
    split <;> exact ⟨rfl, rfl⟩
  | _ => exact ⟨rfl, rfl⟩

theorem log_quietly (command : Command) : (watcher.quietly caller command).1.log = watcher.log := by
  cases command with
  | commit base changes =>
    simp only [quietly]
    split <;> rfl
  | intern raw =>
    simp only [quietly]
    split <;> rfl
  | _ => rfl

theorem muted_quietly (command : Command) :
    command.Muted (watcher.quietly caller command).2 := by
  cases command with
  | before batch => rfl
  | after batch => rfl
  | process batch => rfl
  | _ => trivial

end

theorem runScript_cons (caller : Thread) (watcher : Watcher) (command : Command)
    (rest : List Command) :
    runScript caller watcher (command :: rest) =
      runScript caller
        { (watcher.quietly caller command).1 with
          log := (watcher.quietly caller command).1.log ++
            [.nested (watcher.quietly caller command).2] } rest :=
  rfl

/-- What every command of a listener keeps to, and what has nothing to do with the log, all its
commands together keep to. -/
theorem relates_runScript (Related : Watcher → Watcher → Prop)
    (refl : ∀ watcher, Related watcher watcher)
    (trans : ∀ {a b c : Watcher}, Related a b → Related b c → Related a c)
    (hlog : ∀ (watcher : Watcher) log, Related watcher { watcher with log := log })
    {caller : Thread} {script : List Command}
    (hquietly : ∀ command ∈ script, ∀ watcher : Watcher,
      Related watcher (watcher.quietly caller command).1)
    (watcher : Watcher) : Related watcher (runScript caller watcher script) := by
  induction script generalizing watcher with
  | nil => exact refl watcher
  | cons command rest ih =>
    rw [runScript_cons]
    apply trans (hquietly command List.mem_cons_self watcher)
    apply trans (hlog _ _)
    apply ih
    intro later hmem
    exact hquietly later (List.mem_cons_of_mem _ hmem)

theorem frame_runScript (caller : Thread) (watcher : Watcher) (script : List Command) :
    Frame watcher (runScript caller watcher script) := by
  apply relates_runScript Frame .refl .trans
  · exact fun _ _ => ⟨rfl, rfl⟩
  · exact fun command _ watcher => frame_quietly watcher caller command

/-- While something is being told, the commands of a listener are answered as any command is, and
their answers are all that is logged. -/
theorem log_runScript (caller : Thread) {watcher : Watcher}
    (htelling : watcher.dispatch = .dispatching) (script : List Command) :
    List.Forall₂ Command.Muted script (replies caller watcher script) ∧
      (runScript caller watcher script).log =
        watcher.log ++ (replies caller watcher script).map .nested := by
  induction script generalizing watcher with
  | nil => exact ⟨.nil, by simp [runScript, replies]⟩
  | cons command rest ih =>
    -- The command leaves the dispatch alone, so the rest is given while telling as well.
    have hframe := frame_quietly watcher caller command
    obtain ⟨hmuted, hlog⟩ := @ih
      { (watcher.quietly caller command).1 with
        log := (watcher.quietly caller command).1.log ++
          [.nested (watcher.quietly caller command).2] }
      (hframe.dispatch.trans htelling)
    simp only [replies, run_of_dispatching htelling, runScript_cons]
    refine ⟨.cons (muted_quietly watcher caller command) hmuted, ?_⟩
    rw [hlog, log_quietly, List.map_cons, List.append_assoc, List.singleton_append]

/-! ## Deliveries -/

section
variable (watcher : Watcher) (caller : Thread)

theorem deliver_of_listener {listener : Listener} (hidle : watcher.dispatch = .idle)
    (hlistener : watcher.listener = some listener) (notification : Notification) :
    watcher.deliver caller notification =
      { runScript caller (watcher.telling notification) (listener.script notification) with
        dispatch := .idle
        log := (runScript caller (watcher.telling notification)
          (listener.script notification)).log ++ [.returned] } := by
  unfold deliver
  split
  · rename_i found hfound _
    obtain rfl : found = listener := by simpa [hfound] using hlistener
    rfl
  · rename_i hnone
    exact absurd hidle (hnone _ hlistener)

/-- A delivery ends as it began: nothing is being told, and what waits for a second phase still
waits. -/
theorem frame_deliver (hidle : watcher.dispatch = .idle) (notification : Notification) :
    Frame watcher (watcher.deliver caller notification) := by
  cases hlistener : watcher.listener with
  | none =>
    simp only [deliver, hlistener]
    exact .refl watcher
  | some listener =>
    have h := frame_runScript caller (watcher.telling notification)
      (listener.script notification)
    rw [deliver_of_listener watcher caller hidle hlistener]
    exact ⟨hidle.symm, h.pending⟩

/-- What the commands of the listener keep to, and what has nothing to do with the log and the
dispatch, the delivery keeps to. -/
theorem relates_deliver (Related : Watcher → Watcher → Prop)
    (refl : ∀ watcher, Related watcher watcher)
    (trans : ∀ {a b c : Watcher}, Related a b → Related b c → Related a c)
    (htelling : ∀ (watcher : Watcher) dispatch log,
      Related watcher { watcher with dispatch := dispatch, log := log })
    {notification : Notification}
    (hquietly : ∀ listener ∈ watcher.listener, ∀ command ∈ listener.script notification,
      ∀ watcher : Watcher, Related watcher (watcher.quietly caller command).1) :
    Related watcher (watcher.deliver caller notification) := by
  unfold deliver
  split
  · rename_i listener hlistener _
    apply trans (htelling watcher .dispatching (watcher.log ++ [.notified notification]))
    apply trans (relates_runScript Related refl trans
      (fun watcher log => htelling watcher watcher.dispatch log) (hquietly listener hlistener) _)
    exact htelling _ _ _
  · exact refl watcher

theorem told_deliver (hidle : watcher.dispatch = .idle) (hwired : watcher.listener ≠ none)
    (notification : Notification) :
    watcher.Told (watcher.deliver caller notification) caller notification := by
  obtain ⟨listener, hlistener⟩ := Option.ne_none_iff_exists'.1 hwired
  obtain ⟨hmuted, hlog⟩ := @log_runScript caller (watcher.telling notification) rfl
    (listener.script notification)
  refine ⟨listener, _, hlistener, rfl, hmuted, ?_⟩
  rw [deliver_of_listener watcher caller hidle hlistener]
  show _ ++ [LogEntry.returned] = _
  rw [hlog]
  simp [telling]

end

/-! ## The two phases -/

/-- A batch is judged when nothing is being told, the caller has the permit, the model is there and
somebody listens. -/
theorem suppression_eq_none_iff {watcher : Watcher} {caller : Thread} :
    watcher.suppression caller = none ↔
      watcher.dispatch = .idle ∧ watcher.permit.owner = some caller ∧
        watcher.lifecycle ≠ .disposed ∧ watcher.listener ≠ none := by
  unfold suppression Dispatch.isDispatching Permit.isHeld Lifecycle.isDisposed
  cases hdispatch : watcher.dispatch with
  | dispatching => simp
  | idle =>
    by_cases howner : watcher.permit.owner = some caller
    · by_cases hlife : watcher.lifecycle = .disposed
      · simp [howner, hlife]
      · cases watcher.listener <;> simp [howner, hlife]
    · simp [howner]

/-- The impact that the first phase of a batch finds. -/
def found (watcher : Watcher) (caller : Thread) (batch : Batch) : Impact :=
  if watcher.suppression caller = none then watcher.classify batch else .none

/-- The watcher when the first phase of a batch has judged it and has told nobody yet. -/
def judged (watcher : Watcher) (caller : Thread) (batch : Batch) : Watcher :=
  { watcher with
    pending := some ⟨watcher.found caller batch, (watcher.suppression caller).isSome⟩ }

/-- The impact that the second phase of a batch finds waiting. -/
def awaited (watcher : Watcher) : Impact :=
  match watcher.pending with
  | some pending => pending.impact
  | none => .none

/-- The watcher when the second phase of a batch has carried out what is due and has told nobody
yet. -/
def settled (watcher : Watcher) (caller : Thread) (batch : Batch) : Watcher :=
  { watcher.record batch with
    pending := none
    journal := if watcher.isSuppressed caller then (watcher.record batch).journal else {}
  }.settle (watcher.due caller batch)

/-- What there is to tell of an impact: nothing, if no root is touched. -/
def news (impact : Impact) (notification : Notification) : Option Notification :=
  if impact = .none then none else some notification

/-- What a first phase does when nothing is being told. -/
structure Opens (watcher : Watcher) (caller : Thread) (batch : Batch) (next : Watcher)
    (impact : Impact) : Prop where
  impact_eq : impact = watcher.found caller batch
  dispatch : next.dispatch = .idle
  pending : next.pending = some ⟨impact, (watcher.suppression caller).isSome⟩
  adds : watcher.Adds next caller (news impact .beforeChanged)

/-- What a second phase does when nothing is being told. -/
structure Closes (watcher : Watcher) (caller : Thread) (next : Watcher) (impact : Impact) :
    Prop where
  impact_eq : impact = watcher.awaited
  dispatch : next.dispatch = .idle
  pending : next.pending = none
  adds : watcher.Adds next caller (news impact (.changed impact))

/-- Carrying out relocations changes the project and nothing else. -/
theorem settled_eq (watcher : Watcher) (caller : Thread) (batch : Batch) :
    ∃ project journal, watcher.settled caller batch =
      { watcher with project := project, journal := journal, pending := none } := by
  unfold settled settle
  split
  · exact ⟨watcher.project, _, rfl⟩
  · exact ⟨_, _, rfl⟩

@[simp] theorem settled_dispatch (watcher : Watcher) (caller : Thread) (batch : Batch) :
    (watcher.settled caller batch).dispatch = watcher.dispatch := by
  obtain ⟨project, journal, h⟩ := settled_eq watcher caller batch
  rw [h]

@[simp] theorem settled_listener (watcher : Watcher) (caller : Thread) (batch : Batch) :
    (watcher.settled caller batch).listener = watcher.listener := by
  obtain ⟨project, journal, h⟩ := settled_eq watcher caller batch
  rw [h]

@[simp] theorem settled_pending (watcher : Watcher) (caller : Thread) (batch : Batch) :
    (watcher.settled caller batch).pending = none := by
  obtain ⟨project, journal, h⟩ := settled_eq watcher caller batch
  rw [h]

@[simp] theorem settled_log (watcher : Watcher) (caller : Thread) (batch : Batch) :
    (watcher.settled caller batch).log = watcher.log := by
  obtain ⟨project, journal, h⟩ := settled_eq watcher caller batch
  rw [h]

section
variable {watcher : Watcher} (hidle : watcher.dispatch = .idle) (caller : Thread) (batch : Batch)
include hidle

theorem before_of_idle :
    watcher.before caller batch =
      (if watcher.found caller batch = .none then watcher.judged caller batch
        else (watcher.judged caller batch).deliver caller .beforeChanged,
        watcher.found caller batch) := by
  have hfound : (if (watcher.suppression caller).isSome = true then Impact.none
      else watcher.classify batch) = watcher.found caller batch := by
    unfold found
    cases watcher.suppression caller <;> rfl
  unfold before judged
  rw [← hfound, if_neg (by simp [hidle, Dispatch.isDispatching])]

theorem after_of_idle :
    watcher.after caller batch =
      (if watcher.awaited = .none then watcher.settled caller batch
        else (watcher.settled caller batch).deliver caller (.changed watcher.awaited),
        watcher.awaited) := by
  unfold after
  rw [if_neg (by simp [hidle, Dispatch.isDispatching])]
  rfl

theorem opens_before :
    Opens watcher caller batch (watcher.before caller batch).1
      (watcher.before caller batch).2 := by
  rw [before_of_idle hidle]
  by_cases hnone : watcher.found caller batch = .none
  · rw [if_pos hnone]
    refine ⟨rfl, hidle, rfl, ?_⟩
    simp [news, hnone, Adds, judged]
  · rw [if_neg hnone]
    -- Only a batch that is judged has an impact, and then somebody listens.
    have hfree : watcher.suppression caller = none := by
      by_contra hsuppressed
      exact hnone (if_neg hsuppressed)
    have hwired := (suppression_eq_none_iff.1 hfree).2.2.2
    have hframe := frame_deliver (watcher.judged caller batch) caller hidle .beforeChanged
    refine ⟨rfl, hframe.dispatch.trans hidle, hframe.pending, ?_⟩
    simp only [news, if_neg hnone]
    exact ⟨watcher.judged caller batch, rfl, rfl,
      told_deliver (watcher.judged caller batch) caller hidle hwired .beforeChanged⟩

theorem closes_after (hwired : watcher.awaited ≠ .none → watcher.listener ≠ none) :
    Closes watcher caller (watcher.after caller batch).1 (watcher.after caller batch).2 := by
  rw [after_of_idle hidle]
  by_cases hnone : watcher.awaited = .none
  · rw [if_pos hnone]
    refine ⟨rfl, by simpa using hidle, by simp, ?_⟩
    simp [news, hnone, Adds]
  · rw [if_neg hnone]
    have hsettled : (watcher.settled caller batch).dispatch = .idle := by simpa using hidle
    have hframe := frame_deliver (watcher.settled caller batch) caller hsettled
      (.changed watcher.awaited)
    refine ⟨rfl, ?_, ?_, ?_⟩
    · rw [hframe.dispatch, hsettled]
    · rw [hframe.pending, settled_pending]
    · simp only [news, if_neg hnone]
      refine ⟨watcher.settled caller batch, by simp, by simp, ?_⟩
      exact told_deliver _ caller hsettled (by simpa using hwired hnone) (.changed watcher.awaited)

end

/-! ## Steps and runs -/

/-- Carry out a step. -/
def step (watcher : Watcher) (step : Step) : Watcher :=
  (watcher.run step.caller step.command).1

/-- Carry out steps, one after another. -/
def perform (watcher : Watcher) (steps : List Step) : Watcher :=
  steps.foldl Watcher.step watcher

/-- A command that is no phase is carried out as quietly as if something were being told. -/
theorem step_of_calm (watcher : Watcher) {step : Step} (hcalm : step.command.isPhase = false) :
    watcher.step step = (watcher.quietly step.caller step.command).1 := by
  obtain ⟨caller, command⟩ := step
  cases command with
  | before batch => cases hcalm
  | after batch => cases hcalm
  | process batch => cases hcalm
  | _ => rfl

/-- What every step keeps to, a run keeps to. -/
theorem relates_perform (Related : Watcher → Watcher → Prop)
    (refl : ∀ watcher, Related watcher watcher)
    (trans : ∀ {a b c : Watcher}, Related a b → Related b c → Related a c) {steps : List Step}
    (hstep : ∀ step ∈ steps, ∀ watcher : Watcher, Related watcher (watcher.step step))
    (watcher : Watcher) : Related watcher (watcher.perform steps) := by
  induction steps generalizing watcher with
  | nil => exact refl watcher
  | cons step rest ih =>
    apply trans (hstep step List.mem_cons_self watcher)
    apply ih
    intro later hmem
    exact hstep later (List.mem_cons_of_mem _ hmem)

theorem frame_perform (watcher : Watcher) {steps : List Step}
    (hcalm : ∀ step ∈ steps, step.command.isPhase = false) :
    Frame watcher (watcher.perform steps) ∧ (watcher.perform steps).log = watcher.log := by
  refine relates_perform (fun watcher next => Frame watcher next ∧ next.log = watcher.log)
    (fun watcher => ⟨.refl watcher, rfl⟩) ?_ ?_ watcher
  · rintro a b c ⟨hframe, hlog⟩ ⟨hframe', hlog'⟩
    exact ⟨hframe.trans hframe', hlog'.trans hlog⟩
  · intro step hmem watcher
    rw [step_of_calm watcher (hcalm step hmem)]
    exact ⟨frame_quietly watcher step.caller step.command,
      log_quietly watcher step.caller step.command⟩

/-- The watchers that a run passes through, the first and the last among them. -/
def trace (watcher : Watcher) : List Step → List Watcher
  | [] => [watcher]
  | step :: rest => watcher :: (watcher.step step).trace rest

end Watcher

/-! ## Batches -/

/-- The way of one batch through a watcher: its first phase, the steps that come between, and its
second phase. -/
structure Crossing where
  opener : Thread
  batch : Batch
  meanwhile : List Step
  closer : Thread

namespace Crossing
variable (crossing : Crossing) (watcher : Watcher)

/-- The watcher and the answer after the first phase. -/
def opened : Watcher × Impact :=
  watcher.before crossing.opener crossing.batch

/-- The watcher that the second phase meets. -/
def ready : Watcher :=
  (crossing.opened watcher).1.perform crossing.meanwhile

/-- The watcher and the answer after the second phase. -/
def closed : Watcher × Impact :=
  (crossing.ready watcher).after crossing.closer crossing.batch

/-- The second phase answers what the first one did, and reports it if it is not `none`. -/
structure Kept : Prop where
  answered : (crossing.closed watcher).2 = (crossing.opened watcher).2
  reported : (crossing.ready watcher).Adds (crossing.closed watcher).1 crossing.closer
    (Watcher.news (crossing.opened watcher).2 (.changed (crossing.opened watcher).2))

variable {crossing watcher}

/-- The second phase answers what it finds waiting. -/
theorem kept_iff_awaited (hidle : (crossing.ready watcher).dispatch = .idle)
    (hwired : (crossing.ready watcher).listener ≠ none) :
    crossing.Kept watcher ↔ (crossing.ready watcher).awaited = (crossing.opened watcher).2 := by
  have hclose := Watcher.closes_after hidle crossing.closer crossing.batch (fun _ => hwired)
  constructor
  · intro hkept
    exact hclose.impact_eq.symm.trans hkept.answered
  · intro hwaiting
    have hanswer : (crossing.closed watcher).2 = (crossing.opened watcher).2 :=
      hclose.impact_eq.trans hwaiting
    refine ⟨hanswer, ?_⟩
    rw [← hanswer]
    exact hclose.adds

/-- Steps that are no phases leave what the first phase has left. -/
theorem awaited_of_calm (hidle : watcher.dispatch = .idle)
    (hcalm : ∀ step ∈ crossing.meanwhile, step.command.isPhase = false) :
    (crossing.ready watcher).dispatch = .idle ∧
      (crossing.ready watcher).awaited = (crossing.opened watcher).2 := by
  have hopen := Watcher.opens_before hidle crossing.opener crossing.batch
  obtain ⟨hframe, _⟩ := Watcher.frame_perform (crossing.opened watcher).1 hcalm
  refine ⟨hframe.dispatch.trans hopen.dispatch, ?_⟩
  unfold Watcher.awaited ready
  rw [hframe.pending, show (crossing.opened watcher).1.pending = _ from hopen.pending]
  rfl

end Crossing

end ProjectRoots
