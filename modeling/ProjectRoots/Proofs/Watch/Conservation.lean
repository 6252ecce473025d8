import Mathlib.Data.List.Chain
import ProjectRoots.Proofs.Dependent.Turns
import ProjectRoots.Proofs.Watch.Chronicle
import ProjectRoots.Proofs.Watch.Notified

/- No relocation is lost, noted twice or put out of order. A run is looked at not only between its
   steps: while a notification is being delivered, listeners give commands of their own, and a
   second phase that they begin notes relocations between the hand-over of the batch around it and
   the end of that batch. So a moment of a run is a watcher together with the second phases that
   have begun so far, those of listeners among them, each with the watcher that it met.

     1. `balanced_reply` — a command of a listener keeps the balance: what was handed over and what
        is still in the journal are the chronicle of all events so far.
     2. `balanced_delivery`, `balanced_closing`, `balanced_during` — so it holds at all moments of a
        delivery, of a second phase, and of a step.
     3. `leads_reply`, `isChain_closing`, `isChain_during` — between two moments that follow one
        another at most one second phase begins, and what it hands over is carried out by a round on
        the project.
     4. `chronicle_conserved` — so at all moments of a run, whatever its steps are, and whatever
        listeners do. The moments end with the watcher that the run ends with. -/
namespace ProjectRoots

theorem getLastD_append {α : Type} (first second : List α) (default : α) :
    (first ++ second).getLastD default = second.getLastD (first.getLastD default) := by
  cases second <;> simp [List.getLastD_eq_getLast?, List.getLast?_append]

/-- A chain goes on with a chain from its last item. -/
theorem isChain_cons_append {α : Type} {related : α → α → Prop} {a : α} {first second : List α}
    (hfirst : (a :: first).IsChain related)
    (hsecond : (first.getLastD a :: second).IsChain related) :
    (a :: (first ++ second)).IsChain related := by
  induction first generalizing a with
  | nil => exact hsecond
  | cons b rest ih =>
    obtain ⟨hab, hrest⟩ := List.isChain_cons_cons.1 hfirst
    rw [List.getLastD_cons] at hsecond
    exact .cons_cons hab (ih hrest hsecond)

/-- A second phase that has begun: the watcher that it met, its thread and its batch. -/
structure Closing where
  watcher : Watcher
  caller : Thread
  batch : Batch

/-- The relocations that a second phase hands over to be carried out. -/
def Closing.handed (closing : Closing) : List Relocation :=
  closing.watcher.due closing.caller closing.batch

/-- The project has had a round over what is due. -/
theorem Watcher.project_settled (watcher : Watcher) (caller : Thread) (batch : Batch) :
    (watcher.settled caller batch).project =
      (watcher.project.round watcher.policy (watcher.due caller batch)).1 := by
  unfold settled settle
  split
  · rename_i hnothing
    rw [hnothing, Project.round_nil]
    rfl
  · rfl

/-- The second phases that a command begins, apart from those that listeners begin meanwhile. -/
def Watcher.closings (watcher : Watcher) (caller : Thread) : Command → List Closing
  | .after batch => [⟨watcher, caller, batch⟩]
  | .process batch => [⟨(watcher.before caller batch).1, caller, batch⟩]
  | _ => []

/-- A watcher, and the second phases that have begun so far, in the order of their beginning. -/
structure Moment where
  watcher : Watcher
  closings : List Closing := []

namespace Moment

/-- What second phases have handed over to be carried out. -/
def handed (moment : Moment) : List Relocation :=
  moment.closings.flatMap Closing.handed

/-- The events of all second phases. -/
def events (moment : Moment) : List Event :=
  moment.closings.flatMap Closing.batch

/-- What was handed over, followed by what is still waiting, is the chronicle of the events. -/
def Balanced (moment : Moment) : Prop :=
  Chronicle moment.events (moment.handed ++ moment.watcher.journal.entries)

/-- A second phase begins between the two moments. It meets the watcher of the first one, and behind
it the project has had a round over the relocations that it hands over. -/
structure Carries (moment : Moment) (closing : Closing) (next : Moment) : Prop where
  closings : next.closings = moment.closings ++ [closing]
  met : closing.watcher = moment.watcher
  project : next.watcher.project =
    (closing.watcher.project.round closing.watcher.policy closing.handed).1

/-- The one moment follows the other. -/
def Leads (moment next : Moment) : Prop :=
  next.closings = moment.closings ∨ ∃ closing, moment.Carries closing next

/-- The moment behind a command of a listener: the answer is logged. -/
def reply (caller : Thread) (moment : Moment) (command : Command) : Moment where
  watcher :=
    let (watcher, answer) := moment.watcher.run caller command
    { watcher with log := watcher.log ++ [.nested answer] }
  closings := moment.closings ++ moment.watcher.closings caller command

/-- The moment at the end of a delivery. -/
def returned (moment : Moment) : Moment :=
  { moment with watcher := { moment.watcher with
      dispatch := .idle
      log := moment.watcher.log ++ [.returned] } }

/-- The moments of a delivery: its beginning, the one behind each command of the listener, and its
end. -/
def delivery (moment : Moment) (caller : Thread) (notification : Notification) : List Moment :=
  match moment.watcher.listener, moment.watcher.dispatch with
  | some listener, .idle =>
    let told : Moment := { moment with watcher := moment.watcher.telling notification }
    let script := listener.script notification
    script.scanl (reply caller) told ++ [(script.foldl (reply caller) told).returned]
  | _, _ => []

/-- The moments of a first phase: behind the judgement, and those of the delivery. -/
def opening (moment : Moment) (caller : Thread) (batch : Batch) : List Moment :=
  if moment.watcher.dispatch.isDispatching then [moment]
  else
    let judged : Moment := { moment with watcher := moment.watcher.judged caller batch }
    judged :: if moment.watcher.found caller batch = .none then []
      else judged.delivery caller .beforeChanged

/-- The moments of a second phase: when the relocations are noted and those that are due are carried
out, and those of the delivery. -/
def closing (moment : Moment) (caller : Thread) (batch : Batch) : List Moment :=
  let closings := moment.closings ++ [⟨moment.watcher, caller, batch⟩]
  if moment.watcher.dispatch.isDispatching then [⟨moment.watcher.record batch, closings⟩]
  else
    let settled : Moment := ⟨moment.watcher.settled caller batch, closings⟩
    settled :: if moment.watcher.awaited = .none then []
      else settled.delivery caller (.changed moment.watcher.awaited)

/-- The moments of a step. -/
def during (moment : Moment) (step : Step) : List Moment :=
  match step.command with
  | .before batch => moment.opening step.caller batch
  | .after batch => moment.closing step.caller batch
  | .process batch =>
    let opening := moment.opening step.caller batch
    opening ++ (opening.getLastD moment).closing step.caller batch
  | command => [{ moment with watcher := (moment.watcher.quietly step.caller command).1 }]

/-- The moments behind this one, in the course of a run. -/
def later (moment : Moment) : List Step → List Moment
  | [] => []
  | step :: rest =>
    let during := moment.during step
    during ++ (during.getLastD moment).later rest

end Moment

/-- The moments of a run. -/
def Watcher.moments (watcher : Watcher) (steps : List Step) : List Moment :=
  ⟨watcher, []⟩ :: Moment.later ⟨watcher, []⟩ steps

namespace Moment

/-! ## The end of a step -/

theorem watcher_foldl_reply (caller : Thread) {moment : Moment}
    (htelling : moment.watcher.dispatch = .dispatching) (script : List Command) :
    (script.foldl (reply caller) moment).watcher =
      Watcher.runScript caller moment.watcher script := by
  rw [Watcher.runScript_eq_foldl_run htelling]
  clear htelling
  induction script generalizing moment with
  | nil => rfl
  | cons command rest ih =>
    rw [List.foldl_cons, List.foldl_cons, ih]
    rfl

theorem getLastD_delivery {moment : Moment} (hidle : moment.watcher.dispatch = .idle)
    (caller : Thread) (notification : Notification) :
    ((moment.delivery caller notification).getLastD moment).watcher =
      moment.watcher.deliver caller notification := by
  unfold delivery
  cases hlistener : moment.watcher.listener with
  | none => simp [Watcher.deliver, hlistener]
  | some listener =>
    simp only [hidle]
    rw [List.getLastD_concat, Watcher.deliver_of_listener _ caller hidle hlistener]
    simp only [returned]
    rw [watcher_foldl_reply caller rfl]

theorem getLastD_cons_delivery {moment before : Moment} (hidle : moment.watcher.dispatch = .idle)
    (caller : Thread) (notification : Notification) :
    ((moment :: moment.delivery caller notification).getLastD before).watcher =
      moment.watcher.deliver caller notification := by
  rw [List.getLastD_cons]
  exact getLastD_delivery hidle caller notification

theorem getLastD_opening (moment : Moment) (caller : Thread) (batch : Batch) :
    ((moment.opening caller batch).getLastD moment).watcher =
      (moment.watcher.before caller batch).1 := by
  unfold opening
  cases hdispatch : moment.watcher.dispatch with
  | dispatching =>
    rw [Watcher.before_of_dispatching hdispatch]
    rfl
  | idle =>
    rw [Watcher.before_of_idle hdispatch, if_neg (by simp [Dispatch.isDispatching])]
    by_cases hnone : moment.watcher.found caller batch = .none
    · simp [hnone]
    · simp only [if_neg hnone]
      apply getLastD_cons_delivery
      exact hdispatch

theorem getLastD_closing (moment before : Moment) (caller : Thread) (batch : Batch) :
    ((moment.closing caller batch).getLastD before).watcher =
      (moment.watcher.after caller batch).1 := by
  unfold closing
  cases hdispatch : moment.watcher.dispatch with
  | dispatching =>
    rw [Watcher.after_of_dispatching hdispatch]
    rfl
  | idle =>
    rw [Watcher.after_of_idle hdispatch, if_neg (by simp [Dispatch.isDispatching])]
    by_cases hnone : moment.watcher.awaited = .none
    · simp [hnone]
    · simp only [if_neg hnone]
      apply getLastD_cons_delivery
      simpa using hdispatch

/-- The moments of a step end with the watcher behind it. -/
theorem getLastD_during (moment : Moment) (step : Step) :
    ((moment.during step).getLastD moment).watcher = moment.watcher.step step := by
  obtain ⟨caller, command⟩ := step
  cases command with
  | before batch => exact getLastD_opening moment caller batch
  | after batch => exact getLastD_closing moment moment caller batch
  | process batch =>
    -- The second phase meets the watcher with which the first one ends.
    show ((moment.opening caller batch ++ _).getLastD moment).watcher =
      ((moment.watcher.before caller batch).1.after caller batch).1
    rw [getLastD_append, getLastD_closing, getLastD_opening]
  | _ => rfl

theorem getLastD_later (moment : Moment) (steps : List Step) :
    ((moment.later steps).getLastD moment).watcher = moment.watcher.perform steps := by
  induction steps generalizing moment with
  | nil => rfl
  | cons step rest ih =>
    unfold later
    rw [getLastD_append, ih, getLastD_during]
    rfl

/-! ## The balance -/

/-- Second phases that begin keep the balance if what they hand over and what is left behind them
are, together, what the journal held and what their batches add. -/
theorem Balanced.extend {moment : Moment} (hbalanced : moment.Balanced) {next : Watcher}
    {closings : List Closing}
    (hadds : closings.flatMap Closing.handed ++ next.journal.entries =
      moment.watcher.journal.entries ++ recorded (closings.flatMap Closing.batch)) :
    Balanced ⟨next, moment.closings ++ closings⟩ := by
  rw [Balanced, chronicle_iff] at hbalanced ⊢
  simp only [handed, events, List.flatMap_append] at hbalanced ⊢
  rw [List.append_assoc, hadds, ← List.append_assoc, recorded_append, hbalanced]

/-- So does whatever leaves the journal alone. -/
theorem Balanced.of_entries_eq {moment : Moment} (hbalanced : moment.Balanced) {next : Watcher}
    (hentries : next.journal.entries = moment.watcher.journal.entries) :
    Balanced ⟨next, moment.closings⟩ := by
  unfold Balanced
  rw [hentries]
  exact hbalanced

theorem dispatch_reply {moment : Moment} (htelling : moment.watcher.dispatch = .dispatching)
    (caller : Thread) (command : Command) :
    (moment.reply caller command).watcher.dispatch = .dispatching := by
  unfold reply
  rw [Watcher.run_of_dispatching htelling]
  exact (Watcher.dispatch_quietly moment.watcher caller command).trans htelling

/-- The second phases that a listener begins hand nothing over. -/
theorem closings_of_dispatching {watcher : Watcher} (htelling : watcher.dispatch = .dispatching)
    (caller : Thread) (command : Command) :
    (watcher.closings caller command).flatMap Closing.handed = [] ∧
      (watcher.closings caller command).flatMap Closing.batch = command.closings.flatten := by
  cases command with
  | after batch =>
    simp [Watcher.closings, Command.closings, Closing.handed, Watcher.due_of_dispatching htelling]
  | process batch =>
    simp [Watcher.closings, Command.closings, Closing.handed,
      Watcher.before_of_dispatching htelling, Watcher.due_of_dispatching htelling]
  | _ => exact ⟨rfl, rfl⟩

theorem balanced_reply {moment : Moment} (hbalanced : moment.Balanced)
    (htelling : moment.watcher.dispatch = .dispatching) (caller : Thread) (command : Command) :
    (moment.reply caller command).Balanced := by
  obtain ⟨hhanded, hbatches⟩ := closings_of_dispatching htelling caller command
  unfold reply
  rw [Watcher.run_of_dispatching htelling]
  apply hbalanced.extend
  rw [hhanded, hbatches, List.nil_append]
  exact Watcher.entries_quietly moment.watcher caller command

/-- The induction is on the commands: each meets a notification that is being delivered. -/
theorem balanced_foldl_reply {moment : Moment} (hbalanced : moment.Balanced)
    (htelling : moment.watcher.dispatch = .dispatching) (caller : Thread) (script : List Command) :
    (script.foldl (reply caller) moment).Balanced ∧
      ∀ between ∈ script.scanl (reply caller) moment, between.Balanced := by
  induction script generalizing moment with
  | nil => simpa using hbalanced
  | cons command rest ih =>
    have hnext := balanced_reply hbalanced htelling caller command
    obtain ⟨hlast, hbetween⟩ := ih hnext (dispatch_reply htelling caller command)
    rw [List.foldl_cons, List.scanl_cons]
    refine ⟨hlast, ?_⟩
    intro between hmem
    rcases List.mem_cons.1 hmem with rfl | hmem
    · exact hbalanced
    · exact hbetween between hmem

theorem balanced_delivery {moment : Moment} (hbalanced : moment.Balanced) (caller : Thread)
    (notification : Notification) :
    ∀ between ∈ moment.delivery caller notification, between.Balanced := by
  intro between hmem
  unfold delivery at hmem
  split at hmem
  · rename_i listener _ _
    obtain ⟨hlast, hbetween⟩ :=
      @balanced_foldl_reply ⟨moment.watcher.telling notification, moment.closings⟩
        (hbalanced.of_entries_eq rfl) rfl caller (listener.script notification)
    rcases List.mem_append.1 hmem with hmem | hmem
    · exact hbetween between hmem
    · rw [List.mem_singleton.1 hmem]
      exact hlast.of_entries_eq rfl
  · cases hmem

theorem balanced_opening {moment : Moment} (hbalanced : moment.Balanced) (caller : Thread)
    (batch : Batch) : ∀ between ∈ moment.opening caller batch, between.Balanced := by
  intro between hmem
  unfold opening at hmem
  split at hmem
  · rwa [List.mem_singleton.1 hmem]
  · have hjudged : Balanced ⟨moment.watcher.judged caller batch, moment.closings⟩ :=
      hbalanced.of_entries_eq rfl
    rcases List.mem_cons.1 hmem with rfl | hmem
    · exact hjudged
    · split at hmem
      · cases hmem
      · exact balanced_delivery hjudged caller .beforeChanged between hmem

theorem balanced_closing {moment : Moment} (hbalanced : moment.Balanced) (caller : Thread)
    (batch : Batch) : ∀ between ∈ moment.closing caller batch, between.Balanced := by
  intro between hmem
  unfold closing at hmem
  cases hdispatch : moment.watcher.dispatch with
  | dispatching =>
    rw [hdispatch] at hmem
    rw [List.mem_singleton.1 hmem]
    apply hbalanced.extend
    simp [Closing.handed, Watcher.due_of_dispatching hdispatch, Watcher.entries_record]
  | idle =>
    have hsettled : Balanced ⟨moment.watcher.settled caller batch,
        moment.closings ++ [⟨moment.watcher, caller, batch⟩]⟩ := by
      apply hbalanced.extend
      simpa [Closing.handed] using Watcher.due_append_entries_settled hdispatch caller batch
    rw [hdispatch, if_neg (by simp [Dispatch.isDispatching])] at hmem
    rcases List.mem_cons.1 hmem with rfl | hmem
    · exact hsettled
    · split at hmem
      · cases hmem
      · exact balanced_delivery hsettled caller _ between hmem

theorem balanced_getLastD {moment : Moment} (hbalanced : moment.Balanced) {later : List Moment}
    (hlater : ∀ between ∈ later, between.Balanced) : (later.getLastD moment).Balanced := by
  rcases List.eq_nil_or_concat' later with rfl | ⟨init, last, rfl⟩
  · exact hbalanced
  · rw [List.getLastD_concat]
    exact hlater last (by simp)

theorem balanced_during {moment : Moment} (hbalanced : moment.Balanced) (step : Step) :
    ∀ between ∈ moment.during step, between.Balanced := by
  obtain ⟨caller, command⟩ := step
  cases command with
  | before batch => exact balanced_opening hbalanced caller batch
  | after batch => exact balanced_closing hbalanced caller batch
  | process batch =>
    have hopening := balanced_opening hbalanced caller batch
    intro between hmem
    rcases List.mem_append.1 hmem with hmem | hmem
    · exact hopening between hmem
    · exact balanced_closing (balanced_getLastD hbalanced hopening) caller batch between hmem
  | _ =>
    intro between hmem
    rw [List.mem_singleton.1 hmem]
    exact hbalanced.of_entries_eq (Watcher.entries_of_calm _ caller rfl)

theorem balanced_later {moment : Moment} (hbalanced : moment.Balanced) (steps : List Step) :
    ∀ between ∈ moment.later steps, between.Balanced := by
  induction steps generalizing moment with
  | nil => simp [later]
  | cons step rest ih =>
    have hduring := balanced_during hbalanced step
    intro between hmem
    rcases List.mem_append.1 hmem with hmem | hmem
    · exact hduring between hmem
    · exact ih (balanced_getLastD hbalanced hduring) between hmem

/-! ## What is handed over -/

theorem leads_reply {moment : Moment} (htelling : moment.watcher.dispatch = .dispatching)
    (caller : Thread) (command : Command) : moment.Leads (moment.reply caller command) := by
  have hround : ∀ batch, moment.watcher.project =
      (moment.watcher.project.round moment.watcher.policy
        (Closing.handed ⟨moment.watcher, caller, batch⟩)).1 := by
    intro batch
    rw [Closing.handed, Watcher.due_of_dispatching htelling, Project.round_nil]
  unfold reply
  rw [Watcher.run_of_dispatching htelling]
  cases command with
  | after batch => exact Or.inr ⟨_, rfl, rfl, hround batch⟩
  | process batch =>
    refine Or.inr ⟨⟨moment.watcher, caller, batch⟩, ?_, rfl, hround batch⟩
    simp only [Watcher.closings, Watcher.before_of_dispatching htelling]
  | _ => exact Or.inl (List.append_nil _)

/-- The induction is on the commands: each meets a notification that is being delivered. -/
theorem isChain_replies {moment : Moment} (htelling : moment.watcher.dispatch = .dispatching)
    (caller : Thread) (script : List Command) :
    (script.scanl (reply caller) moment ++
      [(script.foldl (reply caller) moment).returned]).IsChain Leads := by
  induction script generalizing moment with
  | nil => exact List.isChain_pair.2 (Or.inl rfl)
  | cons command rest ih =>
    rw [List.scanl_cons, List.foldl_cons, List.cons_append, List.isChain_cons]
    refine ⟨?_, ih (dispatch_reply htelling caller command)⟩
    intro next hmem
    obtain rfl : moment.reply caller command = next := by simpa using hmem
    exact leads_reply htelling caller command

theorem isChain_delivery (moment : Moment) (caller : Thread) (notification : Notification) :
    (moment :: moment.delivery caller notification).IsChain Leads := by
  unfold delivery
  split
  · rename_i listener _ _
    have hreplies := @isChain_replies ⟨moment.watcher.telling notification, moment.closings⟩ rfl
      caller (listener.script notification)
    refine List.isChain_cons.2 ⟨?_, hreplies⟩
    intro told hmem
    obtain rfl : ⟨moment.watcher.telling notification, moment.closings⟩ = told := by
      simpa using hmem
    exact Or.inl rfl
  · exact .singleton moment

theorem isChain_opening (moment : Moment) (caller : Thread) (batch : Batch) :
    (moment :: moment.opening caller batch).IsChain Leads := by
  unfold opening
  split
  · exact List.isChain_pair.2 (Or.inl rfl)
  · refine List.isChain_cons_cons.2 ⟨Or.inl rfl, ?_⟩
    split
    · exact .singleton _
    · exact isChain_delivery _ caller .beforeChanged

theorem isChain_closing (moment : Moment) (caller : Thread) (batch : Batch) :
    (moment :: moment.closing caller batch).IsChain Leads := by
  unfold closing
  cases hdispatch : moment.watcher.dispatch with
  | dispatching =>
    refine List.isChain_pair.2 (Or.inr ⟨⟨moment.watcher, caller, batch⟩, rfl, rfl, ?_⟩)
    rw [Closing.handed, Watcher.due_of_dispatching hdispatch, Project.round_nil]
    rfl
  | idle =>
    rw [if_neg (by simp [Dispatch.isDispatching])]
    refine List.isChain_cons_cons.2 ⟨?_, ?_⟩
    · exact Or.inr ⟨⟨moment.watcher, caller, batch⟩, rfl, rfl,
        Watcher.project_settled moment.watcher caller batch⟩
    · split
      · exact .singleton _
      · exact isChain_delivery _ caller _

theorem isChain_during (moment : Moment) (step : Step) :
    (moment :: moment.during step).IsChain Leads := by
  obtain ⟨caller, command⟩ := step
  cases command with
  | before batch => exact isChain_opening moment caller batch
  | after batch => exact isChain_closing moment caller batch
  | process batch =>
    exact isChain_cons_append (isChain_opening moment caller batch)
      (isChain_closing _ caller batch)
  | _ => exact List.isChain_pair.2 (Or.inl rfl)

theorem isChain_later (moment : Moment) (steps : List Step) :
    (moment :: moment.later steps).IsChain Leads := by
  induction steps generalizing moment with
  | nil => exact .singleton moment
  | cons step rest ih => exact isChain_cons_append (isChain_during moment step) (ih _)

end Moment

namespace Watcher

theorem chronicle_conserved {watcher : Watcher} (hempty : watcher.journal.entries = [])
    (steps : List Step) :
    (∀ moment ∈ watcher.moments steps,
      Chronicle moment.events (moment.handed ++ moment.watcher.journal.entries)) ∧
    (watcher.moments steps).IsChain Moment.Leads ∧
    (watcher.moments steps).getLast?.map Moment.watcher = some (watcher.perform steps) := by
  have hstart : Moment.Balanced ⟨watcher, []⟩ := by
    simp only [Moment.Balanced, Moment.events, Moment.handed, hempty]
    exact .nil
  refine ⟨?_, Moment.isChain_later ⟨watcher, []⟩ steps, ?_⟩
  · intro moment hmem
    rcases List.mem_cons.1 hmem with rfl | hmem
    · exact hstart
    · exact Moment.balanced_later hstart steps moment hmem
  · have hend := Moment.getLastD_later ⟨watcher, []⟩ steps
    rw [List.getLastD_eq_getLast?] at hend
    rw [moments, List.getLast?_cons, Option.map_some, hend]

/-- The watcher of `sample` with a dependent below the directory that its listener renames. -/
def storing : Watcher :=
  { sample with project := { sample.project with
      dependents := [{ path := "/proj/x/f.txt".toList }] } }

/-- A move of the root, while another listener takes over: both listeners note a rename of their own
while they are told of the move. -/
def sampleSteps : List Step :=
  [⟨1, .before [.move "/proj/a" "/proj/b"]⟩,
   ⟨2, .install [] [.after [.rename "/proj/y" "/proj/z" true]]⟩,
   ⟨1, .after [.move "/proj/a" "/proj/b"]⟩]

/-- What is handed over is carried out at once, and what is noted later waits. -/
theorem chronicle_conserved_sample :
    storing.journal.entries = [] ∧
      (storing.moments sampleSteps).map (fun moment =>
        (moment.handed.length, moment.watcher.journal.entries.length,
          moment.watcher.project.modifications)) =
          [(0, 0, 0), (0, 0, 0), (0, 0, 0), (0, 1, 0), (0, 1, 0), (0, 1, 0), (2, 0, 1), (2, 0, 1),
            (2, 1, 1), (2, 1, 1)] ∧
      (storing.perform sampleSteps).project.dependents.map Dependent.path =
        ["/proj/y/f.txt".toList] ∧
      (∀ moment ∈ storing.moments sampleSteps,
        Chronicle moment.events (moment.handed ++ moment.watcher.journal.entries)) ∧
      (storing.moments sampleSteps).IsChain Moment.Leads ∧
      (storing.moments sampleSteps).getLast?.map Moment.watcher =
        some (storing.perform sampleSteps) :=
  ⟨rfl, by decide +kernel, by decide +kernel, chronicle_conserved rfl sampleSteps⟩

end Watcher

end ProjectRoots
