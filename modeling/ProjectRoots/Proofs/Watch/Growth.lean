import Mathlib.Data.List.Infix
import ProjectRoots.Proofs.Watch.Conservation

/- The log of a watcher only grows. Whatever a step does, it adds to the end of the log
   (`isPrefix_step`), and so does everything that happens while a listener is being told something:
   the log at any moment of a run is a beginning of the log at the end (`isPrefix_of_mem_moments`).
   What holds of all beginnings of a log can therefore be proved of the log that is there when all
   steps are done. -/
namespace ProjectRoots

theorem Dispatch.eq_idle {dispatch : Dispatch} (hquiet : ¬dispatch.isDispatching = true) :
    dispatch = .idle := by
  cases dispatch with
  | idle => rfl
  | dispatching => exact absurd rfl hquiet

namespace Watcher

theorem isPrefix_deliver {watcher : Watcher} (hidle : watcher.dispatch = .idle) (caller : Thread)
    (notification : Notification) :
    watcher.log <+: (watcher.deliver caller notification).log := by
  by_cases hwired : watcher.listener = none
  · simp only [deliver, hwired]
    exact List.prefix_refl _
  · obtain ⟨_, _, _, _, _, hlog⟩ := told_deliver watcher caller hidle hwired notification
    rw [hlog]
    exact List.prefix_append _ _

theorem isPrefix_before (watcher : Watcher) (caller : Thread) (batch : Batch) :
    watcher.log <+: (watcher.before caller batch).1.log := by
  cases hdispatch : watcher.dispatch with
  | dispatching =>
    rw [before_of_dispatching hdispatch]
  | idle =>
    rw [before_of_idle hdispatch]
    split
    · exact List.prefix_refl _
    · exact @isPrefix_deliver (watcher.judged caller batch) hdispatch caller .beforeChanged

theorem isPrefix_after (watcher : Watcher) (caller : Thread) (batch : Batch) :
    watcher.log <+: (watcher.after caller batch).1.log := by
  cases hdispatch : watcher.dispatch with
  | dispatching =>
    rw [after_of_dispatching hdispatch]
    exact List.prefix_refl _
  | idle =>
    have hsettled : (watcher.settled caller batch).dispatch = .idle := by simpa using hdispatch
    have hdeliver := isPrefix_deliver hsettled caller (.changed watcher.awaited)
    rw [settled_log] at hdeliver
    rw [after_of_idle hdispatch]
    split
    · simp
    · exact hdeliver

theorem isPrefix_step (watcher : Watcher) (step : Step) :
    watcher.log <+: (watcher.step step).log := by
  obtain ⟨caller, command⟩ := step
  by_cases hcalm : command.isPhase = false
  · rw [step_of_calm watcher hcalm, log_quietly]
  · cases command with
    | before batch => exact watcher.isPrefix_before caller batch
    | after batch => exact watcher.isPrefix_after caller batch
    | process batch =>
      exact (watcher.isPrefix_before caller batch).trans (isPrefix_after _ caller batch)
    | _ => exact absurd rfl hcalm

theorem isPrefix_perform (watcher : Watcher) (steps : List Step) :
    watcher.log <+: (watcher.perform steps).log := by
  apply relates_perform (fun watcher next => watcher.log <+: next.log)
  · exact fun _ => List.prefix_refl _
  · exact List.IsPrefix.trans
  · exact fun step _ watcher => watcher.isPrefix_step step

end Watcher

namespace Moment

theorem isPrefix_reply {moment : Moment} (htelling : moment.watcher.dispatch = .dispatching)
    (caller : Thread) (command : Command) :
    moment.watcher.log <+: (moment.reply caller command).watcher.log ∧
      (moment.reply caller command).watcher.dispatch = .dispatching := by
  unfold reply
  rw [Watcher.run_of_dispatching htelling]
  refine ⟨?_, (Watcher.dispatch_quietly moment.watcher caller command).trans htelling⟩
  simp only [Watcher.log_quietly]
  exact List.prefix_append _ _

/-- The induction is on the commands of the listener. -/
theorem isPrefix_foldl_reply {moment : Moment} (htelling : moment.watcher.dispatch = .dispatching)
    (caller : Thread) (script : List Command) :
    moment.watcher.log <+: (script.foldl (reply caller) moment).watcher.log ∧
      ∀ between ∈ script.scanl (reply caller) moment,
        between.watcher.log <+: (script.foldl (reply caller) moment).watcher.log := by
  induction script generalizing moment with
  | nil => simp
  | cons command rest ih =>
    obtain ⟨hreply, hstill⟩ := isPrefix_reply htelling caller command
    obtain ⟨hrest, hbetween⟩ := ih hstill
    rw [List.foldl_cons, List.scanl_cons]
    refine ⟨hreply.trans hrest, ?_⟩
    intro between hmem
    rcases List.mem_cons.1 hmem with rfl | hmem
    · exact hreply.trans hrest
    · exact hbetween between hmem

theorem isPrefix_delivery {moment : Moment} (hidle : moment.watcher.dispatch = .idle)
    (caller : Thread) (notification : Notification) :
    ∀ between ∈ moment.delivery caller notification,
      between.watcher.log <+: (moment.watcher.deliver caller notification).log := by
  intro between hmem
  rw [← getLastD_delivery hidle caller notification]
  unfold delivery at hmem ⊢
  split at hmem
  · rename_i listener _ _
    obtain ⟨_, hbetween⟩ :=
      @isPrefix_foldl_reply ⟨moment.watcher.telling notification, moment.closings⟩ rfl caller
        (listener.script notification)
    rw [List.getLastD_concat]
    rcases List.mem_append.1 hmem with hmem | hmem
    · exact (hbetween between hmem).trans (List.prefix_append _ _)
    · rw [List.mem_singleton.1 hmem]
  · cases hmem

theorem isPrefix_opening (moment : Moment) (caller : Thread) (batch : Batch) :
    ∀ between ∈ moment.opening caller batch,
      between.watcher.log <+: (moment.watcher.before caller batch).1.log := by
  intro between hmem
  have hbefore := moment.watcher.isPrefix_before caller batch
  unfold opening at hmem
  split at hmem
  · rwa [List.mem_singleton.1 hmem]
  · rename_i hquiet
    have hidle := Dispatch.eq_idle hquiet
    rcases List.mem_cons.1 hmem with rfl | hmem
    · exact hbefore
    · rw [Watcher.before_of_idle hidle]
      split at hmem
      · cases hmem
      · rename_i hsome
        rw [if_neg hsome]
        exact @isPrefix_delivery ⟨moment.watcher.judged caller batch, moment.closings⟩ hidle caller
          .beforeChanged between hmem

theorem isPrefix_closing (moment : Moment) (caller : Thread) (batch : Batch) :
    ∀ between ∈ moment.closing caller batch,
      between.watcher.log <+: (moment.watcher.after caller batch).1.log := by
  intro between hmem
  have hafter := moment.watcher.isPrefix_after caller batch
  unfold closing at hmem
  split at hmem
  · rwa [List.mem_singleton.1 hmem]
  · rename_i hquiet
    have hidle := Dispatch.eq_idle hquiet
    rcases List.mem_cons.1 hmem with rfl | hmem
    · rwa [Watcher.settled_log]
    · rw [Watcher.after_of_idle hidle]
      split at hmem
      · cases hmem
      · rename_i hsome
        have hsettled : (moment.watcher.settled caller batch).dispatch = .idle := by
          simpa using hidle
        rw [if_neg hsome]
        exact isPrefix_delivery hsettled caller (.changed moment.watcher.awaited) between hmem

theorem isPrefix_during (moment : Moment) (step : Step) :
    ∀ between ∈ moment.during step, between.watcher.log <+: (moment.watcher.step step).log := by
  intro between hmem
  obtain ⟨caller, command⟩ := step
  cases command with
  | before batch => exact isPrefix_opening moment caller batch between hmem
  | after batch => exact isPrefix_closing moment caller batch between hmem
  | process batch =>
    have hafter := isPrefix_closing ((moment.opening caller batch).getLastD moment) caller batch
    rw [getLastD_opening] at hafter
    rcases List.mem_append.1 hmem with hmem | hmem
    · apply (isPrefix_opening moment caller batch between hmem).trans
      exact Watcher.isPrefix_after _ caller batch
    · exact hafter between hmem
  | _ =>
    rw [List.mem_singleton.1 hmem]
    exact List.prefix_refl _

theorem isPrefix_later (moment : Moment) (steps : List Step) :
    ∀ between ∈ moment.later steps,
      between.watcher.log <+: (moment.watcher.perform steps).log := by
  induction steps generalizing moment with
  | nil => simp [later]
  | cons step rest ih =>
    have hrest := ih ((moment.during step).getLastD moment)
    rw [getLastD_during] at hrest
    intro between hmem
    rcases List.mem_append.1 hmem with hmem | hmem
    · exact (isPrefix_during moment step between hmem).trans (Watcher.isPrefix_perform _ rest)
    · exact hrest between hmem

end Moment

theorem Watcher.isPrefix_of_mem_moments (watcher : Watcher) (steps : List Step) :
    ∀ moment ∈ watcher.moments steps, moment.watcher.log <+: (watcher.perform steps).log := by
  intro moment hmem
  rcases List.mem_cons.1 hmem with rfl | hmem
  · exact watcher.isPrefix_perform steps
  · exact Moment.isPrefix_later ⟨watcher, []⟩ steps moment hmem

end ProjectRoots
