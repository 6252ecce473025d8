import ProjectRoots.Proofs.Watch.Notified

/- Phases of other threads between the two phases of a batch. A thread that does not have the permit
   is free to begin phases; they find nothing and tell nothing. But there is one place for what a
   first phase leaves behind, and every phase writes it or clears it.

     1. `spent_of_phase` — a phase of a thread without the permit leaves no impact waiting,
        whatever was waiting before.
     2. `spent_perform`, `spent_of_mem` — nor does any run of such phases and of steps that are no
        phases, if it has one phase at least.
     3. `kept_iff_undisturbed` — so the second phase of the thread with the permit keeps what its
        first phase found exactly if that is `none` or no other thread began a phase meanwhile;
        otherwise it answers `none` and nobody is told that roots have changed. -/
namespace ProjectRoots

namespace Watcher

/-- The thread has the permit, and somebody listens. -/
structure Held (holder : Thread) (watcher : Watcher) : Prop where
  permit : watcher.permit.owner = some holder
  wired : watcher.listener ≠ none

/-- Nothing is being told, and no impact is waiting. -/
structure Spent (watcher : Watcher) : Prop where
  dispatch : watcher.dispatch = .idle
  awaited : watcher.awaited = .none

section
variable {holder : Thread} {watcher : Watcher}

theorem found_of_foreign (hheld : watcher.Held holder) {caller : Thread} (hcaller : caller ≠ holder)
    (batch : Batch) : watcher.found caller batch = .none := by
  have hsuppressed : watcher.suppression caller ≠ none := by
    intro hfree
    have howner := (suppression_eq_none_iff.1 hfree).2.1
    rw [hheld.permit] at howner
    exact hcaller (Option.some.inj howner).symm
  exact if_neg hsuppressed

theorem spent_before (hidle : watcher.dispatch = .idle) (hheld : watcher.Held holder)
    {caller : Thread} (hcaller : caller ≠ holder) (batch : Batch) :
    (watcher.before caller batch).1.Spent := by
  have hopen := opens_before hidle caller batch
  refine ⟨hopen.dispatch, ?_⟩
  unfold awaited
  rw [hopen.pending, hopen.impact_eq]
  exact found_of_foreign hheld hcaller batch

theorem spent_after (hidle : watcher.dispatch = .idle)
    (hwired : watcher.awaited ≠ .none → watcher.listener ≠ none) (caller : Thread)
    (batch : Batch) : (watcher.after caller batch).1.Spent := by
  have hclose := closes_after hidle caller batch hwired
  refine ⟨hclose.dispatch, ?_⟩
  unfold awaited
  rw [hclose.pending]

/-- Whatever is waiting, it is gone after a phase of another thread: a first phase writes over it,
and a second phase takes it. -/
theorem spent_of_phase (hidle : watcher.dispatch = .idle) (hheld : watcher.Held holder)
    {step : Step} (hphase : step.command.isPhase = true) (hcaller : step.caller ≠ holder) :
    (watcher.step step).Spent := by
  obtain ⟨caller, command⟩ := step
  cases command with
  | before batch => exact spent_before hidle hheld hcaller batch
  | after batch => exact spent_after hidle (fun _ => hheld.wired) caller batch
  | process batch =>
    -- The first half leaves nothing, so the second half has nobody to tell.
    have hhalf := spent_before hidle hheld hcaller batch
    exact spent_after hhalf.dispatch (fun hsome => absurd hhalf.awaited hsome) caller batch
  | _ => cases hphase

theorem spent_of_calm (hspent : watcher.Spent) {step : Step}
    (hcalm : step.command.isPhase = false) : (watcher.step step).Spent := by
  have hframe := frame_quietly watcher step.caller step.command
  rw [step_of_calm watcher hcalm]
  refine ⟨hframe.dispatch.trans hspent.dispatch, ?_⟩
  have hawaited := hspent.awaited
  unfold awaited at hawaited ⊢
  rw [hframe.pending]
  exact hawaited

theorem idle_step (hidle : watcher.dispatch = .idle) (hheld : watcher.Held holder) {step : Step}
    (hforeign : step.command.isPhase = true → step.caller ≠ holder) :
    (watcher.step step).dispatch = .idle := by
  by_cases hphase : step.command.isPhase = true
  · exact (spent_of_phase hidle hheld hphase (hforeign hphase)).dispatch
  · rw [step_of_calm watcher (by simpa using hphase)]
    exact (frame_quietly watcher step.caller step.command).dispatch.trans hidle

theorem spent_step (hspent : watcher.Spent) (hheld : watcher.Held holder) {step : Step}
    (hforeign : step.command.isPhase = true → step.caller ≠ holder) :
    (watcher.step step).Spent := by
  by_cases hphase : step.command.isPhase = true
  · exact spent_of_phase hspent.dispatch hheld hphase (hforeign hphase)
  · exact spent_of_calm hspent (by simpa using hphase)

/-! ## Runs -/

theorem spent_perform {steps : List Step} (hspent : watcher.Spent)
    (hheld : ∀ state ∈ watcher.trace steps, state.Held holder)
    (hforeign : ∀ step ∈ steps, step.command.isPhase = true → step.caller ≠ holder) :
    (watcher.perform steps).Spent := by
  induction steps generalizing watcher with
  | nil => exact hspent
  | cons step rest ih =>
    have hnext := spent_step hspent (hheld watcher List.mem_cons_self)
      (hforeign step List.mem_cons_self)
    apply ih hnext
    · intro state hstate
      exact hheld state (List.mem_cons_of_mem _ hstate)
    · intro later hlater
      exact hforeign later (List.mem_cons_of_mem _ hlater)

/-- The induction is on the steps up to the first phase; from there on `spent_perform` goes on. -/
theorem spent_of_mem {steps : List Step} (hidle : watcher.dispatch = .idle)
    (hheld : ∀ state ∈ watcher.trace steps, state.Held holder)
    (hforeign : ∀ step ∈ steps, step.command.isPhase = true → step.caller ≠ holder)
    (hphase : ∃ step ∈ steps, step.command.isPhase = true) : (watcher.perform steps).Spent := by
  induction steps generalizing watcher with
  | nil =>
    obtain ⟨_, hmem, _⟩ := hphase
    cases hmem
  | cons step rest ih =>
    have hhere := hheld watcher List.mem_cons_self
    have hlater : ∀ state ∈ (watcher.step step).trace rest, state.Held holder := by
      intro state hstate
      exact hheld state (List.mem_cons_of_mem _ hstate)
    have hrest : ∀ later ∈ rest, later.command.isPhase = true → later.caller ≠ holder := by
      intro later hmem
      exact hforeign later (List.mem_cons_of_mem _ hmem)
    have hstep := hforeign step List.mem_cons_self
    show ((watcher.step step).perform rest).Spent
    by_cases hfirst : step.command.isPhase = true
    · exact spent_perform (spent_of_phase hidle hhere hfirst (hstep hfirst)) hlater hrest
    · apply ih (idle_step hidle hhere hstep) hlater hrest
      obtain ⟨found, hmem, hfound⟩ := hphase
      rcases List.mem_cons.1 hmem with rfl | hmem
      · exact absurd hfound hfirst
      · exact ⟨found, hmem, hfound⟩

theorem held_perform {steps : List Step}
    (hheld : ∀ state ∈ watcher.trace steps, state.Held holder) :
    (watcher.perform steps).Held holder := by
  induction steps generalizing watcher with
  | nil => exact hheld watcher List.mem_cons_self
  | cons step rest ih =>
    apply ih
    intro state hstate
    exact hheld state (List.mem_cons_of_mem _ hstate)

end

end Watcher

namespace Crossing

/-- Both phases are of one thread. Its first phase is judged, it has the permit all the time from
then on, and the phases in between are of other threads. -/
structure Exclusive (crossing : Crossing) (watcher : Watcher) : Prop where
  same : crossing.closer = crossing.opener
  judged : watcher.suppression crossing.opener = none
  held : ∀ state ∈ (crossing.opened watcher).1.trace crossing.meanwhile,
    state.Held crossing.opener
  foreign : ∀ step ∈ crossing.meanwhile, step.command.isPhase = true →
    step.caller ≠ crossing.opener

/-- The first phase found `none`, or no other phase began meanwhile. -/
def Undisturbed (crossing : Crossing) (watcher : Watcher) : Prop :=
  (crossing.opened watcher).2 = .none ∨
    ∀ step ∈ crossing.meanwhile, step.command.isPhase = false

theorem kept_iff_undisturbed {crossing : Crossing} {watcher : Watcher}
    (hexclusive : crossing.Exclusive watcher) :
    (crossing.Kept watcher ↔ crossing.Undisturbed watcher) ∧
      (¬crossing.Undisturbed watcher →
        (crossing.closed watcher).2 = .none ∧
          (crossing.closed watcher).1.log = (crossing.ready watcher).log) := by
  have hidle := (Watcher.suppression_eq_none_iff.1 hexclusive.judged).1
  have hopen := Watcher.opens_before hidle crossing.opener crossing.batch
  have hwired := (Watcher.held_perform hexclusive.held).wired
  by_cases hphase : ∃ step ∈ crossing.meanwhile, step.command.isPhase = true
  · have hspent : (crossing.ready watcher).Spent :=
      Watcher.spent_of_mem hopen.dispatch hexclusive.held hexclusive.foreign hphase
    have hkept : crossing.Kept watcher ↔ (crossing.opened watcher).2 = .none := by
      rw [kept_iff_awaited hspent.dispatch hwired, hspent.awaited, eq_comm]
    have hundisturbed : crossing.Undisturbed watcher ↔ (crossing.opened watcher).2 = .none := by
      refine ⟨?_, Or.inl⟩
      intro h
      rcases h with hnone | hcalm
      · exact hnone
      · obtain ⟨step, hmem, htrue⟩ := hphase
        rw [hcalm step hmem] at htrue
        cases htrue
    refine ⟨hkept.trans hundisturbed.symm, fun _ => ?_⟩
    have hclose := Watcher.closes_after hspent.dispatch crossing.closer crossing.batch
      (fun _ => hwired)
    have hnone : (crossing.closed watcher).2 = .none := hclose.impact_eq.trans hspent.awaited
    have hadds : (crossing.ready watcher).Adds (crossing.closed watcher).1 crossing.closer
        (Watcher.news (crossing.closed watcher).2 (.changed (crossing.closed watcher).2)) :=
      hclose.adds
    rw [hnone] at hadds
    exact ⟨hnone, hadds⟩
  · have hcalm : ∀ step ∈ crossing.meanwhile, step.command.isPhase = false := by
      simpa using hphase
    obtain ⟨hready, hwaiting⟩ := awaited_of_calm hidle hcalm
    have hkept : crossing.Kept watcher := (kept_iff_awaited hready hwired).2 hwaiting
    have hundisturbed : crossing.Undisturbed watcher := Or.inr hcalm
    exact ⟨⟨fun _ => hundisturbed, fun _ => hkept⟩, fun hnot => absurd hundisturbed hnot⟩

/-- The removal of the root of `Watcher.sample`. Meanwhile another thread passes a batch of its own,
which has nothing to do with the root. -/
def contested : Crossing where
  opener := 1
  batch := [.delete "/proj/a"]
  meanwhile := [⟨2, .before [.delete "/proj/b"]⟩, ⟨2, .after [.delete "/proj/b"]⟩]
  closer := 1

theorem contested_exclusive : contested.Exclusive Watcher.sample where
  same := rfl
  judged := by decide +kernel
  held := by
    have hpermit : ∀ state ∈ (contested.opened Watcher.sample).1.trace contested.meanwhile,
        state.permit.owner = some contested.opener := by
      decide +kernel
    have hwired : ∀ state ∈ (contested.opened Watcher.sample).1.trace contested.meanwhile,
        state.listener ≠ none := by
      decide +kernel
    intro state hstate
    exact ⟨hpermit state hstate, hwired state hstate⟩
  foreign := by decide

theorem kept_iff_undisturbed_contested :
    contested.Exclusive Watcher.sample ∧
      (contested.Kept Watcher.sample ↔ contested.Undisturbed Watcher.sample) ∧
      (¬contested.Undisturbed Watcher.sample →
        (contested.closed Watcher.sample).2 = .none ∧
          (contested.closed Watcher.sample).1.log = (contested.ready Watcher.sample).log) :=
  ⟨contested_exclusive, kept_iff_undisturbed contested_exclusive⟩

/-- The report of the removal is lost. -/
theorem not_kept_contested :
    contested.Exclusive Watcher.sample ∧
      (∀ state ∈ (contested.opened Watcher.sample).1.trace contested.meanwhile,
        state.lifecycle = .ready) ∧
      (contested.opened Watcher.sample).2 = .removed ∧
      (contested.closed Watcher.sample).2 = .none ∧
      ¬contested.Kept Watcher.sample := by
  have hopened : (contested.opened Watcher.sample).2 = .removed := by decide +kernel
  have hclosed : (contested.closed Watcher.sample).2 = .none := by decide +kernel
  refine ⟨contested_exclusive, by decide +kernel, hopened, hclosed, ?_⟩
  intro hkept
  have hanswered := hkept.answered
  rw [hopened, hclosed] at hanswered
  cases hanswered

end Crossing

end ProjectRoots
