import ProjectRoots.Proofs.Watch.Run

/- Every batch is announced and reported once. A passage is the way of one batch through a watcher:
   its first phase, whatever the host does meanwhile, its second phase, and whatever the host does
   before the next batch. The host gives any commands but phases, so the project, the permit and
   the lifecycle may change between the two phases, and listeners give any commands whenever they
   are told something, phases included.

   What is proved, for runs of any number of passages in which somebody listens:

     `notified_once` — the first phase answers the impact of the batch on the state that it meets,
     or `none` if the batch is suppressed then; the second phase answers the same impact, whatever
     happened in between; and the log grows by one announcement in the first phase and one report
     in the second if the impact is not `none`, and not at all otherwise. While the listener is
     being told, every phase that it begins answers `none` and tells nothing. -/
namespace ProjectRoots

/-- The way of one batch through a watcher, and the steps behind it. The steps are those of the
host; none is a phase. -/
structure Passage extends Crossing where
  afterwards : List Step
  calm_meanwhile : ∀ step ∈ meanwhile, step.command.isPhase = false
  calm_afterwards : ∀ step ∈ afterwards, step.command.isPhase = false

namespace Passage
variable (passage : Passage) (watcher : Watcher)

/-- The watcher that the next batch meets. -/
def passed : Watcher :=
  (passage.closed watcher).1.perform passage.afterwards

/-- The batch is announced and reported once, with one impact, or not at all. -/
structure Exact : Prop where
  /-- The first phase answers the impact of the batch, unless something suppresses that. -/
  judged : (passage.opened watcher).2 =
    if watcher.suppression passage.opener = none then watcher.classify passage.batch else .none
  /-- The first phase announces that impact, if it is not `none`. -/
  announced : watcher.Adds (passage.opened watcher).1 passage.opener
    (Watcher.news (passage.opened watcher).2 .beforeChanged)
  /-- Nothing is told between the phases. -/
  between : (passage.ready watcher).log = (passage.opened watcher).1.log
  /-- The second phase answers and reports the same impact. -/
  kept : passage.Kept watcher
  /-- Nothing is told before the next batch. -/
  behind : (passage.passed watcher).log = (passage.closed watcher).1.log

variable {passage watcher}

/-- One passage: what the first phase leaves waiting survives all that the host does, so the second
phase finds it. -/
theorem exact_of_idle (hidle : watcher.dispatch = .idle)
    (hwired : (passage.ready watcher).listener ≠ none) :
    passage.Exact watcher ∧ (passage.passed watcher).dispatch = .idle := by
  have hopen := Watcher.opens_before hidle passage.opener passage.batch
  obtain ⟨hready, hwaiting⟩ := Crossing.awaited_of_calm hidle passage.calm_meanwhile
  have hclose := Watcher.closes_after hready passage.closer passage.batch (fun _ => hwired)
  obtain ⟨_, hbetween⟩ :=
    Watcher.frame_perform (passage.opened watcher).1 passage.calm_meanwhile
  obtain ⟨hafterwards, hbehind⟩ :=
    Watcher.frame_perform (passage.closed watcher).1 passage.calm_afterwards
  refine ⟨⟨hopen.impact_eq, hopen.adds, hbetween, ?_, hbehind⟩,
    hafterwards.dispatch.trans hclose.dispatch⟩
  exact (Crossing.kept_iff_awaited hready hwired).2 hwaiting

end Passage

namespace Watcher

/-- The passages of a run, each with the watcher that it meets. -/
def visits (watcher : Watcher) : List Passage → List (Watcher × Passage)
  | [] => []
  | passage :: rest => (watcher, passage) :: (passage.passed watcher).visits rest

theorem notified_once {watcher : Watcher} (hidle : watcher.dispatch = .idle)
    (passages : List Passage)
    (hwired : ∀ visit ∈ watcher.visits passages, (visit.2.ready visit.1).listener ≠ none) :
    ∀ visit ∈ watcher.visits passages, visit.2.Exact visit.1 := by
  -- From one passage to the next it is only needed that nothing is being told.
  induction passages generalizing watcher with
  | nil => simp [visits]
  | cons passage rest ih =>
    obtain ⟨hexact, hnext⟩ := Passage.exact_of_idle hidle
      (hwired (watcher, passage) List.mem_cons_self)
    intro visit hvisit
    rcases List.mem_cons.1 hvisit with rfl | hvisit
    · exact hexact
    · exact ih hnext (fun later hlater => hwired later (List.mem_cons_of_mem _ hlater)) visit hvisit

/-- A watcher of one module, with the permit at the first thread, whose listener begins phases of
its own. -/
def sample : Watcher where
  rules := {}
  project := { workspace := Workspace.ofGraph (Graph.ofList
    [⟨"module:app", .module, "app", [⟨"content_root", "/proj/a", false⟩]⟩]) }
  permit := ⟨some 1⟩
  listener := some
    { onBefore := [.process [.rename "/proj/x" "/proj/y" true]]
      onChanged := [.before [.delete "/proj/a"], .after [.delete "/proj/a"]] }

/-- A batch that removes the root, while the permit is given back and the model goes, and one that
comes when the model is gone. -/
def samplePassages : List Passage :=
  [{ opener := 1
     batch := [.delete "/proj/a"]
     meanwhile := [⟨1, .release 1⟩, ⟨2, .intern "/proj/b"⟩, ⟨2, .dispose⟩]
     closer := 2
     afterwards := [⟨1, .acquire 1⟩]
     calm_meanwhile := by decide
     calm_afterwards := by decide },
   { opener := 1
     batch := [.copy "/tmp/a" "/proj/a"]
     meanwhile := []
     closer := 1
     afterwards := []
     calm_meanwhile := by decide
     calm_afterwards := by decide }]

theorem notified_once_sample :
    (sample.visits samplePassages).map (fun visit => (visit.2.opened visit.1).2) =
        [.removed, .none] ∧
      sample.dispatch = .idle ∧
      (∀ visit ∈ sample.visits samplePassages, (visit.2.ready visit.1).listener ≠ none) ∧
      ∀ visit ∈ sample.visits samplePassages, visit.2.Exact visit.1 := by
  have hwired : ∀ visit ∈ sample.visits samplePassages,
      (visit.2.ready visit.1).listener ≠ none := by
    decide +kernel
  exact ⟨by decide +kernel, rfl, hwired, notified_once rfl samplePassages hwired⟩

end Watcher

end ProjectRoots
