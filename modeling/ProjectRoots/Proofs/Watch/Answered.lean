import ProjectRoots.Proofs.Watch.Growth

/- Every report answers an announcement. Nobody has to pair the two phases of a batch: they may come
   in any order and number, and listeners come and go meanwhile. What is told is in order all the
   same. A log is read entry by entry, and what has to be known of the entries read so far is their
   stage: whether a notification is being delivered, and whether a change was announced since the
   last report.

     1. `Stage.answered_of_reads` — in a log that can be read to its end every report names an
        impact and answers an announcement of its own, and notifications do not overlap
        (`Answered`).
     2. `inOrder_before`, `inOrder_after`, `inOrder_perform` — what a phase tells can be read on, if
        a change was announced since the last report whenever an impact is waiting. That is the
        invariant, and it holds again behind the phase.
     3. `answered_moments` — so the log of a new watcher is in order at all moments of a run, also
        while a listener is being told something, whatever the steps of the run are. -/
namespace ProjectRoots

/-! ## Logs -/

namespace LogEntry

/-- A listener is told that roots are about to change. -/
def announces : LogEntry → Bool
  | notified .beforeChanged => true
  | _ => false

/-- A listener is told that roots have changed. -/
def reports : LogEntry → Bool
  | notified (.changed _) => true
  | _ => false

/-- A notification begins. -/
def opens : LogEntry → Bool
  | notified _ => true
  | _ => false

/-- A notification ends. -/
def closes : LogEntry → Bool
  | returned => true
  | _ => false

end LogEntry

/-- What is told is in order. -/
structure Answered (log : List LogEntry) : Prop where
  /-- Every report names an impact. -/
  named : ∀ impact, .notified (.changed impact) ∈ log → impact ≠ .none
  /-- There are never more reports than announcements. -/
  enough : ∀ first, first <+: log →
    first.countP LogEntry.reports ≤ first.countP LogEntry.announces
  /-- Between two reports there is an announcement. -/
  between : ∀ (first middle last : List LogEntry) (earlier later : Impact),
    log = first ++ .notified (.changed earlier) :: (middle ++ .notified (.changed later) :: last) →
    .notified .beforeChanged ∈ middle
  /-- At most one notification is being delivered at a time. -/
  single : ∀ first, first <+: log →
    first.countP LogEntry.closes ≤ first.countP LogEntry.opens ∧
      first.countP LogEntry.opens ≤ first.countP LogEntry.closes + 1

/-- What the entries read so far come to. -/
structure Stage where
  /-- A notification is being delivered. -/
  telling : Bool := false
  /-- A change was announced since the last report. -/
  announced : Bool := false

namespace Stage

/-- The entries that may come next. -/
inductive Next : Stage → LogEntry → Stage → Prop
  | announce (announced : Bool) :
    Next ⟨false, announced⟩ (.notified .beforeChanged) ⟨true, true⟩
  | report {impact : Impact} (hsome : impact ≠ .none) :
    Next ⟨false, true⟩ (.notified (.changed impact)) ⟨true, false⟩
  | nested (announced : Bool) (answer : Answer) :
    Next ⟨true, announced⟩ (.nested answer) ⟨true, announced⟩
  | returned (announced : Bool) : Next ⟨true, announced⟩ .returned ⟨false, announced⟩

/-- The entries may come one after another. -/
inductive Reads : Stage → List LogEntry → Stage → Prop
  | nil (stage : Stage) : Reads stage [] stage
  | cons {stage middle last : Stage} {entry : LogEntry} {rest : List LogEntry}
    (hnext : Next stage entry middle) (hrest : Reads middle rest last) :
    Reads stage (entry :: rest) last

theorem reads_append_iff {stage last : Stage} {first second : List LogEntry} :
    Reads stage (first ++ second) last ↔
      ∃ middle, Reads stage first middle ∧ Reads middle second last := by
  induction first generalizing stage with
  | nil =>
    constructor
    · intro hreads
      exact ⟨stage, .nil stage, hreads⟩
    · rintro ⟨middle, ⟨⟩, hreads⟩
      exact hreads
  | cons entry rest ih =>
    constructor
    · rintro (_ | ⟨hnext, hrest⟩)
      obtain ⟨middle, hfirst, hsecond⟩ := ih.1 hrest
      exact ⟨middle, .cons hnext hfirst, hsecond⟩
    · rintro ⟨middle, _ | ⟨hnext, hrest⟩, hsecond⟩
      exact .cons hnext (ih.2 ⟨middle, hrest, hsecond⟩)

theorem exists_reads_of_isPrefix {stage last : Stage} {first log : List LogEntry}
    (hfront : first <+: log) (hreads : Reads stage log last) :
    ∃ middle, Reads stage first middle := by
  obtain ⟨rest, rfl⟩ := hfront
  obtain ⟨middle, hfirst, _⟩ := reads_append_iff.1 hreads
  exact ⟨middle, hfirst⟩

/-! ## What can be read is in order -/

theorem named_of_reads {stage last : Stage} {log : List LogEntry} (hreads : Reads stage log last)
    {impact : Impact} (hmem : .notified (.changed impact) ∈ log) : impact ≠ .none := by
  induction hreads with
  | nil => cases hmem
  | cons hnext _ ih =>
    rcases List.mem_cons.1 hmem with rfl | hmem
    · cases hnext with
      | report hsome => exact hsome
    · exact ih hmem

/-- Notifications that are open at the beginning, and those that begin, end or are open at the
end. -/
theorem countP_closes {stage last : Stage} {log : List LogEntry} (hreads : Reads stage log last) :
    log.countP LogEntry.closes + last.telling.toNat =
      log.countP LogEntry.opens + stage.telling.toNat := by
  induction hreads with
  | nil => rfl
  | cons hnext _ ih =>
    cases hnext <;> simp [List.countP_cons, LogEntry.closes, LogEntry.opens] at ih ⊢ <;> omega

/-- Announcements that are not answered at the beginning, and those that are made, answer all
reports, and one is left if the end says so. -/
theorem countP_reports {stage last : Stage} {log : List LogEntry} (hreads : Reads stage log last) :
    log.countP LogEntry.reports + last.announced.toNat ≤
      log.countP LogEntry.announces + stage.announced.toNat := by
  induction hreads with
  | nil => exact Nat.le_refl _
  | cons hnext _ ih =>
    cases hnext <;> simp [List.countP_cons, LogEntry.reports, LogEntry.announces] at ih ⊢ <;> omega

/-- Only an announcement makes up for a report. -/
theorem announced_of_reads {stage last : Stage} {log : List LogEntry}
    (hreads : Reads stage log last) (hlast : last.announced = true) :
    stage.announced = true ∨ .notified .beforeChanged ∈ log := by
  induction hreads with
  | nil => exact Or.inl hlast
  | cons hnext _ ih =>
    have hrest := ih hlast
    cases hnext with
    | announce announced => exact Or.inr List.mem_cons_self
    | report hsome => exact Or.inl rfl
    | nested announced answer => exact hrest.imp_right (List.mem_cons_of_mem _)
    | returned announced => exact hrest.imp_right (List.mem_cons_of_mem _)

theorem between_of_reads {stage last : Stage} {first middle rest : List LogEntry}
    {earlier later : Impact}
    (hreads : Reads stage
      (first ++ .notified (.changed earlier) :: (middle ++ .notified (.changed later) :: rest))
      last) :
    .notified .beforeChanged ∈ middle := by
  obtain ⟨_, _, hreads⟩ := reads_append_iff.1 hreads
  obtain _ | ⟨hearlier, hreads⟩ := hreads
  obtain ⟨_, hmiddle, hreads⟩ := reads_append_iff.1 hreads
  obtain _ | ⟨hlater, _⟩ := hreads
  -- Behind the earlier report no change is announced, and before the later one some change is.
  cases hearlier with
  | report =>
    cases hlater with
    | report => simpa using announced_of_reads hmiddle rfl

theorem answered_of_reads {last : Stage} {log : List LogEntry} (hreads : Reads {} log last) :
    Answered log where
  named impact hmem := named_of_reads hreads hmem
  enough first hfront := by
    obtain ⟨stage, hfirst⟩ := exists_reads_of_isPrefix hfront hreads
    have hcount := countP_reports hfirst
    exact Nat.le_trans (Nat.le_add_right _ _) hcount
  between first middle rest earlier later hlog := by
    rw [hlog] at hreads
    exact between_of_reads hreads
  single first hfront := by
    obtain ⟨stage, hfirst⟩ := exists_reads_of_isPrefix hfront hreads
    have hcount : first.countP LogEntry.closes + stage.telling.toNat =
        first.countP LogEntry.opens := countP_closes hfirst
    have hle := stage.telling.toNat_le
    omega

/-- A delivery can be read if the notification can. -/
theorem reads_delivery {stage : Stage} {notification : Notification} {announced : Bool}
    (hnext : Next stage (.notified notification) ⟨true, announced⟩) (answers : List Answer) :
    Reads stage (.notified notification :: (answers.map .nested ++ [.returned]))
      ⟨false, announced⟩ := by
  refine .cons hnext ?_
  induction answers with
  | nil => exact .cons (.returned announced) (.nil _)
  | cons answer rest ih => exact .cons (.nested announced answer) ih

end Stage

namespace Watcher

/-! ## Steps -/

/-- Nothing is being told and the log is in order, and if an impact is waiting, a change was
announced since the last report. -/
structure InOrder (watcher : Watcher) : Prop where
  idle : watcher.dispatch = .idle
  reads : ∃ announced, Stage.Reads {} watcher.log ⟨false, announced⟩ ∧
    (watcher.awaited ≠ .none → announced = true)

/-- What is told is read on. -/
theorem Told.reads {watcher next : Watcher} {caller : Thread} {notification : Notification}
    {stage : Stage} {announced : Bool} (htold : watcher.Told next caller notification)
    (hreads : Stage.Reads {} watcher.log stage)
    (hnext : stage.Next (.notified notification) ⟨true, announced⟩) :
    Stage.Reads {} next.log ⟨false, announced⟩ := by
  obtain ⟨_, answers, _, _, _, hlog⟩ := htold
  rw [hlog]
  exact Stage.reads_append_iff.2 ⟨stage, hreads, Stage.reads_delivery hnext answers⟩

section
variable {watcher : Watcher} (horder : watcher.InOrder)
include horder

theorem inOrder_before (caller : Thread) (batch : Batch) :
    (watcher.before caller batch).1.InOrder := by
  have hopens := opens_before horder.idle caller batch
  obtain ⟨announced, hreads, _⟩ := horder.reads
  have hadds := hopens.adds
  have hawaited : (watcher.before caller batch).1.awaited = (watcher.before caller batch).2 := by
    unfold awaited
    rw [hopens.pending]
  refine ⟨hopens.dispatch, ?_⟩
  rw [hawaited]
  by_cases hnone : (watcher.before caller batch).2 = .none
  · simp only [news, if_pos hnone, Adds] at hadds
    rw [hadds]
    exact ⟨announced, hreads, fun hsome => absurd hnone hsome⟩
  · simp only [news, if_neg hnone, Adds] at hadds
    obtain ⟨start, _, hlog, htold⟩ := hadds
    exact ⟨true, htold.reads (hlog ▸ hreads) (.announce announced), fun _ => rfl⟩

/-- If there is nobody to be told of an impact that is waiting, the announcement goes without
answer. -/
theorem inOrder_after (caller : Thread) (batch : Batch) :
    (watcher.after caller batch).1.InOrder := by
  obtain ⟨announced, hreads, hwaiting⟩ := horder.reads
  by_cases hwired : watcher.awaited ≠ .none → watcher.listener ≠ none
  · have hcloses := closes_after horder.idle caller batch hwired
    have hadds := hcloses.adds
    have hawaited : (watcher.after caller batch).1.awaited = .none := by
      unfold awaited
      rw [hcloses.pending]
    refine ⟨hcloses.dispatch, ?_⟩
    rw [hawaited]
    by_cases hnone : (watcher.after caller batch).2 = .none
    · simp only [news, if_pos hnone, Adds] at hadds
      rw [hadds]
      exact ⟨announced, hreads, fun hsome => absurd rfl hsome⟩
    · simp only [news, if_neg hnone, Adds] at hadds
      obtain ⟨start, _, hlog, htold⟩ := hadds
      obtain rfl : announced = true := hwaiting (hcloses.impact_eq ▸ hnone)
      exact ⟨false, htold.reads (hlog ▸ hreads) (.report hnone), fun hsome => absurd rfl hsome⟩
  · -- Nobody is left to be told, and what was waiting is dropped.
    obtain ⟨hsome, hunwired⟩ := Classical.not_imp.1 hwired
    have hnobody : (watcher.settled caller batch).listener = none := by
      rw [settled_listener]
      exact Classical.not_not.1 hunwired
    have hafter : (watcher.after caller batch).1 = watcher.settled caller batch := by
      rw [after_of_idle horder.idle, if_neg hsome]
      simp only [deliver, hnobody]
    rw [hafter]
    refine ⟨by simpa using horder.idle, announced, by simpa using hreads, ?_⟩
    simp [awaited]

theorem inOrder_step (step : Step) : (watcher.step step).InOrder := by
  obtain ⟨caller, command⟩ := step
  by_cases hcalm : command.isPhase = false
  · have hframe := frame_quietly watcher caller command
    rw [step_of_calm watcher hcalm]
    refine ⟨hframe.dispatch.trans horder.idle, ?_⟩
    unfold awaited
    rw [log_quietly, hframe.pending]
    exact horder.reads
  · cases command with
    | before batch => exact inOrder_before horder caller batch
    | after batch => exact inOrder_after horder caller batch
    | process batch => exact inOrder_after (inOrder_before horder caller batch) caller batch
    | _ => exact absurd rfl hcalm

theorem inOrder_perform (steps : List Step) : (watcher.perform steps).InOrder := by
  induction steps generalizing watcher with
  | nil => exact horder
  | cons step rest ih => exact ih (inOrder_step horder step)

end

/-! ## Runs -/

/-- Nothing has happened yet. -/
structure Fresh (watcher : Watcher) : Prop where
  idle : watcher.dispatch = .idle
  pending : watcher.pending = none
  log : watcher.log = []

theorem Fresh.inOrder {watcher : Watcher} (hfresh : watcher.Fresh) : watcher.InOrder := by
  refine ⟨hfresh.idle, false, ?_, ?_⟩
  · rw [hfresh.log]
    exact .nil {}
  · intro hsome
    refine absurd ?_ hsome
    unfold awaited
    rw [hfresh.pending]

theorem answered_moments {watcher : Watcher} (hfresh : watcher.Fresh) (steps : List Step) :
    (∀ moment ∈ watcher.moments steps, Answered moment.watcher.log) ∧
      Answered (watcher.perform steps).log := by
  obtain ⟨_, hreads, _⟩ := (inOrder_perform hfresh.inOrder steps).reads
  refine ⟨?_, Stage.answered_of_reads hreads⟩
  intro moment hmem
  have hfront := watcher.isPrefix_of_mem_moments steps moment hmem
  obtain ⟨_, hfirst⟩ := Stage.exists_reads_of_isPrefix hfront hreads
  exact Stage.answered_of_reads hfirst

/-- Phases of `sample` that are not paired. The second announcement takes the place of the first
one, of the two second phases behind it only one reports, and the listener that hears the third goes
away meanwhile. -/
def unpairedSteps : List Step :=
  [⟨1, .after [.delete "/proj/a"]⟩,
   ⟨1, .before [.delete "/proj/a"]⟩,
   ⟨1, .before [.move "/proj/a" "/proj/b"]⟩,
   ⟨1, .after []⟩,
   ⟨1, .install [.uninstall] [.process [.delete "/proj/a"]]⟩,
   ⟨1, .after [.delete "/proj/a"]⟩,
   ⟨1, .before [.copy "/proj/b" "/proj/a"]⟩,
   ⟨1, .after [.copy "/proj/b" "/proj/a"]⟩]

theorem answered_moments_unpaired :
    sample.Fresh ∧
      (sample.perform unpairedSteps).log.countP LogEntry.announces = 3 ∧
      (sample.perform unpairedSteps).log.countP LogEntry.reports = 1 ∧
      (∀ moment ∈ sample.moments unpairedSteps, Answered moment.watcher.log) ∧
      Answered (sample.perform unpairedSteps).log := by
  have hfresh : sample.Fresh := ⟨rfl, rfl, rfl⟩
  exact ⟨hfresh, by decide +kernel, by decide +kernel, answered_moments hfresh unpairedSteps⟩

end Watcher

end ProjectRoots
