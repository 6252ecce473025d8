import ProjectRoots.Proofs.Watch.Suppressed
import ProjectRoots.Watch.Pump

/- Batches out of a queue. The pump is a host that has nothing but batches: for each of them it asks
   for the permit, begins both phases, and lets the permit go if it has got it. It passes over a
   batch that is empty.

     1. `pump_eq_foldl` — the pump is this protocol (`turn`) on the batches that are not empty, one
        turn after another.
     2. `permit_turn` — behind a turn the permit is whose it was before, unless it belonged to the
        pump's own thread already and a listener gives it back.
     3. `turn_of_busy`, `foldl_of_busy` — while another thread has the permit, the batches are noted
        and that is all.
     4. `heard_turn`, `heard_of_free` — a batch that meets a free permit is judged and told, and
        leaves nothing waiting, whatever waited before.
     5. `pump_sequential` — all this for a queue. `not_pump_sequential` — a listener may give the
        permit back meanwhile, or dispose of the model. -/
namespace ProjectRoots

/-- Whether the command gives back a permit of this thread. -/
def Command.releases (owner : Thread) : Command → Bool
  | .release thread => thread == owner
  | _ => false

namespace Watcher

/-- The steps of a host that has nothing but a batch. -/
def handling (caller : Thread) (batch : Batch) : List Step :=
  [⟨caller, .acquire caller⟩, ⟨caller, .before batch⟩, ⟨caller, .after batch⟩]

/-- The watcher behind the turn of a batch. A permit that was free is let go. -/
def turn (caller : Thread) (watcher : Watcher) (batch : Batch) : Watcher :=
  let passed := watcher.perform (handling caller batch)
  if watcher.permit.owner = none then { passed with permit := {} } else passed

/-- Batches with the watchers that they meet, one turn after another. -/
def turns (caller : Thread) (watcher : Watcher) : List Batch → List (Watcher × Batch)
  | [] => []
  | batch :: rest => (watcher, batch) :: turns caller (watcher.turn caller batch) rest

/-- The watcher that the first phase of a turn meets. -/
def taken (caller : Thread) (watcher : Watcher) : Watcher :=
  { watcher with permit := (watcher.permit.acquire caller).1 }

/-- The watcher that the second phase of a turn meets. -/
def opened (caller : Thread) (watcher : Watcher) (batch : Batch) : Watcher :=
  ((watcher.taken caller).before caller batch).1

/-! ## The protocol -/

section
variable (watcher : Watcher) (caller : Thread)

theorem perform_handling (batch : Batch) :
    watcher.perform (handling caller batch) =
      ((opened caller watcher batch).after caller batch).1 :=
  rfl

theorem pumpOne_eq_turn (batch : Batch) :
    watcher.pumpOne caller batch = watcher.turn caller batch := by
  unfold pumpOne turn
  rw [perform_handling, opened, taken, Permit.acquire]
  cases watcher.permit.owner with
  | none => rfl
  | some owner => rfl

theorem pump_eq_foldl (queue : List Batch) :
    (watcher.pump caller queue).1 = (queue.filter (· ≠ [])).foldl (turn caller) watcher := by
  fun_induction pump watcher caller queue with
  | case1 watcher => rfl
  | case2 watcher rest ih => simpa using ih
  | case3 watcher batch rest hne pumped count hpump ih =>
    have hkept : (batch :: rest).filter (· ≠ []) = batch :: rest.filter (· ≠ []) :=
      List.filter_cons_of_pos (by simpa using hne)
    rw [hkept, List.foldl_cons, ← pumpOne_eq_turn, ← ih, hpump]

end

/-! ## The permit -/

section
variable {watcher : Watcher} {caller owner : Thread}

theorem taken_of_owned (howner : watcher.permit.owner = some owner) :
    watcher.taken caller = watcher := by
  unfold taken Permit.acquire
  rw [howner]

theorem taken_of_free (hfree : watcher.permit.owner = none) :
    watcher.taken caller = { watcher with permit := ⟨some caller⟩ } := by
  unfold taken Permit.acquire
  rw [hfree]

/-- A permit that somebody has stays with them until they give it back. -/
theorem permit_quietly (howner : watcher.permit.owner = some owner) {command : Command}
    (hkeeps : command.releases owner = false) :
    (watcher.quietly caller command).1.permit = watcher.permit := by
  cases command with
  | release thread =>
    have hother : watcher.permit.owner ≠ some thread := by
      rw [howner]
      intro hsame
      exact beq_eq_false_iff_ne.1 hkeeps (Option.some.inj hsame).symm
    simp only [quietly, Permit.release, if_neg hother]
  | acquire thread => exact congrArg Watcher.permit (taken_of_owned howner)
  | commit base changes =>
    simp only [quietly]
    split <;> rfl
  | intern raw =>
    simp only [quietly]
    split <;> rfl
  | _ => rfl

theorem permit_deliver (howner : watcher.permit.owner = some owner) {notification : Notification}
    (hkeeps : ∀ listener ∈ watcher.listener, ∀ command ∈ listener.script notification,
      command.releases owner = false) :
    (watcher.deliver caller notification).permit = watcher.permit := by
  apply relates_deliver watcher caller (fun watcher next =>
    watcher.permit.owner = some owner → next.permit = watcher.permit) (fun _ _ => rfl) _
    (fun _ _ _ _ => rfl) _ howner
  · intro a b c hab hbc hfirst
    rw [hbc ((congrArg Permit.owner (hab hfirst)).trans hfirst), hab hfirst]
  · intro listener hlistener command hmem watcher hstill
    exact permit_quietly hstill (hkeeps listener hlistener command hmem)

theorem permit_before (howner : watcher.permit.owner = some owner)
    {batch : Batch} (hkeeps : (watcher.before caller batch).2 ≠ .none →
      ∀ listener ∈ watcher.listener, ∀ command ∈ listener.onBefore,
        command.releases owner = false) :
    (watcher.before caller batch).1.permit = watcher.permit := by
  cases hdispatch : watcher.dispatch with
  | dispatching => rw [before_of_dispatching hdispatch]
  | idle =>
    rw [before_of_idle hdispatch] at hkeeps ⊢
    split
    · rfl
    · rename_i htold
      exact @permit_deliver (watcher.judged caller batch) caller owner howner .beforeChanged
        (hkeeps htold)

theorem permit_after (howner : watcher.permit.owner = some owner)
    {batch : Batch} (hkeeps : (watcher.after caller batch).2 ≠ .none →
      ∀ listener ∈ watcher.listener, ∀ command ∈ listener.onChanged,
        command.releases owner = false) :
    (watcher.after caller batch).1.permit = watcher.permit := by
  cases hdispatch : watcher.dispatch with
  | dispatching =>
    rw [after_of_dispatching hdispatch]
    rfl
  | idle =>
    obtain ⟨project, journal, hsettled⟩ := settled_eq watcher caller batch
    have hpermit : (watcher.settled caller batch).permit = watcher.permit := by rw [hsettled]
    rw [after_of_idle hdispatch] at hkeeps ⊢
    split
    · exact hpermit
    · rename_i htold
      rw [← hpermit]
      apply permit_deliver (hpermit ▸ howner)
      rw [settled_listener]
      exact hkeeps htold

end

/-- Nobody who is told in the course of the turn gives back a permit of the pump's thread. -/
structure Keeps (caller : Thread) (watcher : Watcher) (batch : Batch) : Prop where
  before : ((watcher.taken caller).before caller batch).2 ≠ .none →
    ∀ listener ∈ watcher.listener, ∀ command ∈ listener.onBefore, command.releases caller = false
  after : ((opened caller watcher batch).after caller batch).2 ≠ .none →
    ∀ listener ∈ (opened caller watcher batch).listener, ∀ command ∈ listener.onChanged,
      command.releases caller = false

instance (caller : Thread) (watcher : Watcher) (batch : Batch) :
    Decidable (watcher.Keeps caller batch) :=
  decidable_of_iff
    ((((watcher.taken caller).before caller batch).2 ≠ .none →
      ∀ listener ∈ watcher.listener, ∀ command ∈ listener.onBefore,
        command.releases caller = false) ∧
      (((opened caller watcher batch).after caller batch).2 ≠ .none →
        ∀ listener ∈ (opened caller watcher batch).listener, ∀ command ∈ listener.onChanged,
          command.releases caller = false))
    ⟨fun ⟨before, after⟩ => ⟨before, after⟩, fun keeps => ⟨keeps.before, keeps.after⟩⟩

/-! ## The permit of another thread -/

section
variable {watcher : Watcher} {caller owner : Thread}
  (howner : watcher.permit.owner = some owner)
include howner

theorem turn_of_owned (batch : Batch) :
    watcher.turn caller batch = ((watcher.before caller batch).1.after caller batch).1 := by
  unfold turn
  rw [perform_handling, opened, taken_of_owned howner, if_neg (by simp [howner])]

theorem turn_of_busy (hother : owner ≠ caller) (batch : Batch) :
    ∃ left, watcher.turn caller batch =
      { watcher with
        pending := left
        journal := ⟨watcher.journal.entries ++ recorded batch⟩ } := by
  rw [turn_of_owned howner]
  by_cases hidle : watcher.dispatch = .idle
  · have hsuppressed : watcher.suppression caller ≠ none := by
      intro hnone
      have hheld := (suppression_eq_none_iff.1 hnone).2.1
      rw [howner] at hheld
      exact hother (Option.some.inj hheld)
    have hclosed := @after_of_suppressed { watcher with pending := some ⟨.none, true⟩ } hidle rfl
      caller batch
    rw [before_of_suppressed hidle hsuppressed, hclosed]
    exact ⟨none, congrArg Prod.fst (watcher.onlyNotes_record batch none)⟩
  · have htelling : watcher.dispatch = .dispatching := by
      cases hdispatch : watcher.dispatch with
      | idle => exact absurd hdispatch hidle
      | dispatching => rfl
    rw [before_of_dispatching htelling]
    exact ⟨watcher.pending, congrArg Prod.fst (onlyNotes_of_dispatching htelling caller batch).2⟩

/-- The journal grows by the relocations of all batches, and nothing else happens. -/
theorem foldl_of_busy (hother : owner ≠ caller) (batches : List Batch) :
    ∃ left, batches.foldl (turn caller) watcher =
      { watcher with
        pending := left
        journal := ⟨watcher.journal.entries ++ recorded batches.flatten⟩ } := by
  induction batches generalizing watcher with
  | nil => exact ⟨watcher.pending, by simp⟩
  | cons batch rest ih =>
    obtain ⟨left, hturn⟩ := turn_of_busy howner hother batch
    obtain ⟨left', hrest⟩ := @ih (watcher.turn caller batch) (by rw [hturn]; exact howner)
    refine ⟨left', ?_⟩
    rw [List.foldl_cons, hrest, hturn, List.flatten_cons, recorded_append, List.append_assoc]

end

theorem permit_turn {caller : Thread} {watcher : Watcher} {batch : Batch}
    (hkeeps : watcher.permit.owner = some caller → watcher.Keeps caller batch) :
    (watcher.turn caller batch).permit = watcher.permit := by
  cases howner : watcher.permit.owner with
  | none =>
    unfold turn
    rw [if_pos howner, ← howner]
  | some owner =>
    by_cases hself : owner = caller
    · subst hself
      obtain ⟨hbefore, hafter⟩ := hkeeps howner
      rw [opened, taken_of_owned howner] at hafter
      rw [taken_of_owned howner] at hbefore
      have hopened := permit_before howner hbefore
      rw [turn_of_owned howner, permit_after (hopened ▸ howner) hafter, hopened]
    · obtain ⟨left, hturn⟩ := turn_of_busy howner hself batch
      rw [hturn]

/-! ## A permit that is free -/

/-- Somebody listens in both phases of the turn, and the model is there. The one who listens in the
second phase begins no phases. -/
structure Attended (caller : Thread) (watcher : Watcher) (batch : Batch) : Prop where
  undisposed : watcher.lifecycle ≠ .disposed
  wired : watcher.listener ≠ none
  still : (opened caller watcher batch).listener ≠ none
  calm : ∀ listener ∈ (opened caller watcher batch).listener, ∀ command ∈ listener.onChanged,
    command.isPhase = false

instance (caller : Thread) (watcher : Watcher) (batch : Batch) :
    Decidable (watcher.Attended caller batch) :=
  decidable_of_iff
    (watcher.lifecycle ≠ .disposed ∧ watcher.listener ≠ none ∧
      (opened caller watcher batch).listener ≠ none ∧
      ∀ listener ∈ (opened caller watcher batch).listener, ∀ command ∈ listener.onChanged,
        command.isPhase = false)
    ⟨fun ⟨undisposed, wired, still, calm⟩ => ⟨undisposed, wired, still, calm⟩,
      fun attended => ⟨attended.undisposed, attended.wired, attended.still, attended.calm⟩⟩

/-- The batch is announced and reported with the impact that it has on the watcher which it meets,
or not at all if it has none. -/
structure Heard (caller : Thread) (watcher : Watcher) (batch : Batch) : Prop where
  announced : watcher.Adds (opened caller watcher batch) caller
    (news (watcher.classify batch) .beforeChanged)
  reported : (opened caller watcher batch).Adds (watcher.turn caller batch) caller
    (news (watcher.classify batch) (.changed (watcher.classify batch)))

/-- What a turn leaves for the next one: nothing is being told, nobody has the permit, and nothing
waits. -/
structure Cleared (watcher : Watcher) : Prop where
  idle : watcher.dispatch = .idle
  free : watcher.permit.owner = none
  entries : watcher.journal.entries = []

theorem entries_after {watcher : Watcher} (hidle : watcher.dispatch = .idle) (caller : Thread)
    (hunsuppressed : watcher.isSuppressed caller = false) (batch : Batch)
    (hcalm : ∀ listener ∈ watcher.listener, ∀ command ∈ listener.onChanged,
      command.isPhase = false) :
    (watcher.after caller batch).1.journal.entries = [] := by
  rw [after_of_idle hidle]
  split
  · exact entries_settled_of_free hunsuppressed batch
  · rw [← entries_settled_of_free hunsuppressed batch]
    apply relates_deliver (watcher.settled caller batch) caller (fun watcher next =>
      next.journal.entries = watcher.journal.entries) (fun _ => rfl)
      (fun hab hbc => hbc.trans hab) (fun _ _ _ => rfl)
    rw [settled_listener]
    intro listener hlistener command hmem watcher
    exact entries_of_calm watcher caller (hcalm listener hlistener command hmem)

/-- A turn that meets a free permit. What waits already is carried out with the batch. -/
theorem heard_turn {watcher : Watcher} {caller : Thread} {batch : Batch}
    (hidle : watcher.dispatch = .idle) (hfree : watcher.permit.owner = none)
    (hattended : watcher.Attended caller batch) :
    watcher.Heard caller batch ∧ (watcher.turn caller batch).Cleared := by
  have htaken : watcher.taken caller = { watcher with permit := ⟨some caller⟩ } :=
    taken_of_free hfree
  have hjudged : (watcher.taken caller).suppression caller = none := by
    rw [suppression_eq_none_iff, htaken]
    exact ⟨hidle, rfl, hattended.undisposed, hattended.wired⟩
  have hopens := @opens_before (watcher.taken caller) hidle caller batch
  have himpact : ((watcher.taken caller).before caller batch).2 = watcher.classify batch := by
    rw [hopens.impact_eq, found, if_pos hjudged]
    rfl
  rw [himpact] at hopens
  have hopened : (opened caller watcher batch).dispatch = .idle := hopens.dispatch
  have hpending : (opened caller watcher batch).pending = some ⟨watcher.classify batch, false⟩ := by
    rw [show (opened caller watcher batch).pending = _ from hopens.pending, hjudged]
    rfl
  have hcloses := @closes_after (opened caller watcher batch) hopened caller batch
    (fun _ => hattended.still)
  have hawaited : (opened caller watcher batch).awaited = watcher.classify batch := by
    unfold awaited
    rw [hpending]
  have hunsuppressed : (opened caller watcher batch).isSuppressed caller = false := by
    unfold isSuppressed
    rw [hpending]
  have hturn : watcher.turn caller batch =
      { ((opened caller watcher batch).after caller batch).1 with permit := {} } := by
    unfold turn
    rw [if_pos hfree, perform_handling]
  rw [hcloses.impact_eq, hawaited] at hcloses
  refine ⟨⟨hopens.adds, ?_⟩, ?_⟩
  · rw [hturn]
    exact hcloses.adds
  · rw [hturn]
    exact ⟨hcloses.dispatch, rfl, entries_after hopened caller hunsuppressed batch hattended.calm⟩

/-- The induction is on the batches: every turn leaves what the next one needs. -/
theorem heard_of_free {watcher : Watcher} {caller : Thread} (hidle : watcher.dispatch = .idle)
    (hfree : watcher.permit.owner = none) {batches : List Batch}
    (hattended : ∀ met ∈ turns caller watcher batches, met.1.Attended caller met.2) :
    (∀ met ∈ turns caller watcher batches, met.1.Heard caller met.2) ∧
      (batches ≠ [] → (batches.foldl (turn caller) watcher).Cleared) := by
  induction batches generalizing watcher with
  | nil => simp [turns]
  | cons batch rest ih =>
    obtain ⟨hheard, hcleared⟩ := heard_turn hidle hfree (hattended (watcher, batch)
      List.mem_cons_self)
    obtain ⟨hothers, hlast⟩ := ih hcleared.idle hcleared.free
      (fun met hmem => hattended met (List.mem_cons_of_mem _ hmem))
    refine ⟨List.forall_mem_cons.2 ⟨hheard, hothers⟩, fun _ => ?_⟩
    rw [List.foldl_cons]
    by_cases hnil : rest = []
    · rw [hnil]
      exact hcleared
    · exact hlast hnil

/-! ## Queues -/

theorem pump_sequential (watcher : Watcher) (caller : Thread) (queue : List Batch) :
    (watcher.pump caller queue).2 = queue.countP (· ≠ []) ∧
    (watcher.pump caller queue).1 = (queue.filter (· ≠ [])).foldl (turn caller) watcher ∧
    (∀ met ∈ turns caller watcher (queue.filter (· ≠ [])),
      (met.1.permit.owner = some caller → met.1.Keeps caller met.2) →
        (met.1.turn caller met.2).permit = met.1.permit) ∧
    (∀ owner, watcher.permit.owner = some owner → owner ≠ caller →
      ∃ left noted, Chronicle queue.flatten noted ∧
        (watcher.pump caller queue).1 =
          { watcher with
            pending := left
            journal := ⟨watcher.journal.entries ++ noted⟩ }) ∧
    (watcher.permit.owner = none → watcher.dispatch = .idle →
      (∀ met ∈ turns caller watcher (queue.filter (· ≠ [])), met.1.Attended caller met.2) →
        (∀ met ∈ turns caller watcher (queue.filter (· ≠ [])), met.1.Heard caller met.2) ∧
        ((∃ batch ∈ queue, batch ≠ []) → (watcher.pump caller queue).1.journal.entries = [])) := by
  refine ⟨pump_count watcher caller queue, pump_eq_foldl watcher caller queue,
    fun _ _ hkeeps => permit_turn hkeeps, ?_, ?_⟩
  · intro owner howner hother
    obtain ⟨left, hpump⟩ := foldl_of_busy howner hother (queue.filter (· ≠ []))
    rw [List.flatten_filter_ne_nil] at hpump
    rw [← pump_eq_foldl] at hpump
    exact ⟨left, _, chronicle_recorded queue.flatten, hpump⟩
  · intro hfree hidle hattended
    obtain ⟨hheard, hcleared⟩ := heard_of_free hidle hfree hattended
    refine ⟨hheard, ?_⟩
    intro hsome
    obtain ⟨batch, hmem, hne⟩ := hsome
    have hkept : batch ∈ queue.filter (· ≠ []) := List.mem_filter.2 ⟨hmem, by simpa using hne⟩
    rw [pump_eq_foldl]
    exact (hcleared (List.ne_nil_of_mem hkept)).entries

/-- The watcher of `sample` with a listener that only asks, and with a relocation that waits. -/
def attendedSample : Watcher :=
  { sample with
    permit := {}
    listener := some { onBefore := [.isHeld 1], onChanged := [.pending] }
    journal := ⟨[⟨"/proj/v".toList, "/proj/w".toList, .move, false⟩]⟩ }

/-- A rename, an empty batch, and a batch that removes the root. -/
def sampleQueue : List Batch :=
  [[.rename "/proj/x" "/proj/y" true], [], [.delete "/proj/a"]]

/-- The same queue while another thread has the permit, while nobody has it, and while the thread of
the pump has it. -/
theorem pump_sequential_sample :
    (∃ left noted, Chronicle sampleQueue.flatten noted ∧
      (pump { attendedSample with permit := ⟨some 2⟩ } 1 sampleQueue).1 =
        { attendedSample with
          permit := ⟨some 2⟩
          pending := left
          journal := ⟨attendedSample.journal.entries ++ noted⟩ }) ∧
    ((∀ met ∈ turns 1 attendedSample (sampleQueue.filter (· ≠ [])), met.1.Attended 1 met.2) ∧
      (∀ met ∈ turns 1 attendedSample (sampleQueue.filter (· ≠ [])), met.1.Heard 1 met.2) ∧
      (attendedSample.pump 1 sampleQueue).1.journal.entries = []) ∧
    ∀ met ∈ turns 1 { attendedSample with permit := ⟨some 1⟩ } (sampleQueue.filter (· ≠ [])),
      met.1.permit.owner = some 1 ∧ (met.1.turn 1 met.2).permit = met.1.permit := by
  have hattended : ∀ met ∈ turns 1 attendedSample (sampleQueue.filter (· ≠ [])),
      met.1.Attended 1 met.2 := by
    decide +kernel
  have hsome : ∃ batch ∈ sampleQueue, batch ≠ [] := by decide
  have hkeeps : ∀ met ∈ turns 1 { attendedSample with permit := ⟨some 1⟩ }
      (sampleQueue.filter (· ≠ [])), met.1.permit.owner = some 1 ∧ met.1.Keeps 1 met.2 := by
    decide +kernel
  obtain ⟨hheard, hentries⟩ :=
    (pump_sequential attendedSample 1 sampleQueue).2.2.2.2 rfl rfl hattended
  refine ⟨?_, ⟨hattended, hheard, hentries hsome⟩, ?_⟩
  · exact (pump_sequential { attendedSample with permit := ⟨some 2⟩ } 1 sampleQueue).2.2.2.1 2 rfl
      (by decide)
  · intro met hmem
    obtain ⟨howner, hkeep⟩ := hkeeps met hmem
    exact ⟨howner, (pump_sequential { attendedSample with permit := ⟨some 1⟩ } 1 sampleQueue).2.2.1
      met hmem fun _ => hkeep⟩

/-- A watcher whose permit the pump's thread has, and whose listener gives it back. -/
def releasing : Watcher :=
  { attendedSample with
    permit := ⟨some 1⟩
    listener := some { onChanged := [.release 1] } }

/-- A watcher with a permit that is free, whose listener disposes of the model. -/
def disposing : Watcher :=
  { attendedSample with
    listener := some { onChanged := [.dispose] }
    journal := {} }

/-- Two batches that touch the root. -/
def touchingQueue : List Batch :=
  [[.delete "/proj/a"], [.delete "/proj/a", .rename "/proj/x" "/proj/y" true]]

/-- Without its conditions neither of the two last statements holds. The permit is not whose it was
when the listener has given it back. And a model that was there at the beginning, with a listener
that stays and begins no phases, may be gone by the second batch: this one has an impact and is not
announced, and its relocation waits. -/
theorem not_pump_sequential :
    (releasing.permit.owner = some 1 ∧
      (releasing.pump 1 [[.delete "/proj/a"]]).1.permit.owner = none) ∧
    (disposing.permit.owner = none ∧ disposing.dispatch = .idle ∧
      disposing.lifecycle ≠ .disposed ∧ disposing.journal.entries = [] ∧
      (∀ met ∈ turns 1 disposing touchingQueue, met.1.listener ≠ none ∧
        (opened 1 met.1 met.2).listener ≠ none ∧
        ∀ listener ∈ met.1.listener, ∀ command ∈ listener.onBefore ++ listener.onChanged,
          command.isPhase = false) ∧
      (∃ met ∈ turns 1 disposing touchingQueue, met.1.classify met.2 ≠ .none ∧
        ¬met.1.Heard 1 met.2) ∧
      (disposing.pump 1 touchingQueue).1.journal.entries.length = 1) := by
  refine ⟨by decide +kernel, by decide, by decide, by decide, by decide, by decide +kernel, ?_,
    by decide +kernel⟩
  have hmeets : ((disposing.turn 1 [.delete "/proj/a"]),
      [Event.delete "/proj/a", .rename "/proj/x" "/proj/y" true]) ∈
        turns 1 disposing touchingQueue := by
    simp [turns, touchingQueue]
  have himpact : (disposing.turn 1 [.delete "/proj/a"]).classify
      [.delete "/proj/a", .rename "/proj/x" "/proj/y" true] = .removed := by
    decide +kernel
  have hsilent : (opened 1 (disposing.turn 1 [.delete "/proj/a"])
      [.delete "/proj/a", .rename "/proj/x" "/proj/y" true]).log.length =
        (disposing.turn 1 [.delete "/proj/a"]).log.length := by
    decide +kernel
  refine ⟨_, hmeets, by simp [himpact], ?_⟩
  intro hheard
  have hannounced := hheard.announced
  rw [himpact] at hannounced
  obtain ⟨start, _, hlog, _, _, _, _, _, htold⟩ := hannounced
  rw [htold, hlog] at hsilent
  simp at hsilent

end Watcher

end ProjectRoots
