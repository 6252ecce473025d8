import Mathlib.Order.Interval.Set.Nat
import ProjectRoots.Proofs.Dependent.Turns

/- The two counts of a report. A relocation counts as consumed if it took part in what happened to a
   dependent, and as dropped otherwise. What is meant to happen to the dependent is that it is
   rewritten; but the relocations that take part are noted before it is told its new path, and it
   may refuse to store this.

     1. `mem_trail_iff` — the relocations on the trail of a path are the ones that move it.
     2. `mem_positions_reconcile`, `any_positions_iff` — which relocations take part in a turn, and
        in all turns of a round.
     3. `ncard_add_ncard_rest` — counting positions.
     4. `counted_round` — so the counts are what they are meant to be exactly if every relocation
        that moved a dependent that refused also moved one that was rewritten. -/
namespace ProjectRoots

/-- Whether the relocation at the position moves the path when all are replayed in order. -/
def MovedAt (relocations : List Relocation) (path : List Char) (position : Nat) : Prop :=
  ∃ before relocation after, relocations = before ++ relocation :: after ∧
    before.length = position ∧ relocation.apply (replay before path) ≠ none

namespace Outcome

/-- The dependent stores its new path. -/
def Stored (outcome : Outcome) : Prop :=
  outcome.updated? ≠ none

instance : DecidablePred Stored := fun outcome =>
  inferInstanceAs (Decidable (outcome.updated? ≠ none))

/-- The dependent was led to a new path and did not store it. -/
def Denied : Outcome → Prop
  | refused .. => True
  | _ => False

end Outcome

namespace Project

/-- Whether the relocation at the position moved a dependent whose turn ended in such a way. -/
def TakesPart (project : Project) (journal : Journal) (report : Report) (ending : Outcome → Prop)
    (position : Nat) : Prop :=
  ∃ turn ∈ project.dependents.zip report.outcomes,
    ending turn.2 ∧ MovedAt journal.entries turn.1.path position

end Project

/-! ## The trail of a path -/

section
variable {relocations : List Relocation} {path : List Char} {position : Nat}

theorem MovedAt.lt_length (hmoved : MovedAt relocations path position) :
    position < relocations.length := by
  obtain ⟨before, relocation, after, rfl, rfl, _⟩ := hmoved
  simp

theorem not_movedAt_nil : ¬MovedAt [] path position := by
  intro hmoved
  exact absurd hmoved.lt_length (Nat.not_lt_zero _)

theorem movedAt_cons_zero {relocation : Relocation} :
    MovedAt (relocation :: relocations) path 0 ↔ relocation.apply path ≠ none := by
  constructor
  · intro h
    obtain ⟨before, found, after, hsplit, hzero, hmoves⟩ := h
    obtain rfl := List.length_eq_zero_iff.1 hzero
    obtain ⟨rfl, _⟩ := List.cons.inj hsplit
    exact hmoves
  · intro hmoves
    exact ⟨[], relocation, relocations, rfl, rfl, hmoves⟩

theorem movedAt_cons_succ {relocation : Relocation} :
    MovedAt (relocation :: relocations) path (position + 1) ↔
      MovedAt relocations (relocation.carry path) position := by
  constructor
  · intro h
    obtain ⟨before, found, after, hsplit, hlength, hmoves⟩ := h
    cases before with
    | nil => cases hlength
    | cons first before =>
      obtain ⟨rfl, rfl⟩ := List.cons.inj hsplit
      exact ⟨before, found, after, rfl, Nat.succ.inj hlength, hmoves⟩
  · intro h
    obtain ⟨before, found, after, rfl, rfl, hmoves⟩ := h
    exact ⟨relocation :: before, found, after, rfl, rfl, hmoves⟩

/-- The induction is over all places where the count may begin, for the trail of the rest begins
one later. -/
theorem mem_trail_iff {start : Nat} :
    position ∈ (trail start relocations path).map (·.1) ↔
      ∃ behind, position = start + behind ∧ MovedAt relocations path behind := by
  induction relocations generalizing start path with
  | nil => simp [trail, not_movedAt_nil]
  | cons relocation rest ih =>
    have hbehind : (∃ behind, position = start + behind ∧
          MovedAt (relocation :: rest) path behind) ↔
        position = start ∧ relocation.apply path ≠ none ∨
          ∃ behind, position = (start + 1) + behind ∧
            MovedAt rest (relocation.carry path) behind := by
      constructor
      · intro h
        obtain ⟨behind, hposition, hmoved⟩ := h
        cases behind with
        | zero => exact Or.inl ⟨hposition, movedAt_cons_zero.1 hmoved⟩
        | succ behind => exact Or.inr ⟨behind, by omega, movedAt_cons_succ.1 hmoved⟩
      · intro h
        rcases h with ⟨hposition, hmoves⟩ | ⟨behind, hposition, hmoved⟩
        · exact ⟨0, hposition, movedAt_cons_zero.2 hmoves⟩
        · exact ⟨behind + 1, by omega, movedAt_cons_succ.2 hmoved⟩
    rw [hbehind, trail, Relocation.carry]
    cases happly : relocation.apply path with
    | none => simp [ih]
    | some next => simp [ih]

theorem mem_positions_iff :
    position ∈ (trail 0 relocations path).map (·.1) ↔ MovedAt relocations path position := by
  simp [mem_trail_iff]

end

/-! ## Turns -/

namespace Policy
variable (policy : Policy) (journal : Journal) (workspace : Workspace)

/-- In a turn in which a dependent is led to a new path the relocations that move it take part,
whether it stores the new path or not. -/
theorem mem_positions_reconcile (dependent : Dependent) (position : Nat) :
    position ∈ (policy.reconcile journal.entries workspace dependent).2.2.positions ↔
      ((policy.reconcile journal.entries workspace dependent).2.2.Stored ∨
        (policy.reconcile journal.entries workspace dependent).2.2.Denied) ∧
          MovedAt journal.entries dependent.path position := by
  cases hgoal : journal.goal? dependent.path with
  | none =>
    rw [policy.reconcile_of_left journal workspace hgoal]
    simp [Outcome.positions, Outcome.Stored, Outcome.Denied, Outcome.updated?]
  | some new =>
    cases hrefusal : dependent.refusal with
    | some refusal =>
      rw [policy.reconcile_of_refusal journal workspace hgoal hrefusal, ← mem_positions_iff]
      simp [Outcome.positions, Outcome.Denied]
    | none =>
      rw [policy.reconcile_of_goal journal workspace hgoal hrefusal, ← mem_positions_iff]
      simp [Outcome.positions, Outcome.Stored, Outcome.updated?]

theorem any_positions_iff (dependents : List Dependent) (position : Nat) :
    ((policy.reconcileAll journal.entries workspace dependents).2.2.any
        (·.positions.contains position)) = true ↔
      ∃ turn ∈ dependents.zip (policy.reconcileAll journal.entries workspace dependents).2.2,
        (turn.2.Stored ∨ turn.2.Denied) ∧ MovedAt journal.entries turn.1.path position := by
  induction dependents generalizing policy workspace with
  | nil => simp [reconcileAll]
  | cons dependent rest ih =>
    rw [reconcileAll_cons, List.any_cons, Bool.or_eq_true, ih, List.contains_iff_mem,
      policy.mem_positions_reconcile journal workspace, List.zip_cons_cons]
    simp only [List.mem_cons, exists_eq_or_imp]

end Policy

/-! ## Counting positions -/

section
variable {size : Nat} {P Q : Nat → Prop} (hsize : ∀ position, P position → position < size)
include hsize

theorem countP_range_eq_ncard {p : Nat → Bool} (hp : ∀ position, p position = true ↔ P position) :
    (List.range size).countP p = {position | P position}.ncard := by
  have hset : {position | P position} = ((List.range size).filter p).toFinset := by
    ext position
    simp only [Set.mem_ofPred_eq, List.coe_toFinset, List.mem_filter, List.mem_range, hp]
    exact ⟨fun h => ⟨hsize position h, h⟩, And.right⟩
  rw [hset, Set.ncard_coe_finset, List.toFinset_card_of_nodup (List.nodup_range.filter p),
    List.countP_eq_length_filter]

/-- The positions that have a property and those that do not are all positions. -/
theorem ncard_add_ncard_rest :
    {position | P position}.ncard + {position | position < size ∧ ¬P position}.ncard = size := by
  have hsubset : {position | P position} ⊆ Set.Iio size := hsize
  have hall := Set.ncard_sdiff_add_ncard_of_subset hsubset
  rw [Set.ncard_Iio_nat, Nat.add_comm] at hall
  exact hall

/-- A property that fewer positions have is had by as many only if it is had by the same. -/
theorem ncard_eq_iff (hsub : ∀ position, Q position → P position) :
    {position | P position}.ncard = {position | Q position}.ncard ↔
      ∀ position, P position → Q position := by
  have hfinite : {position | P position}.Finite := (Set.finite_Iio size).subset hsize
  have hsubset : {position | Q position} ⊆ {position | P position} := hsub
  constructor
  · intro hcount position hposition
    have hsame := Set.eq_of_subset_of_ncard_le hsubset hcount.le hfinite
    exact hsame.symm.subset hposition
  · intro hback
    have hsame : {position | P position} = {position | Q position} :=
      Set.Subset.antisymm hback hsubset
    rw [hsame]

end

namespace Project

/-- What the two counts of a report come to. -/
structure Counted (project : Project) (journal : Journal) (report : Report) : Prop where
  /-- Every relocation is counted once. -/
  total : report.consumed + report.dropped = journal.entries.length
  /-- Consumed are the relocations that moved a dependent that was led to a new path, even if it
  did not store that. -/
  consumed : report.consumed =
    {position | project.TakesPart journal report (fun outcome => outcome.Stored ∨ outcome.Denied)
      position}.ncard
  dropped : report.dropped =
    {position | position < journal.entries.length ∧
      ¬project.TakesPart journal report (fun outcome => outcome.Stored ∨ outcome.Denied)
        position}.ncard
  /-- They are the ones that moved a dependent that was rewritten, if each one that moved a
  dependent that did not store its new path is among these; and otherwise they are too many. -/
  consumed_iff :
    report.consumed = {position | project.TakesPart journal report Outcome.Stored position}.ncard ↔
      ∀ position, project.TakesPart journal report Outcome.Denied position →
        project.TakesPart journal report Outcome.Stored position
  dropped_iff :
    report.dropped =
        {position | position < journal.entries.length ∧
          ¬project.TakesPart journal report Outcome.Stored position}.ncard ↔
      ∀ position, project.TakesPart journal report Outcome.Denied position →
        project.TakesPart journal report Outcome.Stored position

variable (project : Project) (policy : Policy) (journal : Journal)

theorem TakesPart.lt_length {project : Project} {journal : Journal} {report : Report}
    {ending : Outcome → Prop} {position : Nat}
    (htakes : project.TakesPart journal report ending position) :
    position < journal.entries.length := by
  obtain ⟨turn, _, _, hmoved⟩ := htakes
  exact hmoved.lt_length

theorem takesPart_or_iff {project : Project} {journal : Journal} {report : Report}
    {first second : Outcome → Prop} {position : Nat} :
    project.TakesPart journal report (fun outcome => first outcome ∨ second outcome) position ↔
      project.TakesPart journal report first position ∨
        project.TakesPart journal report second position := by
  unfold TakesPart
  simp only [or_and_right, and_or_left, exists_or]

theorem consumed_round :
    (project.round policy journal.entries).2.consumed =
      {position | project.TakesPart journal (project.round policy journal.entries).2
        (fun outcome => outcome.Stored ∨ outcome.Denied) position}.ncard :=
  countP_range_eq_ncard (fun _ => TakesPart.lt_length)
    (policy.any_positions_iff journal project.workspace project.dependents)

theorem counted_round :
    project.Counted journal (project.round policy journal.entries).2 := by
  have htotal : (project.round policy journal.entries).2.consumed +
      (project.round policy journal.entries).2.dropped = journal.entries.length :=
    Report.consumed_add_dropped _
  have hconsumed := project.consumed_round policy journal
  generalize (project.round policy journal.entries).2 = report at htotal hconsumed ⊢
  have hled := ncard_add_ncard_rest
    (P := project.TakesPart journal report fun outcome => outcome.Stored ∨ outcome.Denied)
    (fun _ => TakesPart.lt_length)
  have hstored := ncard_add_ncard_rest (P := project.TakesPart journal report Outcome.Stored)
    (fun _ => TakesPart.lt_length)
  have hiff : report.consumed =
        {position | project.TakesPart journal report Outcome.Stored position}.ncard ↔
      ∀ position, project.TakesPart journal report Outcome.Denied position →
        project.TakesPart journal report Outcome.Stored position := by
    rw [hconsumed, ncard_eq_iff (fun _ => TakesPart.lt_length)
      (fun _ hstored => takesPart_or_iff.2 (Or.inl hstored))]
    simp only [takesPart_or_iff, or_imp, imp_self, true_and]
  refine ⟨htotal, hconsumed, by omega, hiff, ?_⟩
  rw [← hiff]
  constructor
  · intro hdropped
    omega
  · intro hconsumed
    omega

/-- A dependent that refuses every new path. -/
def locked : Project where
  workspace := Workspace.ofGraph (Graph.ofList [])
  dependents := [{ path := "/p/m/a.txt".toList, refusal := some (.because "read-only") }]

/-- Its directory gets another name. -/
def directoryRenamed : Journal :=
  ⟨[⟨"/p/m".toList, "/p/n".toList, .rename, true⟩]⟩

def lockedReport : Report :=
  (locked.round { descriptorExtensions := ["iml"] } directoryRenamed.entries).2

/-- Nothing is rewritten, but the rename counts as consumed. -/
theorem not_counted_locked :
    lockedReport.updated = [] ∧ lockedReport.consumed = 1 ∧ lockedReport.dropped = 0 ∧
      {position | locked.TakesPart directoryRenamed lockedReport Outcome.Stored
        position}.ncard = 0 ∧
      {position | position < directoryRenamed.entries.length ∧
        ¬locked.TakesPart directoryRenamed lockedReport Outcome.Stored position}.ncard = 1 := by
  have hdenied : ∀ turn ∈ locked.dependents.zip lockedReport.outcomes, ¬turn.2.Stored := by
    decide +kernel
  have hempty :
      {position | locked.TakesPart directoryRenamed lockedReport Outcome.Stored position} = ∅ := by
    refine Set.eq_empty_iff_forall_notMem.2 fun position htakes => ?_
    obtain ⟨turn, hturn, hstored, _⟩ := htakes
    exact hdenied turn hturn hstored
  have hall := ncard_add_ncard_rest
    (P := locked.TakesPart directoryRenamed lockedReport Outcome.Stored)
    (fun _ => TakesPart.lt_length)
  rw [hempty, Set.ncard_empty, Nat.zero_add] at hall
  refine ⟨by decide +kernel, by decide +kernel, by decide +kernel, ?_, hall⟩
  rw [hempty, Set.ncard_empty]

end Project

end ProjectRoots
