import ProjectRoots.Proofs.Dependent.Turns

/- Rounds of renames. A dependent that stores whatever it is told to store is, after a round over
   renames, where replaying the renames puts it: one that the round leaves alone is not moved by any
   of them, or is back where it was. So it makes no difference whether relocations are carried out
   in one round or in two (`replay_append`). -/
namespace ProjectRoots

/-- All the relocations are renames. -/
def Renames (relocations : List Relocation) : Prop :=
  ∀ relocation ∈ relocations, relocation.cause = .rename

instance : DecidablePred Renames := fun relocations =>
  inferInstanceAs (Decidable (∀ relocation ∈ relocations, relocation.cause = .rename))

theorem Renames.append {first second : List Relocation} (hfirst : Renames first)
    (hsecond : Renames second) : Renames (first ++ second) := by
  intro relocation hmem
  rcases List.mem_append.1 hmem with hmem | hmem
  · exact hfirst relocation hmem
  · exact hsecond relocation hmem

theorem mem_of_mem_trail {position : Nat} {relocations : List Relocation} {path : List Char}
    {entry : Nat × Relocation} (hmem : entry ∈ trail position relocations path) :
    entry.2 ∈ relocations := by
  induction relocations generalizing position path with
  | nil => cases hmem
  | cons relocation rest ih =>
    unfold trail at hmem
    split at hmem
    · rcases List.mem_cons.1 hmem with rfl | hmem
      · exact List.mem_cons_self
      · exact List.mem_cons_of_mem _ (ih hmem)
    · exact List.mem_cons_of_mem _ (ih hmem)

/-- Renames none of which takes part in moving a path leave it where it is. -/
theorem replay_of_takesRename_eq_false {relocations : List Relocation} {path : List Char}
    (hrenames : Renames relocations) (hnone : takesRename relocations path = false) :
    replay relocations path = path := by
  suffices hempty : trail 0 relocations path = [] from replay_of_trail_nil hempty
  apply List.eq_nil_iff_forall_not_mem.2
  intro entry hmem
  have hother := List.any_eq_false.1 hnone entry hmem
  exact hother (by simp [hrenames entry.2 (mem_of_mem_trail hmem)])

/-- The dependent stores whatever it is told to store. -/
structure Dependent.Willing (dependent : Dependent) : Prop where
  refusal : dependent.refusal = none
  later : ∀ paths, dependent.later paths = none

theorem Dependent.Willing.moved {dependent : Dependent} (hwilling : dependent.Willing)
    (path : List Char) : Willing { dependent with path := path } :=
  ⟨hwilling.refusal, hwilling.later⟩

/-- One that stores everything goes on doing so. -/
theorem Dependent.Willing.answered_eq {dependent : Dependent} (hwilling : dependent.Willing) :
    dependent.answered = dependent := by
  obtain ⟨path, entity, refusal, later⟩ := dependent
  obtain ⟨hrefusal, hlater⟩ := hwilling
  obtain rfl : refusal = none := hrefusal
  obtain rfl : later = fun _ => none := funext hlater
  rfl

theorem Journal.settle_of_renames {journal : Journal} (hrenames : Renames journal.entries)
    {dependent : Dependent} (hwilling : dependent.Willing) :
    journal.settle dependent =
      { dependent with path := replay journal.entries dependent.path } := by
  simp only [settle, if_pos hwilling.refusal, hwilling.answered_eq]
  cases hgoal : journal.goal? dependent.path with
  | some new =>
    obtain ⟨_, rfl⟩ := goal?_eq_some_iff.1 hgoal
    rfl
  | none =>
    have hleft := goal?_eq_none_iff.1 hgoal
    have hstays : replay journal.entries dependent.path = dependent.path := by
      cases htakes : takesRename journal.entries dependent.path with
      | false => exact replay_of_takesRename_eq_false hrenames htakes
      | true => exact Classical.not_not.1 fun hmoved => hleft ⟨htakes, hmoved⟩
    rw [hstays]

namespace Policy

theorem dependent_reconcile (policy : Policy) {relocations : List Relocation}
    (hrenames : Renames relocations) (workspace : Workspace) {dependent : Dependent}
    (hwilling : dependent.Willing) :
    (policy.reconcile relocations workspace dependent).2.1 =
      { dependent with path := replay relocations dependent.path } := by
  have hsettled := (policy.treats_reconcile ⟨relocations⟩ workspace dependent).rewriting.2
  exact hsettled.trans (Journal.settle_of_renames hrenames hwilling)

theorem dependents_reconcileAll (policy : Policy) {relocations : List Relocation}
    (hrenames : Renames relocations) (workspace : Workspace) {dependents : List Dependent}
    (hwilling : ∀ dependent ∈ dependents, dependent.Willing) :
    (policy.reconcileAll relocations workspace dependents).2.1 =
      dependents.map fun dependent =>
        { dependent with path := replay relocations dependent.path } := by
  have hsettled := policy.dependents_settled ⟨relocations⟩ workspace dependents
  refine hsettled.trans (List.map_congr_left fun dependent hmem => ?_)
  exact Journal.settle_of_renames hrenames (hwilling dependent hmem)

end Policy

theorem Project.dependents_round (project : Project) (policy : Policy)
    {relocations : List Relocation} (hrenames : Renames relocations)
    (hwilling : ∀ dependent ∈ project.dependents, dependent.Willing) :
    (project.round policy relocations).1.dependents =
      project.dependents.map fun dependent =>
        { dependent with path := replay relocations dependent.path } :=
  policy.dependents_reconcileAll hrenames project.workspace hwilling

end ProjectRoots
