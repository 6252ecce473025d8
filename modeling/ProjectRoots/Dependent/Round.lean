import ProjectRoots.Dependent.Basic
import ProjectRoots.Workspace

/- Rounds: carrying relocations out on all dependents, one after another. A dependent is rewritten
   only if a rename takes part in moving its path, so moves alone leave it be. When the stored file
   names an entity and its own name changed, the entity is renamed by a commit. What a round did
   with each dependent is its outcome, and the report of a round is read off the outcomes.

   Correspondence (term ↔ Lean):
     registry of collaborators                ↔ `Project.dependents`
     counter of structural modifications      ↔ `Project.modifications`
     rename propagator, as it reads the model ↔ `Policy`, `base`, `later`
     propagating, for one collaborator        ↔ `Project.round`, `Policy.reconcile`
     propagation report                       ↔ `Report`, read off `Outcome` -/
namespace ProjectRoots

/-- A workspace, the dependents in the order of their registration, and how often a round has
rewritten any of them. -/
structure Project where
  workspace : Workspace
  dependents : List Dependent := []
  /-- A round adds one at most, so that a counter of 64 bits is the same for 2 ^ 64 rounds. -/
  modifications : Nat := 0

/-- How rounds rename entities. -/
structure Policy where
  /-- Files with these extensions carry the name of an entity. -/
  descriptorExtensions : List String
  /-- The version that the next commit is made for. -/
  base : Workspace → Nat := Workspace.version
  /-- The same of the commits after that one. -/
  later : Nat → Workspace → Nat := fun _ => base

/-- An entity has got another name. -/
structure NameChange where
  entity : String
  old : String
  new : String
deriving DecidableEq

/-- What became of the name of an entity. -/
inductive Identity
  | kept
  | renamed (change : NameChange)
  | refused (fault : CommitFault)

/-- What a round did with a dependent. -/
inductive Outcome
  | untouched
  /-- The dependent did not store its new path. -/
  | refused (positions : List Nat) (stored : List Char) (reason : String)
  | rewritten (positions : List Nat) (old new : List Char) (identity : Identity)

namespace Outcome

/-- The positions of the relocations that took part. -/
def positions : Outcome → List Nat
  | untouched => []
  | refused positions _ _ => positions
  | rewritten positions _ _ _ => positions

/-- The old and the new path of a dependent that was rewritten. -/
def updated? : Outcome → Option (List Char × List Char)
  | rewritten _ old new _ => some (old, new)
  | _ => none

/-- Whether a commit was made, be it accepted or not. -/
def committed : Outcome → Bool
  | rewritten _ _ _ (.renamed _) => true
  | rewritten _ _ _ (.refused _) => true
  | _ => false

/-- The entity that was renamed. -/
def nameChange? : Outcome → Option NameChange
  | rewritten _ _ _ (.renamed change) => some change
  | _ => none

/-- The path of a dependent for which something was refused, and the reason. -/
def failure? : Outcome → Option (List Char × String)
  | refused _ stored reason => some (stored, reason)
  | rewritten _ _ new (.refused fault) => some (new, fault.message)
  | _ => none

end Outcome

/-- The outcomes of a round over `size` relocations, in the order of the dependents. -/
structure Report where
  size : Nat
  outcomes : List Outcome

namespace Report

/-- The old and new paths of the dependents that were rewritten. -/
def updated (report : Report) : List (List Char × List Char) :=
  report.outcomes.filterMap Outcome.updated?

/-- The entities that were renamed. -/
def renamed (report : Report) : List NameChange :=
  report.outcomes.filterMap Outcome.nameChange?

/-- What was refused, and why. -/
def failures (report : Report) : List (List Char × String) :=
  report.outcomes.filterMap Outcome.failure?

/-- How many relocations took part in what happened to a dependent. -/
def consumed (report : Report) : Nat :=
  (List.range report.size).countP fun position =>
    report.outcomes.any (·.positions.contains position)

/-- How many relocations took part in nothing. -/
def dropped (report : Report) : Nat :=
  report.size - report.consumed

end Report

/-- Rename the entity of a dependent that went from `old` to `new`, if it is named after the
file. -/
def Policy.rename (policy : Policy) (workspace : Workspace) (entity : Option String)
    (old new : List Char) : Workspace × Identity :=
  match entity, entityNames policy.descriptorExtensions old new with
  | some id, some (oldName, newName) =>
    match workspace.commit ⟨policy.base workspace, [.rename id oldName newName]⟩ with
    | .ok next => (next, .renamed ⟨id, oldName, newName⟩)
    | .error fault => (workspace, .refused fault)
  | _, _ => (workspace, .kept)

/-- The policy for what comes behind the next commit. -/
def Policy.next (policy : Policy) : Policy :=
  { policy with base := policy.later 0, later := fun commits => policy.later (commits + 1) }

/-- The policy for what comes behind a turn with this outcome. -/
def Policy.behind (policy : Policy) (outcome : Outcome) : Policy :=
  if outcome.committed then policy.next else policy

/-- Carry relocations out on one dependent. -/
def Policy.reconcile (policy : Policy) (relocations : List Relocation) (workspace : Workspace)
    (dependent : Dependent) : Workspace × Dependent × Outcome :=
  let pursuit := pursue relocations dependent.path
  let new := pursuit.current
  if pursuit.renamed ∧ new ≠ dependent.path then
    match dependent.refusal with
    | some refusal =>
      (workspace, dependent.answered,
        .refused pursuit.applied dependent.path (refusal.message dependent.path new))
    | none =>
      let (workspace, identity) := policy.rename workspace dependent.entity dependent.path new
      (workspace, { dependent.answered with path := new },
        .rewritten pursuit.applied dependent.path new identity)
  else (workspace, dependent, .untouched)

/-- Carry relocations out on dependents, one after another. -/
def Policy.reconcileAll (policy : Policy) (relocations : List Relocation) (workspace : Workspace) :
    List Dependent → Workspace × List Dependent × List Outcome
  | [] => (workspace, [], [])
  | dependent :: rest =>
    let (workspace, dependent, outcome) := policy.reconcile relocations workspace dependent
    let (workspace, rest, outcomes) :=
      (policy.behind outcome).reconcileAll relocations workspace rest
    (workspace, dependent :: rest, outcome :: outcomes)

/-- A round: carry relocations out on all dependents, and count the round if any was rewritten. -/
def Project.round (project : Project) (policy : Policy) (relocations : List Relocation) :
    Project × Report :=
  let (workspace, dependents, outcomes) :=
    policy.reconcileAll relocations project.workspace project.dependents
  let report : Report := ⟨relocations.length, outcomes⟩
  let modifications :=
    if report.updated = [] then project.modifications else project.modifications + 1
  (⟨workspace, dependents, modifications⟩, report)

/-- Register one more dependent. -/
def Project.register (project : Project) (dependent : Dependent) : Project :=
  { project with dependents := project.dependents ++ [dependent] }

theorem Report.consumed_add_dropped (report : Report) :
    report.consumed + report.dropped = report.size := by
  have h : report.consumed ≤ report.size := by
    have := List.countP_le_length (l := List.range report.size) (p := fun position =>
      report.outcomes.any (·.positions.contains position))
    rwa [List.length_range] at this
  unfold dropped
  omega

end ProjectRoots
