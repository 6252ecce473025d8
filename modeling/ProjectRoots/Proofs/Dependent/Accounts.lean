import ProjectRoots.Proofs.Dependent.Turns
import ProjectRoots.Proofs.Graph.Alike

/- What a round does to the workspace. A turn makes one commit at most, which renames an entity, and
   every commit that is accepted is reported.

     1. `rename_of_names` — an entity is renamed by a commit, or it is known why it was refused.
     2. `Accounts.append`, `accounts_rename` — the changes of names that are reported account for
        all that becomes of the workspace, for one turn and for turns one after another.
     3. `accounts_reconcileAll`, `Matches.round` — so for a round.
     4. `renamed_or_refused` — and an attempt that is refused is reported as a failure.
     5. `accounted_round` — put together, for any workspace that commits and entries can lead to. -/
namespace ProjectRoots

/-- The change of the graph that changes the name. -/
def NameChange.change (change : NameChange) : Change :=
  .rename change.entity change.old change.new

namespace Workspace

/-- The workspace has become the next one by these changes of names, each made by a commit. -/
structure Accounts (workspace : Workspace) (changes : List NameChange) (next : Workspace) :
    Prop where
  version_eq : next.version = workspace.version + changes.length
  performed : PerformAll (changes.map NameChange.change) workspace.current.graph.entity?
    next.current.graph.entity?
  matching : workspace.UpToDate → workspace.Matches next

theorem accounts_nil (workspace : Workspace) : workspace.Accounts [] workspace :=
  ⟨rfl, .nil _, UpToDate.matches_self⟩

theorem Accounts.append {workspace middle next : Workspace} {first second : List NameChange}
    (hfirst : workspace.Accounts first middle) (hsecond : middle.Accounts second next) :
    workspace.Accounts (first ++ second) next := by
  refine ⟨?_, ?_, ?_⟩
  · rw [hsecond.version_eq, hfirst.version_eq, List.length_append, Nat.add_assoc]
  · rw [List.map_append]
    exact hfirst.performed.append hsecond.performed
  · intro hupToDate
    have hmatches := hfirst.matching hupToDate
    exact hmatches.trans (hsecond.matching hmatches.upToDate)

theorem accounts_commit {workspace next : Workspace} {base : Nat} {id old new : String}
    (haccepted : workspace.commit ⟨base, [.rename id old new]⟩ = .ok next) :
    workspace.Accounts [⟨id, old, new⟩] next := by
  obtain ⟨graph, htakes, rfl⟩ := commit_eq_ok_iff.1 haccepted
  exact ⟨htakes.version_eq, htakes.performed, fun hupToDate =>
    hupToDate.matches_self.commit haccepted⟩

end Workspace

theorem Outcome.nameChange?_of_not_committed {outcome : Outcome}
    (hnot : outcome.committed = false) : outcome.nameChange? = none := by
  cases outcome with
  | rewritten positions old new identity =>
    cases identity with
    | renamed change => cases hnot
    | _ => rfl
  | _ => rfl

/-! ## One turn -/

namespace Policy
variable (policy : Policy) (workspace : Workspace)

/-- The commit by which a name is changed in a turn. -/
def commitFor (change : NameChange) : Commit :=
  ⟨policy.base workspace, [change.change]⟩

theorem rename_of_names {old new : List Char} {oldName newName : String}
    (hnames : entityNames policy.descriptorExtensions old new = some (oldName, newName))
    (id : String) :
    (∃ next, workspace.commit (policy.commitFor workspace ⟨id, oldName, newName⟩) = .ok next ∧
        policy.rename workspace (some id) old new = (next, .renamed ⟨id, oldName, newName⟩)) ∨
      ∃ fault,
        workspace.commit (policy.commitFor workspace ⟨id, oldName, newName⟩) = .error fault ∧
          policy.rename workspace (some id) old new = (workspace, .refused fault) := by
  unfold rename commitFor NameChange.change
  simp only [hnames]
  cases workspace.commit ⟨policy.base workspace, [.rename id oldName newName]⟩ with
  | ok next => exact Or.inl ⟨next, rfl, rfl⟩
  | error fault => exact Or.inr ⟨fault, rfl, rfl⟩

theorem rename_of_no_names {entity : Option String} {old new : List Char}
    (hnone : entity = none ∨ entityNames policy.descriptorExtensions old new = none) :
    policy.rename workspace entity old new = (workspace, .kept) := by
  unfold rename
  rcases hnone with rfl | hnames
  · rfl
  · cases entity <;> simp only [hnames]

theorem accounts_rename (entity : Option String) (positions : List Nat) (old new : List Char) :
    workspace.Accounts
      (Outcome.rewritten positions old new
        (policy.rename workspace entity old new).2).nameChange?.toList
      (policy.rename workspace entity old new).1 := by
  cases entity with
  | none =>
    rw [policy.rename_of_no_names workspace (Or.inl rfl)]
    exact workspace.accounts_nil
  | some id =>
    cases hnames : entityNames policy.descriptorExtensions old new with
    | none =>
      rw [policy.rename_of_no_names workspace (Or.inr hnames)]
      exact workspace.accounts_nil
    | some names =>
      rcases policy.rename_of_names workspace hnames id with
        ⟨next, haccepted, hrename⟩ | ⟨fault, _, hrename⟩
      · rw [hrename]
        exact Workspace.accounts_commit haccepted
      · rw [hrename]
        exact workspace.accounts_nil

theorem accounts_reconcile (relocations : List Relocation) (dependent : Dependent) :
    workspace.Accounts
      (policy.reconcile relocations workspace dependent).2.2.nameChange?.toList
      (policy.reconcile relocations workspace dependent).1 := by
  rcases policy.reconcile_cases workspace relocations dependent with
    ⟨later, outcome, _, _, hcommitted, hturn⟩ | ⟨positions, hturn⟩
  · rw [hturn, outcome.nameChange?_of_not_committed hcommitted]
    exact workspace.accounts_nil
  · rw [hturn]
    exact policy.accounts_rename workspace dependent.entity positions dependent.path _

/-! ## All turns -/

theorem accounts_reconcileAll (relocations : List Relocation) (dependents : List Dependent) :
    workspace.Accounts
      ((policy.reconcileAll relocations workspace dependents).2.2.filterMap Outcome.nameChange?)
      (policy.reconcileAll relocations workspace dependents).1 := by
  -- Later turns begin with the workspace and the policy that the first one leaves, so the induction
  -- is over all of these.
  induction dependents generalizing policy workspace with
  | nil => exact workspace.accounts_nil
  | cons dependent rest ih =>
    have hfirst := policy.accounts_reconcile workspace relocations dependent
    have hall := hfirst.append
      (ih (policy.behind (policy.reconcile relocations workspace dependent).2.2)
        (policy.reconcile relocations workspace dependent).1)
    rw [reconcileAll_cons, List.filterMap_cons]
    cases hchange : (policy.reconcile relocations workspace dependent).2.2.nameChange? with
    | none => rwa [hchange] at hall
    | some change => rwa [hchange] at hall

end Policy

/-- A round changes nothing but names. -/
theorem Workspace.Matches.round {first : Workspace} {project : Project}
    (hmatches : first.Matches project.workspace) (policy : Policy)
    (relocations : List Relocation) :
    first.Matches (project.round policy relocations).1.workspace :=
  hmatches.trans ((policy.accounts_reconcileAll project.workspace relocations
    project.dependents).matching hmatches.upToDate)

namespace Project

/-- The workspace when the dependents in front have had their turns. -/
def workspaceBehind (project : Project) (policy : Policy) (journal : Journal)
    (front : List Dependent) : Workspace :=
  (policy.reconcileAll journal.entries project.workspace front).1

/-- The policy then: of the versions that commits are made for, the first ones have been taken. -/
def policyBehind (project : Project) (policy : Policy) (journal : Journal)
    (front : List Dependent) : Policy :=
  (policy.reconcileAll journal.entries project.workspace front).2.2.foldl Policy.behind policy

/-- What comes of changing the name then. -/
def attempt (project : Project) (policy : Policy) (journal : Journal) (front : List Dependent)
    (change : NameChange) : Except CommitFault Workspace :=
  let workspace := project.workspaceBehind policy journal front
  workspace.commit ((project.policyBehind policy journal front).commitFor workspace change)

/-- What a round has done to the workspace is what it reports. -/
structure Accounted (project : Project) (policy : Policy) (journal : Journal) (next : Project)
    (report : Report) : Prop where
  /-- Every name that was changed took one commit, and no other was accepted. -/
  version : next.workspace.version = project.workspace.version + report.renamed.length
  /-- The entities are those from before, with the reported changes made in their order: each gives
  another name to an entity that has the old name then. -/
  entities : PerformAll (report.renamed.map NameChange.change)
    project.workspace.current.graph.entity? next.workspace.current.graph.entity?
  /-- All the rest of the entities is as before. -/
  unnamed : next.workspace.current.graph.entities.map Entity.unnamed =
    project.workspace.current.graph.entities.map Entity.unnamed
  /-- The urls have their ids still, and under every id the coverage says what it said. -/
  atlas : next.workspace.atlas = project.workspace.atlas
  lookup : ∀ id, next.workspace.current.coverage.lookup id =
    project.workspace.current.coverage.lookup id
  mount : ∀ id, next.workspace.current.coverage.isMount id =
    project.workspace.current.coverage.isMount id
  /-- Whenever a dependent is rewritten and its entity is to get another name, the change is
  reported, or the refusal is, with the path that the dependent stores nevertheless. -/
  attempts : ∀ front dependent back new id oldName newName,
    project.dependents = front ++ dependent :: back → dependent.refusal = none →
    journal.goal? dependent.path = some new → dependent.entity = some id →
    entityNames policy.descriptorExtensions dependent.path new = some (oldName, newName) →
      ((∃ workspace,
          project.attempt policy journal front ⟨id, oldName, newName⟩ = .ok workspace ∧
            ⟨id, oldName, newName⟩ ∈ report.renamed) ∨
        ∃ fault, project.attempt policy journal front ⟨id, oldName, newName⟩ = .error fault ∧
          (new, fault.message) ∈ report.failures) ∧
      (dependent.path, new) ∈ report.updated ∧
      next.dependents[front.length]? = some { dependent.answered with path := new }

theorem renamed_or_refused (project : Project) (policy : Policy) (journal : Journal)
    {front back : List Dependent} {dependent : Dependent} {new : List Char}
    {id oldName newName : String} (hsplit : project.dependents = front ++ dependent :: back)
    (hwilling : dependent.refusal = none) (hgoal : journal.goal? dependent.path = some new)
    (hentity : dependent.entity = some id)
    (hnames : entityNames policy.descriptorExtensions dependent.path new =
      some (oldName, newName)) :
    let round := project.round policy journal.entries
    ((∃ workspace,
        project.attempt policy journal front ⟨id, oldName, newName⟩ = .ok workspace ∧
          ⟨id, oldName, newName⟩ ∈ round.2.renamed) ∨
      ∃ fault, project.attempt policy journal front ⟨id, oldName, newName⟩ = .error fault ∧
        (new, fault.message) ∈ round.2.failures) ∧
    (dependent.path, new) ∈ round.2.updated ∧
    round.1.dependents[front.length]? = some { dependent.answered with path := new } := by
  obtain ⟨hlater, houtcome⟩ :=
    policy.getElem?_reconcileAll project.workspace journal.entries front back dependent
  have hnames' : entityNames (project.policyBehind policy journal front).descriptorExtensions
      dependent.path new = some (oldName, newName) := by
    rwa [policyBehind, Policy.descriptorExtensions_foldl_behind]
  rw [← hsplit, Policy.reconcile_of_goal _ journal _ hgoal hwilling] at hlater houtcome
  have hmem := List.mem_of_getElem? houtcome
  refine ⟨?_, List.mem_filterMap.2 ⟨_, hmem, rfl⟩, hlater⟩
  rw [hentity] at hmem
  rcases Policy.rename_of_names _ (project.workspaceBehind policy journal front) hnames' id with
    ⟨workspace, hattempt, hrename⟩ | ⟨fault, hattempt, hrename⟩
  · rw [workspaceBehind, policyBehind] at hrename
    rw [hrename] at hmem
    exact Or.inl ⟨workspace, hattempt, List.mem_filterMap.2 ⟨_, hmem, rfl⟩⟩
  · rw [workspaceBehind, policyBehind] at hrename
    rw [hrename] at hmem
    exact Or.inr ⟨fault, hattempt, List.mem_filterMap.2 ⟨_, hmem, rfl⟩⟩

theorem accounted_of_upToDate {project : Project} (hupToDate : project.workspace.UpToDate)
    (policy : Policy) (journal : Journal) :
    project.Accounted policy journal (project.round policy journal.entries).1
      (project.round policy journal.entries).2 := by
  have haccounts :=
    policy.accounts_reconcileAll project.workspace journal.entries project.dependents
  have hmatches := haccounts.matching hupToDate
  have hcoverage := hmatches.coverage_eq hupToDate
  refine ⟨haccounts.version_eq, haccounts.performed, hmatches.alike.map_unnamed,
    hmatches.atlas_eq, ?_, ?_, ?_⟩
  · intro id
    exact congrArg (·.lookup id) hcoverage
  · intro id
    exact congrArg (·.isMount id) hcoverage
  · intro front dependent back new id oldName newName hsplit hwilling hgoal hentity hnames
    exact project.renamed_or_refused policy journal hsplit hwilling hgoal hentity hnames

theorem accounted_round (first : Graph) (entered : List Url) (requests : List Request)
    (dependents : List Dependent) (modifications : Nat) (policy : Policy) (journal : Journal) :
    let project : Project :=
      ⟨((Exchange.opened first entered).serveAll requests).workspace, dependents, modifications⟩
    project.Accounted policy journal (project.round policy journal.entries).1
      (project.round policy journal.entries).2 := by
  intro project
  apply accounted_of_upToDate
  exact Exchange.upToDate_serveAll (Exchange.upToDate_opened first entered) requests

end Project

end ProjectRoots
