import Mathlib.Data.List.Forall2
import Mathlib.Tactic.ByContra
import ProjectRoots.Proofs.Dependent.Round
import ProjectRoots.Proofs.Graph.Lookup

/- Entities that are named after stored files. A round that takes a dependent to a descriptor
   renames its entity, if the entity has the title of the path that was stored until then.

     1. `commit_rename_of_name`, `commit_rename_of_name_ne` — when a commit that renames an entity
        is accepted, and which names there are then.
     2. `rename_cases` — so all that a rewritten dependent can do to the names.
     3. `follows_reconcile`, `follows_round` — what a round makes of the stored paths and the names,
        of one dependent and of all.
     4. `titled_iff_recovers` — behind any rounds an entity has the title of the stored path if and
        only if its name was the title of a stored path again whenever a path was stored that is no
        descriptor. -/
namespace ProjectRoots

/-! ## Names in a graph -/

namespace Graph

theorem apply_rename (graph : Graph) (id old new : String) :
    graph.apply ⟨graph.version, [.rename id old new]⟩ =
      match graph.entity? id with
      | some entity =>
        if entity.name = old then
          .ok { graph.put { entity with name := new } with version := graph.version + 1 }
        else .error (.nameMismatch id entity.name old)
      | none => .error (.unknownEntity id) := by
  simp only [apply, changeAll, change, if_true]
  cases graph.entity? id with
  | none => rfl
  | some entity =>
    simp only
    by_cases hname : entity.name = old
    · simp only [hname, if_true]
    · simp only [hname, if_false]

end Graph

namespace Workspace

/-- The name of the entity with this id. -/
def name? (workspace : Workspace) (id : String) : Option String :=
  (workspace.current.graph.entity? id).map Entity.name

/-- The name of the entity that a dependent belongs to. -/
def nameOf (workspace : Workspace) (dependent : Dependent) : Option String :=
  dependent.entity.bind workspace.name?

/-- A rename is carried out if the entity has the name that it is to lose. -/
theorem commit_rename_of_name {workspace : Workspace} {id old : String}
    (hname : workspace.name? id = some old) (new : String) :
    ∃ next, workspace.commit ⟨workspace.version, [.rename id old new]⟩ = .ok next ∧
      ∀ other, next.name? other = if other = id then some new else workspace.name? other := by
  obtain ⟨entity, hentity, rfl⟩ := Option.map_eq_some_iff.1 hname
  have happly := Graph.apply_rename workspace.current.graph id entity.name new
  simp only [hentity, if_true] at happly
  refine ⟨load { workspace.current.graph.put { entity with name := new } with
    version := workspace.current.graph.version + 1 } workspace.atlas, ?_, ?_⟩
  · simp only [commit, version, happly]
  · intro other
    show ((workspace.current.graph.put { entity with name := new }).entity? other).map _ = _
    rw [Graph.entity?_put, Function.update_apply]
    simp only [Graph.id_of_entity? hentity, name?]
    split <;> rfl

theorem commit_rename_of_name_ne {workspace : Workspace} {id old : String}
    (hname : workspace.name? id ≠ some old) (new : String) :
    ∃ fault, workspace.commit ⟨workspace.version, [.rename id old new]⟩ = .error fault := by
  have happly := Graph.apply_rename workspace.current.graph id old new
  unfold commit version
  cases hentity : workspace.current.graph.entity? id with
  | none =>
    rw [hentity] at happly
    simp [happly]
  | some entity =>
    have hother : entity.name ≠ old := by
      rintro rfl
      exact hname (by simp [name?, hentity])
    simp only [hentity, hother, if_false] at happly
    simp [happly]

end Workspace

/-! ## Titles -/

/-- The name that an entity gets from a path. -/
def titleOf (path : List Char) : Option String :=
  (FileName.stem? path).map String.ofList

/-- Whether the path is that of a descriptor. -/
def describes (extensions : List String) (path : List Char) : Bool :=
  match FileName.extension? path with
  | some extension =>
    extensions.any fun known => FileName.sameLetters known.toList extension
  | none => false

theorem titleOf_ne_none {extensions : List String} {path : List Char}
    (hdescribes : describes extensions path = true) : titleOf path ≠ none := by
  unfold describes FileName.extension? at hdescribes
  unfold titleOf FileName.stem?
  cases hname : FileName.name? path with
  | none => simp [hname] at hdescribes
  | some name => simp

theorem entityNames_eq_some_iff {extensions : List String} {old new : List Char}
    {oldName newName : String} :
    entityNames extensions old new = some (oldName, newName) ↔ describes extensions new = true ∧
      titleOf old = some oldName ∧ titleOf new = some newName ∧ oldName ≠ newName := by
  unfold entityNames describes titleOf
  cases FileName.extension? new with
  | none => simp
  | some extension =>
    cases FileName.stem? old with
    | none => simp
    | some stem =>
      cases FileName.stem? new with
      | none => simp
      | some stem' =>
        simp only [Option.map_some, Option.some.injEq, Option.ite_none_right_eq_some,
          Prod.mk.injEq]
        constructor
        · rintro ⟨⟨hknown, hne⟩, rfl, rfl⟩
          exact ⟨hknown, rfl, rfl, fun hsame => hne (String.ofList_injective hsame)⟩
        · rintro ⟨hknown, rfl, rfl, hne⟩
          exact ⟨⟨hknown, fun hsame => hne (congrArg String.ofList hsame)⟩, rfl, rfl⟩

/-- What a dependent stores, and the name of its entity. -/
structure Sighting where
  path : List Char
  name : Option String
deriving DecidableEq

namespace Sighting

/-- The entity is named after the stored path. -/
def Titled (sighting : Sighting) : Prop :=
  titleOf sighting.path = sighting.name

instance (sighting : Sighting) : Decidable sighting.Titled :=
  inferInstanceAs (Decidable (titleOf sighting.path = sighting.name))

/-- What comes of a sighting with the next stored path: only a title is exchanged for another one,
and only for that of a descriptor. -/
structure Follows (extensions : List String) (sighting next : Sighting) : Prop where
  taken : describes extensions next.path = true → sighting.Titled → next.Titled
  left : ¬(describes extensions next.path = true ∧ sighting.Titled) → next.name = sighting.name

theorem Follows.refl {extensions : List String} (sighting : Sighting) :
    sighting.Follows extensions sighting :=
  ⟨fun _ htitled => htitled, fun _ => rfl⟩

theorem Follows.name_ne_none {extensions : List String} {sighting next : Sighting}
    (hfollows : sighting.Follows extensions next) (hname : sighting.name ≠ none) :
    next.name ≠ none := by
  by_cases htaken : describes extensions next.path = true ∧ sighting.Titled
  · have htitled : titleOf next.path = next.name := hfollows.taken htaken.1 htaken.2
    rw [← htitled]
    exact titleOf_ne_none htaken.1
  · rwa [hfollows.left htaken]

/-- Whenever a path is stored that is no descriptor, the name of that moment is the title of a path
stored then or later. -/
def Recovers (extensions : List String) : List Sighting → Prop
  | [] => True
  | sighting :: back =>
    (describes extensions sighting.path = false →
      ∃ later ∈ sighting :: back, titleOf later.path = sighting.name) ∧ Recovers extensions back

/-- The induction is on what follows. If the first name is a title, the second one is one too, or
the second path is no descriptor and the name recovers; otherwise the two names are the same. -/
theorem titled_last_iff {extensions : List String} {sighting last : Sighting}
    {back : List Sighting} (hchain : (sighting :: back).IsChain (Follows extensions))
    (hlast : (sighting :: back).getLast? = some last) :
    last.Titled ↔ Recovers extensions (sighting :: back) ∧
      ∃ later ∈ sighting :: back, titleOf later.path = sighting.name := by
  induction back generalizing sighting with
  | nil =>
    obtain rfl : sighting = last := by simpa using hlast
    simp only [Recovers, List.mem_singleton, exists_eq_left, and_true]
    exact ⟨fun htitled => ⟨fun _ => htitled, htitled⟩, fun h => h.2⟩
  | cons next rest ih =>
    obtain ⟨hfollows, hrest⟩ := List.isChain_cons_cons.1 hchain
    rw [ih hrest (by simpa using hlast)]
    by_cases htitled : sighting.Titled
    · have hnow : ∃ later ∈ sighting :: next :: rest, titleOf later.path = sighting.name :=
        ⟨sighting, List.mem_cons_self, htitled⟩
      constructor
      · rintro ⟨hrecovers, _⟩
        exact ⟨⟨fun _ => hnow, hrecovers⟩, hnow⟩
      · rintro ⟨⟨_, hrecovers⟩, _⟩
        refine ⟨hrecovers, ?_⟩
        cases hdescribes : describes extensions next.path with
        | true => exact ⟨next, List.mem_cons_self, hfollows.taken hdescribes htitled⟩
        | false => exact hrecovers.1 hdescribes
    · have hname : next.name = sighting.name := hfollows.left fun h => htitled h.2
      have hlater : (∃ later ∈ sighting :: next :: rest, titleOf later.path = sighting.name) ↔
          ∃ later ∈ next :: rest, titleOf later.path = next.name := by
        rw [hname, List.exists_mem_cons_iff]
        exact or_iff_right htitled
      rw [hlater]
      constructor
      · rintro ⟨hrecovers, hagain⟩
        exact ⟨⟨fun _ => hlater.2 hagain, hrecovers⟩, hagain⟩
      · rintro ⟨⟨_, hrecovers⟩, hagain⟩
        exact ⟨hrecovers, hagain⟩

end Sighting

namespace Workspace

/-- What a dependent stores, and the name of its entity. -/
def sight (workspace : Workspace) (dependent : Dependent) : Sighting :=
  ⟨dependent.path, workspace.nameOf dependent⟩

theorem sight_congr {workspace next : Workspace} {dependent : Dependent}
    (hsame : ∀ id, dependent.entity = some id → next.name? id = workspace.name? id) :
    next.sight dependent = workspace.sight dependent := by
  unfold sight nameOf
  cases hentity : dependent.entity with
  | none => rfl
  | some id =>
    rw [Option.bind_some, Option.bind_some, hsame id hentity]

/-- Every dependent stores what it is told to store, and has an entity of its own. -/
structure Staffs (workspace : Workspace) (dependents : List Dependent) : Prop where
  willing : ∀ dependent ∈ dependents, dependent.Willing
  distinct : dependents.Pairwise fun first second => first.entity ≠ second.entity
  present : ∀ dependent ∈ dependents, workspace.nameOf dependent ≠ none

end Workspace

/-- Every commit is made for the version that the graph has then. -/
structure Policy.Fresh (policy : Policy) : Prop where
  base : policy.base = Workspace.version
  later : ∀ commits, policy.later commits = Workspace.version

theorem Policy.Fresh.behind {policy : Policy} (hfresh : policy.Fresh) (outcome : Outcome) :
    (policy.behind outcome).Fresh := by
  unfold Policy.behind
  split
  · exact ⟨hfresh.later 0, fun commits => hfresh.later (commits + 1)⟩
  · exact hfresh

/-! ## One dependent -/

namespace Policy
variable {policy : Policy} (hfresh : policy.Fresh)
include hfresh

/-- All that a rename can do: it exchanges one name, or there is nothing to exchange or another name
than that of the old path. -/
theorem rename_cases (workspace : Workspace) (entity : Option String) (old new : List Char) :
    (∃ id oldName newName, entity = some id ∧
      entityNames policy.descriptorExtensions old new = some (oldName, newName) ∧
      workspace.name? id = some oldName ∧
      ∀ other, (policy.rename workspace entity old new).1.name? other =
        if other = id then some newName else workspace.name? other) ∨
    ((∀ id oldName newName, entity = some id →
      entityNames policy.descriptorExtensions old new = some (oldName, newName) →
        workspace.name? id ≠ some oldName) ∧
      (policy.rename workspace entity old new).1 = workspace) := by
  unfold rename
  simp only [hfresh.base]
  cases entity with
  | none => exact Or.inr ⟨by simp, rfl⟩
  | some id =>
    cases hnames : entityNames policy.descriptorExtensions old new with
    | none => exact Or.inr ⟨by simp, rfl⟩
    | some names =>
      obtain ⟨oldName, newName⟩ := names
      by_cases hname : workspace.name? id = some oldName
      · obtain ⟨next, hcommit, hnext⟩ := Workspace.commit_rename_of_name hname newName
        refine Or.inl ⟨id, oldName, newName, rfl, rfl, hname, ?_⟩
        simpa only [hcommit] using hnext
      · obtain ⟨fault, hcommit⟩ := Workspace.commit_rename_of_name_ne hname newName
        refine Or.inr ⟨?_, by simp only [hcommit]⟩
        rintro _ _ _ ⟨⟩ ⟨⟩
        exact hname

theorem name?_rename_other (workspace : Workspace) {entity : Option String} {id : String}
    (hother : entity ≠ some id) (old new : List Char) :
    (policy.rename workspace entity old new).1.name? id = workspace.name? id := by
  rcases rename_cases hfresh workspace entity old new with
    ⟨own, _, _, rfl, _, _, hnames⟩ | ⟨_, hsame⟩
  · rw [hnames, if_neg fun h => hother (congrArg some h.symm)]
  · rw [hsame]

theorem follows_rename {workspace : Workspace} {id : String} (hname : workspace.name? id ≠ none)
    (old new : List Char) :
    Sighting.Follows policy.descriptorExtensions ⟨old, workspace.name? id⟩
      ⟨new, (policy.rename workspace (some id) old new).1.name? id⟩ := by
  rcases rename_cases hfresh workspace (some id) old new with
    ⟨own, oldName, newName, hid, hnames, hold, hnext⟩ | ⟨hnothing, hsame⟩
  · obtain rfl := Option.some.inj hid
    obtain ⟨hdescribes, htitle, hnew, _⟩ := entityNames_eq_some_iff.1 hnames
    have hnext := hnext id
    rw [if_pos rfl] at hnext
    refine ⟨?_, ?_⟩
    · intro _ _
      exact hnew.trans hnext.symm
    · intro hleft
      exact absurd ⟨hdescribes, htitle.trans hold.symm⟩ hleft
  · rw [hsame]
    refine ⟨?_, fun _ => rfl⟩
    intro hdescribes htitled
    -- The two titles are the same, for else the name would have been exchanged.
    obtain ⟨name, hname⟩ := Option.ne_none_iff_exists'.1 hname
    obtain ⟨newName, hnew⟩ := Option.ne_none_iff_exists'.1 (titleOf_ne_none hdescribes)
    have hold : titleOf old = some name := Eq.trans htitled hname
    have hsame : name = newName := by
      by_contra hne
      exact hnothing id name newName rfl
        (entityNames_eq_some_iff.2 ⟨hdescribes, hold, hnew, hne⟩) hname
    show titleOf new = workspace.name? id
    rw [hnew, hname, hsame]

theorem name?_reconcile_other (relocations : List Relocation) (workspace : Workspace)
    {dependent : Dependent} {id : String} (hother : dependent.entity ≠ some id) :
    (policy.reconcile relocations workspace dependent).1.name? id = workspace.name? id := by
  rcases policy.reconcile_cases workspace relocations dependent with
    ⟨_, _, _, _, _, hturn⟩ | ⟨_, hturn⟩
  · rw [hturn]
  · rw [hturn]
    exact name?_rename_other hfresh workspace hother _ _

theorem follows_reconcile (relocations : List Relocation) {workspace : Workspace}
    {dependent : Dependent} (hpresent : workspace.nameOf dependent ≠ none) :
    Sighting.Follows policy.descriptorExtensions (workspace.sight dependent)
      ((policy.reconcile relocations workspace dependent).1.sight
        (policy.reconcile relocations workspace dependent).2.1) := by
  rcases policy.reconcile_cases workspace relocations dependent with
    ⟨later, outcome, hpath, hentity, _, hturn⟩ | ⟨positions, hturn⟩
  · have hsame : workspace.sight later = workspace.sight dependent := by
      rw [Workspace.sight, Workspace.sight, Workspace.nameOf, Workspace.nameOf, hpath, hentity]
    rw [hturn, hsame]
    exact .refl _
  · rw [hturn]
    obtain ⟨path, entity, refusal, answers⟩ := dependent
    cases entity with
    | none => exact absurd rfl hpresent
    | some id => exact follows_rename hfresh hpresent path (replay relocations path)

end Policy

/-! ## All dependents -/

theorem exists_of_forall₂ {α β : Type} {related : α → β → Prop} {first : List α} {second : List β}
    (hrelated : List.Forall₂ related first second) {position : Nat} {a : α}
    (ha : first[position]? = some a) : ∃ b, second[position]? = some b ∧ related a b := by
  induction hrelated generalizing position with
  | nil => cases ha
  | cons hhead _ ih =>
    cases position with
    | zero =>
      obtain rfl := Option.some.inj ha
      exact ⟨_, rfl, hhead⟩
    | succ position => exact ih ha

namespace Policy

theorem name?_reconcileAll_other {policy : Policy} (hfresh : policy.Fresh)
    (relocations : List Relocation) (workspace : Workspace) {dependents : List Dependent}
    {id : String}
    (hother : ∀ dependent ∈ dependents, dependent.entity ≠ some id) :
    (policy.reconcileAll relocations workspace dependents).1.name? id = workspace.name? id := by
  induction dependents generalizing policy workspace with
  | nil => rfl
  | cons dependent rest ih =>
    have hrest := ih (hfresh.behind (policy.reconcile relocations workspace dependent).2.2)
      (policy.reconcile relocations workspace dependent).1
      (fun other hmem => hother other (List.mem_cons_of_mem _ hmem))
    have hfirst := name?_reconcile_other hfresh relocations workspace
      (hother dependent List.mem_cons_self)
    rw [← hfirst, ← hrest]
    rfl

/-- The induction is on the dependents. No dependent touches the name of the entity of another. -/
theorem follows_reconcileAll {policy : Policy} (hfresh : policy.Fresh)
    {relocations : List Relocation} (hrenames : Renames relocations) {workspace : Workspace}
    {dependents : List Dependent}
    (hstaffs : workspace.Staffs dependents) :
    List.Forall₂ (Sighting.Follows policy.descriptorExtensions)
      (dependents.map workspace.sight)
      ((policy.reconcileAll relocations workspace dependents).2.1.map
        (policy.reconcileAll relocations workspace dependents).1.sight) := by
  induction dependents generalizing policy workspace with
  | nil => exact .nil
  | cons dependent rest ih =>
    obtain ⟨hwilling, hdistinct, hpresent⟩ := hstaffs
    obtain ⟨hothers, hdistinct⟩ := List.pairwise_cons.1 hdistinct
    have hself := follows_reconcile hfresh relocations (hpresent dependent List.mem_cons_self)
    have hmoved := policy.dependent_reconcile hrenames workspace
      (hwilling dependent List.mem_cons_self)
    generalize hfirst : policy.reconcile relocations workspace dependent = first at hself hmoved
    have hrest : ∀ other ∈ rest, first.1.sight other = workspace.sight other := by
      intro other hmem
      apply Workspace.sight_congr
      intro id hid
      rw [← hfirst]
      apply name?_reconcile_other hfresh
      rw [← hid]
      exact hothers other hmem
    have hstill := hfresh.behind first.2.2
    have hlast : ((policy.behind first.2.2).reconcileAll relocations first.1 rest).1.sight
        first.2.1 = first.1.sight first.2.1 := by
      apply Workspace.sight_congr
      intro id hid
      apply name?_reconcileAll_other hstill
      intro other hmem hsame
      apply hothers other hmem
      rw [hmoved] at hid
      exact hid.trans hsame.symm
    have htail := @ih (policy.behind first.2.2) hstill first.1
      ⟨fun other hmem => hwilling other (List.mem_cons_of_mem _ hmem), hdistinct, by
        intro other hmem
        rw [show first.1.nameOf other = workspace.nameOf other from
          congrArg Sighting.name (hrest other hmem)]
        exact hpresent other (List.mem_cons_of_mem _ hmem)⟩
    rw [List.map_congr_left hrest, policy.descriptorExtensions_behind] at htail
    unfold reconcileAll
    rw [hfirst]
    simp only [List.map_cons]
    rw [hlast]
    exact .cons hself htail

end Policy

namespace Project

/-- What the dependents store, and the names of their entities. -/
def sightings (project : Project) : List Sighting :=
  project.dependents.map project.workspace.sight

/-- The project behind rounds, one after another. -/
def rounds (project : Project) (policy : Policy) (rounds : List (List Relocation)) : Project :=
  rounds.foldl (fun project relocations => (project.round policy relocations).1) project

/-- What a dependent stores and the name of its entity, at first and behind each round. -/
def history (project : Project) (policy : Policy) (position : Nat)
    (rounds : List (List Relocation)) : List Sighting :=
  (rounds.scanl (fun project relocations => (project.round policy relocations).1)
    project).filterMap fun project => project.sightings[position]?

section
variable {policy : Policy} (hfresh : policy.Fresh) {project : Project}
  (hstaffs : project.workspace.Staffs project.dependents) {relocations : List Relocation}
  (hrenames : Renames relocations)
include hfresh hstaffs hrenames

theorem follows_round :
    List.Forall₂ (Sighting.Follows policy.descriptorExtensions) project.sightings
      (project.round policy relocations).1.sightings :=
  Policy.follows_reconcileAll hfresh hrenames hstaffs

theorem staffs_round :
    (project.round policy relocations).1.workspace.Staffs
      (project.round policy relocations).1.dependents := by
  have hfollows := follows_round hfresh hstaffs hrenames
  have hdependents := project.dependents_round policy hrenames hstaffs.willing
  refine ⟨?_, ?_, ?_⟩
  · rw [hdependents]
    intro dependent hmem
    obtain ⟨first, hfirst, rfl⟩ := List.mem_map.1 hmem
    exact (hstaffs.willing first hfirst).moved _
  · rw [hdependents]
    exact List.pairwise_map.2 hstaffs.distinct
  · intro dependent hmem
    obtain ⟨position, hposition⟩ := List.mem_iff_getElem?.1 hmem
    have hsight : (project.round policy relocations).1.sightings[position]? =
        some ((project.round policy relocations).1.workspace.sight dependent) := by
      rw [sightings, List.getElem?_map, hposition, Option.map_some]
    obtain ⟨before, hbefore, hstep⟩ := exists_of_forall₂ hfollows.flip hsight
    apply Sighting.Follows.name_ne_none hstep
    obtain ⟨first, hfirst, rfl⟩ := List.mem_map.1 (List.mem_of_getElem? hbefore)
    exact hstaffs.present first hfirst

end

/-! ## Rounds -/

section
variable {policy : Policy} (hfresh : policy.Fresh) {project : Project}
  (hstaffs : project.workspace.Staffs project.dependents) {rounds : List (List Relocation)}
  (hrenames : ∀ relocations ∈ rounds, Renames relocations) {position : Nat}
include hfresh hstaffs hrenames

/-- Rounds bring no dependents. -/
theorem exists_first {last : Sighting}
    (hlast : (project.rounds policy rounds).sightings[position]? = some last) :
    ∃ first, project.sightings[position]? = some first := by
  induction rounds generalizing project with
  | nil => exact ⟨last, hlast⟩
  | cons relocations rest ih =>
    have hround := hrenames relocations List.mem_cons_self
    obtain ⟨next, hnext⟩ := ih (staffs_round hfresh hstaffs hround)
      (fun later hmem => hrenames later (List.mem_cons_of_mem _ hmem)) hlast
    obtain ⟨first, hfirst, _⟩ :=
      exists_of_forall₂ (follows_round hfresh hstaffs hround).flip hnext
    exact ⟨first, hfirst⟩

theorem isChain_history {first : Sighting}
    (hfirst : project.sightings[position]? = some first) :
    ∃ back, project.history policy position rounds = first :: back ∧
      (first :: back).IsChain (Sighting.Follows policy.descriptorExtensions) ∧
      (project.rounds policy rounds).sightings[position]? = (first :: back).getLast? := by
  induction rounds generalizing project first with
  | nil => exact ⟨[], by simp [history, hfirst], .singleton first, by simpa [Project.rounds]⟩
  | cons relocations rest ih =>
    have hround := hrenames relocations List.mem_cons_self
    obtain ⟨next, hnext, hfollows⟩ :=
      exists_of_forall₂ (follows_round hfresh hstaffs hround) hfirst
    obtain ⟨back, hhistory, hchain, hlast⟩ := ih (staffs_round hfresh hstaffs hround)
      (fun later hmem => hrenames later (List.mem_cons_of_mem _ hmem)) hnext
    refine ⟨next :: back, ?_, .cons_cons hfollows hchain, ?_⟩
    · rw [← hhistory, history, List.scanl_cons, List.filterMap_cons]
      simp only [hfirst]
      rfl
    · rw [List.getLast?_cons_cons, ← hlast]
      rfl

end

/-- Every dependent stores what it is told to store, and it stores a descriptor that an entity of
its own is named after. -/
structure Named (project : Project) (policy : Policy) : Prop where
  willing : ∀ dependent ∈ project.dependents, dependent.Willing
  distinct : project.dependents.Pairwise fun first second => first.entity ≠ second.entity
  descriptor : ∀ sighting ∈ project.sightings,
    describes policy.descriptorExtensions sighting.path = true ∧ sighting.Titled

theorem Named.staffs {project : Project} {policy : Policy} (hnamed : project.Named policy) :
    project.workspace.Staffs project.dependents where
  willing := hnamed.willing
  distinct := hnamed.distinct
  present := by
    intro dependent hmem
    obtain ⟨hdescribes, htitled⟩ := hnamed.descriptor _ (List.mem_map_of_mem hmem)
    have hname : titleOf dependent.path = project.workspace.nameOf dependent := htitled
    rw [← hname]
    exact titleOf_ne_none hdescribes

theorem titled_iff_recovers {policy : Policy} (hfresh : policy.Fresh)
    {project : Project} (hnamed : project.Named policy) {rounds : List (List Relocation)}
    (hrenames : ∀ relocations ∈ rounds, Renames relocations) {position : Nat} {last : Sighting}
    (hlast : (project.rounds policy rounds).sightings[position]? = some last) :
    last.name = titleOf last.path ↔
      Sighting.Recovers policy.descriptorExtensions
        (project.history policy position rounds) := by
  obtain ⟨first, hfirst⟩ := exists_first hfresh hnamed.staffs hrenames hlast
  obtain ⟨back, hhistory, hchain, hend⟩ :=
    isChain_history hfresh hnamed.staffs hrenames hfirst
  have htitled : first.Titled := (hnamed.descriptor first (List.mem_of_getElem? hfirst)).2
  rw [hhistory, eq_comm]
  refine (Sighting.titled_last_iff hchain (hend.symm.trans hlast)).trans (and_iff_left ?_)
  exact ⟨first, List.mem_cons_self, htitled⟩

/-- Module files carry the names of modules. -/
def moduleFiles : Policy where
  descriptorExtensions := ["iml"]

/-- Two modules, and their descriptors. -/
def pair : Project where
  workspace := Workspace.ofGraph (Graph.ofList
    [⟨"module:a", .module, "a", []⟩, ⟨"module:b", .module, "b", []⟩])
  dependents := [{ path := "/p/a.iml".toList, entity := some "module:a" },
    { path := "/p/b.iml".toList, entity := some "module:b" }]

theorem fresh_moduleFiles : moduleFiles.Fresh :=
  ⟨rfl, fun _ => rfl⟩

theorem named_pair : pair.Named moduleFiles := by
  refine ⟨?_, by decide, by decide +kernel⟩
  intro dependent hmem
  rcases List.mem_pair.1 hmem with rfl | rfl <;> exact ⟨rfl, fun _ => rfl⟩

/-- A rename of a file. -/
def renamed (old new : String) : Relocation :=
  ⟨old.toList, new.toList, .rename, false⟩

/-- The first descriptor becomes another one by a detour, and the second one meanwhile. -/
def detour : List (List Relocation) :=
  [[renamed "/p/a.iml" "/p/x.txt"],
   [renamed "/p/x.txt" "/p/a.txt", renamed "/p/b.iml" "/p/d.IML"],
   [renamed "/p/a.txt" "/p/c.iml"]]

theorem titled_iff_recovers_detour :
    (moduleFiles.Fresh ∧ pair.Named moduleFiles ∧
      ∀ relocations ∈ detour, Renames relocations) ∧
      (pair.rounds moduleFiles detour).sightings[0]? = some ⟨"/p/c.iml".toList, some "c"⟩ ∧
      (some "c" = titleOf "/p/c.iml".toList ↔
        Sighting.Recovers ["iml"] (pair.history moduleFiles 0 detour)) := by
  have hrenames : ∀ relocations ∈ detour, Renames relocations := by decide
  have hlast : (pair.rounds moduleFiles detour).sightings[0]? =
      some ⟨"/p/c.iml".toList, some "c"⟩ := by
    decide +kernel
  exact ⟨⟨fresh_moduleFiles, named_pair, hrenames⟩, hlast,
    titled_iff_recovers fresh_moduleFiles named_pair hrenames hlast⟩

/-- The first descriptor loses its extension together with its name. -/
def astray : List (List Relocation) :=
  [[renamed "/p/a.iml" "/p/b.txt"], [renamed "/p/b.txt" "/p/c.iml"]]

theorem not_titled_astray :
    (moduleFiles.Fresh ∧ pair.Named moduleFiles ∧
      ∀ relocations ∈ astray, Renames relocations) ∧
      (pair.rounds moduleFiles astray).sightings[0]? = some ⟨"/p/c.iml".toList, some "a"⟩ ∧
      describes ["iml"] "/p/c.iml".toList = true ∧
      titleOf "/p/c.iml".toList = some "c" :=
  ⟨⟨fresh_moduleFiles, named_pair, by decide⟩, by decide +kernel, by decide +kernel,
    by decide +kernel⟩

end Project

end ProjectRoots
