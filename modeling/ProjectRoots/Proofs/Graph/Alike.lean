import ProjectRoots.Proofs.Graph.Upkeep

/- Workspaces that differ in the names of entities only. Roots belong to the ids of entities, so
   whoever does not ask for names sees no difference.

     1. `Alike.exists_root_iff` — what is said of the roots of a graph and not of names is said of
        all alike graphs: they have the same mounts (`mountAround_eq`).
     2. `alike_of_takes` — a commit that renames an entity makes an alike graph.
     3. `Matches.commit` — and all urls that it enters again are known already, so the atlas is the
        same.
     4. `Matches.coverage_eq` — and so is the coverage, but for its version. -/
namespace ProjectRoots

/-- The entity but for its name. -/
def Entity.unnamed (entity : Entity) : Entity :=
  { entity with name := "" }

theorem Entity.unnamed_eq_iff {a b : Entity} :
    a.unnamed = b.unnamed ↔ a.id = b.id ∧ a.kind = b.kind ∧ a.roots = b.roots := by
  simp [unnamed]

namespace Graph

/-- Under every id both graphs have the same entity but for its name. -/
def Alike (first second : Graph) : Prop :=
  ∀ id, (second.entity? id).map Entity.unnamed = (first.entity? id).map Entity.unnamed

namespace Alike
variable {first second : Graph}

theorem refl (graph : Graph) : graph.Alike graph :=
  fun _ => rfl

theorem symm (halike : first.Alike second) : second.Alike first :=
  fun id => (halike id).symm

theorem trans {third : Graph} (hfirst : first.Alike second) (hsecond : second.Alike third) :
    first.Alike third :=
  fun id => (hsecond id).trans (hfirst id)

theorem exists_mem (halike : first.Alike second) {entity : Entity}
    (hmem : entity ∈ first.entities) :
    ∃ other ∈ second.entities, other.unnamed = entity.unnamed := by
  have hsame := halike entity.id
  rw [entity?_eq_some_iff.2 ⟨hmem, rfl⟩, Option.map_some] at hsame
  obtain ⟨other, hother, hunnamed⟩ := Option.map_eq_some_iff.1 hsame
  exact ⟨other, (entity?_eq_some_iff.1 hother).1, hunnamed⟩

/-- Alike graphs list the same entities in the same order, but for their names. -/
theorem map_unnamed (halike : first.Alike second) :
    second.entities.map Entity.unnamed = first.entities.map Entity.unnamed := by
  apply Ascending.eq_of_mem_iff Entity.precedes_irrefl Entity.precedes_trans
  · exact List.pairwise_map.2 second.ascending
  · exact List.pairwise_map.2 first.ascending
  · have hcarry : ∀ {a b : Graph}, a.Alike b → ∀ entity,
        entity ∈ a.entities.map Entity.unnamed → entity ∈ b.entities.map Entity.unnamed := by
      intro a b hab entity hmem
      obtain ⟨found, hfound, rfl⟩ := List.mem_map.1 hmem
      obtain ⟨other, hother, hsame⟩ := hab.exists_mem hfound
      exact List.mem_map.2 ⟨other, hother, hsame⟩
    intro entity
    exact ⟨hcarry halike.symm entity, hcarry halike entity⟩

theorem references_eq (halike : first.Alike second) : second.references = first.references := by
  have hunnamed : ∀ graph : Graph,
      graph.references = (graph.entities.map Entity.unnamed).flatMap Entity.references := by
    intro graph
    rw [references, List.flatMap_map]
    rfl
  rw [hunnamed second, hunnamed first, halike.map_unnamed]

theorem exists_root_iff (halike : first.Alike second) {holds : Entity → Root → Prop}
    (hnameless : ∀ a b : Entity, a.unnamed = b.unnamed → ∀ root, holds a root → holds b root) :
    (∃ entity ∈ second.entities, ∃ root ∈ entity.roots, holds entity root) ↔
      ∃ entity ∈ first.entities, ∃ root ∈ entity.roots, holds entity root := by
  have hcarry : ∀ {a b : Graph}, a.Alike b →
      (∃ entity ∈ a.entities, ∃ root ∈ entity.roots, holds entity root) →
        ∃ entity ∈ b.entities, ∃ root ∈ entity.roots, holds entity root := by
    intro a b hab h
    obtain ⟨entity, hentity, root, hroot, hholds⟩ := h
    obtain ⟨other, hother, hsame⟩ := hab.exists_mem hentity
    rw [← (Entity.unnamed_eq_iff.1 hsame).2.2] at hroot
    exact ⟨other, hother, root, hroot, hnameless entity other hsame.symm root hholds⟩
  exact ⟨hcarry halike.symm, hcarry halike⟩

theorem mem_mounts_iff (halike : first.Alike second) {url : Url} :
    url ∈ second.mounts ↔ url ∈ first.mounts := by
  rw [Graph.mem_mounts_iff, Graph.mem_mounts_iff]
  exact halike.exists_root_iff fun _ _ _ _ hmounts => hmounts

theorem mountAround_eq (halike : first.Alike second) (url : Url) :
    second.mountAround url = first.mountAround url := by
  have hcontains : second.mounts.contains = first.mounts.contains := by
    funext mount
    rw [Bool.eq_iff_iff, List.contains_iff_mem, List.contains_iff_mem, halike.mem_mounts_iff]
  rw [mountAround, mountAround, hcontains]

end Alike

theorem alike_of_takes {graph next : Graph} {base : Nat} {id old new : String}
    (htakes : graph.Takes ⟨base, [.rename id old new]⟩ next) : graph.Alike next := by
  have hperformed := htakes.performed
  unfold Alike
  -- The rename is the only change, and under its id there is the same entity with another name.
  generalize next.entity? = later at hperformed ⊢
  obtain _ | ⟨hrename, hnil⟩ := hperformed
  cases hnil
  cases hrename with
  | rename hfound hname =>
    intro other
    rw [Function.update_apply]
    split
    · rename_i hid
      rw [hid, hfound]
      rfl
    · rfl

end Graph

namespace Workspace

/-- The workspace is up to date, and nothing but names of entities is different in it. -/
structure Matches (first workspace : Workspace) : Prop where
  upToDate : workspace.UpToDate
  alike : first.current.graph.Alike workspace.current.graph
  atlas_eq : workspace.atlas = first.atlas

theorem UpToDate.matches_self {workspace : Workspace} (hupToDate : workspace.UpToDate) :
    workspace.Matches workspace :=
  ⟨hupToDate, .refl _, rfl⟩

/-- The urls of the roots of a workspace are known, so taking the coverage of an alike graph enters
nothing. -/
theorem UpToDate.atlas_load {workspace : Workspace} (hupToDate : workspace.UpToDate)
    {graph : Graph} (halike : workspace.current.graph.Alike graph) :
    (load graph workspace.atlas).atlas = workspace.atlas := by
  apply Coverage.atlas_foldl_post
  intro item hitem url hdenotes
  obtain ⟨entity, hentity, root, hroot, rfl⟩ := Graph.mem_references.1 hitem
  -- The present graph has a root for this url as well, and its coverage was taken.
  have hthere : ∃ entity ∈ workspace.current.graph.entities, ∃ root ∈ entity.roots,
      root.Denotes url :=
    (halike.exists_root_iff fun _ _ _ _ h => h).1 ⟨entity, hentity, root, hroot, hdenotes⟩
  obtain ⟨other, hother, same, hsame, hdenotesSame⟩ := hthere
  exact hupToDate.tracks.known _ (Graph.mem_references.2 ⟨other, hother, same, hsame, rfl⟩) url
    hdenotesSame

theorem Matches.trans {first workspace next : Workspace} (hmatches : first.Matches workspace)
    (hnext : workspace.Matches next) : first.Matches next :=
  ⟨hnext.upToDate, hmatches.alike.trans hnext.alike, hnext.atlas_eq.trans hmatches.atlas_eq⟩

/-- The coverages of matching workspaces are the same but for the version. -/
theorem Matches.coverage_eq {first workspace : Workspace} (hfirst : first.UpToDate)
    (hmatches : first.Matches workspace) :
    workspace.current.coverage =
      { first.current.coverage with version := workspace.version } := by
  rw [hmatches.upToDate.coverage_eq, hfirst.coverage_eq, hmatches.atlas_eq, Coverage.ofGraph,
    Coverage.ofGraph, hmatches.alike.references_eq]
  exact congrArg Prod.fst (Coverage.foldl_post_version workspace.version
    (⟨first.version, [], []⟩, first.atlas) first.current.graph.references)

theorem Matches.commit {first workspace next : Workspace} (hmatches : first.Matches workspace)
    {base : Nat} {id old new : String}
    (haccepted : workspace.commit ⟨base, [.rename id old new]⟩ = .ok next) :
    first.Matches next := by
  have hnext := hmatches.upToDate.commit haccepted
  obtain ⟨graph, htakes, rfl⟩ := commit_eq_ok_iff.1 haccepted
  have halike := Graph.alike_of_takes htakes
  refine ⟨hnext, hmatches.alike.trans halike, ?_⟩
  rw [hmatches.upToDate.atlas_load halike]
  exact hmatches.atlas_eq

end Workspace

end ProjectRoots
