import ProjectRoots.Proofs.Ascending
import ProjectRoots.Proofs.Coverage.Tracking

/- A coverage answers what a direct scan of its graph finds. The scan goes through all roots and
   reads their texts; a coverage goes through an atlas that others use as well.

     1. `mem_pathIds_iff` — of the known urls, those at the path or below it are the ones that have
        the path on their chain of containers.
     2. `mountOver_eq` — the nearest mount that the coverage knows is the nearest one of the graph.
     3. `agrees_affected`, `affected_agrees` — so the answer is the one of the scan, with the
        atlas that the coverage was taken with and with every later state of it. -/
namespace ProjectRoots

namespace Graph

/-- Whether a root for the reference denotes the url. -/
def Refers (graph : Graph) (reference : Reference) (url : Url) : Prop :=
  ∃ entity ∈ graph.entities, ∃ root ∈ entity.roots,
    reference = ⟨entity.id, root.property⟩ ∧ root.Denotes url

/-- The url that a root denotes as a mount. -/
def mountOf (root : Root) : Option Url :=
  match Url.parse root.url with
  | .ok url => if root.archiveMount || url.isArchiveRoot then some url else none
  | .error _ => none

/-- The mounts, in the order of the graph. -/
def mounts (graph : Graph) : List Url :=
  graph.entities.flatMap fun entity => entity.roots.filterMap mountOf

/-- The nearest mount around a url: the first one on its chain of containers. -/
def mountAround (graph : Graph) (url : Url) : Option Url :=
  url.containers.find? graph.mounts.contains

/-- Whether a change at the url concerns the reference: one of its roots is at the url, inside it,
or at the nearest mount around it. -/
def Concerns (graph : Graph) (reference : Reference) (url : Url) : Prop :=
  ∃ place, graph.Refers reference place ∧
    (place = url ∨ url ∈ place.containers ∨ graph.mountAround url = some place)

/-- The answer is the one of a direct scan of the graph. -/
structure Agrees (graph : Graph) (atlas : Atlas) (url : Url) (affected : Affected) : Prop where
  /-- The references are those that the scan finds. -/
  references : ∀ reference, reference ∈ affected.references ↔ graph.Concerns reference url
  /-- Every reference is there once. -/
  ascending : affected.references.Pairwise fun a b => a.precedes b = true
  /-- The mount is given by its id, which it has. -/
  mount_eq : affected.mount = (graph.mountAround url).bind atlas.find?
  known : ∀ mount, graph.mountAround url = some mount → atlas.Knows mount

theorem mountOf_eq_some {root : Root} {url : Url} : mountOf root = some url ↔ root.Mounts url := by
  unfold mountOf Root.Mounts Root.Denotes
  cases hparse : Url.parse root.url with
  | error fault => simp
  | ok found =>
    simp only [Except.ok.injEq, Bool.or_eq_true, Option.ite_none_right_eq_some, Option.some.injEq]
    constructor
    · intro h
      obtain ⟨hflag, rfl⟩ := h
      exact ⟨rfl, hflag⟩
    · intro h
      obtain ⟨rfl, hflag⟩ := h
      exact ⟨hflag, rfl⟩

theorem mem_references {graph : Graph} {item : Reference × Root} :
    item ∈ graph.references ↔ ∃ entity ∈ graph.entities, ∃ root ∈ entity.roots,
      item = (⟨entity.id, root.property⟩, root) := by
  simp [references, Entity.references, eq_comm]

theorem refers_iff {graph : Graph} {reference : Reference} {url : Url} :
    graph.Refers reference url ↔
      ∃ item ∈ graph.references, item.1 = reference ∧ item.2.Denotes url := by
  constructor
  · intro h
    obtain ⟨entity, hentity, root, hroot, rfl, hdenotes⟩ := h
    exact ⟨_, mem_references.2 ⟨entity, hentity, root, hroot, rfl⟩, rfl, hdenotes⟩
  · intro h
    obtain ⟨item, hitem, hreference, hdenotes⟩ := h
    obtain ⟨entity, hentity, root, hroot, rfl⟩ := mem_references.1 hitem
    exact ⟨entity, hentity, root, hroot, hreference.symm, hdenotes⟩

theorem mem_mounts_iff {graph : Graph} {url : Url} :
    url ∈ graph.mounts ↔ ∃ entity ∈ graph.entities, ∃ root ∈ entity.roots, root.Mounts url := by
  simp only [mounts, List.mem_flatMap, List.mem_filterMap, mountOf_eq_some]

theorem mem_mounts {graph : Graph} {url : Url} :
    url ∈ graph.mounts ↔ ∃ item ∈ graph.references, item.2.Mounts url := by
  rw [mem_mounts_iff]
  constructor
  · intro h
    obtain ⟨entity, hentity, root, hroot, hmounts⟩ := h
    exact ⟨_, mem_references.2 ⟨entity, hentity, root, hroot, rfl⟩, hmounts⟩
  · intro h
    obtain ⟨item, hitem, hmounts⟩ := h
    obtain ⟨entity, hentity, root, hroot, rfl⟩ := mem_references.1 hitem
    exact ⟨entity, hentity, root, hroot, hmounts⟩

theorem mem_mounts_of_mountAround {graph : Graph} {url mount : Url}
    (hmount : graph.mountAround url = some mount) : mount ∈ graph.mounts :=
  List.contains_iff_mem.1 (List.find?_some hmount)

end Graph

namespace Coverage
variable {graph : Graph} {coverage : Coverage} {atlas : Atlas}

section
variable (htracks : coverage.Tracks atlas graph.references)
include htracks

theorem knows_of_mem_mounts {mount : Url} (hmount : mount ∈ graph.mounts) : atlas.Knows mount := by
  obtain ⟨item, hitem, hmounts⟩ := Graph.mem_mounts.1 hmount
  exact htracks.known item hitem mount hmounts.1

theorem posted_iff {id : Nat} {reference : Reference} :
    (id, reference) ∈ coverage.postings ↔
      ∃ place, graph.Refers reference place ∧ atlas.find? place = some id := by
  rw [htracks.posted]
  constructor
  · intro h
    obtain ⟨item, hitem, hreference, place, hdenotes, hfind⟩ := h
    exact ⟨place, Graph.refers_iff.2 ⟨item, hitem, hreference, hdenotes⟩, hfind⟩
  · intro h
    obtain ⟨place, hrefers, hfind⟩ := h
    obtain ⟨item, hitem, hreference, hdenotes⟩ := Graph.refers_iff.1 hrefers
    exact ⟨item, hitem, hreference, place, hdenotes, hfind⟩

theorem isMount_iff {url : Url} {id : Nat} (hfind : atlas.find? url = some id) :
    coverage.isMount id = true ↔ url ∈ graph.mounts := by
  unfold isMount
  rw [List.contains_iff_mem, htracks.mounted, Graph.mem_mounts]
  apply exists_congr
  intro item
  apply and_congr_right
  intro _
  constructor
  · intro h
    obtain ⟨other, hmounts, hother⟩ := h
    rw [Atlas.find?_inj hfind hother]
    exact hmounts
  · intro h
    exact ⟨url, h, hfind⟩

theorem filter_isMount (url : Url) :
    (atlas.find? url).filter coverage.isMount =
      if url ∈ graph.mounts then atlas.find? url else none := by
  cases hfind : atlas.find? url with
  | none => simp
  | some id => simp only [Option.filter_some, isMount_iff htracks hfind]

/-- The two searches go along the same chain, and what one of them passes over is no mount to the
other. -/
theorem mountOver_eq (url : Url) :
    coverage.mountOver atlas url = (graph.mountAround url).bind atlas.find? := by
  unfold mountOver Graph.mountAround
  induction url.containers with
  | nil => rfl
  | cons outer rest ih =>
    rw [List.findSome?_cons, filter_isMount htracks]
    by_cases hmount : outer ∈ graph.mounts
    · obtain ⟨id, hfind⟩ := knows_of_mem_mounts htracks hmount
      rw [if_pos hmount, List.find?_cons_of_pos (List.contains_iff_mem.2 hmount), hfind]
      exact hfind.symm
    · rw [if_neg hmount, List.find?_cons_of_neg (by simpa using hmount)]
      exact ih

theorem mountOver_eq_some_iff {url place : Url} {id : Nat} (hfind : atlas.find? place = some id) :
    coverage.mountOver atlas url = some id ↔ graph.mountAround url = some place := by
  rw [mountOver_eq htracks]
  constructor
  · intro h
    obtain ⟨mount, hmount, hid⟩ := Option.bind_eq_some_iff.1 h
    rw [hmount, Atlas.find?_inj hfind hid]
  · intro h
    rw [h]
    exact hfind

end

/-- The ids at a path and below it. -/
def pathIds (atlas : Atlas) (url : Url) : List Nat :=
  match atlas.find? url with
  | some own => own :: atlas.subtree own
  | none => []

theorem reached_eq (coverage : Coverage) (atlas : Atlas) (url : Url) :
    coverage.reached atlas url =
      (pathIds atlas url ++ (coverage.mountOver atlas url).toList).flatMap coverage.lookup :=
  rfl

theorem mem_pathIds_iff (hsound : atlas.Sound) {url place : Url} {id : Nat}
    (hfind : atlas.find? place = some id) :
    id ∈ pathIds atlas url ↔ place = url ∨ url ∈ place.containers := by
  unfold pathIds
  cases hown : atlas.find? url with
  | none =>
    -- The path is not known, but all containers of a known url are.
    simp only [List.not_mem_nil, false_iff]
    intro h
    rcases h with rfl | hmem
    · rw [hown] at hfind
      cases hfind
    · obtain ⟨own, hown'⟩ := hsound.knows_of_mem_containers ⟨id, hfind⟩ url hmem
      rw [hown] at hown'
      cases hown'
  | some own =>
    have hsame : id = own ↔ place = url := by
      constructor
      · intro h
        exact Atlas.find?_inj hfind (h ▸ hown)
      · intro h
        rw [h, hown] at hfind
        exact (Option.some.inj hfind).symm
    rw [List.mem_cons, hsame, Atlas.mem_subtree_iff hsound hown hfind]

theorem mem_reached_iff (hsound : atlas.Sound) (htracks : coverage.Tracks atlas graph.references)
    {url : Url} {reference : Reference} :
    reference ∈ coverage.reached atlas url ↔ graph.Concerns reference url := by
  unfold Graph.Concerns
  simp only [reached_eq, List.mem_flatMap, mem_lookup_iff, posted_iff htracks, List.mem_append,
    Option.mem_toList]
  constructor
  · intro h
    obtain ⟨id, hid, place, hrefers, hfind⟩ := h
    rw [mem_pathIds_iff hsound hfind, mountOver_eq_some_iff htracks hfind, or_assoc] at hid
    exact ⟨place, hrefers, hid⟩
  · intro h
    obtain ⟨place, hrefers, hplace⟩ := h
    -- The urls of all roots are known, whichever way the place is reached.
    obtain ⟨item, hitem, _, hdenotes⟩ := Graph.refers_iff.1 hrefers
    obtain ⟨id, hfind⟩ := htracks.known item hitem place hdenotes
    refine ⟨id, ?_, place, hrefers, hfind⟩
    rw [mem_pathIds_iff hsound hfind, mountOver_eq_some_iff htracks hfind, or_assoc]
    exact hplace

theorem agrees_affected (hsound : atlas.Sound)
    (htracks : coverage.Tracks atlas graph.references) (url : Url) :
    graph.Agrees atlas url (coverage.affected atlas url) := by
  refine ⟨?_, ?_, ?_, ?_⟩
  · intro reference
    show reference ∈ Ascending.ofList _ _ ↔ _
    rw [Ascending.mem_ofList Reference.total_precedes]
    exact mem_reached_iff hsound htracks
  · exact Ascending.pairwise_ofList Reference.total_precedes _
  · exact mountOver_eq htracks url
  · intro mount hmount
    exact knows_of_mem_mounts htracks (Graph.mem_mounts_of_mountAround hmount)

end Coverage

/-- Answers that agree with the scan of one graph, one with a later state of the atlas than the
other, are the same. -/
theorem Graph.Agrees.eq {graph : Graph} {atlas later : Atlas} {url : Url} {first second : Affected}
    (hgrows : atlas.Grows later) (hfirst : graph.Agrees atlas url first)
    (hsecond : graph.Agrees later url second) : second = first := by
  -- Ids may be given in between, but none of them is given to a mount of the graph.
  have hreferences : second.references = first.references := by
    apply Ascending.eq_of_mem_iff Reference.total_precedes.irrefl Reference.total_precedes.trans
      hsecond.ascending hfirst.ascending
    intro reference
    rw [hsecond.references, hfirst.references]
  have hmount : second.mount = first.mount := by
    rw [hsecond.mount_eq, hfirst.mount_eq]
    cases hmount : graph.mountAround url with
    | none => rfl
    | some mount => exact hgrows.find?_eq (hfirst.known mount hmount)
  cases first
  cases second
  simp_all

namespace Workspace

/-- A coverage can be asked with any later state of the workspace. The atlas that it is taken with
may hold anything that was entered before. -/
theorem affected_agrees {graph : Graph} {atlas : Atlas} (hatlas : Atlas.Grows {} atlas)
    {later : Workspace} (hlater : (load graph atlas).Leads later) (url : Url) :
    graph.Agrees later.atlas url
        ((load graph atlas).current.coverage.affected later.atlas url) ∧
      (load graph atlas).current.coverage.affected later.atlas url =
        (load graph atlas).affected url := by
  have hsound : (load graph atlas).atlas.Sound :=
    (grows_load graph atlas).sound (hatlas.sound Atlas.sound_empty)
  have hfirst : graph.Agrees (load graph atlas).atlas url ((load graph atlas).affected url) :=
    Coverage.agrees_affected hsound (tracks_of_leads .refl) url
  have hsecond := Coverage.agrees_affected (hlater.grows.sound hsound) (tracks_of_leads hlater) url
  exact ⟨hsecond, hfirst.eq hlater.grows hsecond⟩

/-- A library in an archive, in a directory of archives of a module. -/
def sampleGraph : Graph :=
  Graph.ofList
    [⟨"library:x", .library, "x", [⟨"class_root", "/proj/lib/x.jar!/", false⟩]⟩,
      ⟨"module:app", .module, "app",
        [⟨"content_root", "/proj/src", false⟩, ⟨"archives", "/proj/lib", true⟩]⟩]

/-- An atlas that holds a url of somebody else. -/
def sampleAtlas : Atlas :=
  ({} : Atlas).intern ⟨.jar, "/opt/y.jar!/b".toList⟩

/-- The module is removed, and an entry of the library's archive is met. -/
theorem affected_agrees_sample :
    Atlas.Grows {} sampleAtlas ∧
      (∃ next, (load sampleGraph sampleAtlas).commit ⟨0, [.remove "module:app"]⟩ = .ok next ∧
        (load sampleGraph sampleAtlas).Leads
          (next.intern ⟨.jar, "/proj/lib/x.jar!/a".toList⟩) ∧
        sampleGraph.Agrees (next.intern ⟨.jar, "/proj/lib/x.jar!/a".toList⟩).atlas
          ⟨.file, "/proj/lib/x.jar".toList⟩
          ((load sampleGraph sampleAtlas).current.coverage.affected
            (next.intern ⟨.jar, "/proj/lib/x.jar!/a".toList⟩).atlas
            ⟨.file, "/proj/lib/x.jar".toList⟩) ∧
        (load sampleGraph sampleAtlas).current.coverage.affected
            (next.intern ⟨.jar, "/proj/lib/x.jar!/a".toList⟩).atlas
            ⟨.file, "/proj/lib/x.jar".toList⟩ =
          (load sampleGraph sampleAtlas).affected ⟨.file, "/proj/lib/x.jar".toList⟩) ∧
      ((load sampleGraph sampleAtlas).affected ⟨.file, "/proj/lib/x.jar".toList⟩).references =
        [⟨"library:x", "class_root"⟩, ⟨"module:app", "archives"⟩] := by
  have hatlas : Atlas.Grows {} sampleAtlas := Atlas.Grows.refl.intern _
  refine ⟨hatlas, ?_, by decide +kernel⟩
  have haccepted :
      ((load sampleGraph sampleAtlas).commit ⟨0, [.remove "module:app"]⟩).toBool = true := by
    decide +kernel
  cases hcommit : (load sampleGraph sampleAtlas).commit ⟨0, [.remove "module:app"]⟩ with
  | error fault =>
    rw [hcommit] at haccepted
    cases haccepted
  | ok next =>
    have hleads := (Leads.refl.commit hcommit).intern ⟨.jar, "/proj/lib/x.jar!/a".toList⟩
    exact ⟨next, rfl, hleads, affected_agrees hatlas hleads _⟩

end Workspace

end ProjectRoots
