import ProjectRoots.Proofs.Atlas.Charts
import ProjectRoots.Proofs.Coverage.Listing
import ProjectRoots.Proofs.Graph.Clients

/- The coverage of a workspace at any time. An accepted commit takes the coverage anew, from the new
   graph and with the atlas as it is then; afterwards others go on entering urls.

     1. `upToDate_load`, `UpToDate.intern`, `UpToDate.commit` — so at any time the present coverage
        is the one of the present graph, taken with an earlier state of the atlas.
     2. `upToDate_serve`, `upToDate_serveAll` — this is kept by every request, refused commits among
        them.
     3. `UpToDate.indexed`, `indexed_serveAll` — hence what it lists, in which order, and which
        mounts it knows. -/
namespace ProjectRoots

namespace Workspace

/-- The coverage was taken from the present graph, with an atlas that has only grown since. -/
structure UpToDate (workspace : Workspace) : Prop where
  taken : ∃ earlier, Atlas.Grows {} earlier ∧
    workspace.current.coverage = (Coverage.ofGraph workspace.current.graph earlier).1 ∧
    (Coverage.ofGraph workspace.current.graph earlier).2.Grows workspace.atlas

theorem upToDate_load (graph : Graph) {atlas : Atlas} (hatlas : Atlas.Grows {} atlas) :
    (load graph atlas).UpToDate :=
  ⟨atlas, hatlas, rfl, .refl⟩

namespace UpToDate
variable {workspace : Workspace} (hupToDate : workspace.UpToDate)
include hupToDate

theorem grows : Atlas.Grows {} workspace.atlas := by
  obtain ⟨earlier, hearlier, _, hgrows⟩ := hupToDate.taken
  exact (hearlier.trans (Coverage.tracks_ofGraph _ earlier).2).trans hgrows

theorem sound : workspace.atlas.Sound :=
  hupToDate.grows.sound Atlas.sound_empty

theorem tracks :
    workspace.current.coverage.Tracks workspace.atlas workspace.current.graph.references := by
  obtain ⟨earlier, _, hcoverage, hgrows⟩ := hupToDate.taken
  rw [hcoverage]
  exact (Coverage.tracks_ofGraph _ earlier).1.of_grows hgrows

theorem inTurn :
    workspace.current.coverage.InTurn workspace.atlas workspace.current.graph.references := by
  obtain ⟨earlier, _, hcoverage, hgrows⟩ := hupToDate.taken
  rw [hcoverage]
  exact (Coverage.inTurn_ofGraph _ earlier).of_grows (Coverage.tracks_ofGraph _ earlier).1 hgrows

/-- The coverage is the one that would be taken now. -/
theorem coverage_eq :
    workspace.current.coverage =
      (Coverage.ofGraph workspace.current.graph workspace.atlas).1 := by
  obtain ⟨earlier, _, hcoverage, hgrows⟩ := hupToDate.taken
  rw [hcoverage, Coverage.ofGraph, Coverage.ofGraph, Coverage.foldl_post_of_grows hgrows]

theorem intern (url : Url) : (workspace.intern url).UpToDate := by
  obtain ⟨earlier, hearlier, hcoverage, hgrows⟩ := hupToDate.taken
  exact ⟨earlier, hearlier, hcoverage, hgrows.intern url⟩

theorem commit {commit : Commit} {next : Workspace}
    (haccepted : workspace.commit commit = .ok next) : next.UpToDate := by
  obtain ⟨graph, _, rfl⟩ := commit_eq_ok_iff.1 haccepted
  exact upToDate_load graph hupToDate.grows

end UpToDate

/-- The coverage is the one of the present graph, with the ids that the atlas has given. -/
structure Indexed (workspace : Workspace) : Prop where
  version : workspace.current.coverage.version = workspace.version
  /-- Under an id every reference is listed once at most. -/
  nodup : ∀ id, (workspace.current.coverage.lookup id).Nodup
  /-- Listed are the references whose roots denote the url with the id. -/
  mem : ∀ id url, workspace.atlas.url? id = some url → ∀ reference,
    reference ∈ workspace.current.coverage.lookup id ↔
      workspace.current.graph.Refers reference url
  /-- They are listed in the order of the first of these roots. -/
  ordered : ∀ id url, workspace.atlas.url? id = some url →
    (workspace.current.coverage.lookup id).Pairwise
      (workspace.current.graph.ListsBefore url)
  /-- A mount is what a root denotes as one. -/
  mount : ∀ id url, workspace.atlas.url? id = some url →
    (workspace.current.coverage.isMount id = true ↔
      ∃ entity ∈ workspace.current.graph.entities, ∃ root ∈ entity.roots, root.Mounts url)
  /-- Nothing is said of ids that were not given. -/
  given : ∀ id, workspace.atlas.url? id = none →
    workspace.current.coverage.lookup id = [] ∧
      workspace.current.coverage.isMount id = false

theorem UpToDate.indexed {workspace : Workspace} (hupToDate : workspace.UpToDate) :
    workspace.Indexed where
  version := by
    obtain ⟨earlier, _, hcoverage, _⟩ := hupToDate.taken
    rw [hcoverage]
    exact Coverage.version_ofGraph _ earlier
  nodup := Coverage.nodup_lookup hupToDate.inTurn
  mem id url hurl reference := by
    have hfind := hupToDate.sound.url?_eq_some_iff.1 hurl
    rw [Coverage.mem_lookup_iff, Coverage.posted_iff hupToDate.tracks]
    refine ⟨fun h => ?_, fun h => ⟨url, h, hfind⟩⟩
    obtain ⟨place, hrefers, hplace⟩ := h
    exact Atlas.find?_inj hplace hfind ▸ hrefers
  ordered id url hurl :=
    Coverage.pairwise_lookup hupToDate.inTurn (hupToDate.sound.url?_eq_some_iff.1 hurl)
  mount id url hurl := by
    rw [Coverage.isMount_iff hupToDate.tracks (hupToDate.sound.url?_eq_some_iff.1 hurl)]
    exact Graph.mem_mounts_iff
  given id hnone := by
    have hfree : ∀ url, workspace.atlas.find? url ≠ some id := by
      intro url hfind
      rw [Atlas.url?_of_find? hfind] at hnone
      cases hnone
    refine ⟨List.eq_nil_iff_forall_not_mem.2 fun reference hmem => ?_, ?_⟩
    · obtain ⟨place, _, hfind⟩ :=
        (Coverage.posted_iff hupToDate.tracks).1 (Coverage.mem_lookup_iff.1 hmem)
      exact hfree place hfind
    · rw [← Bool.not_eq_true]
      intro hmount
      obtain ⟨_, _, url, _, hfind⟩ :=
        (hupToDate.tracks.mounted id).1 (List.contains_iff_mem.1 hmount)
      exact hfree url hfind

end Workspace

namespace Exchange

theorem upToDate_serve {exchange : Exchange} (hupToDate : exchange.workspace.UpToDate)
    (request : Request) : (exchange.serve request).workspace.UpToDate := by
  cases request with
  | read client => exact hupToDate
  | commit client commit =>
    cases hcommit : exchange.workspace.commit commit with
    | ok next =>
      simp only [serve, hcommit]
      exact hupToDate.commit hcommit
    | error fault =>
      simp only [serve, hcommit]
      exact hupToDate
  | intern url => exact hupToDate.intern url

theorem upToDate_serveAll {exchange : Exchange} (hupToDate : exchange.workspace.UpToDate)
    (requests : List Request) : (exchange.serveAll requests).workspace.UpToDate := by
  induction requests generalizing exchange with
  | nil => exact hupToDate
  | cons request rest ih => exact ih (upToDate_serve hupToDate request)

theorem upToDate_opened (first : Graph) (entered : List Url) :
    (opened first entered).workspace.UpToDate :=
  Workspace.upToDate_load first (Atlas.grows_foldl_intern {} entered)

theorem indexed_serveAll (first : Graph) (entered : List Url) (requests : List Request) :
    ((opened first entered).serveAll requests).workspace.Indexed :=
  (upToDate_serveAll (upToDate_opened first entered) requests).indexed

/-- A library whose root is an entry of an archive. -/
def entryGraph : Graph :=
  Graph.ofList [⟨"library:x", .library, "x", [⟨"class_root", "/a/x.jar!/b", false⟩]⟩]

/-- The root of the archive. It is known because it is around the entry. -/
def entryArchive : Url :=
  ⟨.jar, "/a/x.jar!/".toList⟩

/-- The root of an archive is no mount if no root denotes it. -/
theorem not_isMount_entryArchive :
    (opened entryGraph []).workspace.atlas.url? 3 = some entryArchive ∧
      ¬((opened entryGraph []).workspace.current.coverage.isMount 3 = true ↔
        (∃ entity ∈ entryGraph.entities, ∃ root ∈ entity.roots,
            root.Denotes entryArchive ∧ root.archiveMount = true) ∨
          entryArchive.isArchiveRoot = true) := by
  refine ⟨by decide +kernel, fun h => ?_⟩
  have hmount : (opened entryGraph []).workspace.current.coverage.isMount 3 = true :=
    h.2 (Or.inr (by decide))
  exact absurd hmount (by decide +kernel)

end Exchange

end ProjectRoots
