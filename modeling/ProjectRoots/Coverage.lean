import ProjectRoots.Atlas
import ProjectRoots.Graph.Basic

/- Which references a path affects. A coverage is taken once from a graph: every root that denotes
   a url is posted under the url's id, and the mounts are the urls of roots flagged as such and
   the roots of archives. A path affects what is posted at it, what is posted below it, and what
   is posted at the nearest mount around it. Ids and links of an atlas never change, so a coverage
   can be asked with any later state of the atlas that it was taken with.

   Correspondence (term ↔ Lean):
     entity index                               ↔ `Coverage`
     references at a path, archive mounts       ↔ `lookup`, `isMount`
     nearest archive mount that contains a path ↔ `mountOver`
     what a path affects                        ↔ `affected` -/
namespace ProjectRoots

/-- The references posted under the ids of an atlas, in the order of the graph, and the ids of
the mounts. -/
structure Coverage where
  /-- The version of the graph. -/
  version : Nat
  postings : List (Nat × Reference) := []
  mounts : List Nat := []

/-- What a change at a path affects. -/
structure Affected where
  /-- The references, ascending. -/
  references : List Reference
  /-- The mount that the path lies in. -/
  mount : Option Nat

namespace Coverage

/-- Post one root under the id of its url; a root that denotes no url is left out. -/
def post (state : Coverage × Atlas) (item : Reference × Root) : Coverage × Atlas :=
  let (coverage, atlas) := state
  match Url.parse item.2.url with
  | .error _ => state
  | .ok url =>
    let atlas := atlas.intern url
    let id := atlas.idOf url
    let postings :=
      if (id, item.1) ∈ coverage.postings then coverage.postings
      else coverage.postings ++ [(id, item.1)]
    let mounts :=
      if item.2.archiveMount || url.isArchiveRoot then coverage.mounts.insert id
      else coverage.mounts
    (⟨coverage.version, postings, mounts⟩, atlas)

/-- The coverage of a graph, and the atlas with the urls of its roots entered. -/
def ofGraph (graph : Graph) (atlas : Atlas) : Coverage × Atlas :=
  graph.references.foldl post (⟨graph.version, [], []⟩, atlas)

/-- The references posted under an id. -/
def lookup (coverage : Coverage) (id : Nat) : List Reference :=
  coverage.postings.filterMap fun posting => if posting.1 = id then some posting.2 else none

/-- Whether the url with this id is a mount. -/
def isMount (coverage : Coverage) (id : Nat) : Bool :=
  coverage.mounts.contains id

/-- The nearest mount around a url; containers that the atlas does not know are passed over. -/
def mountOver (coverage : Coverage) (atlas : Atlas) (url : Url) : Option Nat :=
  url.containers.findSome? fun outer => (atlas.find? outer).filter coverage.isMount

/-- All references that a change at the url affects, with repetitions. -/
def reached (coverage : Coverage) (atlas : Atlas) (url : Url) : List Reference :=
  let ids :=
    match atlas.find? url with
    | some id => id :: atlas.subtree id
    | none => []
  (ids ++ (coverage.mountOver atlas url).toList).flatMap coverage.lookup

/-- What a change at the url affects. -/
def affected (coverage : Coverage) (atlas : Atlas) (url : Url) : Affected where
  references := Ascending.ofList Reference.precedes (coverage.reached atlas url)
  mount := coverage.mountOver atlas url

theorem mem_lookup_iff {coverage : Coverage} {id : Nat} {reference : Reference} :
    reference ∈ coverage.lookup id ↔ (id, reference) ∈ coverage.postings := by
  unfold lookup
  rw [List.mem_filterMap]
  constructor
  · rintro ⟨⟨key, posted⟩, hm, h⟩
    split at h
    · rename_i hk
      cases h
      exact hk ▸ hm
    · cases h
  · intro hm
    exact ⟨_, hm, if_pos rfl⟩

end Coverage

end ProjectRoots
