import ProjectRoots.Coverage

/- A workspace: the atlas, and the present graph with its coverage. The pair of graph and coverage
   is replaced as a whole by an accepted commit, and a refused commit leaves everything as it
   was.

   Correspondence (term ↔ Lean):
     entity model                     ↔ `Workspace`
     current snapshot, with its index ↔ `Snapshot` -/
namespace ProjectRoots

/-- A graph with the coverage taken from it. -/
structure Snapshot where
  graph : Graph
  coverage : Coverage

/-- The urls known and the present state of the project. -/
structure Workspace where
  atlas : Atlas
  current : Snapshot

namespace Workspace

/-- Take the coverage of a graph into an atlas. -/
def load (graph : Graph) (atlas : Atlas) : Workspace :=
  let (coverage, atlas) := Coverage.ofGraph graph atlas
  ⟨atlas, graph, coverage⟩

/-- The workspace of a graph, with an atlas of its own. -/
def ofGraph (graph : Graph) : Workspace :=
  load graph {}

/-- The version of the present graph. -/
def version (workspace : Workspace) : Nat :=
  workspace.current.graph.version

/-- Enter a url into the atlas. -/
def intern (workspace : Workspace) (url : Url) : Workspace :=
  { workspace with atlas := workspace.atlas.intern url }

/-- The workspace after a commit, or why the commit is refused. -/
def commit (workspace : Workspace) (commit : Commit) : Except CommitFault Workspace :=
  match workspace.current.graph.apply commit with
  | .ok graph => .ok (load graph workspace.atlas)
  | .error fault => .error fault

/-- The references that a change at the url affects, and the mount it lies in. -/
def affected (workspace : Workspace) (url : Url) : Affected :=
  workspace.current.coverage.affected workspace.atlas url

end Workspace

end ProjectRoots
