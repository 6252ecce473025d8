import ProjectRoots.Event.Basic
import ProjectRoots.Settings.Basic
import ProjectRoots.Workspace

/- The judgement of events: which urls an event is about, whether a change at one of them touches a
   root that counts, and the impact of a batch as the join over its events.

   Correspondence (term ↔ Lean):
     affected-property predicate ↔ `Rules.counts`
     classification of a batch   ↔ `Workspace.classify` -/
namespace ProjectRoots

/-- How events are judged. -/
structure Rules where
  settings : Settings := {}
  /-- Whether a change of the roots of this property of this entity counts. -/
  counts : Entity → String → Bool := fun _ _ => true

/-- Properties, entities and kinds of entities whose roots do not count. -/
structure Ignored where
  properties : List String := []
  entities : List String := []
  kinds : List Entity.Kind := []

/-- What counts is what is not ignored. -/
def Ignored.counts (ignored : Ignored) (entity : Entity) (property : String) : Bool :=
  !(ignored.properties.contains property || ignored.entities.contains entity.id ||
    ignored.kinds.contains entity.kind)

namespace Rules

/-- A url and, if it is the file of an archive, the root of the archive. -/
def withArchiveRoot (rules : Rules) (url : Url) : List Url :=
  if url.scheme = .file ∧ rules.settings.isArchiveName url.name then
    url :: url.archiveRoot.toList
  else [url]

/-- The urls that an event at a path is about; none if the path denotes nothing. -/
def urlsAt (rules : Rules) (raw : String) : List Url :=
  match Url.parse raw with
  | .ok url => rules.withArchiveRoot url
  | .error _ => []

/-- The urls that something new is about. -/
def urlsCreated (rules : Rules) (parent name : String) : List Url :=
  match Url.parse parent with
  | .ok directory =>
    match directory.child name.toList with
    | .ok url => rules.withArchiveRoot url
    | .error _ => []
  | .error _ => []

/-- The urls that an event is about. A copy only concerns its target. -/
def urlsOf (rules : Rules) : Event → List Url
  | .create parent name _ => rules.urlsCreated parent name
  | .delete path => rules.urlsAt path
  | .copy _ target => rules.urlsAt target
  | .move old new => rules.urlsAt old ++ rules.urlsAt new
  | .rename old new _ => rules.urlsAt old ++ rules.urlsAt new

end Rules

namespace Workspace

/-- Whether a change at the url touches a root that counts. -/
def touches (workspace : Workspace) (rules : Rules) (url : Url) : Bool :=
  (workspace.affected url).references.any fun reference =>
    match workspace.current.graph.entity? reference.entity with
    | some entity => rules.counts entity reference.property
    | none => false

/-- The impact of one event. -/
def judge (workspace : Workspace) (rules : Rules) (event : Event) : Impact :=
  if (rules.urlsOf event).any (workspace.touches rules) then event.nominal else .none

/-- The impact of events on top of what is known already. With the short circuit no event is
judged any more once the impact is generic. -/
def judgeOnto (workspace : Workspace) (rules : Rules) (known : Impact) : List Event → Impact
  | [] => known
  | event :: rest =>
    if known = .generic ∧ rules.settings.shortCircuit then known
    else workspace.judgeOnto rules (known.join (workspace.judge rules event)) rest

/-- The impact of a batch. -/
def classify (workspace : Workspace) (rules : Rules) (batch : Batch) : Impact :=
  workspace.judgeOnto rules .none batch

end Workspace

end ProjectRoots
