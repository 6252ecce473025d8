import ProjectRoots.Ascending
import ProjectRoots.Graph.Entity
import ProjectRoots.Text.Decimal

/- The versioned graph of entities. A graph never changes: a commit names the version it was made
   for, and its changes are applied one after another to that version or not at all. The entities
   are kept in the order of their ids, and no id occurs twice.

   Correspondence (term ↔ Lean):
     snapshot of the entities                 ↔ `Graph`
     requested change, description of changes ↔ `Change`, `Commit`
     applied or rejected                      ↔ `apply`, `CommitFault` -/
namespace ProjectRoots

/-- The order in which a graph keeps its entities. -/
def Entity.precedes (a b : Entity) : Bool :=
  decide (a.id < b.id)

/-- All entities of a project at one version. -/
structure Graph where
  /-- How many commits have led to it. It may be a `Nat`, for a counter of 64 bits differs from that
  only after 2 ^ 64 commits. -/
  version : Nat
  entities : List Entity
  ascending : entities.Pairwise fun a b => a.precedes b = true

/-- One change to the entities. -/
inductive Change
  | add (entity : Entity)
  | remove (id : String)
  /-- Rename an entity; `old` has to be its present name. -/
  | rename (id : String) (old new : String)
  | setRoots (id : String) (roots : List Root)

/-- Changes made for the graph of the version `base`. -/
structure Commit where
  /-- Any number that a client may name, and so any number of 64 bits. -/
  base : Nat
  changes : List Change

/-- Why a commit is refused. -/
inductive CommitFault
  /-- The graph has moved on since `base`, or never had that version. -/
  | staleBase (base current : Nat)
  | alreadyExists (id : String)
  | unknownEntity (id : String)
  /-- The entity to rename has another name than expected. -/
  | nameMismatch (id current expected : String)
deriving DecidableEq

/-- The wording of a refused commit. -/
def CommitFault.message : CommitFault → String
  | staleBase base current =>
    "commit rejected: stale base version " ++ decimal base ++
      " (current " ++ decimal current ++ ")"
  | alreadyExists id => "commit rejected: entity " ++ id ++ " already exists"
  | unknownEntity id => "unknown entity: " ++ id
  | nameMismatch id current expected =>
    "commit rejected: entity " ++ id ++ " is named `" ++ current ++
      "`, expected `" ++ expected ++ "`"

namespace Entity

theorem precedes_trans (a b c : Entity) (hab : a.precedes b = true) (hbc : b.precedes c = true) :
    a.precedes c = true :=
  decide_eq_true (String.lt_trans (of_decide_eq_true hab) (of_decide_eq_true hbc))

theorem precedes_of_same (a b c : Entity) (hab : a.precedes b = false)
    (hba : b.precedes a = false) (hbc : b.precedes c = true) : a.precedes c = true := by
  have h : a.id = b.id :=
    String.le_antisymm (String.not_lt.1 (of_decide_eq_false hba))
      (String.not_lt.1 (of_decide_eq_false hab))
  unfold precedes at *
  rw [h]
  exact hbc

end Entity

namespace Graph

/-- The entity with this id. -/
def entity? (graph : Graph) (id : String) : Option Entity :=
  graph.entities.find? (·.id == id)

/-- The number of entities. -/
def size (graph : Graph) : Nat :=
  graph.entities.length

/-- Put an entity into the graph, in place of the one with its id. -/
def put (graph : Graph) (entity : Entity) : Graph where
  version := graph.version
  entities := Ascending.insert Entity.precedes entity graph.entities
  ascending := Ascending.pairwise_insert _ Entity.precedes_trans Entity.precedes_of_same
    graph.ascending

/-- Take the entity with this id out of the graph. -/
def erase (graph : Graph) (id : String) : Graph where
  version := graph.version
  entities := graph.entities.filter (·.id != id)
  ascending := graph.ascending.filter _

/-- The graph without entities. -/
def empty : Graph :=
  ⟨0, [], .nil⟩

/-- The first version of a graph; of entities with the same id the last one counts. -/
def ofList (entities : List Entity) : Graph :=
  entities.foldl put empty

/-- One change on its own. -/
def change (graph : Graph) : Change → Except CommitFault Graph
  | .add entity =>
    match graph.entity? entity.id with
    | some _ => .error (.alreadyExists entity.id)
    | none => .ok (graph.put entity)
  | .remove id =>
    match graph.entity? id with
    | some _ => .ok (graph.erase id)
    | none => .error (.unknownEntity id)
  | .rename id old new =>
    match graph.entity? id with
    | some entity =>
      if entity.name = old then .ok (graph.put { entity with name := new })
      else .error (.nameMismatch id entity.name old)
    | none => .error (.unknownEntity id)
  | .setRoots id roots =>
    match graph.entity? id with
    | some entity => .ok (graph.put { entity with roots := roots })
    | none => .error (.unknownEntity id)

/-- Changes one after another, up to the first that is refused. -/
def changeAll (graph : Graph) : List Change → Except CommitFault Graph
  | [] => .ok graph
  | first :: rest =>
    match graph.change first with
    | .ok next => next.changeAll rest
    | .error fault => .error fault

/-- The next version of the graph, if the commit was made for this one and all its changes can be
applied. -/
def apply (graph : Graph) (commit : Commit) : Except CommitFault Graph :=
  if commit.base = graph.version then
    match graph.changeAll commit.changes with
    | .ok next => .ok { next with version := graph.version + 1 }
    | .error fault => .error fault
  else .error (.staleBase commit.base graph.version)

/-- All roots in the order of the graph: by entity, and within an entity as listed. -/
def references (graph : Graph) : List (Reference × Root) :=
  graph.entities.flatMap Entity.references

theorem id_of_entity? {graph : Graph} {id : String} {entity : Entity}
    (h : graph.entity? id = some entity) : entity.id = id := by
  have hp := List.find?_some h
  exact eq_of_beq hp

end Graph

end ProjectRoots
