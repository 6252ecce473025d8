import ProjectRoots.Impact
import ProjectRoots.Text.Cut

/- Events of a filesystem. Paths are kept as they were reported and are read as urls only when a
   batch is processed, so a path that denotes nothing does no harm. -/
namespace ProjectRoots

/-- A change of the filesystem. -/
inductive Event
  /-- `name` is new in the directory `parent`. -/
  | create (parent name : String) (isDirectory : Bool)
  | delete (path : String)
  /-- `old` is now in another directory, as `new`. -/
  | move (old new : String)
  /-- `old` has another name in its directory, and is now `new`. -/
  | rename (old new : String) (isDirectory : Bool)
  /-- `target` is a new copy of `source`. -/
  | copy (source target : String)
deriving DecidableEq

/-- Events that arrived together, in the order of their arrival. -/
abbrev Batch := List Event

namespace Event

/-- A path without the slashes at its end. -/
def trimSlashes (path : List Char) : List Char :=
  (path.reverse.dropWhile (· == '/')).reverse

/-- The event for something new at a path, which is cut into directory and name. -/
def created (path : String) (isDirectory : Bool) : Event :=
  let trimmed := trimSlashes path.toList
  match cutAtLast '/' trimmed with
  | none => create "" (String.ofList trimmed) isDirectory
  | some ([], name) => create "/" (String.ofList name) isDirectory
  | some (parent, name) => create (String.ofList parent) (String.ofList name) isDirectory

/-- The old and the new path of something that went elsewhere. -/
def relocation? : Event → Option (String × String)
  | move old new => some (old, new)
  | rename old new _ => some (old, new)
  | _ => none

/-- The impact of the event on roots that it touches. -/
def nominal : Event → Impact
  | create .. => .added
  | copy .. => .added
  | delete .. => .removed
  | move .. => .generic
  | rename .. => .generic

end Event

end ProjectRoots
