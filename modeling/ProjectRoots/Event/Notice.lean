import ProjectRoots.Disk.Tree
import ProjectRoots.Event.Basic

/- Notices of a filesystem observer, and the events that they are. A notice names paths in bytes.
   Something new, something gone, and a change of name with both names known are events; the other
   notices are none. -/
namespace ProjectRoots

/-- What was made or removed, as far as the observer knows. -/
inductive Subject
  | any
  | file
  | folder
  | other
deriving DecidableEq

/-- Which sides of a change of name a notice is about. -/
inductive NameSide
  | any
  | both
  | old
  | new
  | other
deriving DecidableEq

/-- What an observer has seen. -/
inductive NoticeKind
  | created (what : Subject)
  | removed (what : Subject)
  | named (side : NameSide)
  /-- Access, changes of content or attributes, and whatever else. -/
  | unrelated
deriving DecidableEq

/-- A notice and the paths it is about. -/
structure Notice where
  kind : NoticeKind
  paths : List Disk.Bytes

namespace Notice

/-- The event that a notice is. What is new is a directory if the observer says so or the disk
shows one; what keeps its directory is renamed, and anything else is moved. -/
def event? (disk : Disk) (notice : Notice) : Option Event :=
  match notice.kind, notice.paths with
  | .created what, [path] =>
    some (.created (Disk.shown path) (what == .folder || disk.isDirectory path))
  | .removed _, [path] => some (.delete (Disk.shown path))
  | .named .both, [old, new] =>
    if Disk.parentSteps old = Disk.parentSteps new then
      some (.rename (Disk.shown old) (Disk.shown new) (disk.isDirectory new))
    else some (.move (Disk.shown old) (Disk.shown new))
  | _, _ => none

end Notice

end ProjectRoots
