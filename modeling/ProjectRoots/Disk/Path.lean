import ProjectRoots.Text.Utf8

/- Paths as the filesystem knows them: bytes, cut into steps at slashes. Two paths are the same if
   their steps are; empty segments, and `.` anywhere but in front, are no steps. -/
namespace ProjectRoots.Disk

/-- A path or a name as the filesystem keeps it. -/
abbrev Bytes := List UInt8

/-- One step along a path. -/
inductive Step
  | root
  | here
  | up
  | name (bytes : Bytes)
deriving DecidableEq

/-- A path as a text, with the replacement character for bytes that are none. -/
def shown (path : Bytes) : String :=
  String.ofList (Utf8.decodeLossy path)

/-- The byte between segments. -/
def slash : UInt8 := 47

/-- The byte that `.` is made of. -/
def dot : UInt8 := 46

/-- The step that a segment is, inside a path. -/
def stepOf (segment : Bytes) : Option Step :=
  if segment = [] ∨ segment = [dot] then none
  else if segment = [dot, dot] then some .up
  else some (.name segment)

/-- The steps of a path. -/
def steps (path : Bytes) : List Step :=
  match path.splitOn slash with
  | [] => []
  | first :: rest =>
    if path.head? = some slash then .root :: rest.filterMap stepOf
    else if first = [dot] then .here :: rest.filterMap stepOf
    else (first :: rest).filterMap stepOf

/-- The steps of the directory that a path is in. The root directory and the empty path are in
none. -/
def parentSteps (path : Bytes) : Option (List Step) :=
  match (steps path).getLast? with
  | none | some .root => none
  | some _ => some (steps path).dropLast

end ProjectRoots.Disk
