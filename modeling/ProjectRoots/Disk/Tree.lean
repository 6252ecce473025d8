import ProjectRoots.Disk.Path

/- A small filesystem: directories and files at absolute places, and the place where relative paths
   start. A path is followed segment by segment, and every segment, also an empty one or `.` at the
   end, has to start from a directory. -/
namespace ProjectRoots

/-- What there is at a place of a disk. -/
inductive DiskEntry
  | directory
  | file (content : List UInt8)

/-- Directories and files at places, a place being the names that lead to it from the root. -/
structure Disk where
  entries : List (List Disk.Bytes × DiskEntry) := []
  here : List Disk.Bytes := []

namespace Disk

/-- What there is at a place; the root is always a directory. -/
def entryAt (disk : Disk) (place : List Bytes) : Option DiskEntry :=
  if place = [] then some .directory
  else (disk.entries.find? (·.1 == place)).map (·.2)

/-- Whether there is a directory at a place. -/
def isDirectoryAt (disk : Disk) (place : List Bytes) : Bool :=
  match disk.entryAt place with
  | some .directory => true
  | _ => false

/-- Put an entry at a place, instead of the one that is there. -/
def putAt (disk : Disk) (place : List Bytes) (entry : DiskEntry) : Disk :=
  { disk with entries := disk.entries.filter (·.1 != place) ++ [(place, entry)] }

/-- Make the directories that lead to a place, behind `outer`, and the one at the place. -/
def addDirectories (outer : List Bytes) (disk : Disk) : List Bytes → Disk
  | [] => disk
  | name :: rest =>
    let place := outer ++ [name]
    let disk := if disk.isDirectoryAt place then disk else disk.putAt place .directory
    addDirectories place disk rest

/-- The names of a relative path; steps other than names are left out. -/
def namesOf (path : Bytes) : List Bytes :=
  (steps path).filterMap fun
    | .name name => some name
    | _ => none

/-- Make a directory, and those it is in. -/
def addDirectory (disk : Disk) (path : Bytes) : Disk :=
  addDirectories [] disk (disk.here ++ namesOf path)

/-- Make a file, and the directories it is in. -/
def addFile (disk : Disk) (path content : Bytes) : Disk :=
  let place := disk.here ++ namesOf path
  (addDirectories [] disk place.dropLast).putAt place (.file content)

/-- Follow segments from a place. -/
def follow (disk : Disk) (place : List Bytes) : List Bytes → Option (List Bytes)
  | [] => some place
  | segment :: rest =>
    if disk.isDirectoryAt place then
      match stepOf segment with
      | some (.name name) =>
        if (disk.entryAt (place ++ [name])).isSome then disk.follow (place ++ [name]) rest
        else none
      | some .up => disk.follow place.dropLast rest
      | _ => disk.follow place rest
    else none

/-- The place that a path leads to, if there is something. -/
def locate (disk : Disk) (path : Bytes) : Option (List Bytes) :=
  if path = [] then none
  else disk.follow (if path.head? = some slash then [] else disk.here) (path.splitOn slash)

/-- Whether there is something at a path. -/
def holds (disk : Disk) (path : Bytes) : Bool :=
  (disk.locate path).isSome

/-- Whether there is a directory at a path. -/
def isDirectory (disk : Disk) (path : Bytes) : Bool :=
  match disk.locate path with
  | some place => disk.isDirectoryAt place
  | none => false

/-- The content of the file at a path. -/
def content? (disk : Disk) (path : Bytes) : Option Bytes :=
  match (disk.locate path).bind disk.entryAt with
  | some (.file content) => some content
  | _ => none

/-- The path of a name in the directory at a path. -/
def join (path name : Bytes) : Bytes :=
  if path.getLast? = some slash then path ++ name else path ++ slash :: name

/-- The paths of all that is found at `root` and below it, each beginning with `root`. -/
def walk (disk : Disk) (root : Bytes) : List Bytes :=
  match disk.locate root with
  | none => []
  | some place =>
    root :: disk.entries.filterMap fun entry =>
      if place.isPrefixOf entry.1 ∧ place ≠ entry.1 then
        some ((entry.1.drop place.length).foldl join root)
      else none

end Disk

end ProjectRoots
