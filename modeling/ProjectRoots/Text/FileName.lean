/- File names and their parts. The name of a path is its last segment that is neither empty nor `.`,
   unless that is `..`. A name is cut at its last dot into stem and extension; a dot in front of
   everything else cuts nothing. -/
namespace ProjectRoots.FileName

/-- The name of the file at a path. -/
def name? (path : List Char) : Option (List Char) :=
  match ((path.splitOn '/').filter fun segment => segment ≠ [] ∧ segment ≠ ['.']).getLast? with
  | none => none
  | some last => if last = ['.', '.'] then none else some last

/-- What stands before and after the last dot of a name, if something stands before it. -/
def cutExtension : List Char → Option (List Char × List Char)
  | [] => none
  | c :: rest =>
    match cutExtension rest with
    | some (stem, extension) => some (c :: stem, extension)
    | none =>
      match rest with
      | '.' :: extension => some ([c], extension)
      | _ => none

/-- The name without its extension. -/
def stem? (path : List Char) : Option (List Char) :=
  (name? path).map fun name =>
    match cutExtension name with
    | some (stem, _) => stem
    | none => name

/-- What stands behind the last dot of the name. -/
def extension? (path : List Char) : Option (List Char) :=
  (name? path).bind fun name => (cutExtension name).map (·.2)

/-- Equality up to the case of ASCII letters. -/
def sameLetters (a b : List Char) : Bool :=
  a.map Char.toLower == b.map Char.toLower

end ProjectRoots.FileName
