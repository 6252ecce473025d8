import ProjectRoots.Text.Cut

/- Addresses of files and of entries of archives. A url is a scheme and a normalised absolute
   path. An entry of an archive is written below the archive's file, after the mark that ends
   the file's part; the mark with nothing after it is the archive's root.
   `Url.parse` reads a text, with or without a scheme, and `Url.text` writes a url.

   Correspondence (term ↔ Lean):
     path identifier as text, its protocol ↔ `Url`, `Scheme`
     archive separator                     ↔ `archiveMark`
     a path that is not valid              ↔ `PathFault` -/
namespace ProjectRoots

/-- How a path is addressed: as a plain file, or inside an archive. -/
inductive Scheme
  | file
  | jar
deriving DecidableEq

namespace Scheme

/-- The word that stands for the scheme in a url. -/
def text : Scheme → String
  | file => "file"
  | jar => "jar"

/-- Only the two words name a scheme. -/
def ofText? (word : String) : Option Scheme :=
  if word = "file" then some file else if word = "jar" then some jar else none

theorem ofText?_text (scheme : Scheme) : ofText? scheme.text = some scheme := by
  cases scheme <;> decide

end Scheme

/-- A path together with the way it is addressed. -/
structure Url where
  scheme : Scheme
  path : List Char
deriving DecidableEq

/-- What divides the file of an archive from the path inside it. -/
def archiveMark : List Char := ['!', '/']

/-- What divides a scheme from a path. -/
def schemeMark : List Char := [':', '/', '/']

namespace Url

/-- The url as a text. -/
def text (url : Url) : String :=
  url.scheme.text ++ String.ofList schemeMark ++ String.ofList url.path

/-- Plain files come before archives, and then the order of the paths decides. -/
def precedes (a b : Url) : Bool :=
  match a.scheme, b.scheme with
  | .file, .jar => true
  | .jar, .file => false
  | _, _ => decide (a.path < b.path)

end Url

/-- Why a text or a name denotes no path. -/
inductive PathFault
  /-- The path is relative, climbs with `..`, or mounts the root directory as an archive. -/
  | malformed (raw : String)
  /-- The text names a scheme that is neither of the two. -/
  | unsupportedScheme (scheme raw : String)
  /-- An archive address without a path inside an archive. -/
  | noArchive (raw : String)
  /-- The name is not one path segment. -/
  | badChild (name : String) (parent : Url)
  /-- Nothing is known or found under this path. -/
  | absent (path : String)
deriving DecidableEq

/-- The wording of a path fault. -/
def PathFault.message : PathFault → String
  | malformed raw => "invalid path: " ++ raw
  | unsupportedScheme scheme raw =>
    "invalid path: unsupported scheme `" ++ scheme ++ "` in " ++ raw
  | noArchive raw => "invalid path: jar url without archive separator: " ++ raw
  | badChild name parent =>
    "invalid path: invalid child name `" ++ name ++ "` under " ++ parent.text
  | absent path => "invalid path: " ++ path

namespace Url

/-- The segments that name something, each behind a slash: empty segments and `.` are dropped,
and a text that climbs with `..` has none. -/
def tidy (text : List Char) : Option (List Char) :=
  let kept := (text.splitOn '/').filter fun segment => segment ≠ [] ∧ segment ≠ ['.']
  if ['.', '.'] ∈ kept then none
  else if kept = [] then some ['/']
  else some (kept.flatMap ('/' :: ·))

/-- The normal form of an absolute path: the part up to the first archive mark and the part
inside the archive are tidied apart, and the root directory is no archive. -/
def normalize (text : List Char) : Option (List Char) :=
  if text.head? = some '/' then
    match cutAt archiveMark text with
    | none => tidy text
    | some (outer, inner) =>
      match tidy outer, tidy inner with
      | some outer, some inner => if outer = ['/'] then none else some (outer ++ '!' :: inner)
      | _, _ => none
  else none

/-- A path under a scheme, or under the scheme it implies when the text names none: an archive
address needs an archive mark, and a path with one is an archive address. -/
def place (raw : String) (scheme : Option Scheme) (text : List Char) : Except PathFault Url :=
  match normalize text with
  | none => .error (.malformed raw)
  | some path =>
    let archived := (cutAt archiveMark path).isSome
    match scheme with
    | some .jar => if archived then .ok ⟨.jar, path⟩ else .error (.noArchive raw)
    | some .file => .ok ⟨.file, path⟩
    | none => .ok ⟨if archived then .jar else .file, path⟩

/-- Read a url, or a bare absolute path. -/
def parse (raw : String) : Except PathFault Url :=
  match cutAt schemeMark raw.toList with
  | none => place raw none raw.toList
  | some (word, rest) =>
    match Scheme.ofText? (String.ofList word) with
    | some scheme => place raw (some scheme) rest
    | none => .error (.unsupportedScheme (String.ofList word) raw)

end Url

end ProjectRoots
