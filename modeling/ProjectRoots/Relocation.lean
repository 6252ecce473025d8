import ProjectRoots.Url.Walk

/- Relocations of paths and the journal that keeps them until they are carried out. The journal
   keeps the order in which the relocations happened, and a path is resolved by replaying them in
   that order, so a chain or a swap ends where the filesystem put it.

   Correspondence (term ↔ Lean):
     tracked relocation, its kind ↔ `Relocation`, `RelocationCause`
     rename tracking table        ↔ `Journal`
     recording, resolving         ↔ `record`, `resolve` -/
namespace ProjectRoots

/-- What relocated a path. -/
inductive RelocationCause
  | move
  | rename
deriving DecidableEq

/-- The path `old` is now `new`, and if it is a directory it took along what lies below it. -/
structure Relocation where
  old : List Char
  new : List Char
  cause : RelocationCause
  isDirectory : Bool
deriving DecidableEq

namespace Relocation

/-- Where `path` is after the relocation, if it was moved by it. -/
def apply (relocation : Relocation) (path : List Char) : Option (List Char) :=
  if path = relocation.old then some relocation.new
  else if relocation.isDirectory ∧ isStrictAncestor relocation.old path then
    some (relocation.new ++ path.drop relocation.old.length)
  else none

/-- Where `path` is after the relocation. -/
def carry (relocation : Relocation) (path : List Char) : List Char :=
  (relocation.apply path).getD path

end Relocation

/-- Where `path` is after the relocations, replayed in order. -/
def replay (relocations : List Relocation) (path : List Char) : List Char :=
  relocations.foldl (fun current relocation => relocation.carry current) path

theorem replay_append (first second : List Relocation) (path : List Char) :
    replay (first ++ second) path = replay second (replay first path) :=
  List.foldl_append

/-- Relocations waiting to be carried out, oldest first. -/
structure Journal where
  entries : List Relocation := []

namespace Journal

/-- Note a relocation; one that leaves the path where it is goes unnoted. -/
def record (journal : Journal) (relocation : Relocation) : Journal :=
  if relocation.old = relocation.new then journal
  else ⟨journal.entries ++ [relocation]⟩

/-- Whether `record` notes the relocation. -/
def notes (relocation : Relocation) : Bool :=
  relocation.old ≠ relocation.new

/-- Where `path` is now, if the noted relocations moved it. -/
def resolve (journal : Journal) (path : List Char) : Option (List Char) :=
  let current := replay journal.entries path
  if current = path then none else some current

theorem entries_record (journal : Journal) (relocation : Relocation) :
    (journal.record relocation).entries =
      journal.entries ++ [relocation].filter notes := by
  unfold record
  split
  · simp_all [notes]
  · simp_all [notes]

end Journal

end ProjectRoots
