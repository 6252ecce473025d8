import ProjectRoots.Relocation
import ProjectRoots.Text.FileName

/- Dependents: whatever stores a path and wants it kept up to date. A dependent may belong to an
   entity that is named after the stored file, and it may refuse to store a new path, now and then
   or always.

   Correspondence (term ↔ Lean):
     collaborator with a stored path                  ↔ `Dependent`
     setting the stored path, as it is answered       ↔ `refusal`, `later`, `answered`
     replay with its path, flag and list of positions ↔ `pursue`
     identity rename                                  ↔ `entityNames` -/
namespace ProjectRoots

/-- Why a dependent does not store a path. -/
inductive Refusal
  /-- The new path is no path for it. -/
  | invalidPath
  /-- The new path does not go with its configuration. -/
  | misconfigured
  | channelClosed
  | because (reason : String)
deriving DecidableEq

/-- The wording of a refusal to store `new` instead of `stored`. -/
def Refusal.message (stored new : List Char) : Refusal → String
  | invalidPath => "invalid path: " ++ String.ofList new
  | misconfigured => "configuration error: " ++ String.ofList new
  | channelClosed => "channel error: event channel closed"
  | because reason =>
    "failed to update dependent path " ++ String.ofList stored ++ ": " ++ reason

/-- A stored path, the entity that is named after the file, and what becomes of new paths. -/
structure Dependent where
  path : List Char
  entity : Option String := none
  /-- Why the next new path is refused, if it is. -/
  refusal : Option Refusal := none
  /-- The same of the paths after that one. -/
  later : Nat → Option Refusal := fun _ => refusal

/-- The dependent when it was told a new path, whether it stores that or not. -/
def Dependent.answered (dependent : Dependent) : Dependent :=
  { dependent with
    refusal := dependent.later 0
    later := fun paths => dependent.later (paths + 1) }

/-- A path on its way through relocations. -/
structure Pursuit where
  current : List Char
  /-- Whether a rename has moved the path. -/
  renamed : Bool := false
  /-- The positions of the relocations that have moved it. -/
  applied : List Nat := []

/-- The next relocation, with its position. -/
def Pursuit.next (pursuit : Pursuit) (entry : Relocation × Nat) : Pursuit :=
  match entry.1.apply pursuit.current with
  | some current =>
    { current := current
      renamed := pursuit.renamed || entry.1.cause == .rename
      applied := pursuit.applied ++ [entry.2] }
  | none => pursuit

/-- Follow a path through the relocations, in order. -/
def pursue (relocations : List Relocation) (path : List Char) : Pursuit :=
  relocations.zipIdx.foldl Pursuit.next { current := path }

/-- The old and the new name of an entity whose descriptor went from `old` to `new`, if `new` is a
descriptor and the names differ. -/
def entityNames (extensions : List String) (old new : List Char) : Option (String × String) :=
  match FileName.extension? new, FileName.stem? old, FileName.stem? new with
  | some extension, some oldName, some newName =>
    if (extensions.any fun known => FileName.sameLetters known.toList extension) ∧
        oldName ≠ newName then
      some (String.ofList oldName, String.ofList newName)
    else none
  | _, _, _ => none

end ProjectRoots
