import ProjectRoots.Atlas
import ProjectRoots.Disk.Tree

/- Surveys: entering into an atlas what a disk holds below a path. Whatever is found under a path
   that denotes no url is passed over. -/
namespace ProjectRoots.Atlas

/-- Enter the url of a path that was found, and count it. -/
def sight (state : Atlas × Nat) (path : Disk.Bytes) : Atlas × Nat :=
  match Url.parse (Disk.shown path) with
  | .ok url => (state.1.intern url, state.2 + 1)
  | .error _ => state

/-- Enter all that is found at `root` and below it; the number counts what could be entered. -/
def survey (atlas : Atlas) (disk : Disk) (root : Disk.Bytes) : Atlas × Nat :=
  (disk.walk root).foldl sight (atlas, 0)

end ProjectRoots.Atlas
