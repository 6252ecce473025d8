import Mathlib.Logic.Relation
import ProjectRoots.Proofs.Url.Top

/- Ancestors by text and by directory. `isStrictAncestor` looks whether one text begins another and
   a slash stands at the border; `parent` leads from directory to directory.

     1. `isStrictAncestor_trans`, `isStrictAncestor_of_between`, `isStrictAncestor_comparable` — on
        all texts the test is a strict order, and the ancestors of one text are in line.
     2. `above_iff` — the directories above a file are its containers.
     3. `isStrictAncestor_iff_above` — so for files that texts denote both find the same. -/
namespace ProjectRoots

/-! ## Texts -/

theorem isStrictAncestor_trans {first second third : List Char}
    (hfirst : isStrictAncestor first second = true)
    (hsecond : isStrictAncestor second third = true) : isStrictAncestor first third = true := by
  obtain ⟨rest, _, rfl, _⟩ := isStrictAncestor_iff.1 hsecond
  exact isStrictAncestor_of_append hfirst rest

/-- Whatever lies between an ancestor and the text has the ancestor, too. -/
theorem isStrictAncestor_of_between {ancestor between path : List Char}
    (hancestor : isStrictAncestor ancestor path = true) (hbegins : ancestor <+: between)
    (hends : between <+: path) (hne : ancestor ≠ between) :
    isStrictAncestor ancestor between = true := by
  obtain ⟨middle, rfl⟩ := hbegins
  obtain ⟨rest, rfl⟩ := hends
  have hmiddle : middle ≠ [] := by
    rintro rfl
    exact hne (List.append_nil ancestor).symm
  obtain ⟨behind, _, hpath, hborder⟩ := isStrictAncestor_iff.1 hancestor
  rw [List.append_assoc, List.append_cancel_left_eq] at hpath
  rw [← hpath, List.head?_append_of_ne_nil middle hmiddle] at hborder
  exact isStrictAncestor_iff.2 ⟨middle, hmiddle, rfl, hborder⟩

theorem isStrictAncestor_comparable {first second path : List Char}
    (hfirst : isStrictAncestor first path = true)
    (hsecond : isStrictAncestor second path = true) :
    first = second ∨ isStrictAncestor first second = true ∨
      isStrictAncestor second first = true := by
  have hbegins := Url.isPrefix_of_isStrictAncestor hfirst
  have hbegins' := Url.isPrefix_of_isStrictAncestor hsecond
  by_cases hsame : first = second
  · exact Or.inl hsame
  · rcases List.prefix_or_prefix_of_prefix hbegins hbegins' with hshorter | hshorter
    · exact Or.inr (Or.inl (isStrictAncestor_of_between hfirst hshorter hbegins' hsame))
    · exact Or.inr (Or.inr
        (isStrictAncestor_of_between hsecond hshorter hbegins (Ne.symm hsame)))

namespace Url

/-! ## Directories -/

/-- Whether one step or more from directory to directory lead from `inner` to `outer`. -/
def Above (outer inner : Url) : Prop :=
  Relation.TransGen (fun below above => below.parent = some above) inner outer

theorem above_iff_parent {outer inner : Url} :
    Above outer inner ↔ ∃ up, inner.parent = some up ∧ (outer = up ∨ Above outer up) := by
  unfold Above
  rw [Relation.TransGen.head'_iff]
  simp only [Relation.reflTransGen_iff_eq_or_transGen]

/-- A file is in no archive, so the only step outwards is the one to its directory. -/
theorem container_of_file_scheme {url : Url} (hfile : url.scheme = .file) :
    url.container = url.parent := by
  have hroot : url.isArchiveRoot = false := by simp [isArchiveRoot, hfile]
  unfold container
  rw [hroot]
  cases url.parent <;> rfl

theorem above_iff {outer inner : Url} (hfile : inner.scheme = .file) :
    Above outer inner ↔ outer ∈ inner.containers := by
  induction inner using Url.containers.induct with
  | case1 inner hcontainer =>
    rw [containers_of_none hcontainer, above_iff_parent, ← container_of_file_scheme hfile,
      hcontainer]
    simp
  | case2 inner up hcontainer ih =>
    have hparent : inner.parent = some up := (container_of_file_scheme hfile).symm.trans hcontainer
    have hup : up.scheme = .file := (parent_isPrefix hparent).2.trans hfile
    rw [containers_of_some hcontainer, above_iff_parent, hparent, List.mem_cons, ← ih hup]
    simp

theorem isStrictAncestor_iff_above :
    (∀ {raw raw' : String} {outer inner : Url}, parse raw = .ok outer → parse raw' = .ok inner →
      outer.scheme = .file → inner.scheme = .file → Markless inner.path →
        (isStrictAncestor outer.path inner.path = true ↔ Above outer inner)) ∧
    (∀ path, isStrictAncestor path path = false) ∧
    (∀ {first second third : List Char}, isStrictAncestor first second = true →
      isStrictAncestor second third = true → isStrictAncestor first third = true) ∧
    ∀ {first second path : List Char}, isStrictAncestor first path = true →
      isStrictAncestor second path = true →
        first = second ∨ isStrictAncestor first second = true ∨
          isStrictAncestor second first = true := by
  refine ⟨?_, isStrictAncestor_irrefl, isStrictAncestor_trans, isStrictAncestor_comparable⟩
  intro raw raw' outer inner houter hinner hfile hfile' hmarkless
  obtain ⟨hshape, hmark⟩ := shape_of_parse houter
  rw [above_iff hfile', mem_containers_plain hshape hmark hinner hfile' hmarkless]
  exact (and_iff_right hfile).symm

/-- A directory above a file, one whose name only begins the name of one, and two directories that
are in line because a third text is below both. -/
theorem isStrictAncestor_iff_above_names :
    ((parse "//proj/" = .ok ⟨.file, "/proj".toList⟩ ∧
      parse "file:///proj/mod" = .ok ⟨.file, "/proj/mod".toList⟩ ∧
      parse "/proj/./modA/x" = .ok ⟨.file, "/proj/modA/x".toList⟩ ∧
      Markless "/proj/modA/x".toList) ∧
      Above ⟨.file, "/proj".toList⟩ ⟨.file, "/proj/modA/x".toList⟩ ∧
      ¬Above ⟨.file, "/proj/mod".toList⟩ ⟨.file, "/proj/modA/x".toList⟩) ∧
    (isStrictAncestor "/".toList "/proj/".toList = true ∧
      isStrictAncestor "/proj/".toList "/proj/x".toList = true ∧
      isStrictAncestor "/".toList "/proj/x".toList = true) ∧
    isStrictAncestor "/proj".toList "/proj/x".toList = true ∧
      ("/proj".toList = "/proj/".toList ∨
        isStrictAncestor "/proj".toList "/proj/".toList = true ∨
          isStrictAncestor "/proj/".toList "/proj".toList = true) := by
  have hproj : parse "//proj/" = .ok ⟨.file, "/proj".toList⟩ := by rfl
  have hmod : parse "file:///proj/mod" = .ok ⟨.file, "/proj/mod".toList⟩ := by rfl
  have hinner : parse "/proj/./modA/x" = .ok ⟨.file, "/proj/modA/x".toList⟩ := by rfl
  have hmarkless : Markless "/proj/modA/x".toList := markless_of_not_mem (by decide)
  have htop : isStrictAncestor "/".toList "/proj/".toList = true := by decide
  have hslash : isStrictAncestor "/proj/".toList "/proj/x".toList = true := by decide
  have hplain : isStrictAncestor "/proj".toList "/proj/x".toList = true := by decide
  obtain ⟨htree, _, htrans, hcomparable⟩ := isStrictAncestor_iff_above
  refine ⟨⟨⟨hproj, hmod, hinner, hmarkless⟩, ?_, ?_⟩, ⟨htop, hslash, htrans htop hslash⟩,
    hplain, hcomparable hplain hslash⟩
  · exact (htree hproj hinner rfl rfl hmarkless).1 (by decide)
  · intro habove
    exact absurd ((htree hmod hinner rfl rfl hmarkless).2 habove) (by decide)

end Url

end ProjectRoots
