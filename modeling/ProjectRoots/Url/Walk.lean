import ProjectRoots.Url.Basic

/- Steps from one url to another: to its child, its parent, into the archive that a file is and
   out of it again. A url's container is its parent or, for the root of an archive, the file that
   hosts the archive; `container_length_lt` says that its path is shorter, so the chain
   `containers` of a url ends. -/
namespace ProjectRoots

/-- Whether `ancestor` is a proper ancestor of `path`, segment by segment. -/
def isStrictAncestor (ancestor path : List Char) : Bool :=
  ancestor.length < path.length && ancestor.isPrefixOf path &&
    (ancestor.getLast? == some '/' || (path.drop ancestor.length).head? == some '/')

theorem isStrictAncestor_irrefl (path : List Char) : isStrictAncestor path path = false := by
  simp [isStrictAncestor]

namespace Url

/-- The address of an archive as a whole. -/
def isArchiveRoot (url : Url) : Bool :=
  url.scheme == .jar && archiveMark.isSuffixOf url.path

/-- The last segment; for the root of an archive the name of the archive. -/
def name (url : Url) : List Char :=
  let shown :=
    if archiveMark.isSuffixOf url.path then url.path.take (url.path.length - 2) else url.path
  match cutAtLast '/' shown with
  | some (_, last) => last
  | none => shown

/-- The directory that holds the url. The root directory and the root of an archive have none;
directly below the root of an archive the slash of the archive mark stays. -/
def parent (url : Url) : Option Url :=
  if url.isArchiveRoot || url.path == ['/'] then none
  else
    match cutAtLast '/' url.path with
    | none => none
    | some (before, _) =>
      if url.scheme = .jar ∧ before.getLast? = some '!' then some ⟨url.scheme, before ++ ['/']⟩
      else if before = [] then some ⟨url.scheme, ['/']⟩
      else some ⟨url.scheme, before⟩

/-- The url of `name` in this directory; the name has to be one segment. -/
def child (url : Url) (name : List Char) : Except PathFault Url :=
  if name = [] ∨ '/' ∈ name ∨ name = ['.'] ∨ name = ['.', '.'] then
    .error (.badChild (String.ofList name) url)
  else if url.path.getLast? = some '/' then .ok ⟨url.scheme, url.path ++ name⟩
  else .ok ⟨url.scheme, url.path ++ '/' :: name⟩

/-- The root of the archive that this file is. -/
def archiveRoot (url : Url) : Option Url :=
  if url.scheme = .jar ∨ url.path = ['/'] then none
  else some ⟨.jar, url.path ++ archiveMark⟩

/-- The file of the archive that this url lies in. -/
def archiveFile (url : Url) : Option Url :=
  if url.scheme = .jar then (cutAt archiveMark url.path).map fun cut => ⟨.file, cut.1⟩
  else none

/-- One step outwards: the parent, or from the root of an archive to the archive's file. -/
def container (url : Url) : Option Url :=
  match url.parent with
  | some up => some up
  | none => if url.isArchiveRoot then url.archiveFile else none

theorem isSuffixOf_archiveMark {before : List Char} (h : before.getLast? = some '!') :
    archiveMark.isSuffixOf (before ++ ['/']) = true := by
  obtain ⟨front, rfl⟩ := List.getLast?_eq_some_iff.1 h
  exact List.isSuffixOf_iff_suffix.2 ⟨front, by simp [archiveMark]⟩

theorem parent_length_lt {url up : Url} (h : url.parent = some up) :
    up.path.length < url.path.length := by
  unfold parent at h
  split at h
  · cases h
  rename_i hroot
  split at h
  · cases h
  rename_i before after hcut
  have hpath := eq_of_cutAtLast hcut
  have hlen : url.path.length = before.length + (after.length + 1) := by
    rw [hpath, List.length_append, List.length_cons]
  split at h
  · rename_i hjar
    cases h
    cases after with
    | nil => simp [isArchiveRoot, hjar.1, hpath, isSuffixOf_archiveMark hjar.2] at hroot
    | cons c rest => simp at hlen ⊢; omega
  · split at h
    · rename_i hnil
      cases h
      cases after with
      | nil => simp [hpath, hnil] at hroot
      | cons c rest => simp [hnil] at hlen ⊢; omega
    · cases h
      simp only
      omega

theorem archiveFile_length_lt {url file : Url} (h : url.archiveFile = some file) :
    file.path.length < url.path.length := by
  unfold archiveFile at h
  split at h
  · obtain ⟨⟨before, after⟩, hc, rfl⟩ := Option.map_eq_some_iff.1 h
    rw [eq_of_cutAt hc]
    simp [archiveMark]
  · cases h

theorem container_length_lt {url up : Url} (h : url.container = some up) :
    up.path.length < url.path.length := by
  unfold container at h
  split at h
  · rename_i hp
    cases h
    exact parent_length_lt hp
  · split at h
    · exact archiveFile_length_lt h
    · cases h

/-- The chain of containers, nearest first. -/
def containers (url : Url) : List Url :=
  match _step : url.container with
  | none => []
  | some up => up :: up.containers
termination_by url.path.length
decreasing_by exact container_length_lt _step

theorem containers_of_none {url : Url} (h : url.container = none) : url.containers = [] := by
  unfold containers
  split
  · rfl
  · simp_all

theorem containers_of_some {url up : Url} (h : url.container = some up) :
    url.containers = up :: up.containers := by
  rw [containers.eq_def]
  split
  · simp_all
  · simp_all

theorem containers_length_lt {url : Url} :
    ∀ outer ∈ url.containers, outer.path.length < url.path.length := by
  induction url using Url.containers.induct with
  | case1 url hcontainer => simp [containers_of_none hcontainer]
  | case2 url up hcontainer ih =>
    rw [containers_of_some hcontainer]
    have hup := container_length_lt hcontainer
    intro outer hmem
    rcases List.mem_cons.1 hmem with rfl | hmem
    · exact hup
    · exact Nat.lt_trans (ih outer hmem) hup

end Url

end ProjectRoots
