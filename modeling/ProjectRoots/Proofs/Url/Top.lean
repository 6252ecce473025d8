import ProjectRoots.Proofs.Url.Straying

/- Walks outwards. However odd a url is that some walk leads to, its path begins with a slash, and
   that of an archive has a mark in it (`Rooted`). The steps outwards need no more than that.

     1. `Rooted.take`, `Reached.rooted` — every turn keeps this.
     2. `Rooted.exists_container` — so from every url but the root directory there is a step
        outwards.
     3. `container_isPrefix` — a step outwards takes something off the end of the path, and it
        leads out of an archive or leaves the scheme as it is.
     4. `ascends_iff`, `Rooted.getLast?_containers`, `exists_inside_outside` — so the walk outwards
        ends at the root directory, and on its way it leaves an archive once at most. -/
namespace ProjectRoots

theorem not_markless_root (front : List Char) : ¬Markless (front ++ archiveMark) := by
  have hsplit : front ++ archiveMark = (front ++ ['!']) ++ '/' :: [] := by simp [archiveMark]
  rw [hsplit, markless_append_iff]
  intro hmarkless
  exact hmarkless.2.1 (by simp)

namespace Url

/-- The root directory. -/
def top : Url :=
  ⟨.file, ['/']⟩

/-- The path is absolute, and that of an archive's url has a mark. -/
structure Rooted (url : Url) : Prop where
  absolute : url.path.head? = some '/'
  marked : url.scheme = .jar → ¬Markless url.path

/-- A walk outwards, from container to container until there is none. -/
inductive Ascends : Url → List Url → Prop
  | done {url : Url} (hcontainer : url.container = none) : Ascends url []
  | step {url up : Url} {rest : List Url} (hcontainer : url.container = some up)
    (hrest : Ascends up rest) : Ascends url (up :: rest)

/-! ## Turns -/

/-- What is put behind a path changes nothing about its beginning. -/
theorem Rooted.append {scheme : Scheme} {path : List Char} (hrooted : Rooted ⟨scheme, path⟩)
    (more : List Char) : Rooted ⟨scheme, path ++ more⟩ where
  absolute := by
    have hhead : path.head? = some '/' := hrooted.absolute
    show (path ++ more).head? = some '/'
    rw [List.head?_append, hhead, Option.some_or]
  marked := by
    intro hjar hmarkless
    exact hrooted.marked hjar (Markless.left hmarkless)

/-- The directory of a url, from which the last segment of the path is cut off. -/
theorem Rooted.parent_eq {url : Url} (hrooted : url.Rooted) (hroot : url.isArchiveRoot = false)
    (htop : url.path ≠ ['/']) :
    ∃ front last, url.path = front ++ '/' :: last ∧ '/' ∉ last ∧
      url.parent = if url.scheme = .jar ∧ front.getLast? = some '!' then
          some ⟨url.scheme, front ++ ['/']⟩
        else if front = [] then some ⟨url.scheme, ['/']⟩
        else some ⟨url.scheme, front⟩ := by
  obtain ⟨scheme, path⟩ := url
  obtain ⟨front, last, rfl, hslash⟩ := last_slash (List.mem_of_head? hrooted.absolute)
  exact ⟨front, last, rfl, hslash, parent_append hslash hroot htop⟩

theorem Rooted.parent {url up : Url} (hrooted : url.Rooted) (hparent : url.parent = some up) :
    up.Rooted := by
  have hinner : url.isArchiveRoot = false ∧ url.path ≠ ['/'] := by
    unfold Url.parent at hparent
    split at hparent
    · cases hparent
    · rename_i hnot
      simpa using hnot
  obtain ⟨front, last, hpath, hslash, heq⟩ := hrooted.parent_eq hinner.1 hinner.2
  have hhead : front ≠ [] → front.head? = some '/' := by
    intro hne
    have habsolute := hrooted.absolute
    rwa [hpath, List.head?_append_of_ne_nil front hne] at habsolute
  have hmark : url.scheme = .jar → ¬(Markless front ∧ front.getLast? ≠ some '!') := by
    intro hjar hquiet
    apply hrooted.marked hjar
    rw [hpath]
    exact markless_append_iff.2 ⟨hquiet.1, hquiet.2, markless_segment hslash⟩
  rw [hparent] at heq
  split at heq
  · -- What is left of the path ends with a mark.
    rename_i hlast
    obtain ⟨before, rfl⟩ := List.getLast?_eq_some_iff.1 hlast.2
    rw [Option.some.inj heq]
    refine ⟨?_, fun _ => ?_⟩
    · have habsolute := hhead (by simp)
      show (before ++ ['!'] ++ ['/']).head? = some '/'
      rw [List.head?_append, habsolute, Option.some_or]
    · simpa [archiveMark] using not_markless_root before
  · rename_i hquiet
    split at heq
    · rename_i hnil
      rw [Option.some.inj heq]
      refine ⟨rfl, fun hjar => ?_⟩
      exact absurd ⟨hnil ▸ .nil, by simp [hnil]⟩ (hmark hjar)
    · rename_i hsome
      rw [Option.some.inj heq]
      refine ⟨hhead hsome, fun hjar hmarkless => hmark hjar ⟨hmarkless, ?_⟩⟩
      exact fun hlast => hquiet ⟨hjar, hlast⟩

theorem Rooted.child {url next : Url} {name : List Char} (hrooted : url.Rooted)
    (hchild : url.child name = .ok next) : next.Rooted := by
  obtain ⟨_, rfl⟩ := child_eq_ok_iff_gap.1 hchild
  exact Rooted.append (Rooted.append hrooted url.gap) name

theorem Rooted.archiveRoot {url root : Url} (hrooted : url.Rooted)
    (hroot : url.archiveRoot = some root) : root.Rooted := by
  unfold Url.archiveRoot at hroot
  split at hroot
  · cases hroot
  · rw [← Option.some.inj hroot]
    refine ⟨?_, fun _ => not_markless_root url.path⟩
    show (url.path ++ archiveMark).head? = some '/'
    rw [List.head?_append, hrooted.absolute, Option.some_or]

theorem archiveFile_scheme {url file : Url} (hfile : url.archiveFile = some file) :
    url.scheme = .jar ∧ file.scheme = .file := by
  unfold Url.archiveFile at hfile
  split at hfile
  · rename_i hjar
    obtain ⟨cut, _, rfl⟩ := Option.map_eq_some_iff.1 hfile
    exact ⟨hjar, rfl⟩
  · cases hfile

theorem Rooted.archiveFile {url file : Url} (hrooted : url.Rooted)
    (hfile : url.archiveFile = some file) : file.Rooted := by
  obtain ⟨inside, hcut⟩ := archiveFile_eq_some hfile
  have hpath := eq_of_cutAt hcut
  have habsolute := hrooted.absolute
  refine ⟨?_, fun hjar => ?_⟩
  · -- The mark does not begin with a slash, so there is something in front of it.
    have hne : file.path ≠ [] := by
      intro hnil
      rw [hpath, hnil] at habsolute
      simp [archiveMark] at habsolute
    rwa [hpath, List.append_assoc, List.head?_append_of_ne_nil _ hne] at habsolute
  · have hschemes := hjar.symm.trans (archiveFile_scheme hfile).2
    cases hschemes

theorem Rooted.container {url up : Url} (hrooted : url.Rooted)
    (hcontainer : url.container = some up) : up.Rooted := by
  unfold Url.container at hcontainer
  split at hcontainer
  · rename_i outer hparent
    obtain rfl := Option.some.inj hcontainer
    exact hrooted.parent hparent
  · split at hcontainer
    · exact hrooted.archiveFile hcontainer
    · cases hcontainer

theorem Rooted.take {url next : Url} (hrooted : url.Rooted) {turn : Turn}
    (htake : turn.take url = some next) : next.Rooted := by
  cases turn with
  | child name => exact hrooted.child (child_of_take htake)
  | parent => exact hrooted.parent htake
  | archiveRoot => exact hrooted.archiveRoot htake
  | archiveFile => exact hrooted.archiveFile htake
  | container => exact hrooted.container htake

theorem Reached.rooted {url : Url} (hurl : Reached url) : url.Rooted := by
  induction hurl with
  | parsed _ hparse =>
    have hnormal := normal_of_parse hparse
    exact ⟨head?_of_neat hnormal.neat, hnormal.marked⟩
  | taken _ _ htake ih => exact ih.take htake

/-! ## Steps outwards -/

/-- There is a step outwards from every url but the root directory's. -/
theorem Rooted.exists_container {url : Url} (hrooted : url.Rooted) (htop : url ≠ top) :
    ∃ up, url.container = some up := by
  unfold Url.container
  by_cases hroot : url.isArchiveRoot = true
  · have hjar : url.scheme = .jar := eq_of_beq (Bool.and_eq_true_iff.1 hroot).1
    obtain ⟨file, inside, hcut⟩ := exists_cut_of_mark (hrooted.marked hjar)
    have hparent : url.parent = none := by simp [Url.parent, hroot]
    exact ⟨⟨.file, file⟩, by simp [hparent, hroot, Url.archiveFile, hjar, hcut]⟩
  · have hpath : url.path ≠ ['/'] := by
      intro hslash
      cases hscheme : url.scheme with
      | file => exact htop ((eq_mk_iff hscheme).2 hslash)
      | jar =>
        apply hrooted.marked hscheme
        rw [hslash]
        exact .singleton '/'
    obtain ⟨front, last, _, _, heq⟩ := hrooted.parent_eq (Bool.not_eq_true _ ▸ hroot) hpath
    obtain ⟨up, hup⟩ : ∃ up, url.parent = some up := by
      rw [heq]
      split_ifs <;> exact ⟨_, rfl⟩
    exact ⟨up, by rw [hup]⟩

theorem Rooted.container_eq_none_iff {url : Url} (hrooted : url.Rooted) :
    url.container = none ↔ url = top := by
  constructor
  · intro hnone
    by_contra htop
    obtain ⟨up, hup⟩ := hrooted.exists_container htop
    rw [hnone] at hup
    cases hup
  · rintro rfl
    exact container_of_top

theorem parent_isPrefix {url up : Url} (hparent : url.parent = some up) :
    up.path <+: url.path ∧ up.scheme = url.scheme := by
  unfold Url.parent at hparent
  split at hparent
  · cases hparent
  split at hparent
  · cases hparent
  rename_i before after hcut
  have hpath := eq_of_cutAtLast hcut
  split at hparent
  · rw [← Option.some.inj hparent]
    exact ⟨⟨after, by simp [hpath]⟩, rfl⟩
  · split at hparent
    · rename_i hnil
      rw [← Option.some.inj hparent]
      exact ⟨⟨after, by simp [hpath, hnil]⟩, rfl⟩
    · rw [← Option.some.inj hparent]
      exact ⟨⟨'/' :: after, hpath.symm⟩, rfl⟩

/-- Whatever the step outwards is, it takes something off the end of the path. The scheme stays, or
the step is the one from an archive to its file. -/
theorem container_isPrefix {url up : Url} (hcontainer : url.container = some up) :
    up.path <+: url.path ∧
      (up.scheme = url.scheme ∨ url.scheme = .jar ∧ up.scheme = .file) := by
  unfold Url.container at hcontainer
  split at hcontainer
  · rename_i outer hparent
    obtain rfl := Option.some.inj hcontainer
    obtain ⟨hshort, hscheme⟩ := parent_isPrefix hparent
    exact ⟨hshort, Or.inl hscheme⟩
  · split at hcontainer
    · obtain ⟨inside, hcut⟩ := archiveFile_eq_some hcontainer
      refine ⟨⟨archiveMark ++ inside, ?_⟩, Or.inr (archiveFile_scheme hcontainer)⟩
      rw [eq_of_cutAt hcut, List.append_assoc]
    · cases hcontainer

/-! ## The walk outwards -/

theorem ascends_containers (url : Url) : Ascends url url.containers := by
  induction url using Url.containers.induct with
  | case1 url hcontainer =>
    rw [containers_of_none hcontainer]
    exact .done hcontainer
  | case2 url up hcontainer ih =>
    rw [containers_of_some hcontainer]
    exact .step hcontainer ih

theorem Ascends.unique {url : Url} {a b : List Url} (ha : Ascends url a) (hb : Ascends url b) :
    a = b := by
  induction ha generalizing b with
  | done hcontainer =>
    cases hb with
    | done => rfl
    | step hcontainer' =>
      rw [hcontainer] at hcontainer'
      cases hcontainer'
  | step hcontainer _ ih =>
    cases hb with
    | done hcontainer' =>
      rw [hcontainer] at hcontainer'
      cases hcontainer'
    | step hcontainer' hrest =>
      obtain rfl := Option.some.inj (hcontainer.symm.trans hcontainer')
      rw [ih hrest]

/-- The walk outwards ends, with the containers for its stops. -/
theorem ascends_iff {url : Url} {listed : List Url} :
    Ascends url listed ↔ listed = url.containers := by
  constructor
  · intro h
    exact h.unique (ascends_containers url)
  · rintro rfl
    exact ascends_containers url

theorem Rooted.containers {url : Url} (hrooted : url.Rooted) :
    ∀ outer ∈ url.containers, outer.Rooted := by
  induction url using Url.containers.induct with
  | case1 url hcontainer => simp [containers_of_none hcontainer]
  | case2 url up hcontainer ih =>
    have hup := hrooted.container hcontainer
    rw [containers_of_some hcontainer]
    intro outer hmem
    rcases List.mem_cons.1 hmem with rfl | hmem
    · exact hup
    · exact ih hup outer hmem

theorem Rooted.getLast?_containers {url : Url} (hrooted : url.Rooted) :
    (url :: url.containers).getLast? = some top := by
  induction url using Url.containers.induct with
  | case1 url hcontainer =>
    rw [containers_of_none hcontainer, hrooted.container_eq_none_iff.1 hcontainer]
    rfl
  | case2 url up hcontainer ih =>
    rw [containers_of_some hcontainer, List.getLast?_cons_cons]
    exact ih (hrooted.container hcontainer)

/-- First come urls of archives, and then urls of files. -/
theorem exists_inside_outside (url : Url) :
    ∃ inside outside, url :: url.containers = inside ++ outside ∧
      (∀ inner ∈ inside, inner.scheme = .jar) ∧ ∀ outer ∈ outside, outer.scheme = .file := by
  induction url using Url.containers.induct with
  | case1 url hcontainer =>
    rw [containers_of_none hcontainer]
    cases hscheme : url.scheme with
    | file => exact ⟨[], [url], rfl, by simp, by simp [hscheme]⟩
    | jar => exact ⟨[url], [], rfl, by simp [hscheme], by simp⟩
  | case2 url up hcontainer ih =>
    obtain ⟨inside, outside, hsplit, hinside, houtside⟩ := ih
    rw [containers_of_some hcontainer]
    cases hscheme : url.scheme with
    | file =>
      have hup : up.scheme = .file := by
        rcases (container_isPrefix hcontainer).2 with hsame | ⟨_, hfile⟩
        · exact hsame.trans hscheme
        · exact hfile
      -- The container is a file's, too, so no url of an archive comes first.
      obtain rfl : inside = [] := by
        cases inside with
        | nil => rfl
        | cons inner rest =>
          have hjar := hinside inner List.mem_cons_self
          rw [← (List.cons.inj hsplit).1, hup] at hjar
          cases hjar
      refine ⟨[], url :: outside, by rw [hsplit]; rfl, by simp, ?_⟩
      simpa [hscheme] using houtside
    | jar =>
      refine ⟨url :: inside, outside, by rw [hsplit, List.cons_append], ?_, houtside⟩
      simpa [hscheme] using hinside

end Url

end ProjectRoots
