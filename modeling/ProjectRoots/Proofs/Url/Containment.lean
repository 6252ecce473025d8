import ProjectRoots.Proofs.Url.Ancestry

/- Which urls the chain of containers of a url goes through. A url lies in another one if its path
   is below the other's path, or if it is an entry of an archive whose file is or lies in the other
   one (`Holds`). The chain is meant to go through all of these.

     1. `containers_entry` — the chain of an entry of an archive. It steps from segment to segment,
        and a segment that ends with `!` looks to it like the end of an archive's file: it goes on
        with the file of the outermost archive, past everything that lies between.
     2. `mem_containers_iff` — so it goes through what the url lies in, except for the urls inside
        an archive that another archive mark divides from it (`Divided`).
     3. `containers_pairwise`, `Holds.unique` — the chain goes outwards, and a url lies in one url
        of each depth, so the first mount on the chain is the deepest one that is not divided. -/
namespace ProjectRoots.Url

/-- Whether `inner` lies in `outer`: below it, or in an archive whose file is or lies in it. -/
def Holds (outer inner : Url) : Prop :=
  outer.scheme = inner.scheme ∧ isStrictAncestor outer.path inner.path = true ∨
    outer.scheme = .file ∧ inner.scheme = .jar ∧ ∃ host, inner.archiveFile = some host ∧
      (outer = host ∨ isStrictAncestor outer.path host.path = true)

/-- Whether `inner` lies in the root of an archive that is farther inwards than `outer`, which is
inside an archive itself. -/
def Divided (outer inner : Url) : Prop :=
  outer.scheme = .jar ∧ ∃ root, archiveMark <:+ root ∧ outer.path.length < root.length ∧
    isStrictAncestor root inner.path = true

/-! ## Entries of archives -/

/-- The entry of an archive with these segments. -/
def entry (host segments : List (List Char)) : Url :=
  ⟨.jar, spell host ++ '!' :: spell segments⟩

/-- What an entry's path has in front of its segments. -/
def stem (host : List (List Char)) : List Char :=
  spell host ++ ['!']

theorem entry_nil (host : List (List Char)) : entry host [] = ⟨.jar, stem host ++ ['/']⟩ := by
  simp [entry, stem, spell]

theorem entry_of_ne_nil (host : List (List Char)) {segments : List (List Char)}
    (hne : segments ≠ []) : entry host segments = ⟨.jar, stem host ++ joined segments⟩ := by
  simp [entry, stem, spell_of_ne_nil hne]

theorem entry_append (host init : List (List Char)) (last : List Char) :
    entry host (init ++ [last]) = ⟨.jar, (stem host ++ joined init) ++ '/' :: last⟩ := by
  rw [entry_of_ne_nil host (by simp), joined_append_singleton, List.append_assoc]

theorem archiveFile_entry {host segments : List (List Char)} (hmarkless : Markless (spell host)) :
    (entry host segments).archiveFile = some ⟨.file, spell host⟩ := by
  obtain ⟨back, hback⟩ := exists_spell_eq_cons segments
  simp [archiveFile, entry, hback, cutAt_of_markless hmarkless]

theorem markless_stem {host : List (List Char)} (hmarkless : Markless (spell host)) :
    Markless (stem host) :=
  hmarkless.bang

theorem container_entry_nil {host : List (List Char)} (hmarkless : Markless (spell host)) :
    container (entry host []) = some ⟨.file, spell host⟩ := by
  have hpath : entry host [] = ⟨.jar, spell host ++ archiveMark⟩ := rfl
  rw [hpath]
  exact container_of_root (cutAt_of_markless hmarkless)

/-- One step outwards, if the segment before the last one ends no mark. -/
theorem container_entry_calm {host init : List (List Char)} {last : List Char} (hne : last ≠ [])
    (hslash : '/' ∉ last) (hcalm : (stem host ++ joined init).getLast? ≠ some '!') :
    container (entry host (init ++ [last])) = some (entry host init) := by
  have hnil : init ≠ [] := by
    intro hnil
    apply hcalm
    simp [hnil, joined, stem]
  rw [entry_append, container_of_segment hne hslash, if_neg (fun h => hcalm h.2),
    if_neg (by simp [stem]), entry_of_ne_nil host hnil]

/-- Otherwise the step leads to the mark, and from there out of all archives. -/
theorem containers_entry_marked {host init : List (List Char)} {last : List Char} (hne : last ≠ [])
    (hslash : '/' ∉ last) (hmarkless : Markless (spell host))
    (hmarked : (stem host ++ joined init).getLast? = some '!') :
    containers (entry host (init ++ [last])) =
      ⟨.jar, (stem host ++ joined init) ++ ['/']⟩ :: ⟨.file, spell host⟩ ::
        containers ⟨.file, spell host⟩ := by
  have hfirst : container (entry host (init ++ [last])) =
      some ⟨.jar, (stem host ++ joined init) ++ ['/']⟩ := by
    rw [entry_append, container_of_segment hne hslash, if_pos ⟨rfl, hmarked⟩]
  -- However deep the mark is, the path is cut at the first one.
  have hcut : ∃ back, cutAt archiveMark ((stem host ++ joined init) ++ ['/']) =
      some (spell host, back) := by
    cases init with
    | nil => exact ⟨[], by simpa [joined, stem] using @cutAt_of_markless _ [] hmarkless⟩
    | cons first rest =>
      refine ⟨first ++ joined rest ++ ['/'], ?_⟩
      simpa [joined, stem] using @cutAt_of_markless _ (first ++ joined rest ++ ['/']) hmarkless
  have hsecond : container ⟨.jar, (stem host ++ joined init) ++ ['/']⟩ =
      some ⟨.file, spell host⟩ := by
    obtain ⟨front, hfront⟩ := List.getLast?_eq_some_iff.1 hmarked
    have hpath : (stem host ++ joined init) ++ ['/'] = front ++ archiveMark := by
      simp [hfront, archiveMark]
    obtain ⟨back, hcut⟩ := hcut
    rw [hpath] at hcut ⊢
    exact container_of_root hcut
  rw [containers_of_some hfirst, containers_of_some hsecond]

theorem Divided.length_lt {outer inner : Url} (hdivided : outer.Divided inner) :
    outer.path.length + 1 < inner.path.length := by
  obtain ⟨_, root, _, hlonger, hbelow⟩ := hdivided
  have hshorter := isStrictAncestor_length_lt hbelow
  omega

/-- What divides an entry from `outer`: the mark behind the segment before the last one, or a mark
farther outwards. -/
theorem divided_append_iff {outer : Url} {scheme : Scheme} {front last : List Char}
    (hne : last ≠ []) (hslash : '/' ∉ last) (hfront : front.getLast? ≠ some '/') :
    outer.Divided ⟨scheme, front ++ '/' :: last⟩ ↔
      outer.scheme = .jar ∧ front.getLast? = some '!' ∧ outer.path.length ≤ front.length ∨
        outer.Divided ⟨scheme, front⟩ := by
  unfold Divided
  constructor
  · intro h
    obtain ⟨hjar, root, hmark, hlonger, hbelow⟩ := h
    obtain ⟨before, hbefore⟩ := hmark
    rcases (isStrictAncestor_append hne hslash).1 hbelow with hroot | hroot | hbelow
    · exfalso
      apply hfront
      rw [← hroot, ← hbefore]
      simp [archiveMark]
    · have hsame : before ++ ['!'] ++ ['/'] = front ++ ['/'] := by
        rw [← hroot, ← hbefore]
        simp [archiveMark]
      rw [hroot, List.length_append, List.length_singleton] at hlonger
      refine Or.inl ⟨hjar, ?_, by omega⟩
      rw [← List.append_cancel_right hsame]
      simp
    · exact Or.inr ⟨hjar, root, ⟨before, hbefore⟩, hlonger, hbelow⟩
  · intro h
    rcases h with ⟨hjar, hmark, hle⟩ | ⟨hjar, root, hmark, hlonger, hbelow⟩
    · obtain ⟨before, rfl⟩ := List.getLast?_eq_some_iff.1 hmark
      refine ⟨hjar, before ++ ['!'] ++ ['/'], ⟨before, by simp [archiveMark]⟩, ?_, ?_⟩
      · rw [List.length_append, List.length_singleton]
        omega
      · exact (isStrictAncestor_append hne hslash).2 (Or.inr (Or.inl rfl))
    · exact ⟨hjar, root, hmark, hlonger, isStrictAncestor_of_append hbelow _⟩

theorem getLast?_stem_joined_ne {host init : List (List Char)} (hinit : Segments init) :
    (stem host ++ joined init).getLast? ≠ some '/' := by
  by_cases hnil : init = []
  · simp [hnil, joined, stem]
  · rw [List.getLast?_append_of_ne_nil _ (joined_ne_nil hnil)]
    exact getLast?_joined_ne hinit

theorem eq_mk_iff {outer : Url} {scheme : Scheme} {path : List Char}
    (hscheme : outer.scheme = scheme) : outer = ⟨scheme, path⟩ ↔ outer.path = path := by
  obtain ⟨_, found⟩ := outer
  obtain rfl := hscheme
  simp

/-- Of what an archive url lies in, only the mark that the step outwards leads to is not divided
from it. -/
theorem undivided_marked_iff {outer : Url} (hjar : outer.scheme = .jar)
    {host init : List (List Char)} {last : List Char} (hinit : Segments init) (hne : last ≠ [])
    (hslash : '/' ∉ last) (hmarked : (stem host ++ joined init).getLast? = some '!') :
    outer = ⟨.jar, (stem host ++ joined init) ++ ['/']⟩ ↔
      isStrictAncestor outer.path (entry host (init ++ [last])).path = true ∧
        ¬outer.Divided (entry host (init ++ [last])) := by
  rw [eq_mk_iff hjar, entry_append, isStrictAncestor_append hne hslash,
    divided_append_iff hne hslash (getLast?_stem_joined_ne hinit)]
  constructor
  · intro hroot
    refine ⟨Or.inr (Or.inl hroot), ?_⟩
    intro hdivided
    have hlen : outer.path.length = (stem host ++ joined init).length + 1 := by
      rw [hroot, List.length_append, List.length_singleton]
    rcases hdivided with ⟨_, _, hle⟩ | hdivided
    · omega
    · have hlt := hdivided.length_lt
      simp only at hlt
      omega
  · intro h
    obtain ⟨hbelow, hundivided⟩ := h
    rcases hbelow with hfront | hroot | hbelow
    · exact absurd (Or.inl ⟨hjar, hmarked, by rw [hfront]⟩) hundivided
    · exact hroot
    · have hlt := isStrictAncestor_length_lt hbelow
      exact absurd (Or.inl ⟨hjar, hmarked, by omega⟩) hundivided

/-- What an archive url lies in undivided, if the step outwards leads to no mark. -/
theorem undivided_calm_iff {outer : Url} (hshape : Shape outer.path) (hjar : outer.scheme = .jar)
    {host init : List (List Char)} {last : List Char} (hinit : Segments init) (hne : last ≠ [])
    (hslash : '/' ∉ last) (hcalm : (stem host ++ joined init).getLast? ≠ some '!') :
    isStrictAncestor outer.path (entry host (init ++ [last])).path = true ∧
        ¬outer.Divided (entry host (init ++ [last])) ↔
      outer = entry host init ∨ isStrictAncestor outer.path (entry host init).path = true ∧
        ¬outer.Divided (entry host init) := by
  have hnil : init ≠ [] := by
    intro hnil
    apply hcalm
    simp [hnil, joined, stem]
  have hmiddle := hshape.ne_append_slash (by simp [stem]) hcalm
  rw [entry_append, isStrictAncestor_append hne hslash,
    divided_append_iff hne hslash (getLast?_stem_joined_ne hinit), entry_of_ne_nil host hnil,
    eq_mk_iff hjar]
  simp only [hmiddle, hcalm, false_and, and_false, false_or]
  constructor
  · intro h
    obtain ⟨hpath | hbelow, hfree⟩ := h
    · exact Or.inl hpath
    · exact Or.inr ⟨hbelow, hfree⟩
  · intro h
    rcases h with hpath | ⟨hbelow, hfree⟩
    · refine ⟨Or.inl hpath, ?_⟩
      intro hdivided
      have hlt := hdivided.length_lt
      simp only [hpath] at hlt
      omega
    · exact ⟨Or.inr hbelow, hfree⟩

theorem not_isStrictAncestor_entry_nil {outer : List Char} (hmark : ¬Markless outer)
    {host : List (List Char)} (hmarkless : Markless (spell host)) :
    ¬isStrictAncestor outer (entry host []).path = true := by
  intro hbelow
  obtain ⟨rest, hrest, hpath, _⟩ := isStrictAncestor_iff.1 hbelow
  obtain ⟨more, c, rfl⟩ := (List.eq_nil_or_concat' rest).resolve_left hrest
  rw [entry_nil, ← List.append_assoc] at hpath
  have hfront : Markless (outer ++ more) := by
    rw [← (List.append_inj' hpath rfl).1]
    exact markless_stem hmarkless
  exact hmark hfront.left

/-- The chain of an entry first goes through urls inside the archive, and then through the archive's
file and the files that this lies in. -/
theorem containers_entry {host segments : List (List Char)} (hmarkless : Markless (spell host))
    (hsegments : Segments segments) :
    ∃ inside, containers (entry host segments) =
        inside ++ ⟨.file, spell host⟩ :: containers ⟨.file, spell host⟩ ∧
      (∀ outer ∈ inside, outer.scheme = .jar) ∧
      ∀ outer : Url, Shape outer.path → ¬Markless outer.path → outer.scheme = .jar →
        (outer ∈ inside ↔ isStrictAncestor outer.path (entry host segments).path = true ∧
          ¬outer.Divided (entry host segments)) := by
  induction segments using List.reverseRecOn with
  | nil =>
    refine ⟨[], containers_of_some (container_entry_nil hmarkless), by simp, ?_⟩
    intro outer _ hmark _
    simp [not_isStrictAncestor_entry_nil hmark hmarkless]
  | append_singleton init last ih =>
    obtain ⟨hinit, hne, hslash⟩ := Segments.init hsegments
    by_cases hmarked : (stem host ++ joined init).getLast? = some '!'
    · -- The chain leaves the archive from the mark, whatever is above the mark.
      refine ⟨[⟨.jar, (stem host ++ joined init) ++ ['/']⟩],
        containers_entry_marked hne hslash hmarkless hmarked, by simp, ?_⟩
      intro outer _ _ hjar
      rw [List.mem_singleton]
      exact undivided_marked_iff hjar hinit hne hslash hmarked
    · obtain ⟨inside, hchain, hjars, hinside⟩ := ih hinit
      refine ⟨entry host init :: inside, ?_, ?_, ?_⟩
      · rw [containers_of_some (container_entry_calm hne hslash hmarked), hchain]
        rfl
      · intro outer hmem
        rcases List.mem_cons.1 hmem with rfl | hmem
        · rfl
        · exact hjars outer hmem
      · intro outer hshape hmark hjar
        rw [List.mem_cons, hinside outer hshape hmark hjar]
        exact (undivided_calm_iff hshape hjar hinit hne hslash hmarked).symm

/-- The chain of an entry goes through what the entry lies in undivided. -/
theorem mem_containers_entry {outer : Url} (hshape : Shape outer.path)
    (hmark : outer.scheme = .jar → ¬Markless outer.path) {host segments : List (List Char)}
    (hhost : Segments host) (hmarkless : Markless (spell host)) (hsegments : Segments segments) :
    outer ∈ containers (entry host segments) ↔
      outer.Holds (entry host segments) ∧ ¬outer.Divided (entry host segments) := by
  obtain ⟨inside, hchain, hjars, hinside⟩ := containers_entry hmarkless hsegments
  have hfiles := mem_containers_file hshape hhost hmarkless
  have hholds : outer.Holds (entry host segments) ↔
      outer.scheme = .jar ∧ isStrictAncestor outer.path (entry host segments).path = true ∨
        outer.scheme = .file ∧
          (outer = ⟨.file, spell host⟩ ∨ isStrictAncestor outer.path (spell host) = true) := by
    simp [Holds, archiveFile_entry hmarkless, show (entry host segments).scheme = .jar from rfl]
  rw [hchain, List.mem_append, List.mem_cons, hfiles, hholds]
  cases hscheme : outer.scheme with
  | file =>
    have hout : outer ∉ inside := by
      intro hmem
      rw [hjars outer hmem] at hscheme
      cases hscheme
    have hfree : ¬outer.Divided (entry host segments) := by
      intro hdivided
      rw [hdivided.1] at hscheme
      cases hscheme
    simp [hout, hfree]
  | jar =>
    have hout : outer ≠ ⟨.file, spell host⟩ := by
      intro h
      rw [h] at hscheme
      cases hscheme
    rw [hinside outer hshape (hmark hscheme) hscheme]
    simp [hout]

/-! ## Urls that texts denote -/

/-- The chain of a url goes through what the url lies in undivided. The path of a file may not have
an archive mark in it, as one that is written with its scheme may. -/
theorem mem_containers_iff {outer inner : Url} (houter : Shape outer.path)
    (hmark : outer.scheme = .jar → ¬Markless outer.path) {raw : String}
    (hinner : parse raw = .ok inner) (hplain : inner.scheme = .file → Markless inner.path) :
    outer ∈ inner.containers ↔ outer.Holds inner ∧ ¬outer.Divided inner := by
  obtain ⟨hshape, hjar⟩ := shape_of_parse hinner
  cases hshape with
  | plain segments hsegments hmarkless hpath =>
    have hfile : inner.scheme = .file := by
      cases hscheme : inner.scheme with
      | file => rfl
      | jar =>
        rw [← hpath] at hmarkless
        exact absurd hmarkless (hjar hscheme)
    have hholds : outer.Holds ⟨.file, spell segments⟩ ↔
        outer.scheme = .file ∧ isStrictAncestor outer.path (spell segments) = true := by
      simp [Holds]
    rw [(eq_mk_iff hfile).2 hpath, mem_containers_file houter hsegments hmarkless, hholds,
      iff_self_and]
    intro h hdivided
    have hschemes := h.1.symm.trans hdivided.1
    cases hschemes
  | entry host segments hhost hmarkless hsegments hpath =>
    have harchive : inner.scheme = .jar := by
      cases hscheme : inner.scheme with
      | jar => rfl
      | file =>
        have hcut := cutAt_eq_none_iff.2 (hplain hscheme)
        have hhostCut := @archiveFile_entry host segments hmarkless
        rw [hpath] at hcut
        simp [archiveFile, entry, hcut] at hhostCut
    rw [(eq_mk_iff harchive).2 hpath]
    exact mem_containers_entry houter hmark hhost hmarkless hsegments

/-- The chain of a file without a mark in its path goes through the files above it. -/
theorem mem_containers_plain {outer inner : Url} (houter : Shape outer.path)
    (hmark : outer.scheme = .jar → ¬Markless outer.path) {raw : String}
    (hinner : parse raw = .ok inner) (hfile : inner.scheme = .file)
    (hplain : Markless inner.path) :
    outer ∈ inner.containers ↔
      outer.scheme = .file ∧ isStrictAncestor outer.path inner.path = true := by
  rw [mem_containers_iff houter hmark hinner (fun _ => hplain)]
  refine ⟨fun h => ?_, fun h => ⟨Or.inl ⟨h.1.trans hfile.symm, h.2⟩, fun hdivided => ?_⟩⟩
  · rcases h.1 with ⟨hscheme, hbelow⟩ | ⟨_, hjar, _⟩
    · exact ⟨hscheme.trans hfile, hbelow⟩
    · rw [hfile] at hjar
      cases hjar
  · have hschemes := h.1.symm.trans hdivided.1
    cases hschemes

/-- The chain goes outwards. -/
theorem containers_pairwise (url : Url) :
    url.containers.Pairwise fun inner outer => outer.path.length < inner.path.length := by
  induction url using Url.containers.induct with
  | case1 url hcontainer => simp [containers_of_none hcontainer]
  | case2 url up hcontainer ih =>
    rw [containers_of_some hcontainer]
    exact List.pairwise_cons.2 ⟨containers_length_lt, ih⟩

/-- Behind a url on the chain comes the chain of that url. -/
theorem containers_of_append {url outer : Url} {nearer farther : List Url}
    (hcontainers : url.containers = nearer ++ outer :: farther) : farther = outer.containers := by
  induction url using Url.containers.induct generalizing nearer with
  | case1 url hcontainer =>
    rw [containers_of_none hcontainer] at hcontainers
    exact absurd hcontainers (by simp)
  | case2 url up hcontainer ih =>
    rw [containers_of_some hcontainer] at hcontainers
    cases nearer with
    | nil =>
      obtain ⟨rfl, hfarther⟩ := List.cons.inj hcontainers
      exact hfarther.symm
    | cons first rest => exact ih (List.cons.inj hcontainers).2

theorem mem_containers_trans {outer middle inner : Url} (houter : outer ∈ middle.containers)
    (hmiddle : middle ∈ inner.containers) : outer ∈ inner.containers := by
  obtain ⟨nearer, farther, hcontainers⟩ := List.append_of_mem hmiddle
  rw [← containers_of_append hcontainers] at houter
  rw [hcontainers]
  exact List.mem_append_right _ (List.mem_cons_of_mem _ houter)

/-- The root of the archive that a file is lies in the file and in what the file lies in. -/
theorem containers_archiveRoot {url root : Url} (hmarkless : Markless url.path)
    (hroot : url.archiveRoot = some root) : root.containers = url :: url.containers := by
  unfold archiveRoot at hroot
  split at hroot
  · cases hroot
  · rename_i hfile
    obtain ⟨hscheme, _⟩ := not_or.1 hfile
    obtain ⟨scheme, path⟩ := url
    obtain rfl : scheme = .file := by
      cases scheme with
      | file => rfl
      | jar => exact absurd rfl hscheme
    cases hroot
    exact containers_of_some (container_of_root (cutAt_of_markless hmarkless))

theorem archiveFile_eq_some {inner host : Url} (hhost : inner.archiveFile = some host) :
    ∃ inside, cutAt archiveMark inner.path = some (host.path, inside) := by
  unfold archiveFile at hhost
  split at hhost
  · obtain ⟨cut, hcut, rfl⟩ := Option.map_eq_some_iff.1 hhost
    exact ⟨cut.2, hcut⟩
  · cases hhost

theorem isPrefix_of_isStrictAncestor {ancestor path : List Char}
    (h : isStrictAncestor ancestor path = true) : ancestor <+: path := by
  obtain ⟨rest, _, hpath, _⟩ := isStrictAncestor_iff.1 h
  exact ⟨rest, hpath.symm⟩

/-- The path of what a url lies in begins the url's path. That of a file that an archive url lies in
even begins the path of the archive's file. -/
theorem Holds.isPrefix {outer inner : Url} (hholds : outer.Holds inner) :
    outer.path <+: inner.path ∧
      (outer.scheme = .file → inner.scheme = .jar → Markless outer.path) := by
  rcases hholds with ⟨hscheme, hbelow⟩ | ⟨_, _, host, hhost, hfile⟩
  · refine ⟨isPrefix_of_isStrictAncestor hbelow, ?_⟩
    intro hfile hjar
    have hschemes := hfile.symm.trans (hscheme.trans hjar)
    cases hschemes
  · obtain ⟨inside, hcut⟩ := archiveFile_eq_some hhost
    have hprefix : outer.path <+: host.path := by
      rcases hfile with rfl | hbelow
      · exact List.prefix_refl _
      · exact isPrefix_of_isStrictAncestor hbelow
    have hpath := eq_of_cutAt hcut
    refine ⟨?_, ?_⟩
    · rw [hpath, List.append_assoc]
      exact hprefix.trans (List.prefix_append _ _)
    · intro _ _
      obtain ⟨rest, hrest⟩ := hprefix
      have hmarkless := markless_of_cutAt hcut
      rw [← hrest] at hmarkless
      exact hmarkless.left

/-- Of two urls with the same path that a url lies in, none is in an archive if the other is not. -/
theorem Holds.scheme_eq {a b inner : Url} (ha : a.Holds inner) (hb : b.Holds inner)
    (hmarka : a.scheme = .jar → ¬Markless a.path) (hmarkb : b.scheme = .jar → ¬Markless b.path)
    (hpath : a.path = b.path) : a.scheme = b.scheme := by
  have hfiles : ∀ {file jar : Url}, file.Holds inner → jar.Holds inner → file.path = jar.path →
      file.scheme = .file → jar.scheme = .jar → Markless jar.path := by
    intro file jar hfile hjar hpath hfileScheme hjarScheme
    rcases hjar with ⟨hinner, _⟩ | ⟨hscheme, _⟩
    · rw [← hpath]
      exact hfile.isPrefix.2 hfileScheme (hinner.symm.trans hjarScheme)
    · have hschemes := hscheme.symm.trans hjarScheme
      cases hschemes
  cases ha' : a.scheme with
  | file =>
    cases hb' : b.scheme with
    | file => rfl
    | jar => exact absurd (hfiles ha hb hpath ha' hb') (hmarkb hb')
  | jar =>
    cases hb' : b.scheme with
    | file => exact absurd (hfiles hb ha hpath.symm hb' ha') (hmarka ha')
    | jar => rfl

/-- A url lies in one url of each depth. -/
theorem Holds.unique {a b inner : Url} (ha : a.Holds inner) (hb : b.Holds inner)
    (hmarka : a.scheme = .jar → ¬Markless a.path) (hmarkb : b.scheme = .jar → ¬Markless b.path)
    (hlength : a.path.length = b.path.length) : a = b := by
  have hpath : a.path = b.path :=
    (List.prefix_of_prefix_length_le ha.isPrefix.1 hb.isPrefix.1 hlength.le).eq_of_length hlength
  have hscheme : a.scheme = b.scheme := ha.scheme_eq hb hmarka hmarkb hpath
  obtain ⟨_, _⟩ := b
  exact (eq_mk_iff hscheme).2 hpath

/-- Nothing is divided from an entry of an archive that is in no other archive. -/
theorem Holds.not_divided {outer inner : Url} (hholds : outer.Holds inner)
    (hmark : outer.scheme = .jar → ¬Markless outer.path)
    (hshallow : ∀ host inside, cutAt archiveMark inner.path = some (host, inside) →
      Markless inside) : ¬outer.Divided inner := by
  intro hdivided
  obtain ⟨hjar, root, ⟨before, hbefore⟩, hlonger, hbelow⟩ := hdivided
  cases hcut : cutAt archiveMark outer.path with
  | none => exact hmark hjar (cutAt_eq_none_iff.1 hcut)
  | some cut =>
    obtain ⟨host, front⟩ := cut
    obtain ⟨more, hmore⟩ := hholds.isPrefix.1
    obtain ⟨rest, _, hrest, _⟩ := isStrictAncestor_iff.1 hbelow
    have hinner : cutAt archiveMark inner.path = some (host, front ++ more) := by
      rw [← hmore]
      exact cutAt_append hcut more
    have hmarkless := hshallow host (front ++ more) hinner
    -- `root` is longer than `outer`, so the mark that it ends with is not the first one.
    have hsame : host ++ archiveMark ++ (front ++ more) = before ++ archiveMark ++ rest := by
      rw [← eq_of_cutAt hinner, hrest, ← hbefore]
    have hbehind : host.length < before.length := by
      have houter := congrArg List.length (eq_of_cutAt hcut)
      rw [← hbefore] at hlonger
      simp only [List.length_append] at houter hlonger
      omega
    exact not_markless_of_second hsame hbehind hmarkless

end ProjectRoots.Url
