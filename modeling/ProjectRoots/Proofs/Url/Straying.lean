import ProjectRoots.Proofs.Url.Canonical
import ProjectRoots.Proofs.Url.Containment

/- Walks from url to url. A walk begins with a url that a text denotes, which is in normal form, and
   each turn of it makes a new url out of the characters of the last one. Every url on the way is
   meant to be in normal form again, so that its text denotes it and no other.

     1. `child_of_plain`, `parent_of_entry`, `parent_of_bare`, `archiveRoot_of_normal` — what each
        turn makes of a url in normal form. There are three slips: a step outwards takes every
        segment that ends with `!` for an archive's file, a root is made of a file that has a mark
        in its path already, and a child makes a mark out of a segment that cannot be the file's
        (`not_neat_of_blemished`).
     2. `normal_of_take` — so one turn leads to a normal form exactly if it makes none of the
        slips (`Turn.Strays`).
     3. `parse_text_of_kept` — and a walk without a slip stays in normal form all the way. -/
namespace ProjectRoots.Url

/-- A turn of a walk. -/
inductive Turn
  | child (name : List Char)
  | parent
  | archiveRoot
  | archiveFile
  | container

/-- The url that the turn leads to. -/
def Turn.take (url : Url) : Turn → Option Url
  | child name => (url.child name).toOption
  | parent => url.parent
  | archiveRoot => url.archiveRoot
  | archiveFile => url.archiveFile
  | container => url.container

/-- The turns that lead out of the normal forms: to a child behind the path's first mark, if this
comes to stand behind a segment that is no name; outwards from behind a mark that is not the first
one; and to the root of a file that has a mark in its path. -/
def Turn.Strays (url : Url) : Turn → Prop
  | child _ => Markless url.path ∧ ∃ front host, url.path = front ++ '/' :: (host ++ ['!']) ∧
      '/' ∉ host ∧ ¬Nameable host
  | parent | container => url.scheme = .jar ∧ ∃ front last,
      url.path = front ++ archiveMark ++ last ∧ '/' ∉ last ∧ ¬Markless front
  | archiveRoot => ¬Markless url.path
  | archiveFile => False

/-- The urls that some walk leads to. -/
inductive Reached : Url → Prop
  | parsed (raw : String) {url : Url} (hparse : parse raw = .ok url) : Reached url
  | taken {url next : Url} (turn : Turn) (hurl : Reached url) (htake : turn.take url = some next) :
    Reached next

/-- The urls that some walk leads to without straying. -/
inductive Kept : Url → Prop
  | parsed (raw : String) {url : Url} (hparse : parse raw = .ok url) : Kept url
  | taken {url next : Url} (turn : Turn) (hurl : Kept url) (hkept : ¬turn.Strays url)
    (htake : turn.take url = some next) : Kept next

/-! ## The last slash and the first mark -/

theorem append_slash_inj {front front' last last' : List Char} (hslash : '/' ∉ last)
    (hslash' : '/' ∉ last') (hsame : front ++ '/' :: last = front' ++ '/' :: last') :
    front = front' ∧ last = last' := by
  have hcut := @cutAtLast_append front last hslash
  rw [hsame, cutAtLast_append hslash', Option.some.injEq, Prod.mk.injEq] at hcut
  exact ⟨hcut.1.symm, hcut.2.symm⟩

/-- Behind a second mark a path does not end. -/
theorem not_neat_of_mark {front : List Char} (hmark : ¬Markless front) :
    ¬Neat (front ++ archiveMark) := by
  intro hneat
  obtain ⟨outer, inner, hcut⟩ := exists_cut_of_mark hmark
  rcases cutAt_of_slash hneat (by simp [archiveMark]) with htop | ⟨file, hfile⟩
  · have hlength := congrArg List.length htop
    simp [archiveMark] at hlength
  · rw [cutAt_append hcut archiveMark] at hfile
    have hnil := (Prod.mk.inj (Option.some.inj hfile)).2
    simp [archiveMark] at hnil

/-- The first archive mark of the path stands behind a segment that is no name. -/
def Blemished (path : List Char) : Prop :=
  ∃ front host inner, cutAt archiveMark path = some (front ++ '/' :: host, inner) ∧ '/' ∉ host ∧
    ¬Nameable host

theorem Blemished.append {path : List Char} (hpath : Blemished path) (more : List Char) :
    Blemished (path ++ more) := by
  obtain ⟨front, host, inner, hcut, hbad⟩ := hpath
  exact ⟨front, host, inner ++ more, cutAt_append hcut more, hbad⟩

theorem not_neat_of_blemished {path : List Char} (hpath : Blemished path) : ¬Neat path := by
  obtain ⟨front, host, inner, hcut, hslash, hbad⟩ := hpath
  intro hneat
  cases hneat with
  | plain segments hnames hmarkless hsame =>
    rw [hsame, cutAt_eq_none_iff.2 hmarkless] at hcut
    cases hcut
  | entry file segments hsome hfile hmarkless hnames hsame =>
    obtain ⟨inner', hcut', _⟩ := cutAt_entry hmarkless segments
    rw [hsame, hcut'] at hcut
    have hspell : spell file = front ++ '/' :: host := (Prod.mk.inj (Option.some.inj hcut)).1
    -- What the mark stands behind is the last name of the archive's file.
    obtain ⟨init, last, rfl⟩ := (List.eq_nil_or_concat' file).resolve_left hsome
    have hlast : Nameable last := names_singleton.1 (names_append.1 hfile).2
    rw [spell_of_ne_nil hsome, joined_append_singleton] at hspell
    rw [(append_slash_inj hlast.slashless hslash hspell).2] at hlast
    exact hbad hlast

/-! ## Children -/

/-- A child makes a mark out of the segment that it is behind, if this ends with a `!`. -/
theorem normal_hosted {init : List (List Char)} {host name : List Char} (hinit : Names init)
    (hhost : '/' ∉ host) (hmarkless : Markless (joined init ++ '/' :: host))
    (hname : Nameable name) :
    Normal ⟨.file, spell (init ++ [host ++ ['!']] ++ [name])⟩ ↔ Nameable host := by
  have hpath : spell (init ++ [host ++ ['!']] ++ [name]) =
      (joined init ++ '/' :: host) ++ '!' :: '/' :: name := by
    rw [spell_of_ne_nil (by simp)]
    simp [joined]
  constructor
  · intro hnormal
    by_contra hbad
    refine not_neat_of_blemished ⟨joined init, host, name, ?_, hhost, hbad⟩ hnormal.neat
    rw [hpath]
    exact cutAt_of_markless hmarkless
  · intro hgood
    have hfile : spell (init ++ [host]) = joined init ++ '/' :: host := by
      rw [spell_of_ne_nil (by simp), joined_append_singleton]
    have hentry : spell (init ++ [host ++ ['!']] ++ [name]) =
        spell (init ++ [host]) ++ '!' :: spell [name] := by
      rw [hpath, hfile]
      simp [spell, joined]
    rw [hentry]
    exact normal_entry .file (by simp) (names_append.2 ⟨hinit, names_singleton.2 hgood⟩)
      (by rwa [hfile]) (names_singleton.2 hname)

/-- Whether the step to the child strays is seen from the segment that it is behind. -/
theorem strays_hosted_iff {init : List (List Char)} {host name : List Char} (hhost : '/' ∉ host)
    (hmarkless : Markless (spell (init ++ [host ++ ['!']]))) :
    (Turn.child name).Strays ⟨.file, spell (init ++ [host ++ ['!']])⟩ ↔ ¬Nameable host := by
  have hpath : spell (init ++ [host ++ ['!']]) = joined init ++ '/' :: (host ++ ['!']) := by
    rw [spell_of_ne_nil (by simp), joined_append_singleton]
  constructor
  · intro h
    obtain ⟨_, front, host', hsame, hhost', hbad⟩ := h
    rw [hpath] at hsame
    obtain ⟨_, hhosts⟩ := append_slash_inj (by simp [hhost]) (by simp [hhost']) hsame
    rwa [List.append_cancel_right hhosts]
  · intro hbad
    exact ⟨hmarkless, joined init, host, hpath, hhost, hbad⟩

/-- Without a `!` before it a name makes no mark. -/
theorem normal_of_quiet {segments : List (List Char)} {name : List Char} (hnames : Names segments)
    (hmarkless : Markless (spell segments)) (hname : Nameable name)
    (hquiet : (spell segments).getLast? ≠ some '!') :
    Normal ⟨.file, spell (segments ++ [name])⟩ := by
  refine normal_file (names_append.2 ⟨hnames, names_singleton.2 hname⟩) ?_
  rw [spell_of_ne_nil (by simp), joined_append_singleton]
  by_cases hnil : segments = []
  · rw [hnil]
    exact markless_segment hname.slashless
  · rw [spell_of_ne_nil hnil] at hmarkless hquiet
    exact markless_append_iff.2 ⟨hmarkless, hquiet, markless_segment hname.slashless⟩

theorem child_of_plain {segments : List (List Char)} {name : List Char} (hnames : Names segments)
    (hmarkless : Markless (spell segments)) (hname : Nameable name) :
    Normal ⟨.file, spell (segments ++ [name])⟩ ↔
      ¬(Turn.child name).Strays ⟨.file, spell segments⟩ := by
  by_cases hlast : (spell segments).getLast? = some '!'
  · obtain ⟨init, last, rfl⟩ : ∃ init last, segments = init ++ [last] := by
      refine (List.eq_nil_or_concat' segments).resolve_left ?_
      rintro rfl
      simp [spell] at hlast
    obtain ⟨hinit, hlastName⟩ := names_append.1 hnames
    have hlastName := names_singleton.1 hlastName
    have hpath : spell (init ++ [last]) = joined init ++ '/' :: last := by
      rw [spell_of_ne_nil (by simp), joined_append_singleton]
    rw [hpath, getLast?_append_segment hlastName.ne_nil] at hlast
    obtain ⟨host, rfl⟩ := List.getLast?_eq_some_iff.1 hlast
    have hhost : '/' ∉ host := fun hmem => hlastName.slashless (List.mem_append_left _ hmem)
    have hfront : Markless (joined init ++ '/' :: host) := by
      rw [hpath, ← List.cons_append, ← List.append_assoc] at hmarkless
      exact hmarkless.left
    rw [normal_hosted hinit hhost hfront hname, strays_hosted_iff hhost hmarkless, not_not]
  · refine iff_of_true (normal_of_quiet hnames hmarkless hname hlast) ?_
    intro hstrays
    obtain ⟨_, front, host, hpath, _⟩ := hstrays
    apply hlast
    rw [show spell segments = _ from hpath, getLast?_append_segment (by simp)]
    simp

theorem normal_child {url next : Url} {name : List Char} (hnormal : url.Normal)
    (hchild : url.child name = .ok next) : next.Normal ↔ ¬(Turn.child name).Strays url := by
  rcases hnormal.cases with ⟨segments, hnames, hmarkless, rfl⟩ |
    ⟨scheme, host, segments, hsome, hhost, hmarkless, hnames, rfl⟩
  · have hplain := @child_eq_ok_iff .file [] name segments hnames.segments next
    simp only [List.nil_append] at hplain
    obtain ⟨hname, rfl⟩ := hplain.1 hchild
    exact child_of_plain hnames hmarkless hname
  · have hentry := @child_eq_ok_iff scheme (spell host ++ ['!']) name segments hnames.segments next
    simp only [List.append_assoc, List.singleton_append] at hentry
    obtain ⟨hname, rfl⟩ := hentry.1 hchild
    -- The first mark stays where it is.
    refine iff_of_true (normal_entry scheme hsome hhost hmarkless
      (names_append.2 ⟨hnames, names_singleton.2 hname⟩)) ?_
    intro hstrays
    exact not_markless_entry _ _ hstrays.1

/-! ## Steps outwards -/

theorem neat_stem {host : List (List Char)} (hsome : host ≠ []) (hhost : Names host)
    (hmarkless : Markless (spell host)) : Neat (stem host) := by
  obtain ⟨marked, hmarked, hne, hfile⟩ := exists_marked hsome hhost
  have hpath : stem host = spell marked := by rw [stem, hfile, spell_of_ne_nil hne]
  refine .plain marked hmarked ?_ hpath
  rw [← hpath]
  exact markless_stem hmarkless

/-- The directory of a url that is not an archive's is what is left in front of the last slash. -/
theorem normal_of_left {front last : List Char} {next : Url} (hslash : '/' ∉ last)
    (hparent : parent ⟨.file, front ++ '/' :: last⟩ = some next)
    (hleft : Neat (if front = [] then ['/'] else front)) : next.Normal := by
  have htop : front ++ '/' :: last ≠ ['/'] := by
    intro htop
    simp [parent, htop] at hparent
  rw [parent_append hslash rfl htop, if_neg (by simp), ← apply_ite some] at hparent
  rw [← Option.some.inj hparent, ← apply_ite (Url.mk .file)]
  exact normal_bare hleft

/-- So it is in normal form, even if there is a mark in the url's path. -/
theorem parent_of_bare {path : List Char} {next : Url} (hneat : Neat path)
    (hparent : parent ⟨.file, path⟩ = some next) : next.Normal := by
  cases hneat with
  | plain segments hnames hmarkless hpath =>
    obtain ⟨init, last, rfl⟩ : ∃ init last, segments = init ++ [last] := by
      refine (List.eq_nil_or_concat' segments).resolve_left ?_
      rintro rfl
      simp [hpath, spell, parent] at hparent
    obtain ⟨hinit, hlast⟩ := names_append.1 hnames
    rw [hpath, spell_of_ne_nil (by simp), joined_append_singleton] at hparent
    refine normal_of_left (names_singleton.1 hlast).slashless hparent ?_
    have hspell : (if joined init = [] then ['/'] else joined init) = spell init := by
      by_cases hnil : init = []
      · simp [hnil, joined, spell]
      · rw [if_neg (joined_ne_nil hnil), spell_of_ne_nil hnil]
    rw [hspell]
    exact .plain init hinit (Markless.init hmarkless) rfl
  | entry host segments hsome hhost hmarkless hnames hpath =>
    have hfile := neat_stem hsome hhost hmarkless
    rcases List.eq_nil_or_concat' segments with rfl | ⟨init, last, rfl⟩
    · have hroot : path = stem host ++ '/' :: [] := by simp [hpath, stem, spell]
      rw [hroot] at hparent
      refine normal_of_left (by simp) hparent ?_
      rwa [if_neg (by simp [stem])]
    · obtain ⟨hinit, hlast⟩ := names_append.1 hnames
      have hlong : path = (stem host ++ joined init) ++ '/' :: last := by
        simp [hpath, stem, spell_of_ne_nil, joined]
      rw [hlong] at hparent
      refine normal_of_left (names_singleton.1 hlast).slashless hparent ?_
      rw [if_neg (by simp [stem])]
      by_cases hnil : init = []
      · simpa [hnil, joined] using hfile
      · refine .entry host init hsome hhost hmarkless hinit ?_
        rw [spell_of_ne_nil hnil]
        simp [stem]

/-- Whether the step outwards strays is seen from what is left of the path. -/
theorem strays_entry_iff {host init : List (List Char)} {last : List Char} (hslash : '/' ∉ last) :
    Turn.parent.Strays (entry host (init ++ [last])) ↔
      ∃ front, stem host ++ joined init = front ++ ['!'] ∧ ¬Markless front := by
  rw [entry_append]
  constructor
  · intro h
    obtain ⟨_, front, last', hsame, hslash', hmark⟩ := h
    have hslashes : (stem host ++ joined init) ++ '/' :: last =
        (front ++ ['!']) ++ '/' :: last' := by
      rw [show (stem host ++ joined init) ++ '/' :: last = _ from hsame]
      simp [archiveMark]
    exact ⟨front, (append_slash_inj hslash hslash' hslashes).1, hmark⟩
  · intro h
    obtain ⟨front, hfront, hmark⟩ := h
    exact ⟨rfl, front, last, by simp [hfront, archiveMark], hslash, hmark⟩

/-- Between the first mark and a `!` that ends a later segment there is a slash at least. -/
theorem not_markless_of_marked {host init : List (List Char)} {front : List Char}
    (hsome : init ≠ []) (hmarked : stem host ++ joined init = front ++ ['!']) :
    ¬Markless front := by
  obtain ⟨back, hback⟩ : ∃ back, joined init = back ++ ['!'] := by
    have hlast := congrArg List.getLast? hmarked
    rw [List.getLast?_append_of_ne_nil _ (joined_ne_nil hsome), List.getLast?_concat] at hlast
    exact List.getLast?_eq_some_iff.1 hlast
  have hfront : front = stem host ++ back := by
    rw [hback, ← List.append_assoc] at hmarked
    exact (List.append_cancel_right hmarked).symm
  obtain ⟨first, rest, rfl⟩ := List.exists_cons_of_ne_nil hsome
  cases back with
  | nil => simp [joined] at hback
  | cons c back =>
    obtain ⟨rfl, _⟩ := List.cons.inj hback
    rw [hfront, markless_append_iff]
    intro h
    exact h.2.1 (by simp [stem])

/-- The directory of an archive's entry is looked for behind the mark that its name is behind, and
found there if this is the first one. -/
theorem parent_of_entry {host segments : List (List Char)} {next : Url} (hsome : host ≠ [])
    (hhost : Names host) (hmarkless : Markless (spell host)) (hnames : Names segments)
    (hparent : (entry host segments).parent = some next) :
    next.Normal ↔ ¬Turn.parent.Strays (entry host segments) := by
  obtain ⟨init, last, rfl⟩ : ∃ init last, segments = init ++ [last] := by
    refine (List.eq_nil_or_concat' segments).resolve_left ?_
    rintro rfl
    simp [entry, spell, parent, isArchiveRoot, archiveMark] at hparent
  obtain ⟨hinit, hlast⟩ := names_append.1 hnames
  have hlast := names_singleton.1 hlast
  have hback : (entry host init).Normal := normal_entry .jar hsome hhost hmarkless hinit
  rw [strays_entry_iff hlast.slashless]
  rw [entry_append, parent_of_segment hlast.ne_nil hlast.slashless] at hparent
  by_cases hmarked : (stem host ++ joined init).getLast? = some '!'
  · rw [if_pos ⟨rfl, hmarked⟩] at hparent
    cases hparent
    by_cases hnil : init = []
    · -- The name is behind the first mark.
      subst hnil
      refine iff_of_true ?_ ?_
      · simpa [joined, entry_nil] using hback
      · intro h
        obtain ⟨front, hfront, hmark⟩ := h
        rw [joined, List.flatMap_nil, List.append_nil] at hfront
        exact hmark (List.append_cancel_right hfront ▸ hmarkless)
    · obtain ⟨front, hfront⟩ := List.getLast?_eq_some_iff.1 hmarked
      have hmark := not_markless_of_marked hnil hfront
      refine iff_of_false ?_ (not_not_intro ⟨front, hfront, hmark⟩)
      intro hnormal
      apply not_neat_of_mark hmark
      simpa [hfront, archiveMark] using hnormal.neat
  · have hnil : init ≠ [] := by
      rintro rfl
      simp [joined, stem] at hmarked
    rw [if_neg (fun h => hmarked h.2), if_neg (by simp [stem])] at hparent
    cases hparent
    refine iff_of_true (entry_of_ne_nil host hnil ▸ hback) ?_
    intro h
    obtain ⟨front, hfront, _⟩ := h
    exact hmarked (by simp [hfront])

theorem normal_parent {url next : Url} (hnormal : url.Normal) (hparent : url.parent = some next) :
    next.Normal ↔ ¬Turn.parent.Strays url := by
  cases hscheme : url.scheme with
  | file =>
    obtain ⟨scheme, path⟩ := url
    obtain rfl : scheme = .file := hscheme
    refine iff_of_true (parent_of_bare hnormal.neat hparent) ?_
    intro hstrays
    cases hstrays.1
  | jar =>
    rcases hnormal.cases with ⟨segments, _, _, rfl⟩ |
      ⟨scheme, host, segments, hsome, hhost, hmarkless, hnames, rfl⟩
    · cases hscheme
    · obtain rfl : scheme = .jar := hscheme
      exact parent_of_entry hsome hhost hmarkless hnames hparent

/-! ## Into archives and out of them -/

theorem archiveRoot_of_normal {url next : Url} (hnormal : url.Normal)
    (hroot : url.archiveRoot = some next) : next.Normal ↔ ¬Turn.archiveRoot.Strays url := by
  show next.Normal ↔ ¬¬Markless url.path
  unfold archiveRoot at hroot
  split at hroot
  · cases hroot
  rename_i hfile
  obtain ⟨hscheme, htop⟩ := not_or.1 hfile
  cases hroot
  by_cases hmark : Markless url.path
  · refine iff_of_true ?_ (not_not_intro hmark)
    rcases hnormal.cases with ⟨segments, hnames, hmarkless, rfl⟩ |
      ⟨scheme, host, segments, _, _, _, _, rfl⟩
    · have hsome : segments ≠ [] := fun hnil => htop (by simp [hnil, spell])
      have hnone : Names [] := by simp [Names]
      exact normal_entry .jar hsome hnames hmarkless hnone
    · exact absurd hmark (not_markless_entry _ _)
  · refine iff_of_false ?_ (not_not_intro hmark)
    intro hnext
    exact not_neat_of_mark hmark hnext.neat

theorem archiveFile_of_normal {url next : Url} (hnormal : url.Normal)
    (hfile : url.archiveFile = some next) : next.Normal := by
  rcases hnormal.cases with ⟨segments, _, _, rfl⟩ |
    ⟨scheme, host, segments, _, hhost, hmarkless, _, rfl⟩
  · simp [archiveFile] at hfile
  · cases scheme with
    | file => simp [archiveFile] at hfile
    | jar =>
      have hentry := @archiveFile_entry host segments hmarkless
      rw [entry, hfile, Option.some.injEq] at hentry
      rw [hentry]
      exact normal_file hhost hmarkless

/-- Nothing is in front of the root of an archive but its file. -/
theorem not_strays_of_archiveRoot {url : Url} (hnormal : url.Normal)
    (hroot : url.isArchiveRoot = true) : ¬Turn.container.Strays url := by
  intro hstrays
  obtain ⟨_, front, last, hpath, hslash, hmark⟩ := hstrays
  obtain ⟨_, hsuffix⟩ := Bool.and_eq_true_iff.1 hroot
  obtain ⟨file, hfile⟩ := List.isSuffixOf_iff_suffix.1 hsuffix
  have hsame : (front ++ ['!']) ++ '/' :: last = (file ++ ['!']) ++ '/' :: [] := by
    rw [hpath] at hfile
    simpa [archiveMark] using hfile.symm
  obtain ⟨_, rfl⟩ := append_slash_inj hslash (by simp) hsame
  apply not_neat_of_mark hmark
  simpa [hpath] using hnormal.neat

theorem normal_container {url next : Url} (hnormal : url.Normal)
    (hcontainer : url.container = some next) : next.Normal ↔ ¬Turn.container.Strays url := by
  unfold container at hcontainer
  split at hcontainer
  · rename_i up hparent
    cases hcontainer
    exact normal_parent hnormal hparent
  · split at hcontainer
    · rename_i hroot
      exact iff_of_true (archiveFile_of_normal hnormal hcontainer)
        (not_strays_of_archiveRoot hnormal hroot)
    · cases hcontainer

/-! ## Walks -/

theorem child_of_take {url next : Url} {name : List Char}
    (htake : (Turn.child name).take url = some next) : url.child name = .ok next := by
  unfold Turn.take at htake
  cases hfound : url.child name with
  | error fault => simp [hfound, Except.toOption] at htake
  | ok found => simpa [hfound, Except.toOption] using htake

/-- From a normal form a turn leads to a normal form exactly if it does not stray. -/
theorem normal_of_take {url next : Url} (hnormal : url.Normal) {turn : Turn}
    (htake : turn.take url = some next) : next.Normal ↔ ¬turn.Strays url := by
  cases turn with
  | child name => exact normal_child hnormal (child_of_take htake)
  | parent => exact normal_parent hnormal htake
  | archiveRoot => exact archiveRoot_of_normal hnormal htake
  | archiveFile => exact iff_of_true (archiveFile_of_normal hnormal htake) id
  | container => exact normal_container hnormal htake

theorem Kept.normal {url : Url} (hurl : Kept url) : url.Normal := by
  induction hurl with
  | parsed _ hparse => exact normal_of_parse hparse
  | taken turn _ hkept htake ih => exact (normal_of_take ih htake).2 hkept

theorem parse_text_of_kept {url : Url} (hurl : Kept url) :
    parse url.text = .ok url ∧
      (∀ {turn : Turn} {next : Url}, turn.take url = some next →
        (parse next.text = .ok next ↔ ¬turn.Strays url)) ∧
      ∀ {other : Url}, Kept other → parse other.text = parse url.text → other = url := by
  have hself := parse_text_iff.2 hurl.normal
  refine ⟨hself, ?_, ?_⟩
  · intro turn next htake
    rw [parse_text_iff]
    exact normal_of_take hurl.normal htake
  · intro other hother hsame
    rw [parse_text_iff.2 hother.normal, hself] at hsame
    exact Except.ok.inj hsame

/-- A walk into an archive, to an entry in a directory that is called like an archive. It does not
stray before it turns back to that directory. -/
theorem parse_text_of_kept_marked :
    Kept ⟨.jar, "/a/x!!/b!/c".toList⟩ ∧
      parse (text ⟨.jar, "/a/x!!/b!/c".toList⟩) = .ok ⟨.jar, "/a/x!!/b!/c".toList⟩ ∧
      Turn.parent.take ⟨.jar, "/a/x!!/b!/c".toList⟩ = some ⟨.jar, "/a/x!!/b!/".toList⟩ ∧
      Turn.parent.Strays ⟨.jar, "/a/x!!/b!/c".toList⟩ ∧
      parse (text ⟨.jar, "/a/x!!/b!/".toList⟩) ≠ .ok ⟨.jar, "/a/x!!/b!/".toList⟩ ∧
      ∀ {other : Url}, Kept other → parse other.text = parse (text ⟨.jar, "/a/x!!/b!/c".toList⟩) →
        other = ⟨.jar, "/a/x!!/b!/c".toList⟩ := by
  have hfile : Kept ⟨.file, "/a/x!".toList⟩ := .parsed "/a/x!" (by rfl)
  have hroot : Kept ⟨.jar, "/a/x!!/".toList⟩ :=
    .taken .archiveRoot hfile (not_not_intro (by decide)) (by rfl)
  have hdirectory : Kept ⟨.jar, "/a/x!!/b!".toList⟩ :=
    .taken (.child "b!".toList) hroot (fun h => absurd h.1 (by decide)) (by rfl)
  have hurl : Kept ⟨.jar, "/a/x!!/b!/c".toList⟩ :=
    .taken (.child "c".toList) hdirectory (fun h => absurd h.1 (by decide)) (by rfl)
  have hparent : Turn.parent.take ⟨.jar, "/a/x!!/b!/c".toList⟩ =
      some ⟨.jar, "/a/x!!/b!/".toList⟩ := by rfl
  have hstrays : Turn.parent.Strays ⟨.jar, "/a/x!!/b!/c".toList⟩ :=
    ⟨rfl, "/a/x!!/b".toList, "c".toList, by rfl, by decide, by decide⟩
  obtain ⟨hself, hturns, hunique⟩ := parse_text_of_kept hurl
  exact ⟨hurl, hself, hparent, hstrays, fun hback => (hturns hparent).1 hback hstrays, hunique⟩

/-- After each of the three slips the url's text denotes another url, or none. -/
theorem reached_astray :
    (Reached ⟨.jar, "/a/x.jar!/b/y.jar!/".toList⟩ ∧
        parse (text ⟨.jar, "/a/x.jar!/b/y.jar!/".toList⟩) =
          .ok ⟨.jar, "/a/x.jar!/b/y.jar!".toList⟩) ∧
      (Reached ⟨.file, "/!/y".toList⟩ ∧
        parse (text ⟨.file, "/!/y".toList⟩) = .error (.malformed "file:///!/y")) ∧
      Reached ⟨.jar, "/a!/b!/".toList⟩ ∧
        parse (text ⟨.jar, "/a!/b!/".toList⟩) = .ok ⟨.jar, "/a!/b!".toList⟩ := by
  refine ⟨⟨?_, by rfl⟩, ⟨?_, by rfl⟩, ?_, by rfl⟩
  · exact .taken .container (.parsed "/a/x.jar!/b/y.jar!/c" (by rfl)) (by rfl)
  · exact .taken (.child "y".toList)
      (.taken (.child "!".toList) (.parsed "/" (by rfl)) (by rfl)) (by rfl)
  · exact .taken .archiveRoot (.parsed "file:///a!/b" (by rfl)) (by rfl)

end ProjectRoots.Url
