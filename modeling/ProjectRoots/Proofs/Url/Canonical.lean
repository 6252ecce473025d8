import ProjectRoots.Proofs.Url.Reading

/- Urls in normal form. A text may denote a url in many ways, but the url itself is written in one
   way only, and reading what was written gives the url back.

     1. `Neat` — what the path of a normal form is made of. `neat_of_normalize`,
        `normalize_of_neat` — normalizing makes paths of this form, and leaves those that have it as
        they are.
     2. `parse_text_iff` — so a url can be read back exactly if its path has this form, and an
        archive mark in case the url is one of an archive (`Normal`).
     3. `splitOn_neat`, `cutAt_of_slash` — how such a path looks from outside: which segments it
        has, and where it ends with a slash.
     4. `canonical_of_parse` — whatever a text denotes is in normal form and can be read back. -/
namespace ProjectRoots

/-- All the segments can be names. -/
def Names (segments : List (List Char)) : Prop :=
  ∀ segment ∈ segments, Url.Nameable segment

theorem Names.segments {segments : List (List Char)} (hnames : Names segments) :
    Segments segments :=
  fun segment hmem => ⟨(hnames segment hmem).ne_nil, (hnames segment hmem).slashless⟩

theorem names_append {first second : List (List Char)} :
    Names (first ++ second) ↔ Names first ∧ Names second :=
  List.forall_mem_append

theorem names_singleton {name : List Char} : Names [name] ↔ Url.Nameable name := by
  simp [Names]

/-- A `!` more makes no name unusable. -/
theorem nameable_marked {name : List Char} (hslash : '/' ∉ name) :
    Url.Nameable (name ++ ['!']) where
  ne_nil := by simp
  slashless := by simp [hslash]
  ne_dot := by
    intro hdot
    have hlast := congrArg List.getLast? hdot
    simp at hlast
  ne_dots := by
    intro hdots
    have hlast := congrArg List.getLast? hdots
    simp at hlast

theorem names_kept {text : List Char} (hflat : ['.', '.'] ∉ kept text) : Names (kept text) := by
  intro segment hmem
  obtain ⟨hne, hslash⟩ := segments_kept text segment hmem
  obtain ⟨_, hkept⟩ := List.mem_filter.1 hmem
  refine ⟨hne, hslash, (of_decide_eq_true hkept).2, ?_⟩
  intro hdots
  exact hflat (hdots ▸ hmem)

theorem Names.not_mem_dots {segments : List (List Char)} (hnames : Names segments) :
    ['.', '.'] ∉ segments :=
  fun hmem => (hnames _ hmem).ne_dots rfl

/-- Of a path that names spell, tidying keeps all of them. -/
theorem kept_joined {segments : List (List Char)} (hnames : Names segments) :
    kept (joined segments) = segments := by
  induction segments using List.reverseRecOn with
  | nil => exact kept_nil
  | append_singleton init last ih =>
    obtain ⟨hinit, hlast⟩ := names_append.1 hnames
    have hname := names_singleton.1 hlast
    rw [joined_append_singleton, kept_append_slash, ih hinit,
      kept_of_segment hname.slashless hname.ne_nil hname.ne_dot]

theorem kept_spell {segments : List (List Char)} (hnames : Names segments) :
    kept (spell segments) = segments := by
  by_cases hnil : segments = []
  · rw [hnil]
    exact kept_slashes 1
  · rw [spell_of_ne_nil hnil, kept_joined hnames]

/-- The file of an archive, with the `!` behind it, has names for segments, too. -/
theorem exists_marked {host : List (List Char)} (hsome : host ≠ []) (hhost : Names host) :
    ∃ marked, Names marked ∧ marked ≠ [] ∧ spell host ++ ['!'] = joined marked := by
  obtain ⟨init, last, rfl⟩ := (List.eq_nil_or_concat' host).resolve_left hsome
  obtain ⟨hinit, hlast⟩ := names_append.1 hhost
  have hmarked := nameable_marked (names_singleton.1 hlast).slashless
  refine ⟨init ++ [last ++ ['!']], names_append.2 ⟨hinit, names_singleton.2 hmarked⟩, by simp, ?_⟩
  rw [spell_of_ne_nil hsome]
  simp [joined]

theorem head?_spell_append (segments : List (List Char)) (more : List Char) :
    (spell segments ++ more).head? = some '/' := by
  obtain ⟨back, hback⟩ := exists_spell_eq_cons segments
  rw [hback]
  rfl

/-! ## Normal forms of paths -/

/-- The normal form of a path: names, or the names of an archive's file and, behind its mark, those
of something inside. The first mark is the one behind the archive's file. -/
inductive Neat (path : List Char) : Prop
  | plain (segments : List (List Char)) (hnames : Names segments)
    (hmarkless : Markless (spell segments)) (hpath : path = spell segments)
  | entry (host segments : List (List Char)) (hsome : host ≠ []) (hhost : Names host)
    (hmarkless : Markless (spell host)) (hnames : Names segments)
    (hpath : path = spell host ++ '!' :: spell segments)

/-- Behind the file of an archive a path is cut at the mark of this archive. -/
theorem cutAt_entry {host : List (List Char)} (hmarkless : Markless (spell host))
    (segments : List (List Char)) :
    ∃ inner, cutAt archiveMark (spell host ++ '!' :: spell segments) = some (spell host, inner) ∧
      spell segments = '/' :: inner := by
  obtain ⟨back, hback⟩ := exists_spell_eq_cons segments
  refine ⟨back, ?_, hback⟩
  rw [hback]
  exact cutAt_of_markless hmarkless

namespace Url

theorem neat_of_normalize {text path : List Char} (hnormal : normalize text = some path) :
    Neat path := by
  by_cases hmarkless : Markless text
  · obtain ⟨_, hflat, hpath⟩ := (normalize_of_markless hmarkless).1 hnormal
    exact .plain (kept text) (names_kept hflat) (markless_spell_kept hmarkless) hpath
  · obtain ⟨outer, inner, hcut⟩ := exists_cut_of_mark hmarkless
    obtain ⟨_, hflat, hflat', hsome, hpath⟩ := (normalize_of_cut hcut).1 hnormal
    exact .entry (kept outer) (kept inner) hsome (names_kept hflat)
      (markless_spell_kept (markless_of_cutAt hcut)) (names_kept hflat') hpath

theorem normalize_of_neat {path : List Char} (hneat : Neat path) :
    normalize path = some path := by
  cases hneat with
  | plain segments hnames hmarkless hpath =>
    rw [hpath, normalize_of_markless hmarkless, kept_spell hnames]
    exact ⟨by simpa using head?_spell_append segments [], hnames.not_mem_dots, rfl⟩
  | entry host segments hsome hhost hmarkless hnames hpath =>
    obtain ⟨inner, hcut, hinner⟩ := cutAt_entry hmarkless segments
    -- What stands behind the mark has lost its slash, but not a segment.
    have hkept : kept inner = segments := by
      rw [← kept_spell hnames, hinner]
      exact (kept_append_slash [] inner).symm
    rw [hpath, normalize_of_cut hcut, hkept, kept_spell hhost]
    exact ⟨head?_spell_append host _, hhost.not_mem_dots, hnames.not_mem_dots, hsome, rfl⟩

/-! ## Normal forms of urls -/

/-- A url in normal form: its path is, and an archive's url has an archive mark. -/
structure Normal (url : Url) : Prop where
  neat : Neat url.path
  marked : url.scheme = .jar → ¬Markless url.path

/-- A file's url may have an archive mark, but needs none. -/
theorem normal_bare {path : List Char} (hneat : Neat path) : Normal ⟨.file, path⟩ where
  neat := hneat
  marked := by
    intro hjar
    cases hjar

theorem place_eq_self_iff {raw : String} {url : Url} :
    place raw (some url.scheme) url.path = .ok url ↔ url.Normal := by
  obtain ⟨scheme, path⟩ := url
  rw [place_eq_ok_iff]
  constructor
  · intro hplace
    obtain ⟨normal, hnormal, hfile, hentry⟩ := hplace
    by_cases hmarkless : Markless normal
    · obtain ⟨hscheme, hurl⟩ := hfile hmarkless
      obtain ⟨rfl, rfl⟩ := Url.mk.inj hurl
      exact ⟨neat_of_normalize hnormal, fun hjar => absurd (congrArg some hjar) hscheme⟩
    · obtain ⟨_, rfl⟩ := Url.mk.inj (hentry hmarkless)
      exact ⟨neat_of_normalize hnormal, fun _ => hmarkless⟩
  · intro hself
    refine ⟨path, normalize_of_neat hself.neat, ?_, fun _ => rfl⟩
    intro hmarkless
    cases scheme with
    | file => exact ⟨by simp, rfl⟩
    | jar => exact absurd hmarkless (hself.marked rfl)

theorem reads_text (url : Url) : Reads url.text.toList (some url.scheme) url.path := by
  have htext : url.text.toList = url.scheme.text.toList ++ schemeMark ++ url.path := by
    simp [text]
  rw [htext]
  exact .named url.scheme url.path

/-- A url can be read back exactly if it is in normal form. -/
theorem parse_text_iff {url : Url} : parse url.text = .ok url ↔ url.Normal := by
  rw [parse_of_reads url.reads_text]
  exact place_eq_self_iff

theorem normal_of_parse {raw : String} {url : Url} (hparse : parse raw = .ok url) :
    url.Normal := by
  obtain ⟨scheme, text, _, hplace⟩ := reads_of_parse hparse
  obtain ⟨path, hnormal, hfile, hentry⟩ := place_eq_ok_iff.1 hplace
  have hneat := neat_of_normalize hnormal
  by_cases hmarkless : Markless path
  · rw [(hfile hmarkless).2]
    exact normal_bare hneat
  · rw [hentry hmarkless]
    exact ⟨hneat, fun _ => hmarkless⟩

theorem parse_text_of_parse {raw : String} {url : Url} (hparse : parse raw = .ok url) :
    parse url.text = .ok url :=
  parse_text_iff.2 (normal_of_parse hparse)

/-- A url in normal form is one of a file without a mark in its path, or that of an archive's entry
under either scheme. -/
theorem Normal.cases {url : Url} (hnormal : url.Normal) :
    (∃ segments, Names segments ∧ Markless (spell segments) ∧ url = ⟨.file, spell segments⟩) ∨
      ∃ scheme host segments, host ≠ [] ∧ Names host ∧ Markless (spell host) ∧ Names segments ∧
        url = ⟨scheme, spell host ++ '!' :: spell segments⟩ := by
  obtain ⟨scheme, path⟩ := url
  obtain ⟨hneat, hmark⟩ := hnormal
  cases hneat with
  | plain segments hnames hmarkless hpath =>
    obtain rfl : path = spell segments := hpath
    cases scheme with
    | file => exact Or.inl ⟨segments, hnames, hmarkless, rfl⟩
    | jar => exact absurd hmarkless (hmark rfl)
  | entry host segments hsome hhost hmarkless hnames hpath =>
    obtain rfl : path = spell host ++ '!' :: spell segments := hpath
    exact Or.inr ⟨scheme, host, segments, hsome, hhost, hmarkless, hnames, rfl⟩

theorem normal_file {segments : List (List Char)} (hnames : Names segments)
    (hmarkless : Markless (spell segments)) : Normal ⟨.file, spell segments⟩ :=
  normal_bare (.plain segments hnames hmarkless rfl)

theorem normal_entry (scheme : Scheme) {host segments : List (List Char)} (hsome : host ≠ [])
    (hhost : Names host) (hmarkless : Markless (spell host)) (hnames : Names segments) :
    Normal ⟨scheme, spell host ++ '!' :: spell segments⟩ :=
  ⟨.entry host segments hsome hhost hmarkless hnames rfl, fun _ => not_markless_entry _ _⟩

end Url

/-! ## The look of a normal form -/

theorem head?_of_neat {path : List Char} (hneat : Neat path) : path.head? = some '/' := by
  cases hneat with
  | plain segments hnames hmarkless hpath =>
    rw [hpath]
    simpa using head?_spell_append segments []
  | entry host segments hsome hhost hmarkless hnames hpath =>
    rw [hpath]
    exact head?_spell_append host _

theorem splitOn_joined {segments : List (List Char)} (hsegments : Segments segments) :
    (joined segments).splitOn '/' = [] :: segments := by
  induction segments using List.reverseRecOn with
  | nil => rfl
  | append_singleton init last ih =>
    obtain ⟨hinit, _, hslash⟩ := Url.Segments.init hsegments
    rw [joined_append_singleton, List.splitOn_append_cons_self, ih hinit,
      List.splitOn_eq_singleton hslash, List.cons_append]

/-- Behind the segments of a path there may be an empty one, which is behind a slash at its end. -/
theorem splitOn_joined_append {front segments : List (List Char)} (hfront : Segments front)
    (hsegments : Segments segments) :
    ∃ rest, (joined front ++ spell segments).splitOn '/' = [] :: (front ++ segments ++ rest) ∧
      (rest = [] ∨ rest = [[]]) := by
  by_cases hnil : segments = []
  · refine ⟨[[]], ?_, Or.inr rfl⟩
    have hpath : joined front ++ spell segments = joined front ++ '/' :: [] := by
      simp [hnil, spell]
    rw [hpath, List.splitOn_append_cons_self, splitOn_joined hfront]
    simp [hnil]
  · refine ⟨[], ?_, Or.inl rfl⟩
    have hpath : joined front ++ spell segments = joined (front ++ segments) := by
      simp [spell_of_ne_nil hnil, joined]
    have hboth : Segments (front ++ segments) := segments_append.2 ⟨hfront, hsegments⟩
    rw [hpath, splitOn_joined hboth, List.append_nil]

/-- A path in normal form has names for segments. An empty one is only in front of the first slash
and behind a slash at the end. -/
theorem splitOn_neat {path : List Char} (hneat : Neat path) :
    ∃ names rest, path.splitOn '/' = [] :: (names ++ rest) ∧ Names names ∧
      (rest = [] ∨ rest = [[]]) := by
  cases hneat with
  | plain segments hnames hmarkless hpath =>
    have hnone : Segments [] := by simp [Segments]
    obtain ⟨rest, hsplit, hrest⟩ := splitOn_joined_append hnone hnames.segments
    refine ⟨segments, rest, ?_, hnames, hrest⟩
    rw [hpath]
    simpa [joined] using hsplit
  | entry host segments hsome hhost hmarkless hnames hpath =>
    -- The `!` belongs to the name of the archive's file.
    obtain ⟨marked, hmarked, _, hfile⟩ := exists_marked hsome hhost
    obtain ⟨rest, hsplit, hrest⟩ := splitOn_joined_append hmarked.segments hnames.segments
    refine ⟨_, rest, ?_, names_append.2 ⟨hmarked, hnames⟩, hrest⟩
    rw [hpath, List.append_cons, hfile]
    exact hsplit

/-- A path in normal form that ends with a slash is the root directory, or nothing stands behind its
first mark. -/
theorem cutAt_of_slash {path : List Char} (hneat : Neat path) (hlast : path.getLast? = some '/') :
    path = ['/'] ∨ ∃ file, cutAt archiveMark path = some (file, []) := by
  have hnone : ∀ {segments : List (List Char)}, Names segments →
      (spell segments).getLast? = some '/' → segments = [] := by
    intro segments hnames hslash
    by_contra hnil
    rw [spell_of_ne_nil hnil] at hslash
    exact getLast?_joined_ne hnames.segments hslash
  cases hneat with
  | plain segments hnames hmarkless hpath =>
    rw [hpath] at hlast
    rw [hpath, hnone hnames hlast]
    exact Or.inl rfl
  | entry host segments hsome hhost hmarkless hnames hpath =>
    obtain ⟨inner, hcut, hinner⟩ := cutAt_entry hmarkless segments
    have hslash : (spell segments).getLast? = some '/' := by
      rwa [hpath, List.append_cons, List.getLast?_append_of_ne_nil _ (by simp [hinner])] at hlast
    rw [hnone hnames hslash] at hinner
    obtain ⟨_, rfl⟩ := List.cons.inj hinner
    rw [hpath]
    exact Or.inr ⟨spell host, hcut⟩

/-- No slash follows another one if only the first and the last segment may be empty. -/
theorem not_infix_of_splitOn {path : List Char} {names rest : List (List Char)}
    (hsplit : path.splitOn '/' = [] :: (names ++ rest)) (hnames : Names names)
    (hrest : rest = [] ∨ rest = [[]]) : ¬['/', '/'] <:+: path := by
  intro hinfix
  obtain ⟨before, after, hpath⟩ := hinfix
  have hpieces : path.splitOn '/' = before.splitOn '/' ++ [] :: after.splitOn '/' := by
    have hslashes : path = before ++ '/' :: ([] ++ '/' :: after) := by
      rw [← hpath]
      simp
    rw [hslashes, List.splitOn_append_cons_self, List.splitOn_append_cons_self]
    rfl
  obtain ⟨first, others, hbefore⟩ := List.exists_cons_of_ne_nil (List.splitOn_ne_nil '/' before)
  have hsame : names ++ rest = others ++ [] :: after.splitOn '/' := by
    rw [hsplit, hbefore] at hpieces
    exact (List.cons.inj hpieces).2
  -- The empty segment between the two slashes is not the last one, so it is a name.
  have hmem : [] ∈ (names ++ rest).dropLast := by
    rw [hsame, List.dropLast_append_of_ne_nil (by simp),
      List.dropLast_cons_of_ne_nil (List.splitOn_ne_nil '/' after)]
    simp
  have hname : [] ∈ names := by
    rcases hrest with rfl | rfl
    · rw [List.append_nil] at hmem
      exact List.dropLast_subset names hmem
    · rwa [List.dropLast_concat] at hmem
  exact (hnames [] hname).ne_nil rfl

namespace Url

/-- What can be told of a url in normal form by its text. -/
structure Canonical (url : Url) : Prop where
  absolute : url.path.head? = some '/'
  undotted : ∀ segment ∈ url.path.splitOn '/', segment ≠ ['.'] ∧ segment ≠ ['.', '.']
  /-- No segment is empty: no slash follows another one. -/
  dense : ¬['/', '/'] <:+: url.path
  /-- A slash at the end is that of the root directory, or of the first archive mark. -/
  slash : url.path.getLast? = some '/' →
    url.path = ['/'] ∨ ∃ file, cutAt archiveMark url.path = some (file, [])
  marked : url.scheme = .jar → archiveMark <:+: url.path

theorem Normal.canonical {url : Url} (hnormal : url.Normal) : Canonical url := by
  obtain ⟨names, rest, hsplit, hnames, hrest⟩ := splitOn_neat hnormal.neat
  refine ⟨head?_of_neat hnormal.neat, ?_, not_infix_of_splitOn hsplit hnames hrest,
    cutAt_of_slash hnormal.neat, ?_⟩
  · intro segment hmem
    rw [hsplit] at hmem
    have hcases : segment = [] ∨ segment ∈ names := by
      rcases hrest with rfl | rfl <;> simp at hmem <;> tauto
    rcases hcases with rfl | hname
    · simp
    · exact ⟨(hnames segment hname).ne_dot, (hnames segment hname).ne_dots⟩
  · intro hjar
    obtain ⟨outer, inner, hcut⟩ := exists_cut_of_mark (hnormal.marked hjar)
    exact ⟨outer, inner, (eq_of_cutAt hcut).symm⟩

theorem canonical_of_parse {raw : String} {url : Url} (hparse : parse raw = .ok url) :
    Canonical url ∧ parse url.text = .ok url ∧
      (∀ {raw' : String} {other : Url}, parse raw' = .ok other →
        (other = url ↔ other.text = url.text)) ∧
      ∀ {text path : List Char}, normalize text = some path → normalize path = some path := by
  have hself := parse_text_of_parse hparse
  refine ⟨(normal_of_parse hparse).canonical, hself, ?_, ?_⟩
  · intro raw' other hother
    refine ⟨congrArg text, ?_⟩
    intro htexts
    have hback := parse_text_of_parse hother
    rw [htexts, hself] at hback
    exact (Except.ok.inj hback).symm
  · intro text path hnormal
    exact normalize_of_neat (neat_of_normalize hnormal)

/-- An archive in an archive, in a directory whose name looks like the mark of a scheme. -/
theorem canonical_of_parse_nested :
    parse "jar:////p/./lib.jar!//x!/./y://z/" = .ok ⟨.jar, "/p/lib.jar!/x!/y:/z".toList⟩ ∧
      Canonical ⟨.jar, "/p/lib.jar!/x!/y:/z".toList⟩ ∧
      parse (text ⟨.jar, "/p/lib.jar!/x!/y:/z".toList⟩) =
        .ok ⟨.jar, "/p/lib.jar!/x!/y:/z".toList⟩ ∧
      (∀ {raw' : String} {other : Url}, parse raw' = .ok other →
        (other = ⟨.jar, "/p/lib.jar!/x!/y:/z".toList⟩ ↔
          other.text = text ⟨.jar, "/p/lib.jar!/x!/y:/z".toList⟩)) ∧
      ∀ {text path : List Char}, normalize text = some path → normalize path = some path := by
  have hparse : parse "jar:////p/./lib.jar!//x!/./y://z/" =
      .ok ⟨.jar, "/p/lib.jar!/x!/y:/z".toList⟩ := by rfl
  exact ⟨hparse, canonical_of_parse hparse⟩

end Url

end ProjectRoots
