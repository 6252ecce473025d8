import ProjectRoots.Proofs.Url.Reading
import ProjectRoots.Watch.Watcher

/- What is new and what is gone at one path. The text of something new is cut into directory and
   name before it is read, while the text of something that is gone is read as a whole.

     1. `created_of_append`, `reads_holder` — the cut, and how the directory is read.
     2. `lands_of_plain`, `lands_of_marked`, `lands_of_lost` — whether the child in this directory
        is what the whole text denotes: without an archive mark, with one in front of the cut, and
        with one that is gone behind it.
     3. `lands_iff_whole` — so it is unless the cut takes away the slash of an archive mark, or all
        that stands behind a scheme.
     4. `created_like_deleted` — events at a path that the cut leaves whole are judged alike. -/
namespace ProjectRoots

/-! ## The cut -/

namespace Event

theorem trimSlashes_append {text : List Char} (hlast : text.getLast? ≠ some '/') (count : Nat) :
    trimSlashes (text ++ List.replicate count '/') = text := by
  have hkeep : text.reverse.dropWhile (· == '/') = text.reverse := by
    cases hreverse : text.reverse with
    | nil => rfl
    | cons c rest =>
      have hc : c ≠ '/' := by
        rintro rfl
        apply hlast
        rw [List.getLast?_eq_head?_reverse, hreverse]
        rfl
      simp [hc]
  rw [trimSlashes, List.reverse_append, List.reverse_replicate,
    List.dropWhile_append_of_pos (by simp), hkeep, List.reverse_reverse]

theorem created_of_append {path : String} {front name : List Char} {count : Nat}
    (hpath : path.toList = front ++ '/' :: (name ++ List.replicate count '/')) (hne : name ≠ [])
    (hslash : '/' ∉ name) (isDirectory : Bool) :
    created path isDirectory =
      create (if front = [] then "/" else String.ofList front) (String.ofList name)
        isDirectory := by
  have htrim : trimSlashes path.toList = front ++ '/' :: name := by
    have hlast := @getLast?_append_segment_ne front name hne hslash
    rw [hpath, ← trimSlashes_append hlast count]
    simp
  unfold created
  simp only [htrim, cutAtLast_append hslash]
  cases front <;> rfl

/-- The text that a creation at `path` takes for the directory. -/
def holder (path : String) : String :=
  match created path false with
  | create parent _ _ => parent
  | _ => path

/-- The last segment of a text that is not empty. -/
def lastSegment? (path : String) : Option (List Char) :=
  ((path.toList.splitOn '/').filter (· ≠ [])).getLast?

theorem lastSegment?_of_append {path : String} {front name : List Char} {count : Nat}
    (hpath : path.toList = front ++ '/' :: (name ++ List.replicate count '/')) (hne : name ≠ [])
    (hslash : '/' ∉ name) : lastSegment? path = some name := by
  have hname : ((name ++ List.replicate count '/').splitOn '/').filter (· ≠ []) = [name] := by
    cases count with
    | zero => simp [List.splitOn_eq_singleton hslash, hne]
    | succ count =>
      rw [List.replicate_succ, List.splitOn_append_cons_self, List.splitOn_eq_singleton hslash,
        splitOn_slashes]
      simp [hne]
  rw [lastSegment?, hpath, List.splitOn_append_cons_self, List.filter_append, hname]
  simp

end Event

namespace Url

/-! ## What the cut takes away -/

/-- What a creation reads as the directory if `front` stands before the last segment. -/
def upper (scheme : Option Scheme) (front : List Char) : List Char :=
  if scheme = none ∧ front = [] then ['/'] else front

theorem kept_upper (scheme : Option Scheme) (front : List Char) :
    kept (upper scheme front) = kept front := by
  unfold upper
  split
  · rename_i hnil
    rw [hnil.2]
    exact kept_slashes 1
  · rfl

theorem markless_upper {scheme : Option Scheme} {front : List Char} :
    Markless (upper scheme front) ↔ Markless front := by
  unfold upper
  split
  · rename_i hnil
    rw [hnil.2]
    exact iff_of_true (.singleton '/') .nil
  · rfl

section
variable {raw : String} {scheme : Option Scheme} {front name : List Char} {count : Nat}

theorem reads_holder
    (hreads : Reads raw.toList scheme (front ++ '/' :: (name ++ List.replicate count '/')))
    (hne : name ≠ []) (hslash : '/' ∉ name) :
    Reads (Event.holder raw).toList scheme (upper scheme front) := by
  generalize hwhole : raw.toList = whole at hreads
  generalize htext : front ++ '/' :: (name ++ List.replicate count '/') = text at hreads
  cases hreads with
  | bare hbare =>
    rw [← htext] at hwhole hbare
    rw [Event.holder, Event.created_of_append hwhole hne hslash]
    by_cases hnil : front = []
    · simp only [upper, hnil]
      exact .bare (by decide)
    · simp only [upper, hnil, and_false, if_false, String.toList_ofList]
      exact .bare (cutAt_left (by decide) hbare)
  | named scheme text =>
    rw [← htext, ← List.append_assoc] at hwhole
    have hsome : scheme.text.toList ++ schemeMark ++ front ≠ [] := by
      cases scheme <;> simp [schemeMark]
    rw [Event.holder, Event.created_of_append hwhole hne hslash]
    simp only [hsome, if_false, String.toList_ofList, upper, reduceCtorEq, false_and]
    exact .named scheme front

/-- The text ends with a segment that is the name of a file and a `!`. -/
def Hosted (text : List Char) : Prop :=
  ∃ front name, text = front ++ '/' :: (name ++ ['!']) ∧ '/' ∉ name ∧ name ≠ [] ∧ name ≠ ['.']

variable {parent : String} {url : Url}
  (hplace : place raw scheme (front ++ '/' :: (name ++ List.replicate count '/')) = .ok url)
  (hreads : Reads parent.toList scheme (upper scheme front))
  (hne : name ≠ []) (hslash : '/' ∉ name) (hdot : name ≠ ['.'])
include hplace hreads hne hslash hdot

/-- Without a mark in the path, all depends on whether anything is left of it. -/
theorem lands_of_plain
    (hmarkless : Markless (front ++ '/' :: (name ++ List.replicate count '/'))) :
    Lands parent name url ↔ (upper scheme front).head? = some '/' := by
  obtain ⟨hscheme, _, hflat, hurl⟩ := (place_of_markless hmarkless).1 hplace
  rw [kept_append_slash, kept_segment_slashes hslash hne hdot] at hflat hurl
  rw [lands_of_markless hreads (markless_upper.2 hmarkless.left), kept_upper]
  constructor
  · rintro ⟨_, hhead, _⟩
    exact hhead
  · intro hhead
    refine ⟨hscheme, hhead, ?_, ⟨hne, hslash, hdot, ?_⟩, hurl⟩
    · exact fun hmem => hflat (List.mem_append_left _ hmem)
    · rintro rfl
      exact hflat (by simp)

/-- A mark in the directory is found again. -/
theorem lands_of_marked (hmark : ¬Markless front) : Lands parent name url := by
  obtain ⟨outer, inner, hcut⟩ := exists_cut_of_mark hmark
  have hsome : front ≠ [] := by
    rintro rfl
    exact hmark .nil
  have hupper : upper scheme front = front := by simp [upper, hsome]
  obtain ⟨hhead, hflat, hflat', hroot, hurl⟩ := (place_of_cut (cutAt_append hcut _)).1 hplace
  rw [kept_append_slash, kept_segment_slashes hslash hne hdot] at hflat' hurl
  rw [hupper] at hreads
  rw [List.head?_append_of_ne_nil _ hsome] at hhead
  refine (lands_of_cut hreads hcut).2 ⟨hhead, hflat, ?_, hroot, ⟨hne, hslash, hdot, ?_⟩, hurl⟩
  · exact fun hmem => hflat' (List.mem_append_left _ hmem)
  · rintro rfl
    exact hflat' (by simp)

/-- A mark that the cut goes through is lost unless the text names the scheme of files and the name
in front of the `!` is one that tidying keeps. -/
theorem lands_of_divided {base host : List Char} (hfront : front = base ++ '/' :: (host ++ ['!']))
    (hhost : '/' ∉ host) (hmarkless : Markless front) :
    Lands parent name url ↔ scheme = some .file ∧ host ≠ [] ∧ host ≠ ['.'] := by
  have hcut : cutAt archiveMark (front ++ '/' :: (name ++ List.replicate count '/')) =
      some (base ++ '/' :: host, name ++ List.replicate count '/') := by
    have hsame : front ++ '/' :: (name ++ List.replicate count '/') =
        (base ++ '/' :: host) ++ '!' :: '/' :: (name ++ List.replicate count '/') := by
      simp [hfront]
    rw [hsame]
    apply cutAt_of_markless
    have hwhole : Markless ((base ++ '/' :: host) ++ ['!']) := by
      simpa [hfront] using hmarkless
    exact hwhole.left
  obtain ⟨hhead, hflat, hflat', hroot, hurl⟩ := (place_of_cut hcut).1 hplace
  rw [kept_append_slash] at hflat hroot hurl
  rw [kept_segment_slashes hslash hne hdot] at hflat' hurl
  have hmarked : kept (host ++ ['!']) = [host ++ ['!']] :=
    kept_of_segment (by simp [hhost]) (by simp) (by simp [List.append_eq_cons_iff])
  have hsome : front ≠ [] := by simp [hfront]
  rw [lands_of_markless hreads (markless_upper.2 hmarkless), kept_upper, hfront,
    kept_append_slash, hmarked, hurl, Url.mk.injEq, spell_hosted hhost hroot]
  constructor
  · rintro ⟨hjar, _, _, _, hscheme, hgood⟩
    refine ⟨?_, hgood⟩
    rcases scheme with _ | _ | _
    · cases hscheme
    · rfl
    · cases hscheme
  · rintro ⟨rfl, hgood⟩
    refine ⟨by simp, ?_, ?_, ⟨hne, hslash, hdot, ?_⟩, rfl, hgood⟩
    · rw [List.head?_append_of_ne_nil _ hsome] at hhead
      simpa [upper, hfront] using hhead
    · intro hmem
      rcases List.mem_append.1 hmem with hmem | hmem
      · exact hflat (List.mem_append_left _ hmem)
      · have hlast := congrArg List.getLast? (List.mem_singleton.1 hmem)
        simp at hlast
    · rintro rfl
      exact hflat' (by simp)

theorem not_lands_of_quiet (hquiet : front.getLast? ≠ some '!') (hmarkless : Markless front)
    (hmark : ¬Markless (front ++ '/' :: (name ++ List.replicate count '/'))) :
    ¬Lands parent name url := by
  rw [lands_of_markless hreads (markless_upper.2 hmarkless), kept_upper]
  rintro ⟨_, _, _, _, rfl⟩
  -- In the directory there is no mark, but the url has one.
  have hwhole : Markless (front ++ '/' :: name) :=
    markless_append_iff.2 ⟨hmarkless, hquiet, markless_segment hslash⟩
  have hspelled := markless_spell_kept hwhole
  rw [kept_append_slash, kept_of_segment hslash hne hdot] at hspelled
  exact (mark_of_place hplace hmark).1 hspelled

theorem lands_of_lost (hmarkless : Markless front)
    (hmark : ¬Markless (front ++ '/' :: (name ++ List.replicate count '/'))) :
    Lands parent name url ↔ scheme = some .file ∧ Hosted front := by
  constructor
  · intro hlands
    have hlast : front.getLast? = some '!' := by
      by_contra hquiet
      exact not_lands_of_quiet hplace hreads hne hslash hdot hquiet hmarkless hmark hlands
    have hsome : front ≠ [] := by
      rintro rfl
      cases hlast
    have hhead : front.head? = some '/' := by
      have hupper := ((lands_of_markless hreads (markless_upper.2 hmarkless)).1 hlands).2.1
      simpa [upper, hsome] using hupper
    obtain ⟨base, last, hfront, hlastSlash⟩ := last_slash (List.mem_of_head? hhead)
    have hmarked : last.getLast? = some '!' := by
      have hne : last ≠ [] := by
        rintro rfl
        simp [hfront] at hlast
      rwa [hfront, getLast?_append_segment hne] at hlast
    obtain ⟨host, rfl⟩ := List.getLast?_eq_some_iff.1 hmarked
    have hhost : '/' ∉ host := fun hmem => hlastSlash (List.mem_append_left _ hmem)
    obtain ⟨hscheme, hgood⟩ :=
      (lands_of_divided hplace hreads hne hslash hdot hfront hhost hmarkless).1 hlands
    exact ⟨hscheme, base, host, hfront, hhost, hgood⟩
  · rintro ⟨hscheme, base, host, hfront, hhost, hgood⟩
    exact (lands_of_divided hplace hreads hne hslash hdot hfront hhost hmarkless).2
      ⟨hscheme, hgood⟩

end

/-! ## Texts -/

/-- Cutting the text into directory and name leaves whole what tells how the path is addressed. -/
structure Whole (raw : String) (url : Url) : Prop where
  /-- There is a path in the directory's text. -/
  path : Event.holder raw ≠ "file://"
  /-- An archive mark is not lost, or is not needed. -/
  mark : ¬Markless raw.toList → ¬Markless (Event.holder raw).toList ∨
    url.scheme = .file ∧ Hosted (Event.holder raw).toList

theorem hosted_append {front back : List Char} (hhead : back.head? = some '/') :
    Hosted (front ++ back) ↔ Hosted back := by
  constructor
  · rintro ⟨base, host, hsplit, hhost, hgood⟩
    rcases List.append_eq_append_iff.1 hsplit with ⟨more, _, hback⟩ | ⟨more, _, hback⟩
    · exact ⟨more, host, hback, hhost, hgood⟩
    · cases more with
      | nil => exact ⟨[], host, hback.symm, hhost, hgood⟩
      | cons c more =>
        -- The slash in front of the last segment is the last one.
        have hmem : '/' ∈ host ++ ['!'] := by
          rw [(List.cons.inj hback).2]
          exact List.mem_append_right _ (List.mem_of_head? hhead)
        simp [hhost] at hmem
  · rintro ⟨base, host, rfl, hhost, hgood⟩
    exact ⟨front ++ base, host, by simp, hhost, hgood⟩

theorem not_hosted_of_slash {text : List Char} (hlast : text.getLast? = some '/') :
    ¬Hosted text := by
  rintro ⟨base, host, rfl, _⟩
  rw [getLast?_append_segment (by simp)] at hlast
  simp at hlast

section
variable {raw : String} {scheme : Option Scheme} {front rest : List Char}
  (hreads : Reads (Event.holder raw).toList scheme (upper scheme front))
  (hhead : (front ++ '/' :: rest).head? = some '/')
include hreads hhead

theorem holder_ne_files_iff (hscheme : scheme ≠ some .jar) :
    Event.holder raw ≠ "file://" ↔ (upper scheme front).head? = some '/' := by
  have hslash : front ≠ [] → front.head? = some '/' := by
    intro hsome
    rwa [List.head?_append_of_ne_nil _ hsome] at hhead
  rcases scheme with _ | _ | _
  · have hbare := hreads.of_none
    refine iff_of_true ?_ ?_
    · intro hfiles
      rw [← hbare.1, hfiles] at hbare
      exact absurd hbare.2 (by decide)
    · by_cases hnil : front = []
      · simp [upper, hnil]
      · simp [upper, hnil, hslash hnil]
  · have htext : (Event.holder raw).toList = "file://".toList ++ front := hreads.of_some
    rw [ne_eq, ← String.toList_inj, htext, List.append_right_eq_self]
    constructor
    · intro hsome
      simpa [upper] using hslash hsome
    · rintro hupper rfl
      cases hupper
  · exact absurd rfl hscheme

theorem hosted_holder_iff (hscheme : scheme = some .file) :
    Hosted (Event.holder raw).toList ↔ Hosted front := by
  subst hscheme
  have htext : (Event.holder raw).toList = "file://".toList ++ front := hreads.of_some
  rw [htext]
  by_cases hnil : front = []
  · subst hnil
    exact iff_of_false (not_hosted_of_slash rfl) (by rintro ⟨base, host, hsplit, _⟩; simp at hsplit)
  · rw [List.head?_append_of_ne_nil _ hnil] at hhead
    exact hosted_append hhead

end

theorem whole_of_marked {raw : String} {url : Url}
    (hmark : ¬Markless (Event.holder raw).toList) : Whole raw url where
  path := by
    intro hfiles
    rw [hfiles] at hmark
    exact hmark (markless_of_not_mem (by decide))
  mark := fun _ => Or.inl hmark

section
variable {raw : String} {scheme : Option Scheme} {front name : List Char} {count : Nat} {url : Url}
  (hreads : Reads raw.toList scheme (front ++ '/' :: (name ++ List.replicate count '/')))
  (hplace : place raw scheme (front ++ '/' :: (name ++ List.replicate count '/')) = .ok url)
  (hne : name ≠ []) (hslash : '/' ∉ name) (hdot : name ≠ ['.'])
include hreads hplace hne hslash hdot

theorem lands_iff_whole_of_plain
    (hmarkless : Markless (front ++ '/' :: (name ++ List.replicate count '/'))) :
    Lands (Event.holder raw) name url ↔ Whole raw url := by
  have hholder := reads_holder hreads hne hslash
  have hscheme := ((place_of_markless hmarkless).1 hplace).1
  rw [lands_of_plain hplace hholder hne hslash hdot hmarkless,
    ← holder_ne_files_iff hholder (head?_of_place hplace) hscheme]
  constructor
  · intro hpath
    exact ⟨hpath, fun hmark => absurd (hreads.markless_iff.2 hmarkless) hmark⟩
  · exact Whole.path

theorem lands_iff_whole_of_lost (hfront : Markless front)
    (hmark : ¬Markless (front ++ '/' :: (name ++ List.replicate count '/'))) :
    Lands (Event.holder raw) name url ↔ Whole raw url := by
  have hholder := reads_holder hreads hne hslash
  have hhead := head?_of_place hplace
  have hscheme : url.scheme = .file ↔ scheme = some .file := by
    rw [(mark_of_place hplace hmark).2]
    rcases scheme with _ | _ | _ <;> simp
  have hkept : Markless (Event.holder raw).toList := by
    rwa [hholder.markless_iff, markless_upper]
  rw [lands_of_lost hplace hholder hne hslash hdot hfront hmark]
  constructor
  · rintro ⟨hfile, hhosted⟩
    have hhosted := (hosted_holder_iff hholder hhead hfile).2 hhosted
    refine ⟨?_, fun _ => Or.inr ⟨hscheme.2 hfile, hhosted⟩⟩
    intro hfiles
    rw [hfiles] at hhosted
    exact not_hosted_of_slash rfl hhosted
  · intro hwhole
    rcases hwhole.mark (mt hreads.markless_iff.1 hmark) with hmark | ⟨hfile, hhosted⟩
    · exact absurd hkept hmark
    · have hfile := hscheme.1 hfile
      exact ⟨hfile, (hosted_holder_iff hholder hhead hfile).1 hhosted⟩

theorem lands_iff_whole_of_marked (hfront : ¬Markless front) :
    Lands (Event.holder raw) name url ↔ Whole raw url := by
  have hholder := reads_holder hreads hne hslash
  refine iff_of_true (lands_of_marked hplace hholder hne hslash hdot hfront) ?_
  apply whole_of_marked
  rwa [hholder.markless_iff, markless_upper]

end

/-- A creation is about the url that the whole text denotes exactly if the cut leaves the text
whole. -/
theorem lands_iff_whole {raw : String} {url : Url} (hparse : parse raw = .ok url)
    (htop : url ≠ ⟨.file, ['/']⟩) (hdot : Event.lastSegment? raw ≠ some ['.']) :
    ∃ name, (∀ isDirectory, Event.created raw isDirectory =
        .create (Event.holder raw) (String.ofList name) isDirectory) ∧
      (Lands (Event.holder raw) name url ↔ Whole raw url) := by
  obtain ⟨scheme, text, hreads, hplace⟩ := reads_of_parse hparse
  rcases slashes_or_segment (head?_of_place hplace) with
    ⟨count, rfl⟩ | ⟨front, name, count, rfl, hne, hslash⟩
  · -- Nothing but slashes denotes the root directory.
    have hmarkless : Markless (List.replicate count '/') := markless_of_not_mem (by simp)
    obtain ⟨_, _, _, hurl⟩ := (place_of_markless hmarkless).1 hplace
    rw [kept_slashes] at hurl
    exact absurd hurl htop
  · obtain ⟨whole, hraw⟩ := hreads.exists_append
    have hdot : name ≠ ['.'] := by
      rintro rfl
      exact hdot (Event.lastSegment?_of_append hraw hne hslash)
    refine ⟨name, ?_, ?_⟩
    · intro isDirectory
      rw [Event.holder, Event.created_of_append hraw hne hslash,
        Event.created_of_append hraw hne hslash]
    by_cases hmarkless : Markless (front ++ '/' :: (name ++ List.replicate count '/'))
    · exact lands_iff_whole_of_plain hreads hplace hne hslash hdot hmarkless
    by_cases hfront : Markless front
    · exact lands_iff_whole_of_lost hreads hplace hne hslash hdot hfront hmarkless
    · exact lands_iff_whole_of_marked hreads hplace hne hslash hdot hfront

end Url

namespace Rules

theorem withArchiveRoot_inj (rules : Rules) {first second : Url} :
    rules.withArchiveRoot first = rules.withArchiveRoot second ↔ first = second := by
  have hhead : ∀ url, (rules.withArchiveRoot url).head? = some url := by
    intro url
    unfold withArchiveRoot
    split <;> rfl
  constructor
  · intro hsame
    have hheads := congrArg List.head? hsame
    rw [hhead, hhead] at hheads
    exact Option.some.inj hheads
  · rintro rfl
    rfl

theorem urlsCreated_eq_iff (rules : Rules) {parent : String} {name : List Char} {url : Url} :
    rules.urlsCreated parent (String.ofList name) = rules.withArchiveRoot url ↔
      Url.Lands parent name url := by
  have hsome : [] ≠ rules.withArchiveRoot url := by
    unfold withArchiveRoot
    split <;> simp
  unfold urlsCreated Url.Lands
  rw [String.toList_ofList]
  cases Url.parse parent with
  | error _ => simp [hsome]
  | ok directory =>
    cases hchild : directory.child name with
    | error _ => simp [hsome, hchild]
    | ok target => simp [hchild, withArchiveRoot_inj]

end Rules

/-! ## Judgements -/

theorem Workspace.classify_eq_nominal_iff (workspace : Workspace) (rules : Rules) (event : Event)
    (hnominal : event.nominal ≠ .none) :
    workspace.classify rules [event] = event.nominal ↔
      (rules.urlsOf event).any (workspace.touches rules) = true := by
  have hjudge : workspace.classify rules [event] = workspace.judge rules event := by
    simp [classify, judgeOnto, Impact.none_join]
  rw [hjudge, judge]
  split
  · rename_i htouched
    exact iff_of_true rfl htouched
  · rename_i huntouched
    exact iff_of_false (fun hnone => hnominal hnone.symm) huntouched

theorem created_like_deleted {raw : String} {url : Url} (hparse : Url.parse raw = .ok url)
    (htop : url ≠ ⟨.file, ['/']⟩) (hdot : Event.lastSegment? raw ≠ some ['.'])
    (watcher : Watcher) (isDirectory : Bool) :
    watcher.rules.urlsOf (.delete raw) = watcher.rules.withArchiveRoot url ∧
      (watcher.rules.urlsOf (.created raw isDirectory) = watcher.rules.withArchiveRoot url ↔
        Url.Whole raw url) ∧
      (Url.Whole raw url →
        (watcher.classify [.created raw isDirectory] = .added ↔
          watcher.classify [.delete raw] = .removed)) := by
  have hdeleted : watcher.rules.urlsOf (.delete raw) = watcher.rules.withArchiveRoot url := by
    simp [Rules.urlsOf, Rules.urlsAt, hparse]
  obtain ⟨name, hcreated, hlands⟩ := Url.lands_iff_whole hparse htop hdot
  have hnominal : (Event.created raw isDirectory).nominal = .added := by
    rw [hcreated isDirectory]
    rfl
  have hurls : watcher.rules.urlsOf (.created raw isDirectory) =
      watcher.rules.withArchiveRoot url ↔ Url.Whole raw url := by
    rw [hcreated isDirectory, ← hlands]
    exact watcher.rules.urlsCreated_eq_iff
  refine ⟨hdeleted, hurls, ?_⟩
  intro hwhole
  have hnew := watcher.project.workspace.classify_eq_nominal_iff watcher.rules
    (.created raw isDirectory) (by simp [hnominal])
  have hgone := watcher.project.workspace.classify_eq_nominal_iff watcher.rules
    (.delete raw) (by simp [Event.nominal])
  rw [hnominal, hurls.2 hwhole] at hnew
  rw [hdeleted] at hgone
  exact hnew.trans hgone.symm

/-- A watcher of a library that is mounted from an archive. -/
def library : Watcher where
  rules := {}
  project := { workspace := Workspace.ofGraph (Graph.ofList
    [⟨"library:x", .library, "x", [⟨"class_root", "/p/lib.jar!/", false⟩]⟩]) }

/-- A file in a directory of the archive. -/
def packed : Url :=
  ⟨.jar, "/p/lib.jar!/x/Foo.class".toList⟩

theorem created_like_deleted_packed :
    (Url.parse "/p/lib.jar!/x/Foo.class" = .ok packed ∧ packed ≠ ⟨.file, ['/']⟩ ∧
      Event.lastSegment? "/p/lib.jar!/x/Foo.class" ≠ some ['.']) ∧
      Url.Whole "/p/lib.jar!/x/Foo.class" packed ∧
      library.rules.urlsOf (.created "/p/lib.jar!/x/Foo.class" false) = [packed] ∧
      library.classify [.delete "/p/lib.jar!/x/Foo.class"] = .removed ∧
      (library.classify [.created "/p/lib.jar!/x/Foo.class" false] = .added ↔
        library.classify [.delete "/p/lib.jar!/x/Foo.class"] = .removed) := by
  have hparse : Url.parse "/p/lib.jar!/x/Foo.class" = .ok packed := by rfl
  have htop : packed ≠ ⟨.file, ['/']⟩ := by decide +kernel
  have hdot : Event.lastSegment? "/p/lib.jar!/x/Foo.class" ≠ some ['.'] := by decide +kernel
  have hwhole : Url.Whole "/p/lib.jar!/x/Foo.class" packed :=
    Url.whole_of_marked (by decide +kernel)
  obtain ⟨_, hurls, hjudged⟩ := created_like_deleted hparse htop hdot library false
  exact ⟨⟨hparse, htop, hdot⟩, hwhole, hurls.2 hwhole, by decide +kernel, hjudged hwhole⟩

/-- Directly below the root of the archive the cut takes the slash of the archive mark away. -/
theorem not_created_like_deleted_entry :
    (Url.parse "/p/lib.jar!/Foo.class" = .ok ⟨.jar, "/p/lib.jar!/Foo.class".toList⟩ ∧
      Event.lastSegment? "/p/lib.jar!/Foo.class" ≠ some ['.']) ∧
      library.rules.urlsOf (.delete "/p/lib.jar!/Foo.class") =
        [⟨.jar, "/p/lib.jar!/Foo.class".toList⟩] ∧
      library.rules.urlsOf (.created "/p/lib.jar!/Foo.class" false) =
        [⟨.file, "/p/lib.jar!/Foo.class".toList⟩] ∧
      library.classify [.delete "/p/lib.jar!/Foo.class"] = .removed ∧
      library.classify [.created "/p/lib.jar!/Foo.class" false] = .none := by
  refine ⟨⟨by rfl, by decide +kernel⟩, ?_, ?_, ?_, ?_⟩ <;> decide +kernel

end ProjectRoots
