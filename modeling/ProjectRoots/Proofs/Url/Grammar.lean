import Mathlib.Data.List.Infix
import ProjectRoots.Proofs.Url.Reading

/- The grammar of the texts that denote a url. It is stated by what stands in a text and does not
   mention how a text is read: a text begins with a scheme or is a bare path, and a path is cut at
   its first archive mark if it has one (`Leads`, `Locates`, `Documented`).

     1. `cutAt_eq_none_iff_no_mark` — cutting finds a mark wherever it occurs.
     2. `place_iff_locates` — behind its scheme a path denotes what the grammar says.
     3. `reads_iff_leads`, `unsupported_of_misread` — a scheme is not recognised where it stands, in
        front, but by the first mark of a scheme anywhere in the text. A bare path with such a mark
        in it is taken for one with an unknown scheme.
     4. `parse_eq_ok_iff_documented` — so these bare paths are refused, and all other texts are read
        as the grammar has it. -/
namespace ProjectRoots

/-! ## Marks -/

theorem cutAt_eq_none_iff_no_mark {mark text : List Char} :
    cutAt mark text = none ↔ ¬mark <:+: text := by
  induction text with
  | nil =>
    rw [List.infix_nil]
    simp [cutAt]
  | cons c rest ih =>
    rw [cutAt, List.infix_cons_iff, ← List.isPrefixOf_iff_prefix]
    by_cases hbegins : mark.isPrefixOf (c :: rest) = true
    · simp [hbegins]
    · rw [if_neg hbegins, Option.map_eq_none_iff, ih]
      simp [hbegins]

theorem markless_iff_no_mark {text : List Char} : Markless text ↔ ¬archiveMark <:+: text :=
  cutAt_eq_none_iff.symm.trans cutAt_eq_none_iff_no_mark

theorem dots_mem_kept_iff {text : List Char} :
    ['.', '.'] ∈ kept text ↔ ['.', '.'] ∈ text.splitOn '/' := by
  simp [kept]

theorem kept_ne_nil_iff {text : List Char} :
    kept text ≠ [] ↔ ∃ segment ∈ text.splitOn '/', segment ≠ [] ∧ segment ≠ ['.'] := by
  simp [kept, List.filter_eq_nil_iff]

namespace Url

/-! ## The grammar -/

/-- What stands in front of a path under the scheme. -/
def lead (scheme : Scheme) : List Char :=
  scheme.text.toList ++ schemeMark

/-- What is left of a text without the scheme that it begins with, if it begins with one. -/
inductive Leads : List Char → Option Scheme → List Char → Prop
  | named (scheme : Scheme) (rest : List Char) : Leads (lead scheme ++ rest) (some scheme) rest
  | bare {text : List Char} (hbare : ∀ scheme, ¬lead scheme <+: text) : Leads text none text

/-- Where an absolute path is, under the scheme in front of it if there is one. No segment may
climb. Without an archive mark the path is that of a file, which an archive's scheme must not
announce. With one, the part up to the first mark must name the archive's file, and the path is one
of an archive unless the scheme says otherwise. -/
inductive Locates : Option Scheme → List Char → Url → Prop
  | file {scheme : Option Scheme} {path : List Char} (hscheme : scheme ≠ some .jar)
    (hmark : ¬archiveMark <:+: path) (habsolute : path.head? = some '/')
    (hflat : ['.', '.'] ∉ path.splitOn '/') :
    Locates scheme path ⟨.file, spell (kept path)⟩
  | entry {scheme : Option Scheme} {outer inner : List Char} (hfirst : ¬archiveMark <:+: outer)
    (habsolute : outer.head? = some '/') (houter : ['.', '.'] ∉ outer.splitOn '/')
    (hinner : ['.', '.'] ∉ inner.splitOn '/')
    (hfile : ∃ segment ∈ outer.splitOn '/', segment ≠ [] ∧ segment ≠ ['.']) :
    Locates scheme (outer ++ archiveMark ++ inner)
      ⟨scheme.getD .jar, spell (kept outer) ++ '!' :: spell (kept inner)⟩

/-- The text is documented to denote the url. -/
def Documented (raw : String) (url : Url) : Prop :=
  ∃ scheme path, Leads raw.toList scheme path ∧ Locates scheme path url

/-- A bare path in which a scheme's mark occurs. -/
def Misread (raw : String) : Prop :=
  raw.toList.head? = some '/' ∧ schemeMark <:+: raw.toList

/-! ## Paths -/

/-- A path that is cut at an archive mark begins with what stands before the mark. -/
theorem head?_cut_iff {outer inner : List Char} :
    (outer ++ archiveMark ++ inner).head? = some '/' ↔ outer.head? = some '/' := by
  cases outer <;> simp [archiveMark]

theorem Locates.absolute {scheme : Option Scheme} {path : List Char} {url : Url}
    (hlocates : Locates scheme path url) : path.head? = some '/' := by
  cases hlocates with
  | file hscheme hmark habsolute hflat => exact habsolute
  | entry hfirst habsolute houter hinner hfile => exact head?_cut_iff.2 habsolute

/-- Behind its scheme a path denotes what the grammar says. -/
theorem place_iff_locates {raw : String} {scheme : Option Scheme} {path : List Char} {url : Url} :
    place raw scheme path = .ok url ↔ Locates scheme path url := by
  constructor
  · intro hplace
    by_cases hmarkless : Markless path
    · obtain ⟨hscheme, habsolute, hflat, rfl⟩ := (place_of_markless hmarkless).1 hplace
      exact .file hscheme (markless_iff_no_mark.1 hmarkless) habsolute
        (mt dots_mem_kept_iff.2 hflat)
    · obtain ⟨outer, inner, hcut⟩ := exists_cut_of_mark hmarkless
      obtain ⟨habsolute, houter, hinner, hfile, rfl⟩ := (place_of_cut hcut).1 hplace
      have hpath : path = outer ++ archiveMark ++ inner := eq_of_cutAt hcut
      have hfirst : Markless outer := markless_of_cutAt hcut
      subst hpath
      exact .entry (markless_iff_no_mark.1 hfirst) (head?_cut_iff.1 habsolute)
        (mt dots_mem_kept_iff.2 houter) (mt dots_mem_kept_iff.2 hinner) (kept_ne_nil_iff.1 hfile)
  · intro hlocates
    have habsolute := hlocates.absolute
    cases hlocates with
    | file hscheme hmark _ hflat =>
      have hmarkless : Markless path := markless_iff_no_mark.2 hmark
      exact (place_of_markless hmarkless).2
        ⟨hscheme, habsolute, mt dots_mem_kept_iff.1 hflat, rfl⟩
    | @entry outer inner hfirst _ houter hinner hfile =>
      have hcut : cutAt archiveMark (outer ++ archiveMark ++ inner) = some (outer, inner) := by
        rw [List.append_assoc]
        exact cutAt_of_markless (markless_iff_no_mark.2 hfirst)
      exact (place_of_cut hcut).2 ⟨habsolute, mt dots_mem_kept_iff.1 houter,
        mt dots_mem_kept_iff.1 hinner, kept_ne_nil_iff.2 hfile, rfl⟩

/-! ## Schemes -/

theorem head?_lead_ne (scheme : Scheme) (rest : List Char) :
    (lead scheme ++ rest).head? ≠ some '/' := by
  cases scheme <;> simp [lead, Scheme.text]

theorem Leads.of_none {text rest : List Char} (hleads : Leads text none rest) : rest = text := by
  cases hleads with
  | bare _ => rfl

/-- A text is left with one rest. -/
theorem Leads.unique {text rest rest' : List Char} {scheme scheme' : Option Scheme}
    (hleads : Leads text scheme rest) (hleads' : Leads text scheme' rest') :
    scheme = scheme' ∧ rest = rest' := by
  cases hleads with
  | bare hbare =>
    cases hleads' with
    | bare _ => exact ⟨rfl, rfl⟩
    | named scheme' => exact absurd (List.prefix_append _ _) (hbare scheme')
  | named scheme =>
    generalize htext : lead scheme ++ rest = text at hleads'
    cases hleads' with
    | bare hbare => exact absurd ⟨rest, htext⟩ (hbare scheme)
    | named scheme' => cases scheme <;> cases scheme' <;> simp_all [lead, Scheme.text]

/-- A text is read under the scheme that it begins with, and as a bare path only if no scheme's mark
occurs in it. -/
theorem reads_iff_leads {text rest : List Char} {scheme : Option Scheme} :
    Reads text scheme rest ↔
      Leads text scheme rest ∧ (scheme = none → ¬schemeMark <:+: text) := by
  constructor
  · intro hreads
    cases hreads with
    | bare hbare =>
      have hmark : ¬schemeMark <:+: text := cutAt_eq_none_iff_no_mark.1 hbare
      refine ⟨.bare ?_, fun _ => hmark⟩
      intro scheme hlead
      obtain ⟨behind, htext⟩ := hlead
      exact hmark ⟨scheme.text.toList, behind, htext⟩
    | named scheme => exact ⟨.named scheme rest, by simp⟩
  · intro h
    obtain ⟨hleads, hmark⟩ := h
    cases hleads with
    | named scheme => exact .named scheme rest
    | bare _ => exact .bare (cutAt_eq_none_iff_no_mark.2 (hmark rfl))

/-- What stands before the first mark of a scheme is taken for a scheme, also in a bare path. -/
theorem unsupported_of_misread {raw : String} (hmisread : Misread raw) :
    ∃ word, parse raw = .error (.unsupportedScheme word raw) := by
  obtain ⟨habsolute, hmark⟩ := hmisread
  cases hcut : cutAt schemeMark raw.toList with
  | none => exact absurd hmark (cutAt_eq_none_iff_no_mark.1 hcut)
  | some cut =>
    obtain ⟨word, rest⟩ := cut
    have hunknown : Scheme.ofText? (String.ofList word) = none := by
      cases hscheme : Scheme.ofText? (String.ofList word) with
      | none => rfl
      | some scheme =>
        rw [eq_of_cutAt hcut, word_of_scheme hscheme] at habsolute
        exact absurd habsolute (head?_lead_ne scheme rest)
    refine ⟨String.ofList word, ?_⟩
    unfold parse
    simp [hcut, hunknown]

/-! ## Texts -/

/-- No text is documented to denote two urls. -/
theorem Documented.unique {raw : String} {url other : Url} (hurl : Documented raw url)
    (hother : Documented raw other) : url = other := by
  obtain ⟨scheme, path, hleads, hlocates⟩ := hurl
  obtain ⟨scheme', path', hleads', hlocates'⟩ := hother
  obtain ⟨rfl, rfl⟩ := hleads.unique hleads'
  have hplace : place raw scheme path = .ok url := place_iff_locates.2 hlocates
  rw [place_iff_locates.2 hlocates'] at hplace
  exact (Except.ok.inj hplace).symm

/-- A text denotes what it is documented to denote, unless it is a bare path in which a scheme's
mark occurs. Every such path is refused. -/
theorem parse_eq_ok_iff_documented (raw : String) :
    (∀ url, parse raw = .ok url ↔ Documented raw url ∧ ¬Misread raw) ∧
      (Misread raw → ∃ word, parse raw = .error (.unsupportedScheme word raw)) := by
  refine ⟨?_, unsupported_of_misread⟩
  intro url
  constructor
  · intro hparse
    obtain ⟨scheme, path, hreads, hplace⟩ := reads_of_parse hparse
    refine ⟨⟨scheme, path, (reads_iff_leads.1 hreads).1, place_iff_locates.1 hplace⟩, ?_⟩
    intro hmisread
    obtain ⟨word, hrefused⟩ := unsupported_of_misread hmisread
    rw [hparse] at hrefused
    cases hrefused
  · intro h
    obtain ⟨⟨scheme, path, hleads, hlocates⟩, hmisread⟩ := h
    have hreads : Reads raw.toList scheme path := by
      refine reads_iff_leads.2 ⟨hleads, ?_⟩
      intro hbare hmark
      subst hbare
      have habsolute := hlocates.absolute
      rw [hleads.of_none] at habsolute
      exact hmisread ⟨habsolute, hmark⟩
    rw [parse_of_reads hreads]
    exact place_iff_locates.2 hlocates

/-- A directory whose name ends with a colon, and two slashes behind it. -/
theorem not_parse_of_documented :
    Documented "/a://b" ⟨.file, "/a:/b".toList⟩ ∧
      parse "/a://b" = .error (.unsupportedScheme "/a" "/a://b") := by
  have hleads : Leads "/a://b".toList none "/a://b".toList := by
    refine .bare ?_
    intro scheme
    cases scheme <;> decide
  have hlocates : Locates none "/a://b".toList ⟨.file, "/a:/b".toList⟩ :=
    .file (by simp) (by decide) (by decide) (by decide)
  exact ⟨⟨none, _, hleads, hlocates⟩, by rfl⟩

end Url

end ProjectRoots
