import ProjectRoots.Proofs.Url.Ancestry

/- What a text denotes. A text is read as a path, behind a scheme if it names one (`Reads`), and the
   path is known by the segments that tidying keeps (`kept`).

     1. `kept_append_slash` — a text that is put together with a slash keeps the segments of both
        parts.
     2. `normalize_of_markless`, `normalize_of_cut` — the normal form of a path without an archive
        mark, and of one that is cut at its first one.
     3. `place_of_markless`, `place_of_cut` — so the url that a path denotes under a scheme, and
        what keeps a path from denoting any.
     4. `child_eq_ok_iff_gap` — a child is called by a name, behind a slash unless the directory
        ends with one.
     5. `lands_of_markless`, `lands_of_cut` — so the url of a child in the directory that a text
        denotes. -/
namespace ProjectRoots

/-! ## Texts with and without marks -/

theorem cutAt_left {mark front back : List Char} (hmark : mark ≠ [])
    (hnone : cutAt mark (front ++ back) = none) : cutAt mark front = none := by
  induction front with
  | nil => simp [cutAt, hmark]
  | cons c rest ih =>
    rw [List.cons_append, cutAt] at hnone
    split at hnone
    · cases hnone
    · rename_i hprefix
      have hrest := ih (Option.map_eq_none_iff.1 hnone)
      have hnot : ¬mark.isPrefixOf (c :: rest) = true := by
        intro hshort
        apply hprefix
        rw [List.isPrefixOf_iff_prefix] at hshort ⊢
        exact hshort.trans (List.prefix_append (c :: rest) back)
      rw [cutAt, if_neg hnot, hrest]
      rfl

theorem markless_append_of_not_mem {front back : List Char} (hfront : '!' ∉ front) :
    Markless (front ++ back) ↔ Markless back := by
  induction front with
  | nil => rfl
  | cons c rest ih =>
    have hc : c ≠ '!' := fun h => hfront (h ▸ List.mem_cons_self)
    rw [← ih fun hmem => hfront (List.mem_cons_of_mem _ hmem)]
    unfold Markless
    rw [List.cons_append, List.isChain_cons]
    simp [hc]

theorem markless_of_not_mem {text : List Char} (htext : '!' ∉ text) : Markless text := by
  have hmarkless : Markless (text ++ []) := (markless_append_of_not_mem htext).2 .nil
  rwa [List.append_nil] at hmarkless

theorem exists_cut_of_mark {text : List Char} (hmark : ¬Markless text) :
    ∃ outer inner, cutAt archiveMark text = some (outer, inner) := by
  cases hcut : cutAt archiveMark text with
  | none => exact absurd (cutAt_eq_none_iff.1 hcut) hmark
  | some cut => exact ⟨cut.1, cut.2, rfl⟩

instance : DecidablePred Markless := fun text =>
  inferInstanceAs (Decidable (text.IsChain fun a b => ¬(a = '!' ∧ b = '/')))

/-! ## Segments that are kept -/

theorem splitOn_slashes (count : Nat) :
    (List.replicate count '/').splitOn '/' = List.replicate (count + 1) [] := by
  induction count with
  | zero => rfl
  | succ count ih =>
    rw [List.replicate_succ, List.splitOn_cons_eq_if_modifyHead, if_pos (by rfl), ih,
      ← List.replicate_succ]

theorem last_slash {text : List Char} (hmem : '/' ∈ text) :
    ∃ front last, text = front ++ '/' :: last ∧ '/' ∉ last := by
  obtain ⟨last, front, hsplit, hslash⟩ := List.eq_append_cons_of_mem (List.mem_reverse.2 hmem)
  refine ⟨front.reverse, last.reverse, ?_, by simpa using hslash⟩
  rw [← List.reverse_reverse text, hsplit]
  simp

/-- A path consists of slashes, or it ends with a segment and slashes. -/
theorem slashes_or_segment {text : List Char} (hhead : text.head? = some '/') :
    (∃ count, text = List.replicate count '/') ∨ ∃ front name count,
      text = front ++ '/' :: (name ++ List.replicate count '/') ∧ name ≠ [] ∧ '/' ∉ name := by
  induction text using List.reverseRecOn with
  | nil => cases hhead
  | append_singleton init c ih =>
    by_cases hc : c = '/'
    · subst hc
      cases init with
      | nil => exact Or.inl ⟨1, rfl⟩
      | cons first rest =>
        rcases ih hhead with ⟨count, hinit⟩ | ⟨front, name, count, hinit, hname⟩
        · refine Or.inl ⟨count + 1, ?_⟩
          rw [hinit, List.replicate_succ']
        · refine Or.inr ⟨front, name, count + 1, ?_, hname⟩
          rw [hinit, List.replicate_succ']
          simp
    · -- The last slash is in front of the last character.
      obtain ⟨front, name, hsplit, hslash⟩ := last_slash (List.mem_of_head? hhead)
      refine Or.inr ⟨front, name, 0, by simpa using hsplit, ?_, hslash⟩
      rintro rfl
      exact hc (by simpa using congrArg List.getLast? hsplit)

/-- The segments of a text that tidying keeps. -/
def kept (text : List Char) : List (List Char) :=
  (text.splitOn '/').filter fun segment => segment ≠ [] ∧ segment ≠ ['.']

theorem segments_kept (text : List Char) : Segments (kept text) := by
  intro segment hmem
  obtain ⟨hmem, hkept⟩ := List.mem_filter.1 hmem
  exact ⟨(of_decide_eq_true hkept).1, not_mem_of_mem_splitOn hmem⟩

@[simp] theorem kept_nil : kept [] = [] := by
  simp [kept]

theorem kept_append_slash (front back : List Char) :
    kept (front ++ '/' :: back) = kept front ++ kept back := by
  simp [kept, List.splitOn_append_cons_self]

theorem kept_of_segment {segment : List Char} (hslash : '/' ∉ segment) (hne : segment ≠ [])
    (hdot : segment ≠ ['.']) : kept segment = [segment] := by
  simp [kept, List.splitOn_eq_singleton hslash, hne, hdot]

theorem kept_dot : kept ['.'] = [] := by
  simp [kept, List.splitOn_eq_singleton]

theorem kept_slashes (count : Nat) : kept (List.replicate count '/') = [] := by
  simp [kept, splitOn_slashes]

/-- A segment is kept without the slashes behind it. -/
theorem kept_segment_slashes {segment : List Char} (hslash : '/' ∉ segment) (hne : segment ≠ [])
    (hdot : segment ≠ ['.']) (count : Nat) :
    kept (segment ++ List.replicate count '/') = [segment] := by
  have hsegment := kept_of_segment hslash hne hdot
  cases count with
  | zero => rwa [List.replicate_zero, List.append_nil]
  | succ count =>
    rw [List.replicate_succ, kept_append_slash, hsegment, kept_slashes, List.append_nil]

theorem markless_spell_kept {text : List Char} (hmarkless : Markless text) :
    Markless (spell (kept text)) :=
  markless_spell (segments_kept text) ((quiet_splitOn hmarkless).filter _)

theorem spell_eq_slash_iff {segments : List (List Char)} (hsegments : Segments segments) :
    spell segments = ['/'] ↔ segments = [] := by
  constructor
  · intro hroot
    by_contra hne
    rw [spell_of_ne_nil hne] at hroot
    apply getLast?_joined_ne hsegments
    simp [hroot]
  · rintro rfl
    rfl

/-- A segment that ends with `!`, with a name behind it, is read as the file of an archive with an
entry in it. The path stays the same if tidying keeps what stands in front of the `!`. -/
theorem spell_hosted {base : List (List Char)} {host name : List Char} (hhost : '/' ∉ host)
    (hroot : base ++ kept host ≠ []) :
    spell (base ++ kept host) ++ '!' :: spell [name] =
      spell (base ++ [host ++ ['!']] ++ [name]) ↔ host ≠ [] ∧ host ≠ ['.'] := by
  rw [spell_of_ne_nil hroot, spell_of_ne_nil (by simp), spell_of_ne_nil (by simp)]
  by_cases hgood : host ≠ [] ∧ host ≠ ['.']
  · rw [kept_of_segment hhost hgood.1 hgood.2]
    exact iff_of_true (by simp [joined]) hgood
  · have hnone : kept host = [] := by
      rw [← or_iff_not_and_not] at hgood
      rcases hgood with rfl | rfl
      · exact kept_nil
      · exact kept_dot
    exact iff_of_false (by simp [hnone, joined]) hgood

namespace Url

/-! ## Normal forms -/

theorem tidy_eq_some_iff {text path : List Char} :
    tidy text = some path ↔ ['.', '.'] ∉ kept text ∧ path = spell (kept text) := by
  have htidy : tidy text =
      if ['.', '.'] ∈ kept text then none else some (spell (kept text)) := by
    unfold spell
    rw [apply_ite some]
    rfl
  rw [htidy]
  split
  · rename_i hclimbs
    simp [hclimbs]
  · rename_i hflat
    simp [hflat, eq_comm]

theorem normalize_of_markless {text path : List Char} (hmarkless : Markless text) :
    normalize text = some path ↔
      text.head? = some '/' ∧ ['.', '.'] ∉ kept text ∧ path = spell (kept text) := by
  unfold normalize
  rw [cutAt_eq_none_iff.2 hmarkless]
  split
  · rename_i hhead
    simp [hhead, tidy_eq_some_iff]
  · simp [*]

theorem normalize_of_cut {text outer inner path : List Char}
    (hcut : cutAt archiveMark text = some (outer, inner)) :
    normalize text = some path ↔ text.head? = some '/' ∧ ['.', '.'] ∉ kept outer ∧
      ['.', '.'] ∉ kept inner ∧ kept outer ≠ [] ∧
      path = spell (kept outer) ++ '!' :: spell (kept inner) := by
  unfold normalize
  rw [hcut]
  constructor
  · intro hnormal
    split at hnormal
    · rename_i hhead
      simp only at hnormal
      split at hnormal
      · rename_i outer' inner' houter hinner
        obtain ⟨hflat, rfl⟩ := tidy_eq_some_iff.1 houter
        obtain ⟨hflat', rfl⟩ := tidy_eq_some_iff.1 hinner
        split at hnormal
        · cases hnormal
        · rename_i hroot
          cases hnormal
          exact ⟨hhead, hflat, hflat', mt (spell_eq_slash_iff (segments_kept outer)).2 hroot, rfl⟩
      · cases hnormal
    · cases hnormal
  · rintro ⟨hhead, hflat, hflat', hne, rfl⟩
    have hroot := mt (spell_eq_slash_iff (segments_kept outer)).1 hne
    simp [hhead, tidy_eq_some_iff.2 ⟨hflat, rfl⟩, tidy_eq_some_iff.2 ⟨hflat', rfl⟩, hroot]

/-! ## Urls -/

/-- How a text is read: as a bare path, or as a path under the scheme that it names. -/
inductive Reads : List Char → Option Scheme → List Char → Prop
  | bare {text : List Char} (hbare : cutAt schemeMark text = none) : Reads text none text
  | named (scheme : Scheme) (text : List Char) :
    Reads (scheme.text.toList ++ schemeMark ++ text) (some scheme) text

theorem Reads.of_none {whole text : List Char} (hreads : Reads whole none text) :
    whole = text ∧ cutAt schemeMark text = none := by
  cases hreads with
  | bare hbare => exact ⟨rfl, hbare⟩

theorem Reads.of_some {whole text : List Char} {scheme : Scheme}
    (hreads : Reads whole (some scheme) text) :
    whole = scheme.text.toList ++ schemeMark ++ text := by
  cases hreads with
  | named scheme text => rfl

/-- What ends the path ends the text. -/
theorem Reads.exists_append {whole front back : List Char} {scheme : Option Scheme}
    (hreads : Reads whole scheme (front ++ back)) : ∃ before, whole = before ++ back := by
  cases scheme with
  | none => exact ⟨front, hreads.of_none.1⟩
  | some scheme =>
    rw [hreads.of_some, ← List.append_assoc]
    exact ⟨_, rfl⟩

/-- The scheme that a text names has no part in an archive mark. -/
theorem Reads.markless_iff {whole text : List Char} {scheme : Option Scheme}
    (hreads : Reads whole scheme text) : Markless whole ↔ Markless text := by
  cases hreads with
  | bare _ => rfl
  | named scheme text =>
    apply markless_append_of_not_mem
    cases scheme <;> decide

theorem cutAt_scheme (scheme : Scheme) (text : List Char) :
    cutAt schemeMark (scheme.text.toList ++ schemeMark ++ text) =
      some (scheme.text.toList, text) := by
  cases scheme <;> simp [Scheme.text, schemeMark, cutAt]

theorem parse_of_reads {raw : String} {scheme : Option Scheme} {text : List Char}
    (hreads : Reads raw.toList scheme text) : parse raw = place raw scheme text := by
  unfold parse
  generalize hraw : raw.toList = whole at hreads
  cases hreads with
  | bare hbare => rw [hbare]
  | named scheme text =>
    rw [cutAt_scheme]
    simp [Scheme.ofText?_text]

theorem word_of_scheme {word : List Char} {scheme : Scheme}
    (hscheme : Scheme.ofText? (String.ofList word) = some scheme) : word = scheme.text.toList := by
  rw [← String.toList_ofList (l := word)]
  unfold Scheme.ofText? at hscheme
  split at hscheme
  · rename_i hfile
    cases hscheme
    rw [hfile, Scheme.text]
  · split at hscheme
    · rename_i hjar
      cases hscheme
      rw [hjar, Scheme.text]
    · cases hscheme

theorem reads_of_parse {raw : String} {url : Url} (hparse : parse raw = .ok url) :
    ∃ scheme text, Reads raw.toList scheme text ∧ place raw scheme text = .ok url := by
  suffices hsome : ∃ scheme text, Reads raw.toList scheme text by
    obtain ⟨scheme, text, hreads⟩ := hsome
    exact ⟨scheme, text, hreads, parse_of_reads hreads ▸ hparse⟩
  cases hcut : cutAt schemeMark raw.toList with
  | none => exact ⟨none, raw.toList, .bare hcut⟩
  | some cut =>
    obtain ⟨word, text⟩ := cut
    unfold parse at hparse
    rw [hcut] at hparse
    cases hscheme : Scheme.ofText? (String.ofList word) with
    | none => simp [hscheme] at hparse
    | some scheme =>
      refine ⟨some scheme, text, ?_⟩
      rw [eq_of_cutAt hcut, word_of_scheme hscheme]
      exact .named scheme text

theorem place_eq_ok_iff {raw : String} {scheme : Option Scheme} {text : List Char} {url : Url} :
    place raw scheme text = .ok url ↔ ∃ path, normalize text = some path ∧
      (Markless path → scheme ≠ some .jar ∧ url = ⟨.file, path⟩) ∧
      (¬Markless path → url = ⟨scheme.getD .jar, path⟩) := by
  unfold place
  cases normalize text with
  | none => simp
  | some path =>
    have harchived : (cutAt archiveMark path).isSome = true ↔ ¬Markless path := by
      rw [← cutAt_eq_none_iff, Option.isSome_iff_ne_none]
    by_cases hmarkless : Markless path <;> rcases scheme with _ | _ | _ <;>
      simp [harchived, hmarkless, eq_comm]

/-- A path without an archive mark denotes a file, unless the text names the other scheme. -/
theorem place_of_markless {raw : String} {scheme : Option Scheme} {text : List Char} {url : Url}
    (hmarkless : Markless text) :
    place raw scheme text = .ok url ↔ scheme ≠ some .jar ∧ text.head? = some '/' ∧
      ['.', '.'] ∉ kept text ∧ url = ⟨.file, spell (kept text)⟩ := by
  have hspelled := markless_spell_kept hmarkless
  simp only [place_eq_ok_iff, normalize_of_markless hmarkless]
  constructor
  · rintro ⟨path, ⟨hhead, hflat, rfl⟩, hfile, _⟩
    obtain ⟨hscheme, hurl⟩ := hfile hspelled
    exact ⟨hscheme, hhead, hflat, hurl⟩
  · rintro ⟨hscheme, hhead, hflat, hurl⟩
    exact ⟨_, ⟨hhead, hflat, rfl⟩, fun _ => ⟨hscheme, hurl⟩, fun hmark => absurd hspelled hmark⟩

theorem not_markless_entry (front : List Char) (segments : List (List Char)) :
    ¬Markless (front ++ '!' :: spell segments) := by
  obtain ⟨back, hback⟩ := exists_spell_eq_cons segments
  rw [hback, List.append_cons, markless_append_iff]
  intro hmarkless
  exact hmarkless.2.1 (by simp)

/-- A path with an archive mark denotes an entry of an archive, unless the text names the other
scheme. -/
theorem place_of_cut {raw : String} {scheme : Option Scheme} {text outer inner : List Char}
    {url : Url} (hcut : cutAt archiveMark text = some (outer, inner)) :
    place raw scheme text = .ok url ↔ text.head? = some '/' ∧ ['.', '.'] ∉ kept outer ∧
      ['.', '.'] ∉ kept inner ∧ kept outer ≠ [] ∧
      url = ⟨scheme.getD .jar, spell (kept outer) ++ '!' :: spell (kept inner)⟩ := by
  have hmark := not_markless_entry (spell (kept outer)) (kept inner)
  simp only [place_eq_ok_iff, normalize_of_cut hcut]
  constructor
  · rintro ⟨path, ⟨hhead, hflat, hflat', hne, rfl⟩, _, hentry⟩
    exact ⟨hhead, hflat, hflat', hne, hentry hmark⟩
  · rintro ⟨hhead, hflat, hflat', hne, hurl⟩
    exact ⟨_, ⟨hhead, hflat, hflat', hne, rfl⟩, fun hmarkless => absurd hmarkless hmark,
      fun _ => hurl⟩

theorem head?_of_place {raw : String} {scheme : Option Scheme} {text : List Char} {url : Url}
    (hplace : place raw scheme text = .ok url) : text.head? = some '/' := by
  by_cases hmarkless : Markless text
  · exact ((place_of_markless hmarkless).1 hplace).2.1
  · obtain ⟨outer, inner, hcut⟩ := exists_cut_of_mark hmarkless
    exact ((place_of_cut hcut).1 hplace).1

/-- A mark in the path is found in the url, and decides on its scheme if the text names none. -/
theorem mark_of_place {raw : String} {scheme : Option Scheme} {text : List Char} {url : Url}
    (hplace : place raw scheme text = .ok url) (hmark : ¬Markless text) :
    ¬Markless url.path ∧ url.scheme = scheme.getD .jar := by
  obtain ⟨outer, inner, hcut⟩ := exists_cut_of_mark hmark
  obtain ⟨_, _, _, _, rfl⟩ := (place_of_cut hcut).1 hplace
  exact ⟨not_markless_entry (spell (kept outer)) (kept inner), rfl⟩

/-! ## Children -/

/-- Something in a directory can have this name. -/
structure Nameable (name : List Char) : Prop where
  ne_nil : name ≠ []
  slashless : '/' ∉ name
  ne_dot : name ≠ ['.']
  ne_dots : name ≠ ['.', '.']

theorem nameable_iff {name : List Char} :
    Nameable name ↔ ¬(name = [] ∨ '/' ∈ name ∨ name = ['.'] ∨ name = ['.', '.']) := by
  simp only [not_or]
  constructor
  · intro h
    exact ⟨h.ne_nil, h.slashless, h.ne_dot, h.ne_dots⟩
  · intro h
    obtain ⟨hne, hslash, hdot, hdots⟩ := h
    exact ⟨hne, hslash, hdot, hdots⟩

instance : DecidablePred Nameable := fun _ =>
  decidable_of_iff _ nameable_iff.symm

/-- What stands between a directory and the name of something in it: a slash, unless the path of the
directory ends with one. -/
def gap (url : Url) : List Char :=
  if url.path.getLast? = some '/' then [] else ['/']

theorem child_eq_ok_iff_gap {url next : Url} {name : List Char} :
    url.child name = .ok next ↔
      Nameable name ∧ next = ⟨url.scheme, url.path ++ url.gap ++ name⟩ := by
  have hpath : (if url.path.getLast? = some '/' then url.path ++ name
      else url.path ++ '/' :: name) = url.path ++ url.gap ++ name := by
    unfold gap
    split <;> simp
  unfold child
  rw [← apply_ite (@Except.ok PathFault Url), ← apply_ite (Url.mk url.scheme), hpath]
  by_cases hname : Nameable name
  · rw [if_neg (nameable_iff.1 hname)]
    simp [hname, eq_comm]
  · rw [if_pos (not_not.1 (mt nameable_iff.2 hname))]
    simp [hname]

theorem child_eq_ok_iff {scheme : Scheme} {front name : List Char} {segments : List (List Char)}
    (hsegments : Segments segments) {url : Url} :
    child ⟨scheme, front ++ spell segments⟩ name = .ok url ↔
      Nameable name ∧ url = ⟨scheme, front ++ spell (segments ++ [name])⟩ := by
  have hpath : front ++ spell segments ++ gap ⟨scheme, front ++ spell segments⟩ ++ name =
      front ++ spell (segments ++ [name]) := by
    rw [spell_of_ne_nil (List.append_ne_nil_of_right_ne_nil _ (by simp)), joined_append_singleton]
    by_cases hnil : segments = []
    · subst hnil
      simp [spell, joined, gap]
    · rw [spell_of_ne_nil hnil, gap, List.getLast?_append_of_ne_nil _ (joined_ne_nil hnil),
        if_neg (getLast?_joined_ne hsegments)]
      simp
  rw [child_eq_ok_iff_gap, hpath]

/-- What is called `name` in the directory that the text denotes is at the url. -/
def Lands (parent : String) (name : List Char) (url : Url) : Prop :=
  ∃ directory, parse parent = .ok directory ∧ directory.child name = .ok url

section
variable {parent : String} {scheme : Option Scheme} {directory name : List Char} {url : Url}
  (hreads : Reads parent.toList scheme directory)
include hreads

theorem lands_of_markless (hmarkless : Markless directory) :
    Lands parent name url ↔ scheme ≠ some .jar ∧ directory.head? = some '/' ∧
      ['.', '.'] ∉ kept directory ∧ Nameable name ∧
      url = ⟨.file, spell (kept directory ++ [name])⟩ := by
  have hchild := @child_eq_ok_iff .file [] name _ (segments_kept directory) url
  simp only [List.nil_append] at hchild
  unfold Lands
  rw [parse_of_reads hreads]
  simp only [place_of_markless hmarkless]
  constructor
  · rintro ⟨_, ⟨hscheme, hhead, hflat, rfl⟩, hurl⟩
    exact ⟨hscheme, hhead, hflat, hchild.1 hurl⟩
  · rintro ⟨hscheme, hhead, hflat, hurl⟩
    exact ⟨_, ⟨hscheme, hhead, hflat, rfl⟩, hchild.2 hurl⟩

theorem lands_of_cut {outer inner : List Char}
    (hcut : cutAt archiveMark directory = some (outer, inner)) :
    Lands parent name url ↔ directory.head? = some '/' ∧ ['.', '.'] ∉ kept outer ∧
      ['.', '.'] ∉ kept inner ∧ kept outer ≠ [] ∧ Nameable name ∧
      url = ⟨scheme.getD .jar, spell (kept outer) ++ '!' :: spell (kept inner ++ [name])⟩ := by
  have hchild := @child_eq_ok_iff (scheme.getD .jar) (spell (kept outer) ++ ['!']) name _
    (segments_kept inner) url
  simp only [List.append_assoc, List.singleton_append] at hchild
  unfold Lands
  rw [parse_of_reads hreads]
  simp only [place_of_cut hcut]
  constructor
  · rintro ⟨_, ⟨hhead, hflat, hflat', hne, rfl⟩, hurl⟩
    exact ⟨hhead, hflat, hflat', hne, hchild.1 hurl⟩
  · rintro ⟨hhead, hflat, hflat', hne, hurl⟩
    exact ⟨_, ⟨hhead, hflat, hflat', hne, rfl⟩, hchild.2 hurl⟩

end

end Url

end ProjectRoots
