import Mathlib.Data.List.Chain
import ProjectRoots.Url.Walk

/- The shape of a path that a text denotes. A path is made of segments, each behind a slash, and a
   path into an archive has two such parts with a `!` between them, the first of which is the
   archive's file.

     1. `cutAt_eq_none_iff`, `cutAt_of_markless` — a path is cut at its first archive mark. A part
        without a mark in it stays whole.
     2. `quiet_splitOn`, `markless_spell` — tidying a part makes no mark that was not there.
     3. `shape_of_parse` — so a path that a text denotes has one of the two shapes, and an archive
        url has the second one. -/
namespace ProjectRoots

/-! ## Marks -/

/-- No archive mark occurs in the text. -/
def Markless (text : List Char) : Prop :=
  text.IsChain fun a b => ¬(a = '!' ∧ b = '/')

theorem mark_isPrefixOf_iff {a b : Char} {rest : List Char} :
    archiveMark.isPrefixOf (a :: b :: rest) = true ↔ a = '!' ∧ b = '/' := by
  simp only [archiveMark, List.isPrefixOf_cons_cons, List.isPrefixOf_nil_left, Bool.and_true,
    Bool.and_eq_true, beq_iff_eq]
  rw [eq_comm, @eq_comm _ '/']

theorem cutAt_eq_none_iff {text : List Char} : cutAt archiveMark text = none ↔ Markless text := by
  unfold Markless
  induction text with
  | nil => simp [cutAt, archiveMark]
  | cons a rest ih =>
    cases rest with
    | nil => simp [cutAt, archiveMark]
    | cons b rest =>
      rw [cutAt, List.isChain_cons_cons, ← ih]
      by_cases hmark : a = '!' ∧ b = '/'
      · obtain ⟨rfl, rfl⟩ := hmark
        simp [archiveMark]
      · rw [if_neg (mt mark_isPrefixOf_iff.1 hmark)]
        simp [hmark]

/-- A part without a mark is what stands before the first one. -/
theorem cutAt_of_markless {front back : List Char} (hfront : Markless front) :
    cutAt archiveMark (front ++ '!' :: '/' :: back) = some (front, back) := by
  unfold Markless at hfront
  induction front with
  | nil => simp [cutAt, archiveMark]
  | cons a rest ih =>
    have hrest := ih hfront.tail
    -- The first character begins a mark only if the second one is a slash.
    have hnot : ¬archiveMark.isPrefixOf (a :: (rest ++ '!' :: '/' :: back)) = true := by
      cases rest with
      | nil => exact mt mark_isPrefixOf_iff.1 (by simp)
      | cons b rest => exact mt mark_isPrefixOf_iff.1 (List.isChain_cons_cons.1 hfront).1
    rw [List.cons_append, cutAt, if_neg hnot, hrest]
    rfl

theorem markless_of_cutAt {text front back : List Char}
    (hcut : cutAt archiveMark text = some (front, back)) : Markless front := by
  induction text generalizing front with
  | nil => simp [cutAt, archiveMark] at hcut
  | cons a rest ih =>
    unfold cutAt at hcut
    split at hcut
    · obtain ⟨rfl, _⟩ := Prod.mk.inj (Option.some.inj hcut)
      exact .nil
    · rename_i hnot
      obtain ⟨cut, hrest, hsame⟩ := Option.map_eq_some_iff.1 hcut
      obtain ⟨front, tail⟩ := cut
      obtain ⟨rfl, rfl⟩ := Prod.mk.inj hsame
      have hfront := ih hrest
      have htext := eq_of_cutAt hrest
      cases front with
      | nil => exact .singleton a
      | cons b front =>
        refine List.isChain_cons_cons.2 ⟨?_, hfront⟩
        intro hmark
        apply hnot
        rw [htext]
        exact mark_isPrefixOf_iff.2 hmark

theorem Markless.left {front back : List Char} (h : Markless (front ++ back)) : Markless front :=
  (List.isChain_append.1 h).1

/-- A `!` at the end is no mark yet. -/
theorem Markless.bang {front : List Char} (h : Markless front) : Markless (front ++ ['!']) := by
  refine List.isChain_append.2 ⟨h, .singleton '!', ?_⟩
  intro a _ b hb hmark
  simp only [List.head?_cons, Option.mem_def, Option.some.injEq] at hb
  exact absurd (hb.trans hmark.2) (by decide)

/-- A text with a mark is cut in the same place when it goes on. -/
theorem cutAt_append {text front back : List Char}
    (hcut : cutAt archiveMark text = some (front, back)) (more : List Char) :
    cutAt archiveMark (text ++ more) = some (front, back ++ more) := by
  have htext := eq_of_cutAt hcut
  rw [htext]
  simp only [archiveMark, List.append_assoc, List.cons_append, List.nil_append]
  exact cutAt_of_markless (markless_of_cutAt hcut)

theorem markless_append_iff {front back : List Char} :
    Markless (front ++ '/' :: back) ↔
      Markless front ∧ front.getLast? ≠ some '!' ∧ Markless ('/' :: back) := by
  unfold Markless
  rw [List.isChain_append]
  constructor
  · intro h
    obtain ⟨hfront, hback, hborder⟩ := h
    refine ⟨hfront, ?_, hback⟩
    intro hlast
    exact hborder '!' hlast '/' rfl ⟨rfl, rfl⟩
  · intro h
    obtain ⟨hfront, hlast, hback⟩ := h
    refine ⟨hfront, hback, ?_⟩
    intro a ha b _ hmark
    obtain ⟨rfl, _⟩ := hmark
    exact hlast ha

/-- A mark behind the first one is in what stands behind the first one. -/
theorem not_markless_of_second {host inside before rest : List Char}
    (hsame : host ++ archiveMark ++ inside = before ++ archiveMark ++ rest)
    (hbehind : host.length < before.length) : ¬Markless inside := by
  have hsplit : (host ++ archiveMark) ++ inside = (before ++ ['!']) ++ '/' :: rest := by
    rw [hsame]
    simp [archiveMark]
  obtain ⟨between, hfront, hinside⟩ : ∃ between,
      before ++ ['!'] = (host ++ archiveMark) ++ between ∧ inside = between ++ '/' :: rest := by
    rcases List.append_eq_append_iff.1 hsplit with h | ⟨short, hshort, htail⟩
    · exact h
    · -- The slash of the second mark cannot stand before the end of the first mark.
      have hlength := congrArg List.length hshort
      simp only [List.length_append, archiveMark, List.length_cons, List.length_nil] at hlength
      have hnil : short = [] := List.length_eq_zero_iff.1 (by omega)
      rw [hnil, List.append_nil] at hshort
      rw [hnil, List.nil_append] at htail
      exact ⟨[], by rw [hshort, List.append_nil], htail.symm⟩
  intro hmarkless
  rw [hinside, markless_append_iff] at hmarkless
  apply hmarkless.2.1
  have hlast := congrArg List.getLast? hfront
  cases between with
  | nil => simp [archiveMark] at hlast
  | cons c between =>
    rw [List.getLast?_append_of_ne_nil _ (by simp), List.getLast?_append_of_ne_nil _ (by simp)]
      at hlast
    exact hlast.symm

/-! ## Segments -/

/-- Segments that are not empty and have no slash in them. -/
def Segments (segments : List (List Char)) : Prop :=
  ∀ segment ∈ segments, segment ≠ [] ∧ '/' ∉ segment

theorem segments_append {first second : List (List Char)} :
    Segments (first ++ second) ↔ Segments first ∧ Segments second :=
  List.forall_mem_append

/-- No segment but the last one ends with the character that begins a mark. -/
def Quiet (segments : List (List Char)) : Prop :=
  segments.IsChain fun segment _ => segment.getLast? ≠ some '!'

/-- Segments, each behind a slash. -/
def joined (segments : List (List Char)) : List Char :=
  segments.flatMap ('/' :: ·)

/-- The path of the segments. -/
def spell (segments : List (List Char)) : List Char :=
  if segments = [] then ['/'] else joined segments

theorem spell_of_ne_nil {segments : List (List Char)} (hne : segments ≠ []) :
    spell segments = joined segments :=
  if_neg hne

theorem exists_spell_eq_cons (segments : List (List Char)) :
    ∃ back, spell segments = '/' :: back := by
  cases segments with
  | nil => exact ⟨[], rfl⟩
  | cons first rest => exact ⟨first ++ joined rest, rfl⟩

theorem joined_append_singleton (segments : List (List Char)) (last : List Char) :
    joined (segments ++ [last]) = joined segments ++ '/' :: last := by
  simp [joined]

theorem quiet_of_markless_intercalate {segments : List (List Char)}
    (hmarkless : Markless (['/'].intercalate segments)) : Quiet segments := by
  induction segments with
  | nil => exact .nil
  | cons first rest ih =>
    cases rest with
    | nil => exact .singleton first
    | cons second rest =>
      have hsplit : ['/'].intercalate (first :: second :: rest) =
          first ++ '/' :: ['/'].intercalate (second :: rest) := by
        simp [List.intercalate]
      rw [hsplit, markless_append_iff] at hmarkless
      obtain ⟨_, hlast, hback⟩ := hmarkless
      exact List.isChain_cons_cons.2 ⟨hlast, ih (List.IsChain.tail hback)⟩

theorem quiet_splitOn {text : List Char} (hmarkless : Markless text) :
    Quiet (text.splitOn '/') := by
  apply quiet_of_markless_intercalate
  rw [List.intercalate_splitOn]
  exact hmarkless

theorem Quiet.filter {segments : List (List Char)} (hquiet : Quiet segments)
    (keep : List Char → Bool) : Quiet (segments.filter keep) := by
  -- Whether two segments may follow one another only depends on the first one.
  have : IsTrans (List Char) fun segment _ => segment.getLast? ≠ some '!' :=
    ⟨fun _ _ _ hab _ => hab⟩
  exact List.IsChain.sublist hquiet List.filter_sublist

theorem markless_segment {segment : List Char} (hslash : '/' ∉ segment) :
    Markless ('/' :: segment) := by
  induction segment with
  | nil => exact .singleton '/'
  | cons a rest ih =>
    have ha : a ≠ '/' := fun h => hslash (h ▸ List.mem_cons_self)
    refine List.isChain_cons_cons.2 ⟨by simp, ?_⟩
    have hrest := ih (fun h => hslash (List.mem_cons_of_mem _ h))
    cases rest with
    | nil => exact .singleton a
    | cons b rest =>
      have hb : b ≠ '/' := fun h => hslash (h ▸ List.mem_cons_of_mem _ List.mem_cons_self)
      exact List.isChain_cons_cons.2 ⟨fun hmark => hb hmark.2, List.IsChain.tail hrest⟩

theorem markless_joined {segments : List (List Char)} (hsegments : Segments segments)
    (hquiet : Quiet segments) : Markless (joined segments) := by
  induction segments with
  | nil => exact .nil
  | cons first rest ih =>
    obtain ⟨hne, hslash⟩ := hsegments first List.mem_cons_self
    cases rest with
    | nil => simpa [joined] using markless_segment hslash
    | cons second rest =>
      obtain ⟨hlast, hquiet⟩ := List.isChain_cons_cons.1 hquiet
      have hrest := ih (fun segment hmem => hsegments segment (List.mem_cons_of_mem _ hmem)) hquiet
      have hsplit : joined (first :: second :: rest) =
          ('/' :: first) ++ '/' :: (second ++ joined rest) := by
        simp [joined]
      rw [hsplit, markless_append_iff]
      refine ⟨markless_segment hslash, ?_, ?_⟩
      · rw [List.getLast?_cons_of_ne_nil hne]
        exact hlast
      · simpa [joined] using hrest

theorem markless_spell {segments : List (List Char)} (hsegments : Segments segments)
    (hquiet : Quiet segments) : Markless (spell segments) := by
  unfold spell
  split
  · exact .singleton '/'
  · exact markless_joined hsegments hquiet

theorem not_mem_of_mem_splitOn {text segment : List Char} (hmem : segment ∈ text.splitOn '/') :
    '/' ∉ segment := by
  induction text generalizing segment with
  | nil =>
    rw [List.splitOn_nil, List.mem_singleton] at hmem
    simp [hmem]
  | cons a rest ih =>
    rw [List.splitOn_cons_eq_if_modifyHead] at hmem
    split at hmem
    · rcases List.mem_cons.1 hmem with rfl | hmem
      · simp
      · exact ih hmem
    · rename_i ha
      cases hrest : rest.splitOn '/' with
      | nil => exact absurd hrest (List.splitOn_ne_nil '/' rest)
      | cons first others =>
        rw [hrest, List.modifyHead_cons] at hmem
        rcases List.mem_cons.1 hmem with rfl | hmem
        · intro hslash
          rcases List.mem_cons.1 hslash with rfl | hslash
          · simp at ha
          · exact ih (hrest ▸ List.mem_cons_self) hslash
        · exact ih (hrest ▸ List.mem_cons_of_mem _ hmem)

/-! ## Paths -/

/-- The paths that texts denote: a part without a mark, or two parts with a `!` between them, the
first of which has no mark. -/
inductive Shape (path : List Char) : Prop
  | plain (segments : List (List Char)) (hsegments : Segments segments)
    (hmarkless : Markless (spell segments)) (hpath : path = spell segments)
  | entry (host segments : List (List Char)) (hhost : Segments host)
    (hmarkless : Markless (spell host)) (hsegments : Segments segments)
    (hpath : path = spell host ++ '!' :: spell segments)

namespace Url

theorem segments_of_tidy {text path : List Char} (htidy : tidy text = some path) :
    ∃ segments, Segments segments ∧ path = spell segments ∧
      (Markless text → Markless (spell segments)) := by
  unfold tidy at htidy
  simp only at htidy
  split at htidy
  · cases htidy
  have hsegments : Segments
      ((text.splitOn '/').filter fun segment => segment ≠ [] ∧ segment ≠ ['.']) := by
    intro segment hmem
    obtain ⟨hmem, hkept⟩ := List.mem_filter.1 hmem
    exact ⟨(of_decide_eq_true hkept).1, not_mem_of_mem_splitOn hmem⟩
  refine ⟨_, hsegments, ?_, ?_⟩
  · rw [← apply_ite some] at htidy
    exact (Option.some.inj htidy).symm
  · intro hmarkless
    exact markless_spell hsegments ((quiet_splitOn hmarkless).filter _)

theorem shape_of_normalize {text path : List Char} (hnormal : normalize text = some path) :
    Shape path := by
  unfold normalize at hnormal
  split at hnormal
  · split at hnormal
    · -- No mark: one part, which is tidied as a whole.
      rename_i hcut
      obtain ⟨segments, hsegments, rfl, hmarkless⟩ := segments_of_tidy hnormal
      exact .plain segments hsegments (hmarkless (cutAt_eq_none_iff.1 hcut)) rfl
    · rename_i outer inner hcut
      split at hnormal
      · rename_i outer' inner' houter hinner
        obtain ⟨host, hhost, rfl, hmarkless⟩ := segments_of_tidy houter
        obtain ⟨segments, hsegments, rfl, _⟩ := segments_of_tidy hinner
        split at hnormal
        · cases hnormal
        · cases hnormal
          exact .entry host segments hhost (hmarkless (markless_of_cutAt hcut)) hsegments rfl
      · cases hnormal
  · cases hnormal

/-- What a text denotes has one of the two shapes, and an archive url has a mark. -/
theorem shape_of_parse {raw : String} {url : Url} (hparse : parse raw = .ok url) :
    Shape url.path ∧ (url.scheme = .jar → ¬Markless url.path) := by
  have hplace : ∀ {scheme : Option Scheme} {text : List Char}, place raw scheme text = .ok url →
      Shape url.path ∧ (url.scheme = .jar → ¬Markless url.path) := by
    intro scheme text hplace
    unfold place at hplace
    split at hplace
    · cases hplace
    · rename_i path hnormal
      have hshape := shape_of_normalize hnormal
      have hmark : (cutAt archiveMark path).isSome = true → ¬Markless path := by
        intro hsome hmarkless
        rw [cutAt_eq_none_iff.2 hmarkless] at hsome
        cases hsome
      simp only at hplace
      split at hplace
      · split at hplace
        · rename_i hsome
          cases hplace
          exact ⟨hshape, fun _ => hmark hsome⟩
        · cases hplace
      · cases hplace
        refine ⟨hshape, ?_⟩
        intro hjar
        cases hjar
      · split at hplace
        · rename_i hsome
          cases hplace
          exact ⟨hshape, fun _ => hmark hsome⟩
        · cases hplace
          refine ⟨hshape, ?_⟩
          intro hjar
          cases hjar
  unfold parse at hparse
  split at hparse
  · exact hplace hparse
  · split at hparse
    · exact hplace hparse
    · cases hparse

end Url

end ProjectRoots
