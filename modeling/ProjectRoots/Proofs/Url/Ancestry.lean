import ProjectRoots.Proofs.Url.Shape

/- The ancestors of a path and the first step of the chain of containers of a url.

     1. `isStrictAncestor_append` — the proper ancestors of a path are what is left of it when its
        last segment is cut off, with or without the slash, and the ancestors of that.
     2. `Shape.slash` — of the paths that texts denote only the root directory and the roots of
        archives end with a slash, so mostly what is left has none.
     3. `container_of_segment`, `container_of_root` — the step outwards, by what the path ends with.
     4. `mem_containers_file` — the chain of a file goes through all files above it. -/
namespace ProjectRoots

theorem isStrictAncestor_iff {ancestor path : List Char} :
    isStrictAncestor ancestor path = true ↔ ∃ rest, rest ≠ [] ∧ path = ancestor ++ rest ∧
      (ancestor.getLast? = some '/' ∨ rest.head? = some '/') := by
  unfold isStrictAncestor
  simp only [Bool.and_eq_true, Bool.or_eq_true, decide_eq_true_eq, beq_iff_eq,
    List.isPrefixOf_iff_prefix]
  constructor
  · intro h
    obtain ⟨⟨hlt, rest, rfl⟩, hborder⟩ := h
    rw [List.drop_left] at hborder
    refine ⟨rest, ?_, rfl, hborder⟩
    intro hnil
    simp [hnil] at hlt
  · intro h
    obtain ⟨rest, hne, rfl, hborder⟩ := h
    rw [List.drop_left]
    have hlen := List.length_pos_iff.2 hne
    refine ⟨⟨?_, List.prefix_append _ _⟩, hborder⟩
    rw [List.length_append]
    omega

theorem isStrictAncestor_length_lt {ancestor path : List Char}
    (h : isStrictAncestor ancestor path = true) : ancestor.length < path.length := by
  obtain ⟨rest, hne, rfl, _⟩ := isStrictAncestor_iff.1 h
  have hlen := List.length_pos_iff.2 hne
  rw [List.length_append]
  omega

theorem isStrictAncestor_of_append {ancestor path : List Char}
    (h : isStrictAncestor ancestor path = true) (more : List Char) :
    isStrictAncestor ancestor (path ++ more) = true := by
  obtain ⟨rest, hne, rfl, hborder⟩ := isStrictAncestor_iff.1 h
  refine isStrictAncestor_iff.2 ⟨rest ++ more, ?_, by rw [List.append_assoc], ?_⟩
  · intro hnil
    exact hne (List.append_eq_nil_iff.1 hnil).1
  · rwa [List.head?_append_of_ne_nil rest hne]

/-- The ancestors of a path, seen from its last slash. -/
theorem isStrictAncestor_append {ancestor front last : List Char} (hne : last ≠ [])
    (hslash : '/' ∉ last) :
    isStrictAncestor ancestor (front ++ '/' :: last) = true ↔
      ancestor = front ∨ ancestor = front ++ ['/'] ∨ isStrictAncestor ancestor front = true := by
  constructor
  · intro h
    obtain ⟨rest, hrest, hpath, hborder⟩ := isStrictAncestor_iff.1 h
    rcases List.append_eq_append_iff.1 hpath with ⟨more, hancestor, hlast⟩ | ⟨more, hfront, hmore⟩
    · -- The ancestor reaches into the last segment, so it ends with the slash before it.
      cases more with
      | nil =>
        rw [List.append_nil] at hancestor
        exact Or.inl hancestor
      | cons c more =>
        obtain ⟨rfl, hrestOf⟩ := List.cons.inj hlast
        have htail : last = more ++ rest := hrestOf
        have hend : more = [] := by
          by_contra hmore
          rcases hborder with hborder | hborder
          · rw [hancestor, List.getLast?_append_of_ne_nil _ (by simp),
              List.getLast?_cons_of_ne_nil hmore] at hborder
            apply hslash
            rw [htail]
            exact List.mem_append_left _ (List.mem_of_getLast? hborder)
          · apply hslash
            rw [htail]
            exact List.mem_append_right _ (List.mem_of_head? hborder)
        rw [hancestor, hend]
        exact Or.inr (Or.inl rfl)
    · by_cases hnil : more = []
      · rw [hnil, List.append_nil] at hfront
        exact Or.inl hfront.symm
      · refine Or.inr (Or.inr (isStrictAncestor_iff.2 ⟨more, hnil, hfront, ?_⟩))
        rw [hmore, List.head?_append_of_ne_nil more hnil] at hborder
        exact hborder
  · intro h
    rcases h with rfl | rfl | h
    · exact isStrictAncestor_iff.2 ⟨'/' :: last, by simp, rfl, Or.inr rfl⟩
    · refine isStrictAncestor_iff.2 ⟨last, hne, by simp, Or.inl (by simp)⟩
    · exact isStrictAncestor_of_append h _

theorem not_isStrictAncestor_nil {ancestor : List Char} : isStrictAncestor ancestor [] = false := by
  simp [isStrictAncestor]

/-! ## Shapes -/

theorem cutAtLast_append {front last : List Char} (hslash : '/' ∉ last) :
    cutAtLast '/' (front ++ '/' :: last) = some (front, last) := by
  have hnone : cutAtLast '/' last = none := by
    cases hcut : cutAtLast '/' last with
    | none => rfl
    | some cut =>
      exfalso
      apply hslash
      rw [eq_of_cutAtLast hcut]
      simp
  induction front with
  | nil => simp [cutAtLast, hnone]
  | cons a rest ih => rw [List.cons_append, cutAtLast, ih]

theorem getLast?_append_segment {front last : List Char} (hne : last ≠ []) :
    (front ++ '/' :: last).getLast? = last.getLast? := by
  rw [List.getLast?_append_of_ne_nil _ (by simp), List.getLast?_cons_of_ne_nil hne]

theorem getLast?_append_segment_ne {front last : List Char} (hne : last ≠ [])
    (hslash : '/' ∉ last) : (front ++ '/' :: last).getLast? ≠ some '/' := by
  rw [getLast?_append_segment hne]
  intro hlast
  exact hslash (List.mem_of_getLast? hlast)

theorem joined_ne_nil {segments : List (List Char)} (hne : segments ≠ []) :
    joined segments ≠ [] := by
  cases segments with
  | nil => exact absurd rfl hne
  | cons first rest => simp [joined]

theorem getLast?_joined_ne {segments : List (List Char)} (hsegments : Segments segments) :
    (joined segments).getLast? ≠ some '/' := by
  rcases List.eq_nil_or_concat' segments with rfl | ⟨init, last, rfl⟩
  · simp [joined]
  · obtain ⟨hne, hslash⟩ := hsegments last (by simp)
    rw [joined_append_singleton]
    exact getLast?_append_segment_ne hne hslash

/-- A path that a text denotes ends with a slash only if it is the root directory or the root of an
archive. -/
theorem Shape.slash {path : List Char} (hshape : Shape path) :
    path ≠ [] ∧ (path.getLast? = some '/' → path = ['/'] ∨ archiveMark <:+ path) := by
  cases hshape with
  | plain segments hsegments hmarkless hpath =>
    rw [hpath]
    by_cases hnil : segments = []
    · rw [hnil]
      exact ⟨by simp [spell], fun _ => Or.inl (by simp [spell])⟩
    · rw [spell_of_ne_nil hnil]
      exact ⟨joined_ne_nil hnil, fun hlast => absurd hlast (getLast?_joined_ne hsegments)⟩
  | entry host segments hhost hmarkless hsegments hpath =>
    rw [hpath]
    refine ⟨by simp, fun hlast => Or.inr ?_⟩
    by_cases hnil : segments = []
    · exact ⟨spell host, by simp [hnil, spell, archiveMark]⟩
    · rw [spell_of_ne_nil hnil, List.getLast?_append_of_ne_nil _ (by simp),
        List.getLast?_cons_of_ne_nil (joined_ne_nil hnil)] at hlast
      exact absurd hlast (getLast?_joined_ne hsegments)

theorem Shape.ne_append_slash {path front : List Char} (hshape : Shape path) (hne : front ≠ [])
    (hquiet : front.getLast? ≠ some '!') : path ≠ front ++ ['/'] := by
  intro hpath
  rcases hshape.slash.2 (by simp [hpath]) with hroot | ⟨before, hmark⟩
  · rw [hpath] at hroot
    simp [hne] at hroot
  · apply hquiet
    have hfront : before ++ ['!'] = front := by
      have hsame : before ++ ['!'] ++ ['/'] = front ++ ['/'] := by
        rw [← hpath, ← hmark]
        simp [archiveMark]
      exact List.append_cancel_right hsame
    rw [← hfront]
    simp

theorem Shape.not_isStrictAncestor_top {path : List Char} (hshape : Shape path) :
    isStrictAncestor path ['/'] = false := by
  rw [← Bool.not_eq_true]
  intro hbelow
  have hlt := isStrictAncestor_length_lt hbelow
  have hpos := List.length_pos_iff.2 hshape.slash.1
  simp only [List.length_singleton] at hlt
  omega

/-! ## Containers -/

namespace Url

/-- The directory of a url, seen from the last slash of its path. -/
theorem parent_append {scheme : Scheme} {front last : List Char} (hslash : '/' ∉ last)
    (hroot : isArchiveRoot ⟨scheme, front ++ '/' :: last⟩ = false)
    (htop : front ++ '/' :: last ≠ ['/']) :
    parent ⟨scheme, front ++ '/' :: last⟩ =
      if scheme = .jar ∧ front.getLast? = some '!' then some ⟨scheme, front ++ ['/']⟩
      else if front = [] then some ⟨scheme, ['/']⟩
      else some ⟨scheme, front⟩ := by
  simp [parent, hroot, htop, cutAtLast_append hslash]

theorem parent_of_segment {scheme : Scheme} {front last : List Char} (hne : last ≠ [])
    (hslash : '/' ∉ last) :
    parent ⟨scheme, front ++ '/' :: last⟩ =
      if scheme = .jar ∧ front.getLast? = some '!' then some ⟨scheme, front ++ ['/']⟩
      else if front = [] then some ⟨scheme, ['/']⟩
      else some ⟨scheme, front⟩ := by
  have hend := @getLast?_append_segment_ne front last hne hslash
  apply parent_append hslash
  · have hmark : archiveMark.isSuffixOf (front ++ '/' :: last) = false := by
      rw [← Bool.not_eq_true, List.isSuffixOf_iff_suffix]
      intro hsuffix
      obtain ⟨before, hbefore⟩ := hsuffix
      apply hend
      simp [← hbefore, archiveMark]
    simp [isArchiveRoot, hmark]
  · intro htop
    apply hend
    simp [htop]

/-- One step outwards from a url whose path ends with a segment. -/
theorem container_of_segment {scheme : Scheme} {front last : List Char} (hne : last ≠ [])
    (hslash : '/' ∉ last) :
    container ⟨scheme, front ++ '/' :: last⟩ =
      if scheme = .jar ∧ front.getLast? = some '!' then some ⟨scheme, front ++ ['/']⟩
      else if front = [] then some ⟨scheme, ['/']⟩
      else some ⟨scheme, front⟩ := by
  unfold container
  rw [parent_of_segment hne hslash]
  split_ifs <;> rfl

/-- One step outwards from the root of an archive. -/
theorem container_of_root {front host back : List Char}
    (hcut : cutAt archiveMark (front ++ archiveMark) = some (host, back)) :
    container ⟨.jar, front ++ archiveMark⟩ = some ⟨.file, host⟩ := by
  have hroot : isArchiveRoot ⟨.jar, front ++ archiveMark⟩ = true := by
    simp [isArchiveRoot]
  have hparent : parent ⟨.jar, front ++ archiveMark⟩ = none := by
    simp [parent, hroot]
  simp [container, hparent, hroot, archiveFile, hcut]

theorem container_of_top : container ⟨.file, ['/']⟩ = none := by
  simp [container, parent, isArchiveRoot]

/-! ## Files -/

theorem container_of_file {init : List (List Char)} {last : List Char} (hne : last ≠ [])
    (hslash : '/' ∉ last) :
    container ⟨.file, spell (init ++ [last])⟩ = some ⟨.file, spell init⟩ := by
  rw [spell_of_ne_nil (by simp), joined_append_singleton, container_of_segment hne hslash,
    if_neg (by simp)]
  by_cases hnil : init = []
  · simp [hnil, joined, spell]
  · rw [if_neg (joined_ne_nil hnil), spell_of_ne_nil hnil]

theorem isStrictAncestor_file {outer : List Char} (houter : Shape outer)
    {init : List (List Char)} {last : List Char} (hne : last ≠ []) (hslash : '/' ∉ last)
    (hmarkless : Markless (spell (init ++ [last]))) :
    isStrictAncestor outer (spell (init ++ [last])) = true ↔
      outer = spell init ∨ isStrictAncestor outer (spell init) = true := by
  rw [spell_of_ne_nil (by simp), joined_append_singleton] at hmarkless ⊢
  -- Without a mark in the path, what is left of it cannot end like the root of an archive.
  have hquiet := (markless_append_iff.1 hmarkless).2.1
  rw [isStrictAncestor_append hne hslash]
  by_cases hnil : init = []
  · simp [hnil, joined, spell, houter.not_isStrictAncestor_top, not_isStrictAncestor_nil,
      houter.slash.1]
  · rw [spell_of_ne_nil hnil]
    have hmiddle := houter.ne_append_slash (joined_ne_nil hnil) hquiet
    simp [hmiddle]

theorem Segments.init {init : List (List Char)} {last : List Char}
    (hsegments : Segments (init ++ [last])) :
    Segments init ∧ last ≠ [] ∧ '/' ∉ last :=
  ⟨fun segment hmem => hsegments segment (List.mem_append_left _ hmem),
    hsegments last (by simp)⟩

theorem Markless.init {init : List (List Char)} {last : List Char}
    (hmarkless : Markless (spell (init ++ [last]))) : Markless (spell init) := by
  by_cases hnil : init = []
  · rw [hnil]
    exact .singleton '/'
  · rw [spell_of_ne_nil (by simp), joined_append_singleton] at hmarkless
    rw [spell_of_ne_nil hnil]
    exact hmarkless.left

/-- The chain of a file goes through the files that it lies in. -/
theorem mem_containers_file {outer : Url} (houter : Shape outer.path)
    {segments : List (List Char)} (hsegments : Segments segments)
    (hmarkless : Markless (spell segments)) :
    outer ∈ containers ⟨.file, spell segments⟩ ↔
      outer.scheme = .file ∧ isStrictAncestor outer.path (spell segments) = true := by
  induction segments using List.reverseRecOn with
  | nil =>
    rw [show spell [] = ['/'] from rfl, containers_of_none container_of_top,
      houter.not_isStrictAncestor_top]
    simp
  | append_singleton init last ih =>
    obtain ⟨hinit, hne, hslash⟩ := Segments.init hsegments
    rw [containers_of_some (container_of_file hne hslash), List.mem_cons,
      ih hinit (Markless.init hmarkless), isStrictAncestor_file houter hne hslash hmarkless]
    obtain ⟨scheme, path⟩ := outer
    simp only [Url.mk.injEq]
    constructor
    · intro h
      rcases h with ⟨hscheme, hpath⟩ | ⟨hscheme, hbelow⟩
      · exact ⟨hscheme, Or.inl hpath⟩
      · exact ⟨hscheme, Or.inr hbelow⟩
    · intro h
      obtain ⟨hscheme, hpath | hbelow⟩ := h
      · exact Or.inl ⟨hscheme, hpath⟩
      · exact Or.inr ⟨hscheme, hbelow⟩

end Url

end ProjectRoots
