import ProjectRoots.Proofs.Url.Straying
import ProjectRoots.Proofs.Watch.Chronicle

/- What a relocated directory takes along. What is below the directory is found by its names, one
   child after another, and is meant to be found by the same names below the new path.

     1. `descend_eq_ok_iff` — the path of what is found: the directory's path, a slash unless it
        ends with one, and the names with slashes between them.
     2. `blemished_of_strays`, `normal_or_blemished` — on the way down a url stays in normal form
        until a name makes a mark behind a segment that is none, and then it is spoilt for good.
     3. `apply_append` — a relocation puts the new path in the place of the old one, and keeps what
        stands behind it.
     4. `apply_descended` — so a path is carried along to where its names lead from the new path if
        both paths end with a slash or neither does. -/
namespace ProjectRoots

namespace Url

/-! ## The way down -/

/-- The url that the names lead to, one directory further down with each of them. -/
def descend (url : Url) (names : List (List Char)) : Except PathFault Url :=
  names.foldlM child url

theorem gap_eq_iff {url other : Url} : url.gap = other.gap ↔
    (url.path.getLast? = some '/' ↔ other.path.getLast? = some '/') := by
  unfold gap
  split <;> split <;> simp [*]

theorem gap_of_segment {scheme : Scheme} {front name : List Char} (hname : Nameable name) :
    gap ⟨scheme, front ++ name⟩ = ['/'] := by
  have hlast : (front ++ name).getLast? ≠ some '/' := by
    rw [List.getLast?_append_of_ne_nil _ hname.ne_nil]
    intro hslash
    exact hname.slashless (List.mem_of_getLast? hslash)
  exact if_neg hlast

theorem descend_cons {url lower : Url} {name : List Char} {names : List (List Char)} :
    url.descend (name :: names) = .ok lower ↔
      ∃ next, url.child name = .ok next ∧ next.descend names = .ok lower := by
  unfold descend
  rw [List.foldlM_cons]
  cases url.child name <;> simp [bind, Except.bind]

/-- Names lead to something if all of them can be names, and it has them in its path. -/
theorem descend_eq_ok_iff {url lower : Url} {names : List (List Char)} (hsome : names ≠ []) :
    url.descend names = .ok lower ↔ Names names ∧
      lower = ⟨url.scheme, url.path ++ url.gap ++ ['/'].intercalate names⟩ := by
  induction names generalizing url with
  | nil => exact absurd rfl hsome
  | cons name rest ih =>
    have hboth : Names (name :: rest) ↔ Nameable name ∧ Names rest := List.forall_mem_cons
    rw [descend_cons, hboth]
    simp only [child_eq_ok_iff_gap]
    cases rest with
    | nil =>
      have hnone : Names [] := List.forall_mem_nil _
      simp [descend, pure, Except.pure, hnone, List.intercalate, eq_comm]
    | cons second rest =>
      -- Behind the first name there is a slash in any case.
      have hpath : Nameable name → url.path ++ url.gap ++ name ++
          gap ⟨url.scheme, url.path ++ url.gap ++ name⟩ ++ ['/'].intercalate (second :: rest) =
            url.path ++ url.gap ++ ['/'].intercalate (name :: second :: rest) := by
        intro hname
        rw [gap_of_segment hname]
        simp [List.intercalate]
      constructor
      · intro h
        obtain ⟨next, ⟨hname, rfl⟩, hlower⟩ := h
        obtain ⟨hrest, rfl⟩ := (ih (by simp)).1 hlower
        exact ⟨⟨hname, hrest⟩, by rw [hpath hname]⟩
      · intro h
        obtain ⟨⟨hname, hrest⟩, rfl⟩ := h
        exact ⟨_, ⟨hname, rfl⟩, (ih (by simp)).2 ⟨hrest, by rw [hpath hname]⟩⟩

/-! ## Marks on the way down -/

theorem blemished_of_strays {url next : Url} {name : List Char}
    (hstrays : (Turn.child name).Strays url) (hchild : url.child name = .ok next) :
    Blemished next.path := by
  obtain ⟨hmarkless, front, host, hpath, hslash, hbad⟩ := hstrays
  obtain ⟨_, rfl⟩ := child_eq_ok_iff_gap.1 hchild
  have hgap : url.gap = ['/'] := by
    unfold gap
    rw [hpath, getLast?_append_segment (by simp)]
    simp
  have hfront : Markless (front ++ '/' :: host) := by
    rw [hpath, ← List.cons_append, ← List.append_assoc] at hmarkless
    exact hmarkless.left
  refine ⟨front, host, name, ?_, hslash, hbad⟩
  have hnext : url.path ++ url.gap ++ name = (front ++ '/' :: host) ++ '!' :: '/' :: name := by
    rw [hpath, hgap]
    simp
  rw [hnext]
  exact cutAt_of_markless hfront

/-- One name further down a url is in normal form if it was and does not stray, and is spoilt
otherwise. -/
theorem normal_or_blemished_child {url next : Url} {name : List Char}
    (hurl : url.Normal ∨ Blemished url.path) (hchild : url.child name = .ok next) :
    next.Normal ∨ Blemished next.path := by
  rcases hurl with hnormal | hspoilt
  · by_cases hstrays : (Turn.child name).Strays url
    · exact Or.inr (blemished_of_strays hstrays hchild)
    · exact Or.inl ((normal_child hnormal hchild).2 hstrays)
  · obtain ⟨_, rfl⟩ := child_eq_ok_iff_gap.1 hchild
    rw [List.append_assoc]
    exact Or.inr (hspoilt.append _)

theorem normal_or_blemished {url lower : Url} {names : List (List Char)}
    (hurl : url.Normal ∨ Blemished url.path) (hlower : url.descend names = .ok lower) :
    lower.Normal ∨ Blemished lower.path := by
  induction names generalizing url with
  | nil =>
    obtain rfl : url = lower := Except.ok.inj hlower
    exact hurl
  | cons name rest ih =>
    obtain ⟨next, hchild, hrest⟩ := descend_cons.1 hlower
    exact ih (normal_or_blemished_child hurl hchild) hrest

/-- What names lead to from a url that a text denotes is in normal form, unless its first mark
stands behind a segment that is no name. -/
theorem normalize_descend_iff {raw : String} {url lower : Url} {names : List (List Char)}
    (hparse : parse raw = .ok url) (hlower : url.descend names = .ok lower) :
    normalize lower.path = some lower.path ↔ ¬Blemished lower.path := by
  constructor
  · intro hself hspoilt
    exact not_neat_of_blemished hspoilt (neat_of_normalize hself)
  · intro hclean
    have hnormal : lower.Normal :=
      (normal_or_blemished (Or.inl (normal_of_parse hparse)) hlower).resolve_right hclean
    exact normalize_of_neat hnormal.neat

/-- What is called `!` is no archive's file. -/
example : descend ⟨.file, "/!".toList⟩ ["m".toList] = .ok ⟨.file, "/!/m".toList⟩ ∧
    normalize "/!/m".toList = none :=
  ⟨by rfl, by decide⟩

end Url

/-! ## Relocations -/

/-- What stands behind the old path stands behind the new one afterwards. -/
theorem Relocation.apply_append {relocation : Relocation} {rest : List Char}
    (hdirectory : relocation.isDirectory = true) (hsome : rest ≠ [])
    (hborder : relocation.old.getLast? = some '/' ∨ rest.head? = some '/') :
    relocation.apply (relocation.old ++ rest) = some (relocation.new ++ rest) := by
  have hbelow : isStrictAncestor relocation.old (relocation.old ++ rest) = true :=
    isStrictAncestor_iff.2 ⟨rest, hsome, rfl, hborder⟩
  unfold apply
  rw [if_neg (by simp [hsome]), if_pos ⟨hdirectory, hbelow⟩, List.drop_left]

/-- Below the old path, the path that names lead to becomes the one that they lead to from the new
path if both paths end with a slash or neither does. -/
theorem Relocation.apply_below {relocation : Relocation} {source target lower carried : Url}
    {names : List (List Char)} (hold : relocation.old = source.path)
    (hnew : relocation.new = target.path) (hdirectory : relocation.isDirectory = true)
    (hsome : names ≠ []) (hlower : source.descend names = .ok lower)
    (hcarried : target.descend names = .ok carried) :
    ∃ text, relocation.apply lower.path = some text ∧ (text = carried.path ↔
      (source.path.getLast? = some '/' ↔ target.path.getLast? = some '/')) := by
  obtain ⟨hnames, rfl⟩ := (Url.descend_eq_ok_iff hsome).1 hlower
  obtain ⟨_, rfl⟩ := (Url.descend_eq_ok_iff hsome).1 hcarried
  have hbehind : source.gap ++ ['/'].intercalate names ≠ [] := by
    obtain ⟨first, rest, rfl⟩ := List.exists_cons_of_ne_nil hsome
    have hfirst : first ≠ [] := (hnames first List.mem_cons_self).ne_nil
    cases rest <;> simp [List.intercalate, hfirst]
  have hborder : relocation.old.getLast? = some '/' ∨
      (source.gap ++ ['/'].intercalate names).head? = some '/' := by
    rw [hold]
    unfold Url.gap
    split
    · exact Or.inl ‹_›
    · exact Or.inr rfl
  have happly := apply_append hdirectory hbehind hborder
  rw [hold, hnew] at happly
  refine ⟨_, by rwa [List.append_assoc], ?_⟩
  calc target.path ++ (source.gap ++ ['/'].intercalate names) =
        target.path ++ target.gap ++ ['/'].intercalate names
      ↔ source.gap = target.gap := by
        rw [List.append_assoc, List.append_cancel_left_eq, List.append_cancel_right_eq]
    _ ↔ (source.path.getLast? = some '/' ↔ target.path.getLast? = some '/') := Url.gap_eq_iff

/-- A directory that is moved or renamed takes along what is below it. If both of its paths end with
a slash or neither does, and only then, what names lead to from the old path is afterwards what they
lead to from the new one: the slash in front of the names is kept as it was. The path that they lead
to is in normal form, unless its first mark has no name in front of it. -/
theorem apply_descended {old new : String} {source target : Url} {event : Event}
    (hold : Url.parse old = .ok source) (hnew : Url.parse new = .ok target)
    (hne : source.path ≠ target.path)
    (hevent : event = .move old new ∨ event = .rename old new true) :
    ∃ relocation : Relocation,
      (∀ watcher : Watcher, (watcher.record [event]).journal.entries =
        watcher.journal.entries ++ [relocation]) ∧
      ∀ names, names ≠ [] → Names names → ∃ lower carried text,
        source.descend names = .ok lower ∧ target.descend names = .ok carried ∧
        relocation.apply lower.path = some text ∧
        (text = carried.path ↔
          (source.path.getLast? = some '/' ↔ target.path.getLast? = some '/')) ∧
        (Url.normalize carried.path = some carried.path ↔ ¬Url.Blemished carried.path) := by
  obtain ⟨relocation, hworth, hsource, htarget, hdirectory⟩ : ∃ relocation : Relocation,
      event.Relocates relocation ∧ relocation.old = source.path ∧ relocation.new = target.path ∧
        relocation.isDirectory = true := by
    rcases hevent with rfl | rfl
    · exact ⟨_, .move hold hnew hne, rfl, rfl, rfl⟩
    · exact ⟨_, .rename hold hnew hne, rfl, rfl, rfl⟩
  refine ⟨relocation, ?_, ?_⟩
  · intro watcher
    rw [Watcher.entries_record, recorded_of_relocates hworth]
  · intro names hsome hnames
    have hlower : source.descend names = .ok _ := (Url.descend_eq_ok_iff hsome).2 ⟨hnames, rfl⟩
    have hcarried : target.descend names = .ok _ := (Url.descend_eq_ok_iff hsome).2 ⟨hnames, rfl⟩
    obtain ⟨text, happly, hsame⟩ :=
      Relocation.apply_below hsource htarget hdirectory hsome hlower hcarried
    exact ⟨_, _, text, hlower, hcarried, happly, hsame, Url.normalize_descend_iff hnew hcarried⟩

/-- A packed project is unpacked into the root directory. -/
theorem apply_descended_unpacked :
    (Url.parse "/a/x.jar!/" = .ok ⟨.jar, "/a/x.jar!/".toList⟩ ∧
        Url.parse "/" = .ok ⟨.file, "/".toList⟩ ∧ Names ["m".toList, "m.iml".toList]) ∧
      ∃ relocation : Relocation,
        (∀ watcher : Watcher, (watcher.record [.rename "/a/x.jar!/" "/" true]).journal.entries =
          watcher.journal.entries ++ [relocation]) ∧
        relocation.apply "/a/x.jar!/m/m.iml".toList = some "/m/m.iml".toList := by
  have hold : Url.parse "/a/x.jar!/" = .ok ⟨.jar, "/a/x.jar!/".toList⟩ := by rfl
  have hnew : Url.parse "/" = .ok ⟨.file, "/".toList⟩ := by rfl
  obtain ⟨relocation, hnoted, hbelow⟩ := apply_descended hold hnew (by decide) (Or.inr rfl)
  have hnames : Names ["m".toList, "m.iml".toList] := by
    unfold Names
    decide
  obtain ⟨lower, carried, text, hlower, hcarried, happly, hsame, _⟩ :=
    hbelow ["m".toList, "m.iml".toList] (by simp) hnames
  obtain rfl : lower = ⟨.jar, "/a/x.jar!/m/m.iml".toList⟩ := (Except.ok.inj hlower).symm
  obtain rfl : carried = ⟨.file, "/m/m.iml".toList⟩ := (Except.ok.inj hcarried).symm
  rw [hsame.2 (by decide)] at happly
  exact ⟨⟨hold, hnew, hnames⟩, relocation, hnoted, happly⟩

/-- Unpacked into another directory the project loses the slash behind this directory, and packed
again it gets one too many. -/
theorem not_apply_descended :
    let unpacked : Relocation := ⟨"/a/x.jar!/".toList, "/b".toList, .rename, true⟩
    let packed : Relocation := ⟨"/b".toList, "/a/x.jar!/".toList, .rename, true⟩
    recorded [.rename "/a/x.jar!/" "/b" true, .rename "/b" "/a/x.jar!/" true] = [unpacked, packed] ∧
      Url.descend ⟨.jar, "/a/x.jar!/".toList⟩ ["m".toList] = .ok ⟨.jar, "/a/x.jar!/m".toList⟩ ∧
      Url.descend ⟨.file, "/b".toList⟩ ["m".toList] = .ok ⟨.file, "/b/m".toList⟩ ∧
      unpacked.apply "/a/x.jar!/m".toList = some "/bm".toList ∧
      packed.apply "/b/m".toList = some "/a/x.jar!//m".toList := by
  refine ⟨by rfl, by rfl, by rfl, by decide, by decide⟩

end ProjectRoots
