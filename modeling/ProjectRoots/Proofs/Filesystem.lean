import Mathlib.Data.Fintype.Basic
import ProjectRoots.Proofs.Url.Canonical
import ProjectRoots.Watch.Watcher

/- Relocations against the filesystem that they happened in. A filesystem is objects at places, a
   place being a list of segments, and a relocation takes an object and all that is below it to
   another place. The journal knows nothing of objects and places: it has only the paths, and it
   rewrites texts.

     1. `Filesystem.relocate` — what a valid relocation makes of a filesystem is one again.
     2. `isStrictAncestor_spell_iff` — a path is below another one in the text exactly if its place
        is below the other's.
     3. `Filesystem.carry_spell` — so a relocation rewrites the path of every object to its path
        afterwards.
     4. `resolve_of_runs` — and the journal knows where every object is after any number of them. -/
namespace ProjectRoots

/-- Objects at places. Every object but the root directory is in a directory, so only directories
have objects below them. -/
structure Filesystem (Object : Type*) where
  place : Object → List (List Char)
  isDirectory : Object → Bool
  named : ∀ object, Segments (place object)
  distinct : Function.Injective place
  closed : ∀ object, place object ≠ [] →
    ∃ directory, place directory = (place object).dropLast ∧ isDirectory directory = true

/-! ## Places and paths -/

instance : DecidablePred Segments := fun segments =>
  inferInstanceAs (Decidable (∀ segment ∈ segments, segment ≠ [] ∧ '/' ∉ segment))

theorem spell_append {first : List (List Char)} (hsome : first ≠ []) (second : List (List Char)) :
    spell (first ++ second) = spell first ++ joined second := by
  rw [spell_of_ne_nil hsome, spell_of_ne_nil (List.append_ne_nil_of_left_ne_nil hsome second)]
  exact List.flatMap_append

/-- Different places have different paths. -/
theorem spell_inj {first second : List (List Char)} (hfirst : Segments first)
    (hsecond : Segments second) (hsame : spell first = spell second) : first = second := by
  by_cases hnil : second = []
  · rw [hnil] at hsame ⊢
    exact (spell_eq_slash_iff hfirst).1 hsame
  · have hnil' : first ≠ [] := by
      rintro rfl
      exact hnil ((spell_eq_slash_iff hsecond).1 hsame.symm)
    rw [spell_of_ne_nil hnil, spell_of_ne_nil hnil'] at hsame
    have hsplit := splitOn_joined hfirst
    rw [hsame, splitOn_joined hsecond] at hsplit
    exact (List.cons.inj hsplit).2.symm

/-- A path is below another one exactly if its place is. -/
theorem isStrictAncestor_spell_iff {upper lower : List (List Char)} (hsome : upper ≠ [])
    (hupper : Segments upper) (hlower : Segments lower) :
    isStrictAncestor (spell upper) (spell lower) = true ↔
      ∃ rest, rest ≠ [] ∧ lower = upper ++ rest := by
  rw [isStrictAncestor_iff]
  constructor
  · intro h
    rw [spell_of_ne_nil hsome] at h
    obtain ⟨rest, hrest, hpath, hborder⟩ := h
    -- No segment is empty, so it is the text behind the path that begins with the slash.
    obtain ⟨more, rfl⟩ : ∃ more, rest = '/' :: more :=
      List.head?_eq_some_iff.1 (hborder.resolve_left (getLast?_joined_ne hupper))
    have hnil : lower ≠ [] := by
      rintro rfl
      have hlength := congrArg List.length hpath
      have hpos := List.length_pos_iff.2 (joined_ne_nil hsome)
      simp only [spell, if_true, List.length_append, List.length_cons, List.length_nil] at hlength
      omega
    have hsplit := splitOn_joined hlower
    rw [spell_of_ne_nil hnil] at hpath
    rw [hpath, List.splitOn_append_cons_self, splitOn_joined hupper, List.cons_append] at hsplit
    exact ⟨more.splitOn '/', List.splitOn_ne_nil '/' more, (List.cons.inj hsplit).2.symm⟩
  · intro h
    obtain ⟨rest, hrest, rfl⟩ := h
    obtain ⟨first, others, rfl⟩ := List.exists_cons_of_ne_nil hrest
    exact ⟨joined (first :: others), joined_ne_nil hrest, spell_append hsome _, Or.inr rfl⟩

namespace Filesystem

variable {Object : Type*} {fs : Filesystem Object}

/-! ## Relocations of objects -/

/-- Whether something can be relocated from `old` to `new`: there is something that is not the root
directory, and a directory to take it to that is not below it and has nothing of this name. -/
structure Valid (fs : Filesystem Object) (old new : List (List Char)) : Prop where
  occupied : ∃ object, fs.place object = old
  inner : old ≠ []
  free : ∀ object, fs.place object ≠ new
  outside : ¬old <+: new
  named : Segments new
  parent : ∃ directory, fs.place directory = new.dropLast ∧ fs.isDirectory directory = true

theorem valid_iff {old new : List (List Char)} :
    fs.Valid old new ↔ (∃ object, fs.place object = old) ∧ old ≠ [] ∧
      (∀ object, fs.place object ≠ new) ∧ ¬old <+: new ∧ Segments new ∧
      ∃ directory, fs.place directory = new.dropLast ∧ fs.isDirectory directory = true :=
  ⟨fun h => ⟨h.occupied, h.inner, h.free, h.outside, h.named, h.parent⟩,
    fun h => ⟨h.1, h.2.1, h.2.2.1, h.2.2.2.1, h.2.2.2.2.1, h.2.2.2.2.2⟩⟩

instance [Fintype Object] (old new : List (List Char)) : Decidable (fs.Valid old new) :=
  decidable_of_iff _ valid_iff.symm

/-- Where the place is after the relocation. -/
def moved (old new place : List (List Char)) : List (List Char) :=
  if old <+: place then new ++ place.drop old.length else place

theorem moved_append (old new rest : List (List Char)) :
    moved old new (old ++ rest) = new ++ rest := by
  rw [moved, if_pos (List.prefix_append old rest), List.drop_left]

theorem moved_of_apart {old new place : List (List Char)} (hplace : ¬old <+: place) :
    moved old new place = place :=
  if_neg hplace

/-- Above every object there is a directory at each place. -/
theorem exists_directory (object : Object) {upper rest : List (List Char)}
    (hplace : fs.place object = upper ++ rest) (hrest : rest ≠ []) :
    ∃ directory, fs.place directory = upper ∧ fs.isDirectory directory = true := by
  induction rest using List.reverseRecOn generalizing object with
  | nil => exact absurd rfl hrest
  | append_singleton init last ih =>
    obtain ⟨directory, hparent, hdirectory⟩ := fs.closed object (by simp [hplace])
    rw [hplace, ← List.append_assoc, List.dropLast_concat] at hparent
    by_cases hnil : init = []
    · rw [hnil, List.append_nil] at hparent
      exact ⟨directory, hparent, hdirectory⟩
    · exact ih directory hparent hnil

/-- An object with others below it is a directory. -/
theorem isDirectory_of_below {upper lower : Object} {rest : List (List Char)}
    (hplace : fs.place lower = fs.place upper ++ rest) (hrest : rest ≠ []) :
    fs.isDirectory upper = true := by
  obtain ⟨directory, hupper, hdirectory⟩ := exists_directory lower hplace hrest
  rwa [fs.distinct hupper] at hdirectory

namespace Valid

variable {old new : List (List Char)} (hvalid : fs.Valid old new)
include hvalid

/-- Nothing is at or below the new place. -/
theorem not_below (object : Object) : ¬new <+: fs.place object := by
  intro hbelow
  obtain ⟨rest, hrest⟩ := hbelow
  by_cases hnil : rest = []
  · rw [hnil, List.append_nil] at hrest
    exact hvalid.free object hrest.symm
  · obtain ⟨directory, hdirectory, _⟩ := exists_directory object hrest.symm hnil
    exact hvalid.free directory hdirectory

theorem old_named : Segments old := by
  obtain ⟨object, hplace⟩ := hvalid.occupied
  rw [← hplace]
  exact fs.named object

/-- The root directory is taken. -/
theorem ne_nil : new ≠ [] := by
  rintro rfl
  obtain ⟨object, _⟩ := hvalid.occupied
  exact hvalid.not_below object List.nil_prefix

theorem named_moved (object : Object) : Segments (moved old new (fs.place object)) := by
  have hplace := fs.named object
  by_cases hbelow : old <+: fs.place object
  · obtain ⟨rest, hrest⟩ := hbelow
    rw [← hrest] at hplace ⊢
    rw [moved_append]
    exact segments_append.2 ⟨hvalid.named, (segments_append.1 hplace).2⟩
  · rwa [moved_of_apart hbelow]

/-- No object is taken to the place of another one. -/
theorem moved_inj : Function.Injective fun object => moved old new (fs.place object) := by
  have hapart : ∀ {object other : Object}, old <+: fs.place object → ¬old <+: fs.place other →
      moved old new (fs.place object) ≠ moved old new (fs.place other) := by
    intro object other hobject hother hsame
    obtain ⟨rest, hrest⟩ := hobject
    rw [← hrest, moved_append, moved_of_apart hother] at hsame
    exact hvalid.not_below other ⟨rest, hsame⟩
  intro object other hsame
  by_cases hobject : old <+: fs.place object
  · by_cases hother : old <+: fs.place other
    · obtain ⟨rest, hrest⟩ := hobject
      obtain ⟨rest', hrest'⟩ := hother
      simp only [← hrest, ← hrest', moved_append, List.append_cancel_left_eq] at hsame
      exact fs.distinct (by rw [← hrest, ← hrest', hsame])
    · exact absurd hsame (hapart hobject hother)
  · by_cases hother : old <+: fs.place other
    · exact absurd hsame.symm (hapart hother hobject)
    · simp only [moved_of_apart hobject, moved_of_apart hother] at hsame
      exact fs.distinct hsame

theorem closed_moved (object : Object) (hplace : moved old new (fs.place object) ≠ []) :
    ∃ directory, moved old new (fs.place directory) =
      (moved old new (fs.place object)).dropLast ∧ fs.isDirectory directory = true := by
  by_cases hbelow : old <+: fs.place object
  · obtain ⟨rest, hrest⟩ := hbelow
    rcases List.eq_nil_or_concat' rest with rfl | ⟨init, last, rfl⟩
    · -- What the object was relocated to is not itself on the move.
      obtain ⟨directory, hparent, hdirectory⟩ := hvalid.parent
      refine ⟨directory, ?_, hdirectory⟩
      rw [← hrest, moved_append, List.append_nil, hparent]
      exact moved_of_apart fun hmove => hvalid.outside (hmove.trans (List.dropLast_prefix new))
    · have hsplit : fs.place object = (old ++ init) ++ [last] := by rw [← hrest, List.append_assoc]
      obtain ⟨directory, hparent, hdirectory⟩ := exists_directory object hsplit (by simp)
      refine ⟨directory, ?_, hdirectory⟩
      rw [hparent, ← hrest, moved_append, moved_append, ← List.append_assoc, List.dropLast_concat]
  · rw [moved_of_apart hbelow] at hplace ⊢
    obtain ⟨directory, hparent, hdirectory⟩ := fs.closed object hplace
    refine ⟨directory, ?_, hdirectory⟩
    rw [hparent]
    exact moved_of_apart fun hmove => hbelow (hmove.trans (List.dropLast_prefix _))

end Valid

/-- The filesystem after a valid relocation. -/
def relocate (fs : Filesystem Object) {old new : List (List Char)} (hvalid : fs.Valid old new) :
    Filesystem Object where
  place object := moved old new (fs.place object)
  isDirectory := fs.isDirectory
  named := hvalid.named_moved
  distinct := hvalid.moved_inj
  closed := hvalid.closed_moved

/-! ## Relocations of paths -/

/-- The relocation as it is recorded: by its paths, whatever its cause, and as one of a directory if
it is one. -/
structure Recorded (fs : Filesystem Object) (old new : List (List Char)) (relocation : Relocation) :
    Prop where
  old_eq : relocation.old = spell old
  new_eq : relocation.new = spell new
  directory : ∀ object, fs.place object = old → fs.isDirectory object = true →
    relocation.isDirectory = true

section
variable {old new : List (List Char)} {relocation : Relocation} (hvalid : fs.Valid old new)
  (hrecorded : fs.Recorded old new relocation)
include hvalid hrecorded

theorem carry_append {rest : List (List Char)} (hrest : Segments rest)
    (hdirectory : rest ≠ [] → relocation.isDirectory = true) :
    relocation.carry (spell (old ++ rest)) = spell (new ++ rest) := by
  unfold Relocation.carry Relocation.apply
  rw [hrecorded.old_eq, hrecorded.new_eq]
  by_cases hnil : rest = []
  · simp [hnil]
  · have hstrict : isStrictAncestor (spell old) (spell (old ++ rest)) = true :=
      (isStrictAncestor_spell_iff hvalid.inner hvalid.old_named
        (segments_append.2 ⟨hvalid.old_named, hrest⟩)).2 ⟨rest, hnil, rfl⟩
    have hne : spell (old ++ rest) ≠ spell old := by
      intro hsame
      rw [hsame, isStrictAncestor_irrefl] at hstrict
      cases hstrict
    rw [if_neg hne, if_pos ⟨hdirectory hnil, hstrict⟩, Option.getD_some,
      spell_append hvalid.inner, List.drop_left, spell_append hvalid.ne_nil]

theorem carry_apart {place : List (List Char)} (hplace : Segments place)
    (hmoves : ¬old <+: place) : relocation.carry (spell place) = spell place := by
  have hne : spell place ≠ spell old := by
    intro hsame
    rw [spell_inj hplace hvalid.old_named hsame] at hmoves
    exact hmoves (List.prefix_refl old)
  have hapart : ¬isStrictAncestor (spell old) (spell place) = true := by
    intro hstrict
    obtain ⟨rest, _, hrest⟩ :=
      (isStrictAncestor_spell_iff hvalid.inner hvalid.old_named hplace).1 hstrict
    exact hmoves ⟨rest, hrest.symm⟩
  unfold Relocation.carry Relocation.apply
  rw [hrecorded.old_eq, if_neg hne, if_neg (fun h => hapart h.2), Option.getD_none]

/-- A valid relocation rewrites the path of every object to the path that it has afterwards. -/
theorem carry_spell (object : Object) :
    relocation.carry (spell (fs.place object)) = spell ((fs.relocate hvalid).place object) := by
  have hplace := fs.named object
  show _ = spell (moved old new (fs.place object))
  by_cases hmoves : old <+: fs.place object
  · obtain ⟨rest, hrest⟩ := hmoves
    rw [← hrest, moved_append]
    apply carry_append hvalid hrecorded
    · rw [← hrest] at hplace
      exact (segments_append.1 hplace).2
    · -- There is something below the old place, so what is there is a directory.
      intro hbelow
      obtain ⟨upper, hupper⟩ := hvalid.occupied
      have hlower : fs.place object = fs.place upper ++ rest := by rw [hupper, hrest]
      exact hrecorded.directory upper hupper (isDirectory_of_below hlower hbelow)
  · rw [moved_of_apart hmoves]
    exact carry_apart hvalid hrecorded hplace hmoves

/-- A valid relocation leads to another path. -/
theorem notes_of_valid : Journal.notes relocation = true := by
  have hne : relocation.old ≠ relocation.new := by
    rw [hrecorded.old_eq, hrecorded.new_eq]
    intro hsame
    apply hvalid.outside
    rw [spell_inj hvalid.old_named hvalid.named hsame]
  simpa [Journal.notes] using hne

end

end Filesystem

/-! ## Any number of relocations -/

/-- The valid relocations, in order, lead from the one filesystem to the other. -/
inductive Runs {Object : Type*} : Filesystem Object → List Relocation → Filesystem Object → Prop
  | done (fs : Filesystem Object) : Runs fs [] fs
  | next {fs final : Filesystem Object} {old new : List (List Char)} {relocation : Relocation}
    {rest : List Relocation} (hvalid : fs.Valid old new)
    (hrecorded : fs.Recorded old new relocation) (hrest : Runs (fs.relocate hvalid) rest final) :
    Runs fs (relocation :: rest) final

namespace Runs

variable {Object : Type*} {start final : Filesystem Object} {relocations : List Relocation}

theorem replay_spell (hruns : Runs start relocations final) (object : Object) :
    replay relocations (spell (start.place object)) = spell (final.place object) := by
  induction hruns with
  | done fs => rfl
  | next hvalid hrecorded _ ih =>
    show replay _ (Relocation.carry _ _) = _
    rw [Filesystem.carry_spell hvalid hrecorded, ih]

theorem all_noted (hruns : Runs start relocations final) :
    ∀ relocation ∈ relocations, Journal.notes relocation = true := by
  induction hruns with
  | done fs => simp
  | next hvalid hrecorded _ ih =>
    exact List.forall_mem_cons.2 ⟨Filesystem.notes_of_valid hvalid hrecorded, ih⟩

end Runs

theorem resolve_of_runs {Object : Type*} {start final : Filesystem Object}
    {relocations : List Relocation} (hruns : Runs start relocations final) :
    (∀ object, (Journal.recordAll {} relocations).resolve (spell (start.place object)) =
      if spell (final.place object) = spell (start.place object) then none
      else some (spell (final.place object))) ∧
    ∀ {object other : Object}, object ≠ other →
      ((Journal.recordAll {} relocations).resolve (spell (start.place object))).getD
          (spell (start.place object)) ≠
        ((Journal.recordAll {} relocations).resolve (spell (start.place other))).getD
          (spell (start.place other)) := by
  have hentries : (Journal.recordAll {} relocations).entries = relocations := by
    rw [Watcher.entries_recordAll, List.filter_eq_self.2 hruns.all_noted]
    rfl
  have hresolve : ∀ object,
      (Journal.recordAll {} relocations).resolve (spell (start.place object)) =
        if spell (final.place object) = spell (start.place object) then none
        else some (spell (final.place object)) := by
    intro object
    unfold Journal.resolve
    rw [hentries, hruns.replay_spell]
  refine ⟨hresolve, ?_⟩
  intro object other hne hsame
  have hfinal : ∀ object, (if spell (final.place object) = spell (start.place object) then none
      else some (spell (final.place object))).getD (spell (start.place object)) =
        spell (final.place object) := by
    intro object
    split
    · rename_i hback
      rw [Option.getD_none, hback]
    · rfl
  rw [hresolve, hresolve, hfinal, hfinal] at hsame
  exact hne (final.distinct (spell_inj (final.named object) (final.named other) hsame))

/-- A directory `a` with a file `m` in it, and a directory `b` beside it. -/
def Filesystem.twoDirectories : Filesystem (Fin 4) where
  place
    | 0 => []
    | 1 => ["a".toList]
    | 2 => ["b".toList]
    | 3 => ["a".toList, "m".toList]
  isDirectory object := object ≠ 3
  named := by decide
  distinct := by decide
  closed := by decide

/-- The two directories change their names, which takes a third one. -/
def Filesystem.swap : List Relocation :=
  [⟨"/a".toList, "/t".toList, .rename, true⟩, ⟨"/b".toList, "/a".toList, .move, true⟩,
    ⟨"/t".toList, "/b".toList, .rename, true⟩]

theorem resolve_of_runs_swap :
    ∃ final, Runs Filesystem.twoDirectories Filesystem.swap final ∧
      (Journal.recordAll {} Filesystem.swap).resolve "/a/m".toList = some "/b/m".toList ∧
      ((Journal.recordAll {} Filesystem.swap).resolve "/a".toList).getD "/a".toList ≠
        ((Journal.recordAll {} Filesystem.swap).resolve "/b".toList).getD "/b".toList := by
  have hruns := @Runs.next _ Filesystem.twoDirectories _ ["a".toList] ["t".toList]
    ⟨"/a".toList, "/t".toList, .rename, true⟩ _ (by decide) ⟨by decide, by decide, fun _ _ _ => rfl⟩
    (@Runs.next _ _ _ ["b".toList] ["a".toList] ⟨"/b".toList, "/a".toList, .move, true⟩ _
      (by decide) ⟨by decide, by decide, fun _ _ _ => rfl⟩
      (@Runs.next _ _ _ ["t".toList] ["b".toList] ⟨"/t".toList, "/b".toList, .rename, true⟩ _
        (by decide) ⟨by decide, by decide, fun _ _ _ => rfl⟩ (.done _)))
  have hapart : (1 : Fin 4) ≠ 2 := by decide
  exact ⟨_, hruns, (resolve_of_runs hruns).1 3, (resolve_of_runs hruns).2 hapart⟩

end ProjectRoots
