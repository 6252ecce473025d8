import ProjectRoots.Proofs.Url.Reading
import ProjectRoots.Proofs.Watch.Touching
import ProjectRoots.Watch.Watcher

/- What an event touches, compared with other events and under other settings. An event is judged by
   the urls that its texts denote (`IsAt`) and, for a file that is called like an archive, also by
   the root of that archive.

     1. `any_urlsOf_iff`, `any_urlsOf_iff_counts` — the roots of archives add nothing to the urls of
        an event, as long as the paths of its files have no archive mark.
     2. `impact_outwards` — a change at a container affects all that a change inside it affects, and
        an event at a container has the impact that the same event has inside it. The latter only
        fails for an archive with a mark in the path of its file (`impact_outwards_missed`): its
        root does not lie in that file.
     3. `classify_suffixed` — so it makes no difference which names are those of archives. -/
namespace ProjectRoots

namespace Event

/-- Whether the event is at the url: a text of the event that counts denotes it. Where a copy was
made from does not count. -/
def IsAt (event : Event) (url : Url) : Prop :=
  match event with
  | create parent name _ => Url.Lands parent name.toList url
  | delete path => Url.parse path = .ok url
  | copy _ target => Url.parse target = .ok url
  | move old new => Url.parse old = .ok url ∨ Url.parse new = .ok url
  | rename old new _ => Url.parse old = .ok url ∨ Url.parse new = .ok url

/-- The second event is of the same kind as the first one, and at `outer` instead of `url`. What the
first one is at besides, the second one is at as well. -/
structure Lifts (event lifted : Event) (url outer : Url) : Prop where
  nominal : lifted.nominal = event.nominal
  isAt : lifted.IsAt outer
  others : ∀ other, event.IsAt other → other = url ∨ lifted.IsAt other

theorem lifts_delete {raw raw' : String} {url outer : Url} (hurl : Url.parse raw = .ok url)
    (houter : Url.parse raw' = .ok outer) : (delete raw).Lifts (delete raw') url outer where
  nominal := rfl
  isAt := houter
  others _ hat := Or.inl (Except.ok.inj (hat.symm.trans hurl))

/-- Where a thing is moved to stays the same. -/
theorem lifts_move {raw raw' new : String} {url outer : Url} (hurl : Url.parse raw = .ok url)
    (houter : Url.parse raw' = .ok outer) : (move raw new).Lifts (move raw' new) url outer where
  nominal := rfl
  isAt := Or.inl houter
  others _ hat := by
    rcases hat with hold | hnew
    · exact Or.inl (Except.ok.inj (hold.symm.trans hurl))
    · exact Or.inr (Or.inr hnew)

theorem nominal_ne_none (event : Event) : event.nominal ≠ .none := by
  cases event <;> simp [nominal]

end Event

namespace Rules
variable {rules : Rules}

theorem mem_urlsAt_iff {raw : String} {found : Url} :
    found ∈ rules.urlsAt raw ↔
      ∃ url, Url.parse raw = .ok url ∧ found ∈ rules.withArchiveRoot url := by
  unfold urlsAt
  cases Url.parse raw <;> simp

theorem mem_urlsCreated_iff {parent name : String} {found : Url} :
    found ∈ rules.urlsCreated parent name ↔
      ∃ url, Url.Lands parent name.toList url ∧ found ∈ rules.withArchiveRoot url := by
  unfold urlsCreated Url.Lands
  cases Url.parse parent with
  | error fault => simp
  | ok directory => cases hchild : directory.child name.toList <;> simp [hchild]

/-- The urls of an event are those that it is at, and the roots of archives that belong to them. -/
theorem mem_urlsOf_iff {event : Event} {found : Url} :
    found ∈ rules.urlsOf event ↔ ∃ url, event.IsAt url ∧ found ∈ rules.withArchiveRoot url := by
  cases event with
  | create parent name isDirectory => exact mem_urlsCreated_iff
  | delete path => exact mem_urlsAt_iff
  | copy source target => exact mem_urlsAt_iff
  | move old new =>
    simp only [urlsOf, Event.IsAt, List.mem_append, mem_urlsAt_iff, or_and_right, exists_or]
  | rename old new isDirectory =>
    simp only [urlsOf, Event.IsAt, List.mem_append, mem_urlsAt_iff, or_and_right, exists_or]

theorem mem_urlsOf_of_isAt {event : Event} {url : Url} (hat : event.IsAt url) :
    url ∈ rules.urlsOf event :=
  mem_urlsOf_iff.2 ⟨url, hat, mem_withArchiveRoot_iff.2 (Or.inl rfl)⟩

/-- The same rules with other names for archives. -/
def suffixed (rules : Rules) (suffixes : List String) : Rules :=
  { rules with settings := { rules.settings with archiveSuffixes := suffixes } }

end Rules

namespace Workspace
variable {workspace : Workspace} {rules : Rules}

theorem any_urlsOf_iff {event : Event} :
    (rules.urlsOf event).any (workspace.touches rules) = true ↔
      ∃ url, event.IsAt url ∧
        (rules.withArchiveRoot url).any (workspace.touches rules) = true := by
  simp only [List.any_eq_true, Rules.mem_urlsOf_iff]
  constructor
  · intro h
    obtain ⟨found, ⟨url, hat, hmem⟩, htouches⟩ := h
    exact ⟨url, hat, found, hmem, htouches⟩
  · intro h
    obtain ⟨url, hat, found, hmem, htouches⟩ := h
    exact ⟨found, ⟨url, hat, hmem⟩, htouches⟩

theorem classify_ne_none_iff {event : Event} :
    workspace.classify rules [event] ≠ .none ↔
      (rules.urlsOf event).any (workspace.touches rules) = true := by
  rw [classify_singleton, judge]
  split
  · rename_i htouched
    exact iff_of_true event.nominal_ne_none htouched
  · rename_i huntouched
    exact iff_of_false (not_not_intro rfl) huntouched

theorem classify_of_ne_none {event : Event} (hsome : workspace.classify rules [event] ≠ .none) :
    workspace.classify rules [event] = event.nominal := by
  rw [classify_singleton, judge, if_pos (classify_ne_none_iff.1 hsome)]

section
variable (hupToDate : workspace.UpToDate)
include hupToDate

theorem UpToDate.mem_affected_outwards {url outer : Url} (houter : outer ∈ url.containers) :
    ∀ reference ∈ (workspace.affected url).references,
      reference ∈ (workspace.affected outer).references := by
  intro reference hmem
  rw [hupToDate.mem_affected_iff] at hmem ⊢
  exact hmem.outwards houter

theorem UpToDate.touches_outwards {url outer : Url} (houter : outer ∈ url.containers)
    (htouches : workspace.touches rules url = true) :
    workspace.touches rules outer = true := by
  rw [hupToDate.touches_iff] at htouches ⊢
  exact htouches.outwards houter

/-- What an event touches can be told from the urls that it is at, if the rules look for no archive
in a file that has an archive mark in its path already. -/
theorem UpToDate.any_urlsOf_iff_counts {event : Event}
    (hopens : ∀ url, event.IsAt url → ¬rules.Reopens url) :
    (rules.urlsOf event).any (workspace.touches rules) = true ↔
      ∃ url, event.IsAt url ∧ workspace.current.graph.CountsFor rules url := by
  rw [any_urlsOf_iff]
  apply exists_congr
  intro url
  apply and_congr_right
  intro hat
  exact hupToDate.any_withArchiveRoot_iff (hopens url hat)

/-- What is touched at a url, also by way of the root of an archive, is touched at its containers,
unless the archive is one in a file that has an archive mark in its path already. -/
theorem UpToDate.any_outwards {url outer : Url} (houter : outer ∈ url.containers)
    (hown : rules.Reopens url → workspace.touches rules url = true)
    (htouched : (rules.withArchiveRoot url).any (workspace.touches rules) = true) :
    workspace.touches rules outer = true := by
  apply hupToDate.touches_outwards houter
  by_cases hopens : rules.Reopens url
  · exact hown hopens
  · rw [hupToDate.touches_iff, ← hupToDate.any_withArchiveRoot_iff hopens]
    exact htouched

end

/-- A change at a container affects at least what a change inside it affects, so it touches at
least the same roots. An event at the container has the impact of the same event inside it, unless
this only touches the root of an archive in a file that has an archive mark in its path already. -/
theorem impact_outwards (hupToDate : workspace.UpToDate) {url outer : Url}
    (houter : outer ∈ url.containers) :
    (∀ reference ∈ (workspace.affected url).references,
      reference ∈ (workspace.affected outer).references) ∧
    ∀ rules : Rules,
      (workspace.touches rules url = true → workspace.touches rules outer = true) ∧
      ((rules.Reopens url → workspace.touches rules url = true) →
        ∀ event lifted : Event, event.Lifts lifted url outer →
          workspace.classify rules [event] ≠ .none →
            workspace.classify rules [lifted] = workspace.classify rules [event]) := by
  refine ⟨hupToDate.mem_affected_outwards houter, ?_⟩
  intro rules
  refine ⟨hupToDate.touches_outwards houter, ?_⟩
  intro hown event lifted hlifts hsome
  have hlifted : (rules.urlsOf lifted).any (workspace.touches rules) = true := by
    obtain ⟨found, hat, htouched⟩ := any_urlsOf_iff.1 (classify_ne_none_iff.1 hsome)
    rcases hlifts.others found hat with rfl | hother
    · have htouches := hupToDate.any_outwards houter hown htouched
      exact List.any_eq_true.2 ⟨outer, Rules.mem_urlsOf_of_isAt hlifts.isAt, htouches⟩
    · exact any_urlsOf_iff.2 ⟨found, hother, htouched⟩
  calc workspace.classify rules [lifted]
      = lifted.nominal := classify_of_ne_none (classify_ne_none_iff.2 hlifted)
    _ = event.nominal := hlifts.nominal
    _ = workspace.classify rules [event] := (classify_of_ne_none hsome).symm

/-- What is moved out of an archive, and the directory that the archive is in. -/
theorem impact_outwards_unpacked :
    ((ofGraph archiveGraph).UpToDate ∧
        (⟨.file, "/a".toList⟩ : Url) ∈ (Url.mk .jar "/a/x.jar!/b".toList).containers ∧
        (Event.move "/a/x.jar!/b" "/c").Lifts (.move "/a" "/c") ⟨.jar, "/a/x.jar!/b".toList⟩
          ⟨.file, "/a".toList⟩) ∧
      (∀ reference ∈ ((ofGraph archiveGraph).affected ⟨.jar, "/a/x.jar!/b".toList⟩).references,
        reference ∈ ((ofGraph archiveGraph).affected ⟨.file, "/a".toList⟩).references) ∧
      (ofGraph archiveGraph).touches {} ⟨.file, "/a".toList⟩ = true ∧
      (ofGraph archiveGraph).classify {} [.move "/a/x.jar!/b" "/c"] = .generic ∧
      (ofGraph archiveGraph).classify {} [.move "/a" "/c"] =
        (ofGraph archiveGraph).classify {} [.move "/a/x.jar!/b" "/c"] := by
  have hupToDate : (ofGraph archiveGraph).UpToDate := upToDate_load archiveGraph .refl
  have houter : (⟨.file, "/a".toList⟩ : Url) ∈ (Url.mk .jar "/a/x.jar!/b".toList).containers := by
    decide +kernel
  have hlifts : (Event.move "/a/x.jar!/b" "/c").Lifts (.move "/a" "/c")
      ⟨.jar, "/a/x.jar!/b".toList⟩ ⟨.file, "/a".toList⟩ :=
    Event.lifts_move (by decide +kernel) (by decide +kernel)
  have hgeneric : (ofGraph archiveGraph).classify {} [.move "/a/x.jar!/b" "/c"] = .generic := by
    decide +kernel
  obtain ⟨haffected, hrules⟩ := impact_outwards hupToDate houter
  obtain ⟨htouches, himpact⟩ := hrules {}
  have hown : ¬Rules.Reopens {} ⟨.jar, "/a/x.jar!/b".toList⟩ := fun hopens => nomatch hopens.1
  refine ⟨⟨hupToDate, houter, hlifts⟩, haffected, htouches (by decide +kernel), hgeneric, ?_⟩
  exact himpact (fun hopens => absurd hopens hown) _ _ hlifts (by simp [hgeneric])

/-- A library in an archive, in a directory whose name looks like the end of an archive's file. -/
def markedGraph : Graph :=
  Graph.ofList [⟨"library:x", .library, "x", [⟨"class_root", "/a!/b.jar!/c", false⟩]⟩]

/-- The archive is removed with an impact, and its directory without one. -/
theorem impact_outwards_missed :
    (ofGraph markedGraph).UpToDate ∧
      Url.parse "file:///a!/b.jar" = .ok ⟨.file, "/a!/b.jar".toList⟩ ∧
      Url.parse "file:///a!" = .ok ⟨.file, "/a!".toList⟩ ∧
      Url.container ⟨.file, "/a!/b.jar".toList⟩ = some ⟨.file, "/a!".toList⟩ ∧
      (Event.delete "file:///a!/b.jar").Lifts (.delete "file:///a!") ⟨.file, "/a!/b.jar".toList⟩
        ⟨.file, "/a!".toList⟩ ∧
      (ofGraph markedGraph).classify {} [.delete "file:///a!/b.jar"] = .removed ∧
      (ofGraph markedGraph).classify {} [.delete "file:///a!"] = .none := by
  have hinner : Url.parse "file:///a!/b.jar" = .ok ⟨.file, "/a!/b.jar".toList⟩ := by
    decide +kernel
  have houter : Url.parse "file:///a!" = .ok ⟨.file, "/a!".toList⟩ := by decide +kernel
  refine ⟨upToDate_load markedGraph .refl, hinner, houter, by decide +kernel,
    Event.lifts_delete hinner houter, by decide +kernel, by decide +kernel⟩

/-! ## Names of archives -/

theorem UpToDate.judge_suffixed (hupToDate : workspace.UpToDate) (suffixes : List String)
    {event : Event}
    (hplain : ∀ url ∈ rules.urlsOf event, url.scheme = .file → Markless url.path) :
    workspace.judge (rules.suffixed suffixes) event = workspace.judge rules event := by
  have hopens : ∀ (others : Rules) (url : Url), event.IsAt url → ¬others.Reopens url := by
    intro others url hat hopens
    exact hopens.2.2 (hplain url (Rules.mem_urlsOf_of_isAt hat) hopens.1)
  have hsame : ((rules.suffixed suffixes).urlsOf event).any
        (workspace.touches (rules.suffixed suffixes)) =
      (rules.urlsOf event).any (workspace.touches rules) := by
    rw [Bool.eq_iff_iff, hupToDate.any_urlsOf_iff_counts (hopens (rules.suffixed suffixes)),
      hupToDate.any_urlsOf_iff_counts (hopens rules)]
    -- Which roots count does not depend on the names of archives.
    exact Iff.rfl
  rw [judge, judge, hsame]

/-- What the root of an archive affects, the archive's file affects as well. -/
theorem UpToDate.mem_affected_archiveRoot (hupToDate : workspace.UpToDate) {url : Url}
    (hfile : url.scheme = .file) (hplain : Markless url.path) (htop : url.path ≠ ['/']) :
    ∃ root, url.archiveRoot = some root ∧
      ∀ reference ∈ (workspace.affected root).references,
        reference ∈ (workspace.affected url).references := by
  have hroot : url.archiveRoot = some ⟨.jar, url.path ++ archiveMark⟩ := by
    simp [Url.archiveRoot, hfile, htop]
  refine ⟨_, hroot, hupToDate.mem_affected_outwards ?_⟩
  rw [Url.containers_archiveRoot hplain hroot]
  exact List.mem_cons_self

end Workspace

/-- Two watchers of one project that only differ in the names of archives judge a batch alike, if
the paths of its files have no archive mark: an archive's file affects all that its root does. -/
theorem classify_suffixed {first second : Watcher}
    (hupToDate : first.project.workspace.UpToDate)
    (hworkspace : second.project.workspace = first.project.workspace) {suffixes : List String}
    (hrules : second.rules = first.rules.suffixed suffixes) {batch : Batch}
    (hplain : ∀ event ∈ batch, ∀ url ∈ first.rules.urlsOf event,
      url.scheme = .file → Markless url.path) :
    second.classify batch = first.classify batch ∧
      ∀ url : Url, url.scheme = .file → Markless url.path → url.path ≠ ['/'] →
        ∃ root, url.archiveRoot = some root ∧
          ∀ reference ∈ (first.project.workspace.affected root).references,
            reference ∈ (first.project.workspace.affected url).references := by
  refine ⟨?_, fun url hfile hmarkless htop =>
    hupToDate.mem_affected_archiveRoot hfile hmarkless htop⟩
  unfold Watcher.classify
  rw [hworkspace, hrules, Workspace.classify_eq_sup, Workspace.classify_eq_sup]
  apply Finset.sup_congr rfl
  intro event hmem
  exact hupToDate.judge_suffixed suffixes (hplain event (List.mem_toFinset.1 hmem))

/-- A watcher of a library in an archive, by the names that archives have. -/
def archivist (suffixes : List String) : Watcher where
  rules := { settings := { archiveSuffixes := suffixes } }
  project := { workspace := Workspace.ofGraph Workspace.archiveGraph }

/-- A watcher that knows the archive by its name, and one that knows no archives. -/
theorem classify_suffixed_unknown :
    ((archivist [".jar"]).project.workspace.UpToDate ∧
        (archivist []).project.workspace = (archivist [".jar"]).project.workspace ∧
        (archivist []).rules = (archivist [".jar"]).rules.suffixed [] ∧
        ∀ event ∈ [Event.create "/a" "x.jar" false, .delete "/a/x.jar!/b"],
          ∀ url ∈ (archivist [".jar"]).rules.urlsOf event,
            url.scheme = .file → Markless url.path) ∧
      (archivist [".jar"]).rules.urlsOf (.create "/a" "x.jar" false) =
        [⟨.file, "/a/x.jar".toList⟩, ⟨.jar, "/a/x.jar!/".toList⟩] ∧
      (archivist []).rules.urlsOf (.create "/a" "x.jar" false) = [⟨.file, "/a/x.jar".toList⟩] ∧
      (archivist [".jar"]).classify [.create "/a" "x.jar" false, .delete "/a/x.jar!/b"] =
        .generic ∧
      (archivist []).classify [.create "/a" "x.jar" false, .delete "/a/x.jar!/b"] =
        (archivist [".jar"]).classify [.create "/a" "x.jar" false, .delete "/a/x.jar!/b"] := by
  have hupToDate : (archivist [".jar"]).project.workspace.UpToDate :=
    Workspace.upToDate_load Workspace.archiveGraph .refl
  have hplain : ∀ event ∈ [Event.create "/a" "x.jar" false, .delete "/a/x.jar!/b"],
      ∀ url ∈ (archivist [".jar"]).rules.urlsOf event,
        url.scheme = .file → Markless url.path := by
    decide +kernel
  obtain ⟨hsame, _⟩ :=
    @classify_suffixed (archivist [".jar"]) (archivist []) hupToDate rfl [] rfl _ hplain
  exact ⟨⟨hupToDate, rfl, rfl, hplain⟩, by decide +kernel, by decide +kernel, by decide +kernel,
    hsame⟩

end ProjectRoots
