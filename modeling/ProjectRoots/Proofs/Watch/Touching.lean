import ProjectRoots.Proofs.Coverage.Mounts
import ProjectRoots.Proofs.Graph.Upkeep
import ProjectRoots.Proofs.Watch.Judgement

/- What a change touches, read off the graph. Not every root counts, and the rules only see the
   references that a url affects.

     1. `touches_iff` — a change at a url touches a root that counts if one is at the url, inside it
        or at the nearest mount around it.
     2. `nearest_of_mem` — a file below a mount has a nearest mount, which is that one or lies
        between.
     3. `counted_iff_nearest` — so for a file below a mount it is the nearest mount that matters.
        One whose roots do not count hides the mounts around it (`not_counted_hidden`). -/
namespace ProjectRoots

instance (root : Root) (url : Url) : Decidable (root.Denotes url) :=
  inferInstanceAs (Decidable (Url.parse root.url = .ok url))

namespace Graph

/-- Whether a root that counts denotes the url. -/
def CountsAt (graph : Graph) (rules : Rules) (url : Url) : Prop :=
  ∃ entity ∈ graph.entities, ∃ root ∈ entity.roots,
    root.Denotes url ∧ rules.counts entity root.property = true

instance (graph : Graph) (rules : Rules) (url : Url) : Decidable (graph.CountsAt rules url) :=
  inferInstanceAs (Decidable (∃ entity ∈ graph.entities, ∃ root ∈ entity.roots,
    root.Denotes url ∧ rules.counts entity root.property = true))

/-- Whether a root that counts is at the url, inside it, or at the nearest mount around it. -/
def CountsFor (graph : Graph) (rules : Rules) (url : Url) : Prop :=
  ∃ place, graph.CountsAt rules place ∧
    (place = url ∨ url ∈ place.containers ∨ graph.mountAround url = some place)

/-- The nearest mount above a file: all others that are above the file are above this one. -/
structure Nearest (graph : Graph) (url mount : Url) : Prop where
  mem : mount ∈ graph.mounts
  file : mount.scheme = .file
  above : isStrictAncestor mount.path url.path = true
  nearest : ∀ other ∈ graph.mounts, other.scheme = .file →
    isStrictAncestor other.path url.path = true →
      other = mount ∨ isStrictAncestor other.path mount.path = true

/-- The references that count are those whose entity is found under its id. -/
theorem countsAt_iff {graph : Graph} {rules : Rules} {url : Url} :
    graph.CountsAt rules url ↔
      ∃ reference, graph.Refers reference url ∧
        ∃ entity, graph.entity? reference.entity = some entity ∧
          rules.counts entity reference.property = true := by
  constructor
  · intro h
    obtain ⟨entity, hentity, root, hroot, hdenotes, hcounts⟩ := h
    exact ⟨⟨entity.id, root.property⟩, ⟨entity, hentity, root, hroot, rfl, hdenotes⟩, entity,
      entity?_eq_some_iff.2 ⟨hentity, rfl⟩, hcounts⟩
  · intro h
    obtain ⟨_, ⟨entity, hentity, root, hroot, rfl, hdenotes⟩, found, hfound, hcounts⟩ := h
    obtain rfl : entity = found :=
      Option.some.inj ((entity?_eq_some_iff.2 ⟨hentity, rfl⟩).symm.trans hfound)
    exact ⟨entity, hentity, root, hroot, hdenotes, hcounts⟩

theorem countsFor_iff_of_mountAround {graph : Graph} {rules : Rules} {url mount : Url}
    (haround : graph.mountAround url = some mount) :
    graph.CountsFor rules url ↔ graph.CountsAt rules mount ∨
      ∃ place, graph.CountsAt rules place ∧ (place = url ∨ url ∈ place.containers) := by
  constructor
  · intro h
    obtain ⟨place, hplace, hat | hinside | hmount⟩ := h
    · exact Or.inr ⟨place, hplace, Or.inl hat⟩
    · exact Or.inr ⟨place, hplace, Or.inr hinside⟩
    · obtain rfl := Option.some.inj (haround.symm.trans hmount)
      exact Or.inl hplace
  · intro h
    rcases h with hplace | ⟨place, hplace, hat | hinside⟩
    · exact ⟨mount, hplace, Or.inr (Or.inr haround)⟩
    · exact ⟨place, hplace, Or.inl hat⟩
    · exact ⟨place, hplace, Or.inr (Or.inl hinside)⟩

section
variable {graph : Graph} {raw : String} {url : Url} (hparse : Url.parse raw = .ok url)
  (hfile : url.scheme = .file) (hplain : Markless url.path)
include hparse hfile hplain

theorem mem_containers_of_mount {mount : Url} (hmount : mount ∈ graph.mounts) :
    mount ∈ url.containers ↔
      mount.scheme = .file ∧ isStrictAncestor mount.path url.path = true := by
  obtain ⟨hshape, hmark⟩ := shape_of_mem_mounts hmount
  exact Url.mem_containers_plain hshape hmark hparse hfile hplain

theorem nearest_of_mountAround {mount : Url} (hfound : graph.mountAround url = some mount) :
    graph.Nearest url mount := by
  obtain ⟨hmem, hchain, _⟩ := mountAround_spec hfound
  obtain ⟨hscheme, habove⟩ := (mem_containers_of_mount hparse hfile hplain hmem).1 hchain
  refine ⟨hmem, hscheme, habove, fun other hother hotherFile hotherAbove => ?_⟩
  -- Before the first mount on the chain there is none, and behind it comes its own chain.
  obtain ⟨_, nearer, farther, hcontainers, hnearer⟩ := List.find?_eq_some_iff_append.1 hfound
  have hotherChain := (mem_containers_of_mount hparse hfile hplain hother).2
    ⟨hotherFile, hotherAbove⟩
  rw [hcontainers] at hotherChain
  rcases List.mem_append.1 hotherChain with hnear | hfar
  · have hnot := hnearer other hnear
    simp [hother] at hnot
  · rcases List.mem_cons.1 hfar with rfl | hfar
    · exact Or.inl rfl
    · rw [Url.containers_of_append hcontainers] at hfar
      obtain ⟨_, _, hmounts⟩ := mem_mounts.1 hmem
      have hmarkless : Markless mount.path := by
        obtain ⟨rest, hrest⟩ := Url.isPrefix_of_isStrictAncestor habove
        rw [← hrest] at hplain
        exact hplain.left
      exact Or.inr ((mem_containers_of_mount hmounts.1 hscheme hmarkless hother).1 hfar).2

theorem nearest_of_mem {mount : Url} (hmount : mount ∈ graph.mounts)
    (hmountFile : mount.scheme = .file) (habove : isStrictAncestor mount.path url.path = true) :
    ∃ nearest, graph.mountAround url = some nearest ∧ graph.Nearest url nearest ∧
      (nearest = mount ∨ isStrictAncestor mount.path nearest.path = true) := by
  have hchain := (mem_containers_of_mount hparse hfile hplain hmount).2 ⟨hmountFile, habove⟩
  cases hfound : graph.mountAround url with
  | none => exact absurd hchain (mountAround_eq_none_iff.1 hfound mount hmount)
  | some nearest =>
    have hnearest := nearest_of_mountAround hparse hfile hplain hfound
    refine ⟨nearest, rfl, hnearest, ?_⟩
    rcases hnearest.nearest mount hmount hmountFile habove with hsame | houter
    · exact Or.inl hsame.symm
    · exact Or.inr houter

end

/-- On the way outwards nothing ceases to count. -/
theorem CountsFor.outwards {graph : Graph} {rules : Rules} {url outer : Url}
    (houter : outer ∈ url.containers) (hcounts : graph.CountsFor rules url) :
    graph.CountsFor rules outer := by
  obtain ⟨place, hplace, hreaches⟩ := hcounts
  exact ⟨place, hplace, Reaches.outwards houter hreaches⟩

/-- Nothing more counts for the root of the archive that a file is than for the file. -/
theorem CountsFor.of_archiveRoot {graph : Graph} {rules : Rules} {url root : Url}
    (hmarkless : Markless url.path) (hroot : url.archiveRoot = some root)
    (hcounts : graph.CountsFor rules root) : graph.CountsFor rules url := by
  apply hcounts.outwards
  rw [Url.containers_archiveRoot hmarkless hroot]
  exact List.mem_cons_self

end Graph

namespace Rules

theorem mem_withArchiveRoot_iff {rules : Rules} {url found : Url} :
    found ∈ rules.withArchiveRoot url ↔ found = url ∨
      (url.scheme = .file ∧ rules.settings.isArchiveName url.name = true) ∧
        url.archiveRoot = some found := by
  unfold withArchiveRoot
  split
  · rename_i harchive
    simp [harchive]
  · rename_i hother
    simp [hother]

/-- Whether the rules look for an archive in a file that has an archive mark in its path already. -/
def Reopens (rules : Rules) (url : Url) : Prop :=
  url.scheme = .file ∧ rules.settings.isArchiveName url.name = true ∧ ¬Markless url.path

end Rules

namespace Workspace
variable {workspace : Workspace} (hupToDate : workspace.UpToDate) {rules : Rules}
include hupToDate

theorem UpToDate.mem_affected_iff {url : Url} {reference : Reference} :
    reference ∈ (workspace.affected url).references ↔
      workspace.current.graph.Concerns reference url :=
  (Coverage.agrees_affected hupToDate.sound hupToDate.tracks url).references reference

theorem UpToDate.touches_iff (url : Url) :
    workspace.touches rules url = true ↔ workspace.current.graph.CountsFor rules url := by
  rw [touches_eq_true_iff]
  constructor
  · intro h
    obtain ⟨reference, hmem, hcounts⟩ := h
    obtain ⟨place, hrefers, hwhere⟩ := hupToDate.mem_affected_iff.1 hmem
    exact ⟨place, Graph.countsAt_iff.2 ⟨reference, hrefers, hcounts⟩, hwhere⟩
  · intro h
    obtain ⟨place, hplace, hwhere⟩ := h
    obtain ⟨reference, hrefers, hcounts⟩ := Graph.countsAt_iff.1 hplace
    exact ⟨reference, hupToDate.mem_affected_iff.2 ⟨place, hrefers, hwhere⟩, hcounts⟩

/-- That a file is an archive makes no difference to what a change at it touches. -/
theorem UpToDate.any_withArchiveRoot_iff {url : Url} (hreopens : ¬rules.Reopens url) :
    (rules.withArchiveRoot url).any (workspace.touches rules) = true ↔
      workspace.current.graph.CountsFor rules url := by
  rw [List.any_eq_true]
  constructor
  · intro h
    obtain ⟨found, hmem, htouches⟩ := h
    have hcounts := (hupToDate.touches_iff found).1 htouches
    rcases Rules.mem_withArchiveRoot_iff.1 hmem with rfl | ⟨⟨hscheme, hname⟩, hroot⟩
    · exact hcounts
    · have hplain : Markless url.path := by
        by_contra hmark
        exact hreopens ⟨hscheme, hname, hmark⟩
      exact hcounts.of_archiveRoot hplain hroot
  · intro hcounts
    exact ⟨url, Rules.mem_withArchiveRoot_iff.2 (Or.inl rfl), (hupToDate.touches_iff url).2 hcounts⟩

theorem UpToDate.any_urlsAt_iff {raw : String} {url : Url} (hparse : Url.parse raw = .ok url)
    (hplain : Markless url.path) :
    (rules.urlsAt raw).any (workspace.touches rules) = true ↔
      workspace.current.graph.CountsFor rules url := by
  have hurls : rules.urlsAt raw = rules.withArchiveRoot url := by
    simp [Rules.urlsAt, hparse]
  rw [hurls]
  exact hupToDate.any_withArchiveRoot_iff fun hreopens => hreopens.2.2 hplain

omit hupToDate in
theorem classify_of_any_urlsAt {raw : String}
    (hany : (rules.urlsAt raw).any (workspace.touches rules) = true) {event : Event}
    (hurls : ∀ url ∈ rules.urlsAt raw, url ∈ rules.urlsOf event) :
    workspace.classify rules [event] = event.nominal := by
  obtain ⟨url, hmem, htouches⟩ := List.any_eq_true.1 hany
  rw [classify_singleton]
  exact if_pos (List.any_eq_true.2 ⟨url, hurls url hmem, htouches⟩)

/-- Every event that removes the path, puts something there or moves it has the impact of its kind,
whatever its other path is. -/
structure Counted (workspace : Workspace) (rules : Rules) (raw : String) : Prop where
  deleted : workspace.classify rules [.delete raw] = .removed
  copied : ∀ source, workspace.classify rules [.copy source raw] = .added
  movedFrom : ∀ new, workspace.classify rules [.move raw new] = .generic
  movedTo : ∀ old, workspace.classify rules [.move old raw] = .generic
  renamedFrom : ∀ new isDirectory,
    workspace.classify rules [.rename raw new isDirectory] = .generic
  renamedTo : ∀ old isDirectory,
    workspace.classify rules [.rename old raw isDirectory] = .generic

theorem UpToDate.counted_iff {raw : String} {url : Url} (hparse : Url.parse raw = .ok url)
    (hplain : Markless url.path) :
    workspace.Counted rules raw ↔ workspace.current.graph.CountsFor rules url := by
  rw [← hupToDate.any_urlsAt_iff hparse hplain]
  constructor
  · intro hcounted
    by_contra hnot
    have hdeleted := hcounted.deleted
    rw [classify_singleton, judge, Rules.urlsOf, if_neg hnot] at hdeleted
    cases hdeleted
  · intro hany
    have hfrom : ∀ urls, ∀ url ∈ rules.urlsAt raw, url ∈ rules.urlsAt raw ++ urls :=
      fun urls url hmem => List.mem_append_left urls hmem
    have hto : ∀ urls, ∀ url ∈ rules.urlsAt raw, url ∈ urls ++ rules.urlsAt raw :=
      fun urls url hmem => List.mem_append_right urls hmem
    exact ⟨classify_of_any_urlsAt hany fun _ hmem => hmem,
      fun _ => classify_of_any_urlsAt hany fun _ hmem => hmem,
      fun _ => classify_of_any_urlsAt hany (hfrom _),
      fun _ => classify_of_any_urlsAt hany (hto _),
      fun _ _ => classify_of_any_urlsAt hany (hfrom _),
      fun _ _ => classify_of_any_urlsAt hany (hto _)⟩

/-- A file below a mount counts if a root that counts is at the nearest mount above it, at the file
or inside it. So it does if the roots of the mount and of all mounts in between count. -/
theorem counted_iff_nearest (rules : Rules) {raw : String} {url : Url}
    (hparse : Url.parse raw = .ok url) (hfile : url.scheme = .file) (hplain : Markless url.path)
    {mount : Url} (hmount : mount ∈ workspace.current.graph.mounts)
    (hmountFile : mount.scheme = .file) (habove : isStrictAncestor mount.path url.path = true) :
    (∃ nearest, workspace.current.graph.Nearest url nearest ∧
      (nearest = mount ∨ isStrictAncestor mount.path nearest.path = true) ∧
      (workspace.Counted rules raw ↔
        workspace.current.graph.CountsAt rules nearest ∨
          ∃ place, workspace.current.graph.CountsAt rules place ∧
            (place = url ∨ url ∈ place.containers))) ∧
    (workspace.current.graph.CountsAt rules mount →
      (∀ other ∈ workspace.current.graph.mounts, other.scheme = .file →
        isStrictAncestor mount.path other.path = true →
          isStrictAncestor other.path url.path = true →
            workspace.current.graph.CountsAt rules other) →
      workspace.Counted rules raw) := by
  obtain ⟨nearest, haround, hnearest, hbetween⟩ :=
    Graph.nearest_of_mem hparse hfile hplain hmount hmountFile habove
  have hiff : workspace.Counted rules raw ↔ workspace.current.graph.CountsFor rules url :=
    hupToDate.counted_iff hparse hplain
  refine ⟨⟨nearest, hnearest, hbetween, ?_⟩, ?_⟩
  · exact hiff.trans (Graph.countsFor_iff_of_mountAround haround)
  · intro hcounts hothers
    have hplace : workspace.current.graph.CountsAt rules nearest := by
      rcases hbetween with rfl | hinner
      · exact hcounts
      · exact hothers nearest hnearest.mem hnearest.file hinner hnearest.above
    exact hiff.2 ((Graph.countsFor_iff_of_mountAround haround).2 (Or.inl hplace))

omit hupToDate

/-- A directory of libraries with another one in it. -/
def nestedGraph : Graph :=
  Graph.ofList
    [⟨"module:app", .module, "app", [⟨"libs", "/a", true⟩, ⟨"caches", "/a/b", true⟩]⟩]

/-- The outer one of the two directories. -/
def outerMount : Url :=
  ⟨.file, "/a".toList⟩

/-- A file in the inner one. -/
def cachedFile : Url :=
  ⟨.file, "/a/b/c".toList⟩

/-- The roots of the inner one do not count. -/
def cachesIgnored : Rules where
  counts := Ignored.counts { properties := ["caches"] }

theorem markless_cachedFile : Markless cachedFile.path :=
  cutAt_eq_none_iff.1 (by decide +kernel)

/-- A mount whose roots do not count hides the one around it. -/
theorem not_counted_hidden :
    Url.parse "/a/b/c" = .ok cachedFile ∧ Markless cachedFile.path ∧
      (∃ entity ∈ nestedGraph.entities, ∃ root ∈ entity.roots,
        root.Denotes outerMount ∧ root.archiveMount = true) ∧
      isStrictAncestor outerMount.path cachedFile.path = true ∧
      nestedGraph.CountsAt cachesIgnored outerMount ∧
      (ofGraph nestedGraph).classify cachesIgnored [.delete "/a/b/c"] = .none ∧
      ¬(ofGraph nestedGraph).Counted cachesIgnored "/a/b/c" := by
  have hnone : (ofGraph nestedGraph).classify cachesIgnored [.delete "/a/b/c"] = .none := by
    decide +kernel
  refine ⟨by decide +kernel, markless_cachedFile, by decide +kernel, by decide +kernel,
    by decide +kernel, hnone, fun hcounted => ?_⟩
  have hdeleted := hcounted.deleted
  rw [hnone] at hdeleted
  cases hdeleted

theorem counted_iff_nearest_cached :
    ((ofGraph nestedGraph).UpToDate ∧ Url.parse "/a/b/c" = .ok cachedFile ∧
      cachedFile.scheme = .file ∧ Markless cachedFile.path ∧ outerMount ∈ nestedGraph.mounts ∧
      outerMount.scheme = .file ∧ isStrictAncestor outerMount.path cachedFile.path = true) ∧
    (∃ nearest, nestedGraph.Nearest cachedFile nearest ∧
      (nearest = outerMount ∨ isStrictAncestor outerMount.path nearest.path = true) ∧
      ((ofGraph nestedGraph).Counted {} "/a/b/c" ↔
        nestedGraph.CountsAt {} nearest ∨
          ∃ place, nestedGraph.CountsAt {} place ∧
            (place = cachedFile ∨ cachedFile ∈ place.containers))) ∧
    (ofGraph nestedGraph).Counted {} "/a/b/c" := by
  have hupToDate : (ofGraph nestedGraph).UpToDate := upToDate_load nestedGraph .refl
  have hparse : Url.parse "/a/b/c" = .ok cachedFile := by decide +kernel
  have hmount : outerMount ∈ nestedGraph.mounts := by decide +kernel
  have habove : isStrictAncestor outerMount.path cachedFile.path = true := by decide +kernel
  obtain ⟨hnearest, hcounted⟩ :=
    counted_iff_nearest hupToDate {} hparse rfl markless_cachedFile hmount rfl habove
  refine ⟨⟨hupToDate, hparse, rfl, markless_cachedFile, hmount, rfl, habove⟩, hnearest,
    hcounted (by decide +kernel) ?_⟩
  show ∀ other ∈ nestedGraph.mounts, other.scheme = .file →
    isStrictAncestor outerMount.path other.path = true →
      isStrictAncestor other.path cachedFile.path = true → nestedGraph.CountsAt {} other
  decide +kernel

end Workspace

end ProjectRoots
