import Mathlib.Data.List.MinMax
import ProjectRoots.Proofs.Coverage.Scan
import ProjectRoots.Proofs.Url.Containment

/- The mount that a coverage finds over a url is meant to be the deepest one that the url lies in.

     1. `mountAround_spec` — what is found is the deepest of the mounts on the url's chain of
        containers.
     2. `Reaches.outwards` — a change at a container reaches what a change inside it reaches. The
        mount around the url may be the container then.
     3. `findsDeepest_iff` — so the answer is right exactly if no archive mark divides the url from
        the deepest mount. There is none in the path of a plain file and one in the path of an entry
        of an archive; only an archive inside an archive brings in another one. -/
namespace ProjectRoots

namespace Graph

/-- The deepest mount that the url lies in. -/
structure Deepest (graph : Graph) (url mount : Url) : Prop where
  mem : mount ∈ graph.mounts
  holds : mount.Holds url
  deepest : ∀ other ∈ graph.mounts, other.Holds url → other.path.length ≤ mount.path.length

/-- The answer is the id of the deepest mount that the url lies in, and there is none only if the
url lies in no mount. -/
structure FindsDeepest (graph : Graph) (atlas : Atlas) (url : Url) (answer : Option Nat) :
    Prop where
  found : ∀ id, answer = some id → ∃ mount, graph.Deepest url mount ∧ atlas.find? mount = some id
  none_iff : answer = none ↔ ∀ mount ∈ graph.mounts, ¬mount.Holds url

variable {graph : Graph} {url : Url}

theorem shape_of_mem_mounts {mount : Url} (hmount : mount ∈ graph.mounts) :
    Shape mount.path ∧ (mount.scheme = .jar → ¬Markless mount.path) := by
  obtain ⟨item, _, hmounts⟩ := mem_mounts.1 hmount
  exact Url.shape_of_parse hmounts.1

theorem Deepest.unique {a b : Url} (ha : graph.Deepest url a) (hb : graph.Deepest url b) :
    a = b := by
  have hlength : a.path.length = b.path.length :=
    Nat.le_antisymm (hb.deepest a ha.mem ha.holds) (ha.deepest b hb.mem hb.holds)
  exact ha.holds.unique hb.holds (shape_of_mem_mounts ha.mem).2 (shape_of_mem_mounts hb.mem).2
    hlength

theorem exists_deepest {mount : Url} (hmem : mount ∈ graph.mounts) (hholds : mount.Holds url) :
    ∃ deepest, graph.Deepest url deepest := by
  classical
  have hmount : mount ∈ graph.mounts.filter fun mount => mount.Holds url :=
    List.mem_filter.2 ⟨hmem, by simpa using hholds⟩
  -- One of the longest paths among the mounts that the url lies in.
  cases hmax : (graph.mounts.filter fun mount => mount.Holds url).argmax
      (fun mount => mount.path.length) with
  | none =>
    rw [List.argmax_eq_none.1 hmax] at hmount
    cases hmount
  | some deepest =>
    obtain ⟨hdeepest, hholdsDeepest⟩ := List.mem_filter.1 (List.argmax_mem hmax)
    refine ⟨deepest, hdeepest, by simpa using hholdsDeepest, ?_⟩
    intro other hother hholdsOther
    have hmem : other ∈ graph.mounts.filter fun mount => mount.Holds url :=
      List.mem_filter.2 ⟨hother, by simpa using hholdsOther⟩
    exact List.le_of_mem_argmax (f := fun mount : Url => mount.path.length) hmem hmax

/-- What is found is the deepest of the mounts on the chain. -/
theorem mountAround_spec {mount : Url} (hfound : graph.mountAround url = some mount) :
    mount ∈ graph.mounts ∧ mount ∈ url.containers ∧
      ∀ other ∈ graph.mounts, other ∈ url.containers →
        other.path.length ≤ mount.path.length := by
  refine ⟨mem_mounts_of_mountAround hfound, List.mem_of_find?_eq_some hfound, ?_⟩
  intro other hother hchain
  obtain ⟨_, nearer, farther, hcontainers, hnearer⟩ := List.find?_eq_some_iff_append.1 hfound
  have hpairwise := Url.containers_pairwise url
  rw [hcontainers] at hchain hpairwise
  rcases List.mem_append.1 hchain with hnear | hfar
  · have hnot := hnearer other hnear
    simp [hother] at hnot
  · rcases List.mem_cons.1 hfar with rfl | hfar
    · exact Nat.le_refl _
    · have hbehind := (List.pairwise_append.1 hpairwise).2.1
      exact (List.rel_of_pairwise_cons hbehind hfar).le

theorem mountAround_eq_none_iff :
    graph.mountAround url = none ↔ ∀ mount ∈ graph.mounts, mount ∉ url.containers := by
  unfold mountAround
  rw [List.find?_eq_none]
  constructor
  · intro h mount hmount hchain
    exact h mount hchain (List.contains_iff_mem.2 hmount)
  · intro h mount hchain hmount
    exact h mount (List.contains_iff_mem.1 hmount) hchain

/-- Whether a change at the url reaches the place: the place is the url, or inside it, or the
nearest mount around it. -/
def Reaches (graph : Graph) (url place : Url) : Prop :=
  place = url ∨ url ∈ place.containers ∨ graph.mountAround url = some place

/-- One step outwards everything is still reached. What was the url is inside now, and the nearest
mount stays the nearest one unless it is the container itself. -/
theorem Reaches.container {outer place : Url} (hcontainer : url.container = some outer)
    (hreaches : graph.Reaches url place) : graph.Reaches outer place := by
  have hchain := Url.containers_of_some hcontainer
  have houter : outer ∈ url.containers := by
    rw [hchain]
    exact List.mem_cons_self
  rcases hreaches with rfl | hinside | haround
  · exact Or.inr (Or.inl houter)
  · exact Or.inr (Or.inl (Url.mem_containers_trans houter hinside))
  · unfold mountAround at haround
    rw [hchain, List.find?_cons] at haround
    split at haround
    · exact Or.inl (Option.some.inj haround).symm
    · exact Or.inr (Or.inr haround)

theorem Reaches.outwards {outer place : Url} (houter : outer ∈ url.containers)
    (hreaches : graph.Reaches url place) : graph.Reaches outer place := by
  induction url using Url.containers.induct with
  | case1 url hcontainer =>
    rw [Url.containers_of_none hcontainer] at houter
    cases houter
  | case2 url up hcontainer ih =>
    have hup : graph.Reaches up place := hreaches.container hcontainer
    rw [Url.containers_of_some hcontainer] at houter
    rcases List.mem_cons.1 houter with rfl | hfarther
    · exact hup
    · exact ih hfarther hup

/-- So no reference is lost on the way outwards. -/
theorem Concerns.outwards {reference : Reference} {outer : Url} (houter : outer ∈ url.containers)
    (hconcerns : graph.Concerns reference url) : graph.Concerns reference outer := by
  obtain ⟨place, hrefers, hreaches⟩ := hconcerns
  exact ⟨place, hrefers, Reaches.outwards houter hreaches⟩

section
variable {raw : String} (hparse : Url.parse raw = .ok url)
  (hplain : url.scheme = .file → Markless url.path)
include hparse hplain

theorem mem_containers_mount {mount : Url} (hmount : mount ∈ graph.mounts) :
    mount ∈ url.containers ↔ mount.Holds url ∧ ¬mount.Divided url := by
  obtain ⟨hshape, hmark⟩ := shape_of_mem_mounts hmount
  exact Url.mem_containers_iff hshape hmark hparse hplain

/-- If nothing divides the url from the deepest mount, that one is found. -/
theorem deepest_of_mountAround
    (hundivided : ∀ mount, graph.Deepest url mount → ¬mount.Divided url) {mount : Url}
    (hfound : graph.mountAround url = some mount) : graph.Deepest url mount := by
  obtain ⟨hmem, hchain, hfirst⟩ := mountAround_spec hfound
  have hholds := ((mem_containers_mount hparse hplain hmem).1 hchain).1
  obtain ⟨deepest, hdeepest⟩ := exists_deepest hmem hholds
  have hdeepestChain : deepest ∈ url.containers :=
    (mem_containers_mount hparse hplain hdeepest.mem).2 ⟨hdeepest.holds, hundivided _ hdeepest⟩
  refine ⟨hmem, hholds, ?_⟩
  intro other hother hholdsOther
  calc
    other.path.length ≤ deepest.path.length := hdeepest.deepest other hother hholdsOther
    _ ≤ mount.path.length := hfirst deepest hdeepest.mem hdeepestChain

theorem findsDeepest_iff {coverage : Coverage} {atlas : Atlas}
    (htracks : coverage.Tracks atlas graph.references) :
    graph.FindsDeepest atlas url (coverage.mountOver atlas url) ↔
      ∀ mount, graph.Deepest url mount → ¬mount.Divided url := by
  have hanswer := Coverage.mountOver_eq htracks url
  have hnone : coverage.mountOver atlas url = none ↔ graph.mountAround url = none := by
    rw [hanswer]
    cases hfound : graph.mountAround url with
    | none => simp
    | some mount =>
      obtain ⟨id, hid⟩ :=
        Coverage.knows_of_mem_mounts htracks (mem_mounts_of_mountAround hfound)
      simp [hid]
  constructor
  · intro h mount hdeepest hdivided
    cases hfound : graph.mountAround url with
    | none => exact h.none_iff.1 (hnone.2 hfound) mount hdeepest.mem hdeepest.holds
    | some found =>
      obtain ⟨hmem, hchain, _⟩ := mountAround_spec hfound
      obtain ⟨id, hid⟩ := Coverage.knows_of_mem_mounts htracks hmem
      obtain ⟨other, hother, hotherId⟩ := h.found id (by rw [hanswer, hfound]; exact hid)
      -- All three are one mount, and the one on the chain is not divided from the url.
      obtain rfl := Atlas.find?_inj hotherId hid
      obtain rfl := hother.unique hdeepest
      exact ((mem_containers_mount hparse hplain hmem).1 hchain).2 hdivided
  · intro h
    refine ⟨?_, ?_⟩
    · intro id hid
      rw [hanswer] at hid
      obtain ⟨mount, hfound, hmountId⟩ := Option.bind_eq_some_iff.1 hid
      exact ⟨mount, deepest_of_mountAround hparse hplain h hfound, hmountId⟩
    · rw [hnone, mountAround_eq_none_iff]
      refine ⟨?_, ?_⟩
      · intro hout mount hmem hholds
        obtain ⟨deepest, hdeepest⟩ := exists_deepest hmem hholds
        apply hout deepest hdeepest.mem
        exact (mem_containers_mount hparse hplain hdeepest.mem).2
          ⟨hdeepest.holds, h deepest hdeepest⟩
      · intro hout mount hmem hchain
        exact hout mount hmem ((mem_containers_mount hparse hplain hmem).1 hchain).1

end

end Graph

namespace Workspace

/-- The mount that is found with any later state of the workspace is the deepest one, if no mark
divides the url from that. No mark does if the url lies in one archive at most. -/
theorem mountOver_deepest_iff {graph : Graph} {atlas : Atlas} {later : Workspace}
    (hlater : (load graph atlas).Leads later) {raw : String} {url : Url}
    (hparse : Url.parse raw = .ok url) (hplain : url.scheme = .file → Markless url.path) :
    (graph.FindsDeepest later.atlas url
        ((load graph atlas).current.coverage.mountOver later.atlas url) ↔
      ∀ mount, graph.Deepest url mount → ¬mount.Divided url) ∧
    ((∀ host inside, cutAt archiveMark url.path = some (host, inside) → Markless inside) →
      graph.FindsDeepest later.atlas url
        ((load graph atlas).current.coverage.mountOver later.atlas url)) := by
  have htracks := tracks_of_leads hlater
  refine ⟨Graph.findsDeepest_iff hparse hplain htracks, ?_⟩
  intro hshallow
  apply (Graph.findsDeepest_iff hparse hplain htracks).2
  intro mount hdeepest
  exact hdeepest.holds.not_divided (Graph.shape_of_mem_mounts hdeepest.mem).2 hshallow

/-- A library in an archive. -/
def archiveGraph : Graph :=
  Graph.ofList [⟨"library:x", .library, "x", [⟨"class_root", "/a/x.jar!/", false⟩]⟩]

/-- The archive of the library. -/
def archiveMount : Url :=
  ⟨.jar, "/a/x.jar!/".toList⟩

/-- An entry of the archive. -/
def shallowEntry : Url :=
  ⟨.jar, "/a/x.jar!/b/c".toList⟩

/-- An entry of an archive in the archive. -/
def nestedEntry : Url :=
  ⟨.jar, "/a/x.jar!/b/y.jar!/c".toList⟩

theorem mountOver_deepest_iff_shallow :
    Url.parse "/a/x.jar!/b/c" = .ok shallowEntry ∧
      (shallowEntry.scheme = .file → Markless shallowEntry.path) ∧
      ((archiveGraph.FindsDeepest (load archiveGraph {}).atlas shallowEntry
          ((load archiveGraph {}).current.coverage.mountOver (load archiveGraph {}).atlas
            shallowEntry) ↔
        ∀ mount, archiveGraph.Deepest shallowEntry mount → ¬mount.Divided shallowEntry) ∧
      ((∀ host inside, cutAt archiveMark shallowEntry.path = some (host, inside) →
          Markless inside) →
        archiveGraph.FindsDeepest (load archiveGraph {}).atlas shallowEntry
          ((load archiveGraph {}).current.coverage.mountOver (load archiveGraph {}).atlas
            shallowEntry))) ∧
      ((load archiveGraph {}).current.coverage.mountOver (load archiveGraph {}).atlas
        shallowEntry).bind (load archiveGraph {}).atlas.url? = some archiveMount := by
  have hparse : Url.parse "/a/x.jar!/b/c" = .ok shallowEntry := by decide +kernel
  have hplain : shallowEntry.scheme = .file → Markless shallowEntry.path := by
    intro hfile
    cases hfile
  exact ⟨hparse, hplain, mountOver_deepest_iff .refl hparse hplain, by decide +kernel⟩

/-- The mount over an entry of an archive in the archive is not found. -/
theorem mountOver_nested_missed :
    Url.parse "/a/x.jar!/b/y.jar!/c" = .ok nestedEntry ∧
      archiveGraph.Deepest nestedEntry archiveMount ∧
      (load archiveGraph {}).current.coverage.mountOver (load archiveGraph {}).atlas
        nestedEntry = none ∧
      ¬archiveGraph.FindsDeepest (load archiveGraph {}).atlas nestedEntry
        ((load archiveGraph {}).current.coverage.mountOver (load archiveGraph {}).atlas
          nestedEntry) := by
  have hmounts : archiveGraph.mounts = [archiveMount] := by decide +kernel
  have hmem : archiveMount ∈ archiveGraph.mounts := by
    rw [hmounts]
    exact List.mem_singleton_self _
  have hholds : archiveMount.Holds nestedEntry := Or.inl ⟨rfl, by decide +kernel⟩
  have hnone : (load archiveGraph {}).current.coverage.mountOver (load archiveGraph {}).atlas
      nestedEntry = none := by
    decide +kernel
  refine ⟨by decide +kernel, ⟨hmem, hholds, ?_⟩, hnone, ?_⟩
  · intro other hother _
    rw [hmounts] at hother
    rw [List.mem_singleton.1 hother]
  · intro hfinds
    exact hfinds.none_iff.1 hnone archiveMount hmem hholds

end Workspace

end ProjectRoots
