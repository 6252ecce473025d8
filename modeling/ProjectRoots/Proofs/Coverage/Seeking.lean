import ProjectRoots.Coverage
import ProjectRoots.Proofs.Atlas.Search
import ProjectRoots.Proofs.Url.Top

/- What goes along the containers of a url. `Atlas.enter` goes outwards as far as nothing is known,
   and `Coverage.mountOver` looks through the list of the containers. What they do step by step is
   said by a recursion that may as well not end (`Enters`), and by a search that takes one step
   after another until it comes upon a mount (`Seeks`).

     1. `enters_iff` — the recursion ends, in the atlas that `intern` makes and with the id that the
        url has there.
     2. `seeks_iff` — the search ends, with the answer of `mountOver`.
     3. `endsAtTop_of_reached` — and this is so for every url that a walk leads to, for the walk
        outwards from it ends at the root directory. -/
namespace ProjectRoots

namespace Atlas

/-- Entering a url, and the id that it has then. A url that is known is left alone. Otherwise its
container, if there is one, is entered first, and then a node is added that is linked to it. -/
inductive Enters (atlas : Atlas) : Url → Atlas → Nat → Prop
  | known {url : Url} {id : Nat} (hfind : atlas.find? url = some id) : Enters atlas url atlas id
  | outermost {url : Url} (hfind : atlas.find? url = none) (hcontainer : url.container = none) :
    Enters atlas url (atlas.add url none).1 atlas.size
  | inside {url up : Url} {middle : Atlas} {above : Nat} (hfind : atlas.find? url = none)
    (hcontainer : url.container = some up) (hup : Enters atlas up middle above) :
    Enters atlas url (middle.add url (some above)).1 middle.size

theorem Enters.unique {atlas a b : Atlas} {url : Url} {i j : Nat} (ha : atlas.Enters url a i)
    (hb : atlas.Enters url b j) : a = b ∧ i = j := by
  induction ha generalizing b j with
  | known hfind =>
    cases hb with
    | known hfind' => exact ⟨rfl, Option.some.inj (hfind.symm.trans hfind')⟩
    | outermost hfind' => simp [hfind] at hfind'
    | inside hfind' => simp [hfind] at hfind'
  | outermost hfind hcontainer =>
    cases hb with
    | known hfind' => simp [hfind] at hfind'
    | outermost => exact ⟨rfl, rfl⟩
    | inside _ hcontainer' => simp [hcontainer] at hcontainer'
  | inside hfind hcontainer _ ih =>
    cases hb with
    | known hfind' => simp [hfind] at hfind'
    | outermost _ hcontainer' => simp [hcontainer] at hcontainer'
    | inside _ hcontainer' hup =>
      obtain rfl := Option.some.inj (hcontainer.symm.trans hcontainer')
      obtain ⟨rfl, rfl⟩ := ih hup
      exact ⟨rfl, rfl⟩

theorem enters_enter (atlas : Atlas) (url : Url) :
    atlas.Enters url (atlas.enter url).1 (atlas.enter url).2 := by
  induction url using Url.containers.induct with
  | case1 url hcontainer =>
    rcases knows_or_unknown atlas url with ⟨id, hfind⟩ | hunknown
    · rw [enter_of_find? hfind]
      exact .known hfind
    · rw [enter_of_none hunknown hcontainer]
      exact .outermost hunknown hcontainer
  | case2 url up hcontainer ih =>
    rcases knows_or_unknown atlas url with ⟨id, hfind⟩ | hunknown
    · rw [enter_of_find? hfind]
      exact .known hfind
    · rw [enter_of_some hunknown hcontainer]
      exact .inside hunknown hcontainer ih

theorem enters_iff {atlas : Atlas} {url : Url} {next : Atlas} {id : Nat} :
    atlas.Enters url next id ↔ next = atlas.intern url ∧ id = (atlas.intern url).idOf url := by
  rw [idOf_intern]
  constructor
  · intro h
    exact h.unique (enters_enter atlas url)
  · rintro ⟨rfl, rfl⟩
    exact enters_enter atlas url

end Atlas

namespace Coverage

/-- The search for the nearest mount. It steps outwards until it comes upon a mount, and gives up
when there is no container. -/
inductive Seeks (coverage : Coverage) (atlas : Atlas) : Url → Option Nat → Prop
  | out {url : Url} (hcontainer : url.container = none) : Seeks coverage atlas url none
  | found {url up : Url} {id : Nat} (hcontainer : url.container = some up)
    (hfind : atlas.find? up = some id) (hmount : coverage.isMount id = true) :
    Seeks coverage atlas url (some id)
  | on {url up : Url} {answer : Option Nat} (hcontainer : url.container = some up)
    (hnone : ∀ id, atlas.find? up = some id → coverage.isMount id = false)
    (hrest : Seeks coverage atlas up answer) : Seeks coverage atlas url answer

variable {coverage : Coverage} {atlas : Atlas} {url : Url}

theorem Seeks.unique {a b : Option Nat} (ha : coverage.Seeks atlas url a)
    (hb : coverage.Seeks atlas url b) : a = b := by
  induction ha generalizing b with
  | out hcontainer =>
    cases hb with
    | out => rfl
    | found hcontainer' => simp [hcontainer] at hcontainer'
    | on hcontainer' => simp [hcontainer] at hcontainer'
  | found hcontainer hfind hmount =>
    cases hb with
    | out hcontainer' => simp [hcontainer] at hcontainer'
    | found hcontainer' hfind' =>
      obtain rfl := Option.some.inj (hcontainer.symm.trans hcontainer')
      exact hfind.symm.trans hfind'
    | on hcontainer' hnone =>
      obtain rfl := Option.some.inj (hcontainer.symm.trans hcontainer')
      simp [hnone _ hfind] at hmount
  | on hcontainer hnone _ ih =>
    cases hb with
    | out hcontainer' => simp [hcontainer] at hcontainer'
    | found hcontainer' hfind hmount =>
      obtain rfl := Option.some.inj (hcontainer.symm.trans hcontainer')
      simp [hnone _ hfind] at hmount
    | on hcontainer' _ hrest =>
      obtain rfl := Option.some.inj (hcontainer.symm.trans hcontainer')
      exact ih hrest

theorem seeks_mountOver (coverage : Coverage) (atlas : Atlas) (url : Url) :
    coverage.Seeks atlas url (coverage.mountOver atlas url) := by
  induction url using Url.containers.induct with
  | case1 url hcontainer =>
    rw [mountOver, Url.containers_of_none hcontainer]
    exact .out hcontainer
  | case2 url up hcontainer ih =>
    rw [mountOver, Url.containers_of_some hcontainer, List.findSome?_cons]
    cases hfound : (atlas.find? up).filter coverage.isMount with
    | some id =>
      obtain ⟨hfind, hmount⟩ := Option.filter_eq_some_iff.1 hfound
      exact .found hcontainer hfind hmount
    | none =>
      refine .on hcontainer ?_ ih
      intro id hfind
      simpa [hfind] using hfound

theorem seeks_iff {answer : Option Nat} :
    coverage.Seeks atlas url answer ↔ answer = coverage.mountOver atlas url := by
  constructor
  · intro h
    exact h.unique (coverage.seeks_mountOver atlas url)
  · rintro rfl
    exact coverage.seeks_mountOver atlas url

end Coverage

namespace Url

/-- The walk outwards ends at the root directory, and so does whatever goes along it. -/
structure EndsAtTop (url : Url) : Prop where
  /-- A step outwards leaves less of the path. -/
  shorter : ∀ inner ∈ url :: url.containers, ∀ outer, inner.container = some outer →
    outer.path <+: inner.path ∧ outer.path.length < inner.path.length
  /-- The walk ends, with just these stops. -/
  walked : ∀ listed, url.Ascends listed ↔ listed = url.containers
  last : (url :: url.containers).getLast? = some top
  marked : ∀ outer ∈ url :: url.containers, outer.scheme = .jar → archiveMark <:+: outer.path
  /-- On the way the scheme changes once at most: archives are left, and not entered again. -/
  left : ∃ inside outside, url :: url.containers = inside ++ outside ∧
    (∀ inner ∈ inside, inner.scheme = .jar) ∧ ∀ outer ∈ outside, outer.scheme = .file
  /-- Entering the url ends, whatever was entered before. -/
  entered : ∀ urls next id, (Atlas.ofList urls).Enters url next id ↔
    next = (Atlas.ofList urls).intern url ∧ id = ((Atlas.ofList urls).intern url).idOf url
  /-- The search for the mount around the url ends. -/
  sought : ∀ (coverage : Coverage) atlas answer,
    coverage.Seeks atlas url answer ↔ answer = coverage.mountOver atlas url
  /-- Where the url is known, the search along the links upwards ends. -/
  climbed : ∀ urls id, (Atlas.ofList urls).url? id = some url → ∀ listed,
    (Atlas.ofList urls).Climbs id listed ↔ listed = (Atlas.ofList urls).ancestors id

theorem endsAtTop_of_reached {url : Url} (hurl : Reached url) : EndsAtTop url where
  shorter _ _ _ hcontainer :=
    ⟨(container_isPrefix hcontainer).1, container_length_lt hcontainer⟩
  walked _ := ascends_iff
  last := hurl.rooted.getLast?_containers
  marked outer hmem hjar := by
    have hrooted : outer.Rooted := by
      rcases List.mem_cons.1 hmem with rfl | hmem
      · exact hurl.rooted
      · exact hurl.rooted.containers outer hmem
    obtain ⟨file, inside, hcut⟩ := exists_cut_of_mark (hrooted.marked hjar)
    exact ⟨file, inside, (eq_of_cutAt hcut).symm⟩
  left := exists_inside_outside url
  entered _ _ _ := Atlas.enters_iff
  sought _ _ _ := Coverage.seeks_iff
  climbed urls _ _ _ := Atlas.climbs_iff (Atlas.sound_ofList urls).links

/-- A walk into the archive that a file is whose path ends with a mark already. On the way back the
mark in front is the one that counts. -/
theorem endsAtTop_of_reached_marked :
    Reached ⟨.jar, "/a!/!/c".toList⟩ ∧ EndsAtTop ⟨.jar, "/a!/!/c".toList⟩ ∧
      containers ⟨.jar, "/a!/!/c".toList⟩ =
        [⟨.jar, "/a!/!/".toList⟩, ⟨.file, "/a".toList⟩, top] := by
  have hfile : Reached ⟨.file, "/a!/".toList⟩ := .parsed "file:///a!/" (by rfl)
  have hroot : Reached ⟨.jar, "/a!/!/".toList⟩ := .taken .archiveRoot hfile (by rfl)
  have hentry : Reached ⟨.jar, "/a!/!/c".toList⟩ := .taken (.child "c".toList) hroot (by rfl)
  have hends := endsAtTop_of_reached hentry
  refine ⟨hentry, hends, ?_⟩
  have hwalk : Ascends ⟨.jar, "/a!/!/c".toList⟩
      [⟨.jar, "/a!/!/".toList⟩, ⟨.file, "/a".toList⟩, top] :=
    .step (by rfl) (.step (by rfl) (.step (by rfl) (.done (by rfl))))
  exact ((hends.walked _).1 hwalk).symm

end Url

end ProjectRoots
