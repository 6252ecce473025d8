import ProjectRoots.Proofs.Atlas
import ProjectRoots.Workspace

/- What a coverage holds. A coverage keeps the ids that the atlas gave to the urls of the roots when
   it was taken, and the atlas goes on growing.

     1. `tracks_ofGraph` — the coverage of a graph holds the id of every root that denotes a url,
        and nothing else (`Tracks`). It is the invariant of the loop over the roots.
     2. `Tracks.of_grows` — it still does so with every later state of the atlas.
     3. `Leads.grows` — whatever happens in a workspace, its atlas only grows. -/
namespace ProjectRoots

/-- Whether the text of the root denotes the url. -/
def Root.Denotes (root : Root) (url : Url) : Prop :=
  Url.parse root.url = .ok url

/-- Whether the root denotes the url as a mount: it is flagged as one, or the url is the root of an
archive. -/
def Root.Mounts (root : Root) (url : Url) : Prop :=
  root.Denotes url ∧ (root.archiveMount = true ∨ url.isArchiveRoot = true)

theorem Root.denotes_unique {root : Root} {a b : Url} (ha : root.Denotes a) (hb : root.Denotes b) :
    a = b :=
  Except.ok.inj (ha.symm.trans hb)

/-- Whether the root denotes the url that has this id. -/
def Root.HasId (root : Root) (atlas : Atlas) (id : Nat) : Prop :=
  ∃ url, root.Denotes url ∧ atlas.find? url = some id

/-- Whether the root denotes the mount that has this id. -/
def Root.HasMountId (root : Root) (atlas : Atlas) (id : Nat) : Prop :=
  ∃ url, root.Mounts url ∧ atlas.find? url = some id

section
variable {root : Root} {atlas : Atlas} {url : Url} {id : Nat} (hdenotes : root.Denotes url)
  (hid : atlas.find? url = some id)
include hdenotes hid

/-- A root denotes one url at most, and so has one id at most. -/
theorem Root.hasId_iff {wanted : Nat} : root.HasId atlas wanted ↔ wanted = id := by
  constructor
  · intro h
    obtain ⟨other, hother, hfind⟩ := h
    obtain rfl := Root.denotes_unique hother hdenotes
    exact Option.some.inj (hfind.symm.trans hid)
  · intro h
    exact ⟨url, hdenotes, h ▸ hid⟩

theorem Root.hasMountId_iff {wanted : Nat} :
    root.HasMountId atlas wanted ↔
      (root.archiveMount || url.isArchiveRoot) = true ∧ wanted = id := by
  constructor
  · intro h
    obtain ⟨other, ⟨hother, hflag⟩, hfind⟩ := h
    obtain rfl := Root.denotes_unique hother hdenotes
    exact ⟨by simpa using hflag, Option.some.inj (hfind.symm.trans hid)⟩
  · intro h
    obtain ⟨hflag, rfl⟩ := h
    exact ⟨url, ⟨hdenotes, by simpa using hflag⟩, hid⟩

end

namespace Coverage

/-- With this atlas, the coverage holds the urls of these roots: all of them are known, each is
posted under its id for its reference, and the ids of the mounts among them are the mounts. -/
structure Tracks (coverage : Coverage) (atlas : Atlas) (items : List (Reference × Root)) :
    Prop where
  known : ∀ item ∈ items, ∀ url, item.2.Denotes url → atlas.Knows url
  posted : ∀ id reference, (id, reference) ∈ coverage.postings ↔
    ∃ item ∈ items, item.1 = reference ∧ item.2.HasId atlas id
  mounted : ∀ id, id ∈ coverage.mounts ↔ ∃ item ∈ items, item.2.HasMountId atlas id

/-- The ids that a coverage holds are as good with any later state of the atlas. -/
theorem Tracks.of_grows {coverage : Coverage} {atlas later : Atlas}
    {items : List (Reference × Root)} (htracks : coverage.Tracks atlas items)
    (hgrows : atlas.Grows later) : coverage.Tracks later items := by
  have hfind : ∀ item ∈ items, ∀ url, item.2.Denotes url → later.find? url = atlas.find? url := by
    intro item hitem url hdenotes
    exact hgrows.find?_eq (htracks.known item hitem url hdenotes)
  refine ⟨?_, ?_, ?_⟩
  · intro item hitem url hdenotes
    exact hgrows.extends_later.knows (htracks.known item hitem url hdenotes)
  · intro id reference
    rw [htracks.posted]
    apply exists_congr
    intro item
    apply and_congr_right
    intro hitem
    apply and_congr_right
    intro _
    apply exists_congr
    intro url
    apply and_congr_right
    intro hdenotes
    rw [hfind item hitem url hdenotes]
  · intro id
    rw [htracks.mounted]
    apply exists_congr
    intro item
    apply and_congr_right
    intro hitem
    apply exists_congr
    intro url
    apply and_congr_right
    intro hmounts
    rw [hfind item hitem url hmounts.1]

/-! ## The loop over the roots -/

/-- What one round adds: the reference under the id of the root, if the root denotes a url, and that
id to the mounts, if the url is one. -/
structure Posts (coverage : Coverage) (atlas : Atlas) (item : Reference × Root)
    (next : Coverage × Atlas) : Prop where
  grows : atlas.Grows next.2
  known : ∀ url, item.2.Denotes url → next.2.Knows url
  posted : ∀ id reference, (id, reference) ∈ next.1.postings ↔
    (id, reference) ∈ coverage.postings ∨ item.1 = reference ∧ item.2.HasId next.2 id
  mounted : ∀ id, id ∈ next.1.mounts ↔ id ∈ coverage.mounts ∨ item.2.HasMountId next.2 id

theorem posts_of_denotes {coverage : Coverage} {atlas : Atlas} {item : Reference × Root} {url : Url}
    (hdenotes : item.2.Denotes url) : coverage.Posts atlas item (post (coverage, atlas) item) := by
  have hid := Atlas.find?_idOf_intern atlas url
  have hparse : Url.parse item.2.url = .ok url := hdenotes
  have hnext : (post (coverage, atlas) item).2 = atlas.intern url := by
    simp [post, hparse]
  refine ⟨?_, ?_, ?_, ?_⟩
  · rw [hnext]
    exact Atlas.Grows.refl.intern url
  · intro other hother
    rw [hnext, Root.denotes_unique hother hdenotes]
    exact ⟨_, hid⟩
  · intro wanted reference
    rw [hnext, Root.hasId_iff hdenotes hid]
    simp only [post, hparse]
    split
    · rename_i hold
      refine ⟨Or.inl, ?_⟩
      intro h
      rcases h with hposted | ⟨rfl, rfl⟩
      · exact hposted
      · exact hold
    · simp [and_comm, eq_comm]
  · intro wanted
    rw [hnext, Root.hasMountId_iff hdenotes hid]
    simp only [post, hparse]
    split
    · rename_i hflag
      simp [hflag, or_comm]
    · rename_i hflag
      simp [hflag]

theorem posts_of_not_denotes {coverage : Coverage} {atlas : Atlas} {item : Reference × Root}
    (hnot : ∀ url, ¬item.2.Denotes url) :
    coverage.Posts atlas item (post (coverage, atlas) item) := by
  have hpost : post (coverage, atlas) item = (coverage, atlas) := by
    cases hparse : Url.parse item.2.url with
    | error fault => simp [post, hparse]
    | ok url => exact absurd hparse (hnot url)
  rw [hpost]
  refine ⟨.refl, fun url hdenotes => absurd hdenotes (hnot url), ?_, ?_⟩
  · intro id reference
    refine ⟨Or.inl, ?_⟩
    intro h
    rcases h with hold | ⟨_, url, hdenotes, _⟩
    · exact hold
    · exact absurd hdenotes (hnot url)
  · intro id
    refine ⟨Or.inl, ?_⟩
    intro h
    rcases h with hold | ⟨url, hmounts, _⟩
    · exact hold
    · exact absurd hmounts.1 (hnot url)

theorem posts_post (coverage : Coverage) (atlas : Atlas) (item : Reference × Root) :
    coverage.Posts atlas item (post (coverage, atlas) item) := by
  by_cases hdenotes : ∃ url, item.2.Denotes url
  · obtain ⟨url, hdenotes⟩ := hdenotes
    exact posts_of_denotes hdenotes
  · exact posts_of_not_denotes fun url h => hdenotes ⟨url, h⟩

/-- One round of the loop. -/
theorem tracks_post {coverage : Coverage} {atlas : Atlas} {items : List (Reference × Root)}
    (htracks : coverage.Tracks atlas items) (item : Reference × Root) :
    (post (coverage, atlas) item).1.Tracks (post (coverage, atlas) item).2 (items ++ [item]) := by
  have hposts := posts_post coverage atlas item
  have hlater := htracks.of_grows hposts.grows
  refine ⟨?_, ?_, ?_⟩
  · intro seen hseen url hdenotes
    rcases List.mem_append.1 hseen with hold | hnew
    · exact hlater.known seen hold url hdenotes
    · obtain rfl := List.mem_singleton.1 hnew
      exact hposts.known url hdenotes
  · intro id reference
    rw [hposts.posted, hlater.posted]
    simp [or_and_right, exists_or]
  · intro id
    rw [hposts.mounted, hlater.mounted]
    simp [or_and_right, exists_or]

theorem tracks_foldl_post {coverage : Coverage} {atlas : Atlas}
    {done : List (Reference × Root)} (htracks : coverage.Tracks atlas done)
    (items : List (Reference × Root)) :
    (items.foldl post (coverage, atlas)).1.Tracks (items.foldl post (coverage, atlas)).2
        (done ++ items) ∧
      atlas.Grows (items.foldl post (coverage, atlas)).2 := by
  induction items generalizing coverage atlas done with
  | nil => exact ⟨by simpa using htracks, .refl⟩
  | cons item rest ih =>
    obtain ⟨hrest, hgrows⟩ := ih (tracks_post htracks item)
    rw [List.append_assoc, List.singleton_append] at hrest
    exact ⟨hrest, (posts_post coverage atlas item).grows.trans hgrows⟩

theorem tracks_nil (version : Nat) (atlas : Atlas) : Tracks ⟨version, [], []⟩ atlas [] := by
  refine ⟨?_, ?_, ?_⟩ <;> simp

/-- The coverage of a graph holds the urls of its roots. -/
theorem tracks_ofGraph (graph : Graph) (atlas : Atlas) :
    (ofGraph graph atlas).1.Tracks (ofGraph graph atlas).2 graph.references ∧
      atlas.Grows (ofGraph graph atlas).2 :=
  tracks_foldl_post (tracks_nil graph.version atlas) graph.references

theorem grows_foldl_post (state : Coverage × Atlas) (items : List (Reference × Root)) :
    state.2.Grows (items.foldl post state).2 := by
  induction items generalizing state with
  | nil => exact .refl
  | cons item rest ih => exact (posts_post state.1 state.2 item).grows.trans (ih _)

/-- One round makes the same of a coverage with every later state of the atlas, which is left as it
is. -/
theorem post_of_grows {coverage : Coverage} {atlas later : Atlas} {item : Reference × Root}
    (hgrows : (post (coverage, atlas) item).2.Grows later) :
    post (coverage, later) item = ((post (coverage, atlas) item).1, later) := by
  cases hparse : Url.parse item.2.url with
  | error fault => simp only [post, hparse]
  | ok url =>
    simp only [post, hparse] at hgrows ⊢
    have hfind := Atlas.find?_idOf_intern atlas url
    have hlater := hgrows.extends_later.found url _ hfind
    have hintern := Atlas.intern_of_knows ⟨_, hlater⟩
    have hsame : later.idOf url = (atlas.intern url).idOf url := by
      rw [Atlas.idOf, hlater, Option.getD_some]
    rw [hintern, hsame]

/-- So a coverage can be taken again with any later state of the atlas. -/
theorem foldl_post_of_grows {coverage : Coverage} {atlas later : Atlas}
    {items : List (Reference × Root)}
    (hgrows : (items.foldl post (coverage, atlas)).2.Grows later) :
    items.foldl post (coverage, later) = ((items.foldl post (coverage, atlas)).1, later) := by
  induction items generalizing coverage atlas with
  | nil => rfl
  | cons item rest ih =>
    have hfirst := grows_foldl_post (post (coverage, atlas) item) rest
    rw [List.foldl_cons, post_of_grows (hfirst.trans hgrows)]
    exact ih hgrows

/-- The version is kept, and makes no difference to the rest. -/
theorem foldl_post_version (version : Nat) (state : Coverage × Atlas)
    (items : List (Reference × Root)) :
    items.foldl post ({ state.1 with version := version }, state.2) =
      ({ (items.foldl post state).1 with version := version }, (items.foldl post state).2) := by
  induction items generalizing state with
  | nil => rfl
  | cons item rest ih =>
    rw [List.foldl_cons, List.foldl_cons, ← ih]
    congr 1
    cases hparse : Url.parse item.2.url <;> simp only [post, hparse]

/-- Posting roots whose urls are known leaves the atlas as it is. -/
theorem atlas_foldl_post {atlas : Atlas} {items : List (Reference × Root)}
    (hknown : ∀ item ∈ items, ∀ url, item.2.Denotes url → atlas.Knows url) (coverage : Coverage) :
    (items.foldl post (coverage, atlas)).2 = atlas := by
  induction items generalizing coverage with
  | nil => rfl
  | cons item rest ih =>
    have hfirst : (post (coverage, atlas) item).2 = atlas := by
      cases hparse : Url.parse item.2.url with
      | error fault => simp [post, hparse]
      | ok url =>
        have hurl := Atlas.intern_of_knows (hknown item List.mem_cons_self url hparse)
        simp [post, hparse, hurl]
    rw [List.foldl_cons, show post (coverage, atlas) item = (_, atlas) from Prod.ext rfl hfirst]
    exact ih (fun other hmem => hknown other (List.mem_cons_of_mem _ hmem)) _

end Coverage

/-! ## Later states -/

namespace Workspace

/-- The later states of a workspace: urls are entered, and commits are accepted. A refused commit
changes nothing. -/
inductive Leads (workspace : Workspace) : Workspace → Prop
  | refl : Leads workspace workspace
  | intern {later : Workspace} (leads : Leads workspace later) (url : Url) :
    Leads workspace (later.intern url)
  | commit {later next : Workspace} (leads : Leads workspace later) {commit : Commit}
    (accepted : later.commit commit = .ok next) : Leads workspace next

theorem grows_load (graph : Graph) (atlas : Atlas) : atlas.Grows (load graph atlas).atlas :=
  (Coverage.tracks_ofGraph graph atlas).2

theorem grows_commit {workspace next : Workspace} {commit : Commit}
    (haccepted : workspace.commit commit = .ok next) : workspace.atlas.Grows next.atlas := by
  unfold Workspace.commit at haccepted
  split at haccepted
  · rename_i graph _
    cases haccepted
    exact grows_load graph workspace.atlas
  · cases haccepted

theorem Leads.grows {workspace later : Workspace} (hleads : workspace.Leads later) :
    workspace.atlas.Grows later.atlas := by
  induction hleads with
  | refl => exact .refl
  | intern _ url ih => exact ih.intern url
  | commit _ haccepted ih => exact ih.trans (grows_commit haccepted)

theorem tracks_of_leads {graph : Graph} {atlas : Atlas} {later : Workspace}
    (hleads : (load graph atlas).Leads later) :
    (load graph atlas).current.coverage.Tracks later.atlas graph.references :=
  (Coverage.tracks_ofGraph graph atlas).1.of_grows hleads.grows

end Workspace

end ProjectRoots
