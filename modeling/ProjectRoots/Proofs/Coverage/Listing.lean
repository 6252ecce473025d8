import ProjectRoots.Proofs.Coverage.Scan

/- What a coverage lists under an id, and in which order. The loop over the roots posts a reference
   under an id once, when it meets the first root for it, so the postings are in the order of these
   first roots.

     1. `places_pairwise` — the roots of a graph are in the order of the entities' ids, and within
        an entity as it lists them.
     2. `inTurn_post`, `inTurn_ofGraph` — the order of the postings, as the invariant of the loop.
     3. `nodup_lookup`, `pairwise_lookup` — so under an id each reference is listed once, and before
        another one if the first of its roots is. -/
namespace ProjectRoots

/-! ## The roots of a graph in their order -/

/-- A root of an entity, and its position there. -/
structure Place where
  entity : Entity
  position : Nat
  root : Root

namespace Place

/-- The reference that the root is for. -/
def reference (place : Place) : Reference :=
  ⟨place.entity.id, place.root.property⟩

/-- Places are ordered by the ids of the entities, and within an entity by the positions. -/
def Before (a b : Place) : Prop :=
  a.entity.id < b.entity.id ∨ a.entity.id = b.entity.id ∧ a.position < b.position

/-- Whether the root at this place is for the reference and denotes the url. -/
def Refers (place : Place) (reference : Reference) (url : Url) : Prop :=
  place.reference = reference ∧ place.root.Denotes url

end Place

/-- The roots of an entity at their places. -/
def Entity.places (entity : Entity) : List Place :=
  entity.roots.zipIdx.map fun entry => ⟨entity, entry.2, entry.1⟩

namespace Graph

/-- All roots at their places. -/
def places (graph : Graph) : List Place :=
  graph.entities.flatMap Entity.places

/-- Of the roots that denote the url, the first one for `a` stands before all for `b`. -/
def ListsBefore (graph : Graph) (url : Url) (a b : Reference) : Prop :=
  ∃ place ∈ graph.places, place.Refers a url ∧
    ∀ other ∈ graph.places, other.Refers b url → place.Before other

theorem places_pairwise (graph : Graph) : graph.places.Pairwise Place.Before := by
  rw [places, List.pairwise_flatMap]
  refine ⟨fun entity _ => ?_, ?_⟩
  · have hpositions : (entity.roots.zipIdx.map Prod.snd).Pairwise (· < ·) := by
      rw [List.zipIdx_map_snd]
      exact List.pairwise_lt_range' 1
    rw [Entity.places, List.pairwise_map]
    exact (List.pairwise_map.1 hpositions).imp fun h => Or.inr ⟨rfl, h⟩
  · apply graph.ascending.imp
    intro a b hab place hplace other hother
    obtain ⟨_, _, rfl⟩ := List.mem_map.1 hplace
    obtain ⟨_, _, rfl⟩ := List.mem_map.1 hother
    exact Or.inl (of_decide_eq_true hab)

theorem map_places (graph : Graph) :
    graph.places.map (fun place => (place.reference, place.root)) = graph.references := by
  rw [places, references, List.map_flatMap]
  congr 1
  funext entity
  rw [Entity.places, Entity.references, List.map_map]
  conv_rhs => rw [← List.zipIdx_map_fst 0 entity.roots, List.map_map]
  rfl

end Graph

/-! ## The order of the postings -/

namespace Coverage

/-- Whether the item is one for which the posting is made. -/
def Posted (atlas : Atlas) (item : Reference × Root) (posting : Nat × Reference) : Prop :=
  item.1 = posting.2 ∧ item.2.HasId atlas posting.1

/-- An item for the first posting comes before all items for the second one. -/
def Sooner (atlas : Atlas) (items : List (Reference × Root)) (a b : Nat × Reference) : Prop :=
  ∃ front item back, items = front ++ item :: back ∧ Posted atlas item a ∧
    ∀ other ∈ front, ¬Posted atlas other b

/-- The postings are made once each, in the order in which the items call for them. -/
def InTurn (coverage : Coverage) (atlas : Atlas) (items : List (Reference × Root)) : Prop :=
  coverage.postings.Pairwise fun a b => a ≠ b ∧ Sooner atlas items a b

variable {coverage : Coverage} {atlas later : Atlas} {items : List (Reference × Root)}

theorem Tracks.posted_iff_of_grows (htracks : coverage.Tracks atlas items)
    (hgrows : atlas.Grows later) {item : Reference × Root} (hmem : item ∈ items)
    (posting : Nat × Reference) : Posted later item posting ↔ Posted atlas item posting := by
  have hsame : item.2.HasId later posting.1 ↔ item.2.HasId atlas posting.1 := by
    refine exists_congr fun url => and_congr_right fun hdenotes => ?_
    rw [hgrows.find?_eq (htracks.known item hmem url hdenotes)]
  exact and_congr_right fun _ => hsame

theorem Tracks.mem_postings_iff (htracks : coverage.Tracks atlas items)
    {posting : Nat × Reference} :
    posting ∈ coverage.postings ↔ ∃ item ∈ items, Posted atlas item posting :=
  htracks.posted posting.1 posting.2

/-- The order is as good with any later state of the atlas. -/
theorem InTurn.of_grows (htracks : coverage.Tracks atlas items)
    (hinTurn : coverage.InTurn atlas items) (hgrows : atlas.Grows later) :
    coverage.InTurn later items := by
  refine List.Pairwise.imp (fun h => ⟨h.1, ?_⟩) hinTurn
  obtain ⟨front, item, back, hitems, hposted, hfront⟩ := h.2
  have hsame := fun (entry : Reference × Root) (hmem : entry ∈ items) =>
    htracks.posted_iff_of_grows hgrows hmem
  refine ⟨front, item, back, hitems, (hsame item (by simp [hitems]) _).2 hposted, ?_⟩
  intro other hother
  rw [hsame other (by simp [hitems, hother])]
  exact hfront other hother

theorem Sooner.append {a b : Nat × Reference} (hsooner : Sooner atlas items a b)
    (more : List (Reference × Root)) : Sooner atlas (items ++ more) a b := by
  obtain ⟨front, item, back, rfl, hrest⟩ := hsooner
  exact ⟨front, item, back ++ more, by simp, hrest⟩

/-- One round makes no posting or a new one, and that for its item. -/
theorem postings_post (coverage : Coverage) (atlas : Atlas) (item : Reference × Root) :
    (post (coverage, atlas) item).1.postings = coverage.postings ∨
      ∃ posting, posting ∉ coverage.postings ∧
        Posted (post (coverage, atlas) item).2 item posting ∧
        (post (coverage, atlas) item).1.postings = coverage.postings ++ [posting] := by
  cases hparse : Url.parse item.2.url with
  | error fault => exact Or.inl (by simp [post, hparse])
  | ok url =>
    simp only [post, hparse]
    split
    · exact Or.inl rfl
    · rename_i hnew
      exact Or.inr ⟨_, hnew, ⟨rfl, url, hparse, Atlas.find?_idOf_intern atlas url⟩, rfl⟩

/-- One round of the loop. A new posting was not called for before, so all items for it are behind
those for the others. -/
theorem inTurn_post (htracks : coverage.Tracks atlas items) (hinTurn : coverage.InTurn atlas items)
    (item : Reference × Root) :
    (post (coverage, atlas) item).1.InTurn (post (coverage, atlas) item).2 (items ++ [item]) := by
  have hgrows := (posts_post coverage atlas item).grows
  have hold : coverage.postings.Pairwise fun a b =>
      a ≠ b ∧ Sooner (post (coverage, atlas) item).2 (items ++ [item]) a b :=
    (hinTurn.of_grows htracks hgrows).imp fun h => ⟨h.1, h.2.append [item]⟩
  unfold InTurn
  rcases postings_post coverage atlas item with hsame | ⟨posting, hnew, hposted, hpostings⟩
  · rw [hsame]
    exact hold
  · rw [hpostings, List.pairwise_append]
    refine ⟨hold, List.pairwise_singleton _ _, ?_⟩
    intro a ha b hb
    obtain rfl := List.mem_singleton.1 hb
    have hlater := htracks.of_grows hgrows
    obtain ⟨first, hfirst, hcalls⟩ := hlater.mem_postings_iff.1 ha
    obtain ⟨front, back, rfl⟩ := List.append_of_mem hfirst
    refine ⟨fun hsame => hnew (hsame ▸ ha), Sooner.append ⟨front, first, back, rfl, hcalls, ?_⟩ _⟩
    intro other hother hcall
    exact hnew (hlater.mem_postings_iff.2 ⟨other, by simp [hother], hcall⟩)

theorem inTurn_foldl_post {done : List (Reference × Root)} (htracks : coverage.Tracks atlas done)
    (hinTurn : coverage.InTurn atlas done) (items : List (Reference × Root)) :
    (items.foldl post (coverage, atlas)).1.InTurn (items.foldl post (coverage, atlas)).2
      (done ++ items) := by
  induction items generalizing coverage atlas done with
  | nil => simpa using hinTurn
  | cons item rest ih =>
    have hrest := ih (tracks_post htracks item) (inTurn_post htracks hinTurn item)
    rw [List.append_assoc, List.singleton_append] at hrest
    exact hrest

theorem inTurn_ofGraph (graph : Graph) (atlas : Atlas) :
    (ofGraph graph atlas).1.InTurn (ofGraph graph atlas).2 graph.references :=
  inTurn_foldl_post (tracks_nil graph.version atlas) .nil graph.references

theorem version_foldl_post (state : Coverage × Atlas) (items : List (Reference × Root)) :
    (items.foldl post state).1.version = state.1.version :=
  congrArg (·.1.version) (foldl_post_version state.1.version state items)

theorem version_ofGraph (graph : Graph) (atlas : Atlas) :
    (ofGraph graph atlas).1.version = graph.version :=
  version_foldl_post _ graph.references

/-! ## What is listed under an id -/

theorem pairwise_lookup_iff {related : Reference → Reference → Prop} {id : Nat} :
    (coverage.lookup id).Pairwise related ↔
      coverage.postings.Pairwise fun a b => a.1 = id → b.1 = id → related a.2 b.2 := by
  rw [lookup, List.pairwise_filterMap]
  have hsame : ∀ a b : Nat × Reference,
      (∀ c, (if a.1 = id then some a.2 else none) = some c →
        ∀ d, (if b.1 = id then some b.2 else none) = some d → related c d) ↔
      (a.1 = id → b.1 = id → related a.2 b.2) := by
    intro a b
    by_cases ha : a.1 = id <;> by_cases hb : b.1 = id <;> simp [ha, hb]
  simp only [hsame]

theorem listsBefore_of_sooner {graph : Graph} {url : Url} {id : Nat}
    (hfind : atlas.find? url = some id) {a b : Reference} (hne : a ≠ b)
    (hsooner : Sooner atlas graph.references (id, a) (id, b)) : graph.ListsBefore url a b := by
  obtain ⟨front, item, back, hitems, ⟨hreference, place, hdenotes, hid⟩, hfront⟩ := hsooner
  obtain rfl := Atlas.find?_inj hfind hid
  rw [← Graph.map_places] at hitems
  obtain ⟨nearer, rest, hplaces, rfl, hrest⟩ := List.map_eq_append_iff.1 hitems
  obtain ⟨first, farther, rfl, hfirst, rfl⟩ := List.map_eq_cons_iff.1 hrest
  obtain rfl := hfirst
  refine ⟨first, by simp [hplaces], ⟨hreference, hdenotes⟩, ?_⟩
  intro other hother hrefers
  have hpairwise := graph.places_pairwise
  rw [hplaces] at hother hpairwise
  rcases List.mem_append.1 hother with hnear | hfar
  · exact absurd ⟨hrefers.1, url, hrefers.2, hfind⟩
      (hfront _ (List.mem_map_of_mem hnear))
  · rcases List.mem_cons.1 hfar with rfl | hfar
    · exact absurd (hreference.symm.trans hrefers.1) hne
    · exact List.rel_of_pairwise_cons (List.pairwise_append.1 hpairwise).2.1 hfar

section
variable {graph : Graph} (hinTurn : coverage.InTurn atlas graph.references)
include hinTurn

theorem nodup_lookup (id : Nat) : (coverage.lookup id).Nodup := by
  refine pairwise_lookup_iff.2 (List.Pairwise.imp (fun h ha hb hsame => ?_) hinTurn)
  exact h.1 (Prod.ext (ha.trans hb.symm) hsame)

/-- The references under an id are in the order of their first roots. -/
theorem pairwise_lookup {url : Url} {id : Nat} (hfind : atlas.find? url = some id) :
    (coverage.lookup id).Pairwise (graph.ListsBefore url) := by
  refine pairwise_lookup_iff.2 (List.Pairwise.imp (fun {a b} h ha hb => ?_) hinTurn)
  obtain ⟨hne, hsooner⟩ := h
  rw [show a = (id, a.2) from Prod.ext ha rfl, show b = (id, b.2) from Prod.ext hb rfl]
    at hne hsooner
  exact listsBefore_of_sooner hfind (fun hsame => hne (by rw [hsame])) hsooner

end

end Coverage

end ProjectRoots
