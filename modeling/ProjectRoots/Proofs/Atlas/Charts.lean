import ProjectRoots.Proofs.Atlas

/- The atlas of some urls. When urls are entered one after another, an atlas comes to hold these and
   whatever is around them, its links are the steps outwards, and the map and the stored sets say
   the same as the nodes (`Sound`). In which order the urls came, and how often, only decides which
   ids they have.

     1. `knows_ofList` — what is known are the urls entered and their containers.
     2. `Sound.parent?_of_container`, `Sound.mem_children_iff` — the links lead from a url to its
        container, which is older, and the stored sets lead back.
     3. `Sound.encloses_iff` — in terms of urls the links depend on nothing but what is known.
     4. `charts_ofList` — so an atlas is the closure of its urls under containers. -/
namespace ProjectRoots.Atlas

/-- Urls entered one after another. -/
def ofList (urls : List Url) : Atlas :=
  urls.foldl intern {}

/-- Whether the url is one of these, or around one of them. -/
def Around (urls : List Url) (url : Url) : Prop :=
  ∃ entered ∈ urls, url = entered ∨ url ∈ entered.containers

/-- Whether a link of the atlas leads from the one url to the other. -/
def Encloses (atlas : Atlas) (outer inner : Url) : Prop :=
  ∃ id above, atlas.url? id = some inner ∧ atlas.parent? id = some above ∧
    atlas.url? above = some outer

theorem knows_foldl_intern {atlas : Atlas} (hsound : atlas.Sound) {urls : List Url} {url : Url} :
    (urls.foldl intern atlas).Knows url ↔ Around urls url ∨ atlas.Knows url := by
  induction urls generalizing atlas with
  | nil => simp [Around]
  | cons first rest ih =>
    have haround : Around (first :: rest) url ↔
        Around rest url ∨ (url = first ∨ url ∈ first.containers) := by
      simp only [Around, List.mem_cons, exists_eq_or_imp]
      exact or_comm
    have hgrown : (atlas.intern first).Sound := hsound.enter first
    rw [List.foldl_cons, ih hgrown, hsound.knows_intern_iff, haround]
    exact or_assoc.symm

theorem knows_ofList {urls : List Url} {url : Url} :
    (ofList urls).Knows url ↔ Around urls url := by
  unfold ofList
  rw [knows_foldl_intern sound_empty, or_iff_left (not_knows_empty url)]

theorem sound_ofList (urls : List Url) : (ofList urls).Sound :=
  (grows_foldl_intern {} urls).sound sound_empty

theorem ofList_append (first second : List Url) :
    ofList (first ++ second) = second.foldl intern (ofList first) :=
  List.foldl_append

namespace Sound
variable {atlas : Atlas} (hsound : atlas.Sound)
include hsound

theorem exists_find?_iff {id : Nat} : (∃ url, atlas.find? url = some id) ↔ id < atlas.size := by
  constructor
  · intro h
    obtain ⟨url, hfind⟩ := h
    exact lt_size_of_url? (url?_of_find? hfind)
  · intro hlt
    have hurl : atlas.url? id = some atlas.nodes[id].url := by
      rw [url?, List.getElem?_eq_getElem hlt, Option.map_some]
    exact ⟨_, hsound.found id _ hurl⟩

theorem parent?_of_container {id : Nat} {url up : Url} (hurl : atlas.url? id = some url)
    (hcontainer : url.container = some up) :
    ∃ above < id, atlas.parent? id = some above ∧ atlas.url? above = some up := by
  obtain ⟨above, habove, hparent⟩ :=
    hsound.link_of_find? (hsound.url?_eq_some_iff.1 hurl) hcontainer
  exact ⟨above, hsound.links id above hparent, hparent, url?_of_find? habove⟩

/-- Every link leads to a container, so where there is none there is no link. -/
theorem parent?_eq_none_iff {id : Nat} {url : Url} (hurl : atlas.url? id = some url) :
    atlas.parent? id = none ↔ url.container = none := by
  constructor
  · intro hparent
    cases hcontainer : url.container with
    | none => rfl
    | some up =>
      obtain ⟨above, _, hlink, _⟩ := hsound.parent?_of_container hurl hcontainer
      rw [hparent] at hlink
      cases hlink
  · intro hcontainer
    cases hparent : atlas.parent? id with
    | none => rfl
    | some above =>
      obtain ⟨other, up, hother, hup, _⟩ := hsound.container_of_parent? hparent
      obtain rfl := find?_inj hother (hsound.url?_eq_some_iff.1 hurl)
      rw [hcontainer] at hup
      cases hup

theorem mem_children_iff {id inner : Nat} {url : Url} (hurl : atlas.url? id = some url) :
    inner ∈ atlas.children id ↔
      ∃ below, atlas.url? inner = some below ∧ below.container = some url := by
  rw [hsound.children]
  constructor
  · intro hparent
    obtain ⟨below, up, hbelow, hcontainer, hup⟩ := hsound.container_of_parent? hparent
    obtain rfl := find?_inj hup (hsound.url?_eq_some_iff.1 hurl)
    exact ⟨below, url?_of_find? hbelow, hcontainer⟩
  · intro h
    obtain ⟨below, hbelow, hcontainer⟩ := h
    obtain ⟨above, _, hparent, habove⟩ := hsound.parent?_of_container hbelow hcontainer
    have hsame := (hsound.url?_eq_some_iff.1 habove).symm.trans (hsound.url?_eq_some_iff.1 hurl)
    rw [hparent, Option.some.inj hsame]

theorem encloses_iff {outer inner : Url} :
    atlas.Encloses outer inner ↔ atlas.Knows inner ∧ inner.container = some outer := by
  constructor
  · intro h
    obtain ⟨id, above, hinner, hparent, houter⟩ := h
    obtain ⟨below, hbelow, hcontainer⟩ :=
      (hsound.mem_children_iff houter).1 ((hsound.children _ _).2 hparent)
    obtain rfl := Option.some.inj (hbelow.symm.trans hinner)
    exact ⟨⟨id, hsound.url?_eq_some_iff.1 hinner⟩, hcontainer⟩
  · intro h
    obtain ⟨⟨id, hfind⟩, hcontainer⟩ := h
    have hinner := url?_of_find? hfind
    obtain ⟨above, _, hparent, habove⟩ := hsound.parent?_of_container hinner hcontainer
    exact ⟨id, above, hinner, hparent, habove⟩

end Sound

/-- The atlas holds the urls that were entered and all that is around them, and its links are the
steps outwards. -/
structure Charts (atlas : Atlas) (urls : List Url) : Prop where
  /-- The map leads from just these urls to ids. -/
  found : ∀ url, (∃ id, atlas.find? url = some id) ↔ Around urls url
  /-- The ids that it leads to are those up to the size, and each is the id of the one node that has
  the url. -/
  given : ∀ id, (∃ url, atlas.find? url = some id) ↔ id < atlas.size
  numbered : ∀ id url, atlas.url? id = some url ↔ atlas.find? url = some id
  /-- Whenever a url was entered, the answer was the id that it has now. -/
  answered : ∀ before url after, urls = before ++ url :: after →
    atlas.find? url = some ((ofList before).enter url).2
  /-- The link of a url leads to its container, which is older. -/
  parent : ∀ id url, atlas.url? id = some url → ∀ up, url.container = some up →
    ∃ above < id, atlas.parent? id = some above ∧ atlas.url? above = some up
  /-- There is no link only if there is no container. -/
  top : ∀ id url, atlas.url? id = some url → (atlas.parent? id = none ↔ url.container = none)
  /-- In the set that is stored with an id are those linked to it, in the order of the ids. -/
  children : ∀ id inner, inner ∈ atlas.children id ↔ atlas.parent? inner = some id
  inside : ∀ id url, atlas.url? id = some url → ∀ inner, inner ∈ atlas.children id ↔
    ∃ below, atlas.url? inner = some below ∧ below.container = some url
  ascending : ∀ id, (atlas.children id).Pairwise (· < ·)
  /-- What is entered later changes neither urls nor links. -/
  kept : ∀ more id, id < atlas.size →
    (ofList (urls ++ more)).url? id = atlas.url? id ∧
      (ofList (urls ++ more)).parent? id = atlas.parent? id
  /-- The same urls in another order, or some of them more often, make an atlas of the same urls
  with the same links between them. -/
  reordered : ∀ other : List Url, (∀ url, url ∈ other ↔ url ∈ urls) →
    (∀ url, (ofList other).Knows url ↔ atlas.Knows url) ∧
      ∀ outer inner, (ofList other).Encloses outer inner ↔ atlas.Encloses outer inner

theorem charts_ofList (urls : List Url) : (ofList urls).Charts urls where
  found _ := knows_ofList
  given _ := (sound_ofList urls).exists_find?_iff
  numbered _ _ := (sound_ofList urls).url?_eq_some_iff
  answered before url after hsplit := by
    have hgrows : ((ofList before).intern url).Grows (ofList urls) := by
      rw [hsplit, ofList_append]
      exact grows_foldl_intern ((ofList before).intern url) after
    exact hgrows.extends_later.found _ _ (find?_enter (ofList before) url)
  parent _ _ hurl _ hcontainer := (sound_ofList urls).parent?_of_container hurl hcontainer
  top _ _ hurl := (sound_ofList urls).parent?_eq_none_iff hurl
  children := (sound_ofList urls).children
  inside _ _ hurl _ := (sound_ofList urls).mem_children_iff hurl
  ascending := (sound_ofList urls).ascending
  kept more id hid := by
    have hgrows : (ofList urls).Grows (ofList (urls ++ more)) := by
      rw [ofList_append]
      exact grows_foldl_intern (ofList urls) more
    exact ⟨hgrows.extends_later.url_eq id hid, hgrows.extends_later.parent_eq id hid⟩
  reordered other hsame := by
    have hknows : ∀ url, (ofList other).Knows url ↔ (ofList urls).Knows url := by
      intro url
      rw [knows_ofList, knows_ofList]
      unfold Around
      simp only [hsame]
    refine ⟨hknows, ?_⟩
    intro outer inner
    rw [(sound_ofList other).encloses_iff, (sound_ofList urls).encloses_iff, hknows inner]

end ProjectRoots.Atlas
