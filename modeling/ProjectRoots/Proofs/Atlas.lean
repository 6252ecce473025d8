import Mathlib.Logic.Relation
import ProjectRoots.Atlas
import ProjectRoots.Proofs.Ascending

/- What an atlas knows. An atlas that is only ever grown by entering urls is sound: nodes and map
   agree, the containers of a known url are known, the links are the containers, and what is stored
   inside a url are the links that lead to it.

     1. `Sound.add` — one more url keeps the nodes, the map and the stored sets in step.
     2. `Sound.enter`, `Grows.sound` — so does every entry, with the containers that it enters
        before the url, and so does any number of entries, whoever makes them.
     3. `Grows.extends_later` — an id is for good: what is known is found under the same id, and has
        the same link, in every later state of the atlas.
     4. `mem_subtree_iff` — the search along the links finds the known urls that have the url on
        their chain of containers, and no others. -/
namespace ProjectRoots

theorem Ascending.total_lt : Total fun a b : Nat => decide (a < b) where
  irrefl a := decide_eq_false (Nat.lt_irrefl a)
  trans _ _ _ hab hbc :=
    decide_eq_true (Nat.lt_trans (of_decide_eq_true hab) (of_decide_eq_true hbc))
  eq_of_neither _ _ hab hba :=
    Nat.le_antisymm (Nat.not_lt.1 (of_decide_eq_false hba)) (Nat.not_lt.1 (of_decide_eq_false hab))

namespace Atlas

/-- Whether the atlas has an id for the url. -/
def Knows (atlas : Atlas) (url : Url) : Prop :=
  ∃ id, atlas.find? url = some id

/-- The nodes, the map and the stored sets are in step, and the links are the containers. -/
structure Sound (atlas : Atlas) : Prop where
  found : ∀ id url, atlas.url? id = some url → atlas.find? url = some id
  /-- The containers of known urls are known, and the links lead to them. -/
  closed : ∀ id url, atlas.url? id = some url → ∀ up, url.container = some up → atlas.Knows up
  linked : ∀ id url, atlas.url? id = some url →
    atlas.parent? id = url.container.bind atlas.find?
  links : atlas.Links
  /-- What is stored inside a url are the links that lead to it. -/
  children : ∀ id inner, inner ∈ atlas.children id ↔ atlas.parent? inner = some id
  ascending : ∀ id, (atlas.children id).Pairwise (· < ·)

/-- What an atlas becomes when urls are entered, in any order. -/
inductive Grows (atlas : Atlas) : Atlas → Prop
  | refl : Grows atlas atlas
  | intern {later : Atlas} (grown : Grows atlas later) (url : Url) : Grows atlas (later.intern url)

/-- What is known stays known, under its id and with its link. -/
structure Extends (atlas later : Atlas) : Prop where
  found : ∀ url id, atlas.find? url = some id → later.find? url = some id
  size_le : atlas.size ≤ later.size
  url_eq : ∀ id < atlas.size, later.url? id = atlas.url? id
  parent_eq : ∀ id < atlas.size, later.parent? id = atlas.parent? id

theorem Extends.refl (atlas : Atlas) : atlas.Extends atlas :=
  ⟨fun _ _ hfind => hfind, Nat.le_refl _, fun _ _ => rfl, fun _ _ => rfl⟩

theorem Extends.trans {a b c : Atlas} (hab : a.Extends b) (hbc : b.Extends c) : a.Extends c where
  found url id hfind := hbc.found url id (hab.found url id hfind)
  size_le := Nat.le_trans hab.size_le hbc.size_le
  url_eq id hid := (hbc.url_eq id (Nat.lt_of_lt_of_le hid hab.size_le)).trans (hab.url_eq id hid)
  parent_eq id hid :=
    (hbc.parent_eq id (Nat.lt_of_lt_of_le hid hab.size_le)).trans (hab.parent_eq id hid)

/-! ## Ids -/

theorem find?_inj {atlas : Atlas} {a b : Url} {id : Nat} (ha : atlas.find? a = some id)
    (hb : atlas.find? b = some id) : a = b :=
  Option.some.inj ((url?_of_find? ha).symm.trans (url?_of_find? hb))

theorem knows_or_unknown (atlas : Atlas) (url : Url) :
    atlas.Knows url ∨ atlas.find? url = none := by
  cases hfind : atlas.find? url with
  | none => exact Or.inr rfl
  | some id => exact Or.inl ⟨id, hfind⟩

theorem lt_size_of_parent? {atlas : Atlas} {id above : Nat}
    (hparent : atlas.parent? id = some above) : id < atlas.size := by
  obtain ⟨node, hnode, _⟩ := Option.bind_eq_some_iff.1 hparent
  exact (List.getElem?_eq_some_iff.1 hnode).1

theorem Extends.knows {atlas later : Atlas} (hextends : atlas.Extends later) {url : Url}
    (hknown : atlas.Knows url) : later.Knows url := by
  obtain ⟨id, hfind⟩ := hknown
  exact ⟨id, hextends.found url id hfind⟩

theorem Extends.find?_eq {atlas later : Atlas} (hextends : atlas.Extends later) {url : Url}
    (hknown : atlas.Knows url) : later.find? url = atlas.find? url := by
  obtain ⟨id, hfind⟩ := hknown
  rw [hfind, hextends.found url id hfind]

/-! ## One more url -/

section
variable (atlas : Atlas) (url : Url) (link : Option Nat)

theorem size_add : (atlas.add url link).1.size = atlas.size + 1 := by
  cases link <;> simp [add, size, Node.encloseAt]

theorem find?_add (other : Url) :
    (atlas.add url link).1.find? other =
      if other = url then some atlas.size else atlas.find? other := by
  simp only [add, find?, List.lookup_cons]
  by_cases hsame : other = url
  · rw [if_pos hsame, beq_iff_eq.2 hsame]
  · rw [if_neg hsame, beq_eq_false_iff_ne.2 hsame]

/-- The last node is the new one, and of the others only the sets have changed. -/
theorem read_add {α : Type} (read : Node → Option α)
    (hread : ∀ node id, read (Node.enclose node id) = read node) (id : Nat) :
    (atlas.add url link).1.nodes[id]?.bind read =
      if id = atlas.size then read ⟨url, link, []⟩ else atlas.nodes[id]?.bind read := by
  rw [add, Node.bind_encloseAt read hread]
  by_cases hlast : id = atlas.size
  · rw [if_pos hlast, hlast, size, List.getElem?_concat_length, Option.bind_some]
  · rw [if_neg hlast]
    rcases Nat.lt_or_ge id atlas.nodes.length with hlt | hge
    · rw [List.getElem?_append_left hlt]
    · have hgt : atlas.nodes.length < id := Nat.lt_of_le_of_ne hge (Ne.symm hlast)
      rw [List.getElem?_eq_none hge, List.getElem?_eq_none (by simp; omega)]

theorem url?_add (id : Nat) :
    (atlas.add url link).1.url? id = if id = atlas.size then some url else atlas.url? id := by
  have hread := atlas.read_add url link (some ∘ (·.url)) (fun _ _ => rfl) id
  rwa [← Option.map_eq_bind, ← Option.map_eq_bind] at hread

theorem parent?_add (id : Nat) :
    (atlas.add url link).1.parent? id = if id = atlas.size then link else atlas.parent? id :=
  atlas.read_add url link (·.link) (fun _ _ => rfl) id

theorem children_of_size_le {id : Nat} (hid : atlas.size ≤ id) : atlas.children id = [] := by
  rw [children, List.getElem?_eq_none hid]
  rfl

/-- The new id is put into the set of the node that it is linked to, and into no other. -/
theorem children_add (hlink : ∀ above, link = some above → above < atlas.size) (id : Nat) :
    (atlas.add url link).1.children id =
      if link = some id then
        Ascending.insert (fun a b => decide (a < b)) atlas.size (atlas.children id)
      else atlas.children id := by
  have hold : ((atlas.nodes ++ [⟨url, link, []⟩])[id]?.map (·.inner)).getD [] =
      atlas.children id := by
    rcases Nat.lt_trichotomy id atlas.size with hlt | rfl | hgt
    · rw [List.getElem?_append_left hlt]
      rfl
    · rw [atlas.children_of_size_le (Nat.le_refl _), size, List.getElem?_concat_length]
      rfl
    · have hlength : atlas.nodes.length < id := hgt
      rw [atlas.children_of_size_le (Nat.le_of_lt hgt),
        List.getElem?_eq_none (by simp; omega)]
      rfl
  cases link with
  | none =>
    rw [if_neg (by simp), ← hold]
    rfl
  | some above =>
    simp only [children, add, Node.encloseAt, List.getElem?_modify] at hold ⊢
    by_cases hsame : above = id
    · subst hsame
      have hlt := hlink above rfl
      rw [List.getElem?_append_left hlt, List.getElem?_eq_getElem hlt]
      simp [Node.enclose]
    · rw [if_neg (by simpa using hsame), ← hold]
      cases (atlas.nodes ++ [⟨url, some above, []⟩])[id]? <;> simp [hsame]

end

section
variable {atlas : Atlas} {url : Url}

theorem extends_add (hnew : atlas.find? url = none) (link : Option Nat) :
    atlas.Extends (atlas.add url link).1 where
  found other id hfind := by
    have hne : other ≠ url := by
      rintro rfl
      rw [hnew] at hfind
      cases hfind
    rw [find?_add, if_neg hne, hfind]
  size_le := by
    rw [size_add]
    exact Nat.le_succ _
  url_eq id hid := by rw [url?_add, if_neg (Nat.ne_of_lt hid)]
  parent_eq id hid := by rw [parent?_add, if_neg (Nat.ne_of_lt hid)]

/-- A node is the new one, or it is an old one. -/
theorem url?_add_eq_some {link : Option Nat} {id : Nat} {other : Url}
    (hurl : (atlas.add url link).1.url? id = some other) :
    (id = atlas.size ∧ other = url) ∨ (id ≠ atlas.size ∧ atlas.url? id = some other) := by
  rw [url?_add] at hurl
  by_cases hlast : id = atlas.size
  · rw [if_pos hlast] at hurl
    exact Or.inl ⟨hlast, (Option.some.inj hurl).symm⟩
  · rw [if_neg hlast] at hurl
    exact Or.inr ⟨hlast, hurl⟩

/-- The new id is stored where its link leads, and no other link has changed. -/
theorem Sound.mem_children_add (hsound : atlas.Sound) {link : Option Nat}
    (hlink : ∀ above, link = some above → above < atlas.size) (id inner : Nat) :
    inner ∈ (atlas.add url link).1.children id ↔
      (atlas.add url link).1.parent? inner = some id := by
  rw [children_add _ _ _ hlink, parent?_add]
  by_cases hlast : inner = atlas.size
  · subst hlast
    have hfree : atlas.size ∉ atlas.children id := by
      rw [hsound.children]
      intro hparent
      exact absurd (lt_size_of_parent? hparent) (Nat.lt_irrefl _)
    rw [if_pos rfl]
    split
    · rename_i hsame
      exact iff_of_true (Ascending.mem_insert_self _ _ _) hsame
    · rename_i hother
      exact iff_of_false hfree hother
  · rw [if_neg hlast, ← hsound.children]
    split
    · rw [Ascending.mem_insert Ascending.total_lt, or_iff_right hlast]
    · rfl

theorem Sound.pairwise_children_add (hsound : atlas.Sound) {link : Option Nat}
    (hlink : ∀ above, link = some above → above < atlas.size) (id : Nat) :
    ((atlas.add url link).1.children id).Pairwise (· < ·) := by
  rw [children_add _ _ _ hlink]
  split
  · have hascending := Ascending.pairwise_insert_of_total Ascending.total_lt
      (x := atlas.size) ((hsound.ascending id).imp decide_eq_true)
    exact hascending.imp of_decide_eq_true
  · exact hsound.ascending id

/-- The next id goes to an unknown url, whose container is known. -/
theorem Sound.add (hsound : atlas.Sound) (hnew : atlas.find? url = none)
    (hup : ∀ up, url.container = some up → atlas.Knows up) :
    (atlas.add url (url.container.bind atlas.find?)).1.Sound := by
  have hextends := extends_add hnew (url.container.bind atlas.find?)
  have hlink : ∀ above, url.container.bind atlas.find? = some above → above < atlas.size := by
    intro above habove
    obtain ⟨up, _, hfind⟩ := Option.bind_eq_some_iff.1 habove
    exact lt_size_of_url? (url?_of_find? hfind)
  have hbind : ∀ other : Url, (∀ up, other.container = some up → atlas.Knows up) →
      other.container.bind (atlas.add url (url.container.bind atlas.find?)).1.find? =
        other.container.bind atlas.find? := by
    intro other hclosed
    cases hcontainer : other.container with
    | none => rfl
    | some up => exact hextends.find?_eq (hclosed up hcontainer)
  refine ⟨?_, ?_, ?_, ?_, hsound.mem_children_add hlink, hsound.pairwise_children_add hlink⟩
  · intro id other hurl
    rcases url?_add_eq_some hurl with ⟨rfl, rfl⟩ | ⟨_, hurl⟩
    · rw [find?_add, if_pos rfl]
    · exact hextends.found other id (hsound.found id other hurl)
  · intro id other hurl up hcontainer
    rcases url?_add_eq_some hurl with ⟨_, rfl⟩ | ⟨_, hurl⟩
    · exact hextends.knows (hup up hcontainer)
    · exact hextends.knows (hsound.closed id other hurl up hcontainer)
  · intro id other hurl
    rw [parent?_add]
    rcases url?_add_eq_some hurl with ⟨hlast, rfl⟩ | ⟨hlast, hurl⟩
    · rw [if_pos hlast, hbind other hup]
    · rw [if_neg hlast, hbind other (hsound.closed id other hurl), hsound.linked id other hurl]
  · intro id above hparent
    rw [parent?_add] at hparent
    split at hparent
    · rename_i hlast
      rw [hlast]
      exact hlink above hparent
    · exact hsound.links id above hparent

/-! ## Entering a url -/

theorem enter_of_find? {id : Nat} (hfind : atlas.find? url = some id) :
    atlas.enter url = (atlas, id) := by
  rw [enter, hfind]

theorem enter_of_none (hnew : atlas.find? url = none) (hcontainer : url.container = none) :
    atlas.enter url = atlas.add url none := by
  rw [enter, hnew]
  simp only
  split
  · rfl
  · simp_all

theorem enter_of_some {up : Url} (hnew : atlas.find? url = none)
    (hcontainer : url.container = some up) :
    atlas.enter url = (atlas.enter up).1.add url (some (atlas.enter up).2) := by
  rw [enter, hnew]
  simp only
  split
  · simp_all
  · simp_all

/-- The answer is the id that the url has then. -/
theorem find?_enter (atlas : Atlas) (url : Url) :
    (atlas.enter url).1.find? url = some (atlas.enter url).2 := by
  cases hfind : atlas.find? url with
  | some id => rw [enter_of_find? hfind, hfind]
  | none =>
    cases hcontainer : url.container with
    | none =>
      rw [enter_of_none hfind hcontainer, find?_add, if_pos rfl]
      rfl
    | some up =>
      rw [enter_of_some hfind hcontainer, find?_add, if_pos rfl]
      rfl

/-- Nothing is entered but the url and its containers. -/
theorem knows_of_enter {other : Url} (hknown : (atlas.enter url).1.Knows other) :
    (other = url ∨ other ∈ url.containers) ∨ atlas.Knows other := by
  obtain ⟨id, hid⟩ := hknown
  induction url using Url.containers.induct generalizing id with
  | case1 url hcontainer =>
    rcases knows_or_unknown atlas url with ⟨known, hfind⟩ | hnew
    · rw [enter_of_find? hfind] at hid
      exact Or.inr ⟨id, hid⟩
    · rw [enter_of_none hnew hcontainer, find?_add] at hid
      split at hid
      · rename_i hsame
        exact Or.inl (Or.inl hsame)
      · exact Or.inr ⟨id, hid⟩
  | case2 url up hcontainer ih =>
    rcases knows_or_unknown atlas url with ⟨known, hfind⟩ | hnew
    · rw [enter_of_find? hfind] at hid
      exact Or.inr ⟨id, hid⟩
    · rw [enter_of_some hnew hcontainer, find?_add] at hid
      rw [Url.containers_of_some hcontainer, List.mem_cons]
      split at hid
      · rename_i hsame
        exact Or.inl (Or.inl hsame)
      · exact (ih id hid).imp_left Or.inr

/-- No url is among its own containers, so entering these does not make it known. -/
theorem find?_enter_container {up : Url} (hnew : atlas.find? url = none)
    (hcontainer : url.container = some up) : (atlas.enter up).1.find? url = none := by
  rcases knows_or_unknown (atlas.enter up).1 url with hknown | hunknown
  · exfalso
    rcases knows_of_enter hknown with haround | ⟨id, hid⟩
    · have hmem : url ∈ url.containers := by
        rw [Url.containers_of_some hcontainer]
        exact List.mem_cons.2 haround
      exact Nat.lt_irrefl _ (Url.containers_length_lt url hmem)
    · rw [hnew] at hid
      cases hid
  · exact hunknown

/-- The induction goes along the chain of containers, which are entered from the outermost
inwards. -/
theorem extends_enter (atlas : Atlas) (url : Url) : atlas.Extends (atlas.enter url).1 := by
  induction url using Url.containers.induct with
  | case1 url hcontainer =>
    rcases knows_or_unknown atlas url with ⟨id, hfind⟩ | hnew
    · rw [enter_of_find? hfind]
      exact .refl atlas
    · rw [enter_of_none hnew hcontainer]
      exact extends_add hnew none
  | case2 url up hcontainer ih =>
    rcases knows_or_unknown atlas url with ⟨id, hfind⟩ | hnew
    · rw [enter_of_find? hfind]
      exact .refl atlas
    · rw [enter_of_some hnew hcontainer]
      exact ih.trans (extends_add (find?_enter_container hnew hcontainer) _)

theorem Sound.enter (hsound : atlas.Sound) (url : Url) : (atlas.enter url).1.Sound := by
  induction url using Url.containers.induct with
  | case1 url hcontainer =>
    rcases knows_or_unknown atlas url with ⟨id, hfind⟩ | hnew
    · rw [enter_of_find? hfind]
      exact hsound
    · have hadd := hsound.add hnew (fun up hup => by simp [hcontainer] at hup)
      rw [hcontainer] at hadd
      rw [enter_of_none hnew hcontainer]
      exact hadd
  | case2 url up hcontainer ih =>
    rcases knows_or_unknown atlas url with ⟨id, hfind⟩ | hnew
    · rw [enter_of_find? hfind]
      exact hsound
    · have hup := find?_enter atlas up
      have hadd := ih.add (find?_enter_container hnew hcontainer) (fun other hother =>
        Option.some.inj (hcontainer.symm.trans hother) ▸ ⟨_, hup⟩)
      rw [hcontainer, Option.bind_some, hup] at hadd
      rw [enter_of_some hnew hcontainer]
      exact hadd

end

/-! ## Growing -/

theorem knows_intern (atlas : Atlas) (url : Url) : (atlas.intern url).Knows url :=
  ⟨_, find?_enter atlas url⟩

theorem idOf_intern (atlas : Atlas) (url : Url) :
    (atlas.intern url).idOf url = (atlas.enter url).2 := by
  rw [idOf, intern, find?_enter, Option.getD_some]

theorem find?_idOf_intern (atlas : Atlas) (url : Url) :
    (atlas.intern url).find? url = some ((atlas.intern url).idOf url) := by
  rw [idOf_intern]
  exact find?_enter atlas url

/-- Entering a url that is known changes nothing. -/
theorem intern_of_knows {atlas : Atlas} {url : Url} (hknown : atlas.Knows url) :
    atlas.intern url = atlas := by
  obtain ⟨id, hfind⟩ := hknown
  rw [intern, enter_of_find? hfind]

theorem not_knows_empty (url : Url) : ¬({} : Atlas).Knows url := by
  intro hknown
  obtain ⟨id, hfind⟩ := hknown
  cases hfind

theorem sound_empty : ({} : Atlas).Sound := by
  have hnodes : ({} : Atlas).nodes = [] := rfl
  refine ⟨?_, ?_, ?_, ?_, ?_, ?_⟩ <;> simp [url?, parent?, children, Links, hnodes]

namespace Grows
variable {atlas later : Atlas}

theorem trans {last : Atlas} (first : Grows atlas later) (second : Grows later last) :
    Grows atlas last := by
  induction second with
  | refl => exact first
  | intern _ url ih => exact ih.intern url

theorem extends_later (grown : Grows atlas later) : atlas.Extends later := by
  induction grown with
  | refl => exact .refl atlas
  | intern _ url ih => exact ih.trans (extends_enter _ url)

theorem sound (grown : Grows atlas later) (hsound : atlas.Sound) : later.Sound := by
  induction grown with
  | refl => exact hsound
  | intern _ url ih => exact ih.enter url

theorem find?_eq (grown : Grows atlas later) {url : Url} (hknown : atlas.Knows url) :
    later.find? url = atlas.find? url :=
  grown.extends_later.find?_eq hknown

end Grows

theorem grows_foldl_intern (atlas : Atlas) (urls : List Url) :
    atlas.Grows (urls.foldl intern atlas) := by
  apply List.foldlRecOn (motive := atlas.Grows)
  · exact .refl
  · intro later hgrows url _
    exact hgrows.intern url

/-! ## What lies inside a url -/

namespace Sound
variable {atlas : Atlas} (hsound : atlas.Sound)
include hsound

theorem url?_eq_some_iff {id : Nat} {url : Url} :
    atlas.url? id = some url ↔ atlas.find? url = some id :=
  ⟨hsound.found id url, url?_of_find?⟩

theorem link_of_find? {url up : Url} {id : Nat} (hfind : atlas.find? url = some id)
    (hcontainer : url.container = some up) :
    ∃ outer, atlas.find? up = some outer ∧ atlas.parent? id = some outer := by
  have hurl := url?_of_find? hfind
  obtain ⟨outer, houter⟩ := hsound.closed id url hurl up hcontainer
  refine ⟨outer, houter, ?_⟩
  rw [hsound.linked id url hurl, hcontainer, Option.bind_some, houter]

theorem container_of_parent? {id outer : Nat} (hparent : atlas.parent? id = some outer) :
    ∃ url up, atlas.find? url = some id ∧ url.container = some up ∧
      atlas.find? up = some outer := by
  obtain ⟨node, hnode, _⟩ := Option.bind_eq_some_iff.1 hparent
  have hurl : atlas.url? id = some node.url := by rw [url?, hnode, Option.map_some]
  rw [hsound.linked id node.url hurl] at hparent
  obtain ⟨up, hcontainer, houter⟩ := Option.bind_eq_some_iff.1 hparent
  exact ⟨node.url, up, hsound.found id node.url hurl, hcontainer, houter⟩

/-- All containers of a known url are known. -/
theorem knows_of_mem_containers {url : Url} (hknown : atlas.Knows url) :
    ∀ outer ∈ url.containers, atlas.Knows outer := by
  induction url using Url.containers.induct with
  | case1 url hcontainer =>
    rw [Url.containers_of_none hcontainer]
    intro outer hmem
    cases hmem
  | case2 url up hcontainer ih =>
    obtain ⟨id, hfind⟩ := hknown
    obtain ⟨above, habove, _⟩ := hsound.link_of_find? hfind hcontainer
    rw [Url.containers_of_some hcontainer]
    intro outer hmem
    rcases List.mem_cons.1 hmem with rfl | hmem
    · exact ⟨above, habove⟩
    · exact ih ⟨above, habove⟩ outer hmem

/-- Entering a url adds the url and its containers, as far as they are not known, and no other. -/
theorem knows_intern_iff {url other : Url} :
    (atlas.intern url).Knows other ↔
      (other = url ∨ other ∈ url.containers) ∨ atlas.Knows other := by
  constructor
  · exact knows_of_enter
  · intro h
    have hknown := knows_intern atlas url
    rcases h with (rfl | hmem) | hold
    · exact hknown
    · exact (hsound.enter url).knows_of_mem_containers hknown other hmem
    · exact (extends_enter atlas url).knows hold

end Sound

/-- Whether the links lead from `inner` to `outer`, in one step or more. -/
def Inside (atlas : Atlas) : Nat → Nat → Prop :=
  Relation.TransGen fun outer inner => atlas.parent? inner = some outer

/-- Whether `inner` is `outer` or inside it. -/
def Within (atlas : Atlas) : Nat → Nat → Prop :=
  Relation.ReflTransGen fun outer inner => atlas.parent? inner = some outer

theorem within_iff {atlas : Atlas} {outer inner : Nat} :
    atlas.Within outer inner ↔ inner = outer ∨ atlas.Inside outer inner :=
  Relation.reflTransGen_iff_eq_or_transGen

/-- The first link on the way in. -/
theorem inside_iff_child {atlas : Atlas} {outer inner : Nat} :
    atlas.Inside outer inner ↔
      ∃ child, atlas.parent? child = some outer ∧ atlas.Within child inner :=
  Relation.TransGen.head'_iff

/-- The last link on the way in. -/
theorem inside_iff_parent {atlas : Atlas} {outer inner : Nat} :
    atlas.Inside outer inner ↔
      ∃ parent, atlas.Within outer parent ∧ atlas.parent? inner = some parent :=
  Relation.TransGen.tail'_iff

/-- The links are the chains of containers. -/
theorem inside_iff {atlas : Atlas} (hsound : atlas.Sound) {outer inner : Url} {id below : Nat}
    (houter : atlas.find? outer = some id) (hinner : atlas.find? inner = some below) :
    atlas.Inside id below ↔ outer ∈ inner.containers := by
  induction inner using Url.containers.induct generalizing below with
  | case1 inner hcontainer =>
    rw [Url.containers_of_none hcontainer]
    constructor
    · intro hinside
      obtain ⟨last, _, hparent⟩ := inside_iff_parent.1 hinside
      obtain ⟨url, up, hurl, hup, _⟩ := hsound.container_of_parent? hparent
      obtain rfl := find?_inj hurl hinner
      rw [hcontainer] at hup
      cases hup
    · intro hmem
      cases hmem
  | case2 inner up hcontainer ih =>
    obtain ⟨above, habove, hparent⟩ := hsound.link_of_find? hinner hcontainer
    -- The last link on the way in leads to `inner` from its container.
    have hlast : atlas.Inside id below ↔ atlas.Within id above := by
      rw [inside_iff_parent, hparent]
      simp
    have hsame : above = id ↔ outer = up := by
      constructor
      · intro h
        obtain rfl := h
        exact find?_inj houter habove
      · intro h
        obtain rfl := h
        exact Option.some.inj (habove.symm.trans houter)
    rw [hlast, within_iff, Url.containers_of_some hcontainer, List.mem_cons, hsame]
    exact or_congr_right (ih habove)

/-- The nodes from `next` on begin with the one that has this id. -/
theorem parent?_of_drop {atlas : Atlas} {node : Node} {rest : List Node} {next : Nat}
    (hnodes : atlas.nodes.drop next = node :: rest) :
    atlas.parent? next = node.link ∧ atlas.nodes.drop (next + 1) = rest := by
  have hnode : atlas.nodes[next]? = some node := by
    rw [← List.head?_drop, hnodes]
    rfl
  refine ⟨by simp [parent?, hnode], ?_⟩
  rw [← List.tail_drop, hnodes]
  rfl

theorem mem_below_cons {id next inner : Nat} {node : Node} {rest : List Node} :
    inner ∈ below id next (node :: rest) ↔
      inner ∈ below id (next + 1) rest ∨
        node.link = some id ∧ inner ∈ next :: below next (next + 1) rest := by
  rw [below, List.mem_append]
  apply or_congr_right
  split
  · rename_i hlink
    simp [hlink]
  · rename_i hlink
    simp [hlink]

/-- The search among the nodes from `next` on: it finds the inner urls of `id` there, and whatever
is inside these. -/
theorem mem_below_iff {atlas : Atlas} (hlinks : atlas.Links) {nodes : List Node} {id next : Nat}
    (hnodes : atlas.nodes.drop next = nodes) {inner : Nat} :
    inner ∈ below id next nodes ↔
      ∃ child ≥ next, atlas.parent? child = some id ∧ atlas.Within child inner := by
  induction nodes generalizing id next with
  | nil =>
    have hend : atlas.nodes.length ≤ next := List.drop_eq_nil_iff.1 hnodes
    constructor
    · intro hmem
      cases hmem
    · intro h
      obtain ⟨child, hge, hparent, _⟩ := h
      rw [parent?, List.getElem?_eq_none (by omega)] at hparent
      cases hparent
  | cons node rest ih =>
    obtain ⟨hparent, hrest⟩ := parent?_of_drop hnodes
    -- All inner urls of `next` are younger, so all that is inside it is found among the rest.
    have hwithin : inner ∈ next :: below next (next + 1) rest ↔ atlas.Within next inner := by
      rw [List.mem_cons, ih hrest, within_iff, inside_iff_child]
      apply or_congr_right
      constructor
      · intro h
        obtain ⟨child, _, hchild, hreach⟩ := h
        exact ⟨child, hchild, hreach⟩
      · intro h
        obtain ⟨child, hchild, hreach⟩ := h
        exact ⟨child, hlinks child next hchild, hchild, hreach⟩
    rw [mem_below_cons, ih hrest, hwithin, ← hparent]
    constructor
    · intro h
      rcases h with ⟨child, hge, hrest⟩ | ⟨hlink, hreach⟩
      · exact ⟨child, by omega, hrest⟩
      · exact ⟨next, Nat.le_refl next, hlink, hreach⟩
    · intro h
      obtain ⟨child, hge, hlink, hreach⟩ := h
      rcases Nat.eq_or_lt_of_le hge with rfl | hlt
      · exact Or.inr ⟨hlink, hreach⟩
      · exact Or.inl ⟨child, hlt, hlink, hreach⟩

theorem mem_subtree {atlas : Atlas} (hlinks : atlas.Links) {id inner : Nat} :
    inner ∈ atlas.subtree id ↔ atlas.Inside id inner := by
  unfold subtree
  rw [mem_below_iff hlinks rfl, inside_iff_child]
  constructor
  · intro h
    obtain ⟨child, _, hparent, hreach⟩ := h
    exact ⟨child, hparent, hreach⟩
  · intro h
    obtain ⟨child, hparent, hreach⟩ := h
    exact ⟨child, hlinks child id hparent, hparent, hreach⟩

/-- The search along the links finds the known urls that have the url on their chain. -/
theorem mem_subtree_iff {atlas : Atlas} (hsound : atlas.Sound) {outer inner : Url} {id below : Nat}
    (houter : atlas.find? outer = some id) (hinner : atlas.find? inner = some below) :
    below ∈ atlas.subtree id ↔ outer ∈ inner.containers :=
  (mem_subtree hsound.links).trans (inside_iff hsound houter hinner)

end Atlas

end ProjectRoots
