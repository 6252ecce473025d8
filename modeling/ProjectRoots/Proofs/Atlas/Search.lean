import Mathlib.Data.List.Count
import Mathlib.Data.List.Nodup
import ProjectRoots.Proofs.Atlas.Charts

/- Searching an atlas. `subtree` and `ancestors` go through the nodes once. They stand for two
   searches along the links: one downwards, which keeps a stack of the ids that wait (`Sweeps`), and
   one upwards (`Climbs`).

     1. `subtree_eq`, `sweeps_iff` — the search downwards ends, and it lists `subtree`.
     2. `ancestors_of_parent?`, `climbs_iff` — the search upwards ends, and it lists `ancestors`.
     3. `mem_ancestors`, `map_url?_ancestors` — these are the ids of the containers, nearest first.
     4. `pairwise_subtree` — downwards nothing is listed twice, and nothing before what it is inside
        of.
     5. `explored_ofList` — so the searches are each other's converse. -/
namespace ProjectRoots.Atlas

/-- The search downwards. The id on top of the stack is listed, and its children take its place, the
youngest on top. The search ends when no id waits. -/
inductive Sweeps (atlas : Atlas) : List Nat → List Nat → Prop
  | done : Sweeps atlas [] []
  | next {id : Nat} {waiting listed : List Nat}
    (hrest : Sweeps atlas ((atlas.children id).reverse ++ waiting) listed) :
    Sweeps atlas (id :: waiting) (id :: listed)

/-- The search upwards. The id that the link leads to is listed, and the search goes on from there.
It ends where there is no link. -/
inductive Climbs (atlas : Atlas) : Nat → List Nat → Prop
  | top {id : Nat} (hparent : atlas.parent? id = none) : Climbs atlas id []
  | up {id above : Nat} {listed : List Nat} (hparent : atlas.parent? id = some above)
    (hrest : Climbs atlas above listed) : Climbs atlas id (above :: listed)

section
variable {atlas : Atlas}

theorem Sweeps.unique {waiting a b : List Nat} (ha : atlas.Sweeps waiting a)
    (hb : atlas.Sweeps waiting b) : a = b := by
  induction ha generalizing b with
  | done => cases hb; rfl
  | next _ ih =>
    cases hb with
    | next hrest => rw [ih hrest]

theorem Climbs.unique {id : Nat} {a b : List Nat} (ha : atlas.Climbs id a)
    (hb : atlas.Climbs id b) : a = b := by
  induction ha generalizing b with
  | top hparent =>
    cases hb with
    | top => rfl
    | up hparent' => rw [hparent] at hparent'; cases hparent'
  | up hparent _ ih =>
    cases hb with
    | top hparent' => rw [hparent] at hparent'; cases hparent'
    | up hparent' hrest =>
      obtain rfl := Option.some.inj (hparent.symm.trans hparent')
      rw [ih hrest]

/-! ## The stack -/

/-- The search among the nodes from `next` on, as a search along the links: it lists the children
of `id` there, the youngest first, each followed by what is inside it. -/
theorem below_eq {nodes : List Node} {id next : Nat} (hnodes : atlas.nodes.drop next = nodes) :
    below id next nodes =
      ((List.range' next nodes.length).filter fun inner =>
        atlas.parent? inner == some id).reverse.flatMap
        fun inner => inner :: atlas.subtree inner := by
  induction nodes generalizing next with
  | nil => rfl
  | cons node rest ih =>
    obtain ⟨hparent, hrest⟩ := parent?_of_drop hnodes
    have hsubtree : atlas.subtree next = below next (next + 1) rest := by
      rw [subtree, hrest]
    rw [below, ih hrest, List.length_cons, List.range'_succ, List.filter_cons, hparent]
    split
    · rename_i hlink
      rw [if_pos (beq_iff_eq.2 hlink), List.reverse_cons, List.flatMap_append,
        List.flatMap_singleton, hsubtree]
    · rename_i hlink
      rw [if_neg fun h => hlink (beq_iff_eq.1 h), List.append_nil]

/-- What is stored inside an id are the younger ids that are linked to it. -/
theorem children_eq (hsound : atlas.Sound) (id : Nat) :
    atlas.children id =
      (List.range' (id + 1) (atlas.size - (id + 1))).filter fun inner =>
        atlas.parent? inner == some id := by
  apply Ascending.eq_of_mem_iff Ascending.total_lt.irrefl Ascending.total_lt.trans
    ((hsound.ascending id).imp decide_eq_true)
    ((List.Pairwise.filter _ List.pairwise_lt_range').imp decide_eq_true)
  intro inner
  rw [hsound.children, List.mem_filter, beq_iff_eq, List.mem_range'_1, iff_and_self]
  intro hparent
  have hlt := hsound.links inner id hparent
  have hsize := lt_size_of_parent? hparent
  omega

theorem subtree_eq (hsound : atlas.Sound) (id : Nat) :
    atlas.subtree id =
      (atlas.children id).reverse.flatMap fun child => child :: atlas.subtree child := by
  rw [subtree, below_eq rfl, List.length_drop, children_eq hsound id]
  rfl

/-- The induction is on the number of ids that will be listed. -/
theorem sweeps_flatMap (hsound : atlas.Sound) (waiting : List Nat) :
    atlas.Sweeps waiting (waiting.flatMap fun id => id :: atlas.subtree id) := by
  generalize hcount : (waiting.flatMap fun id => id :: atlas.subtree id).length = count
  induction count generalizing waiting with
  | zero =>
    cases waiting with
    | nil => exact .done
    | cons id rest => simp at hcount
  | succ count ih =>
    cases waiting with
    | nil => exact .done
    | cons id rest =>
      rw [List.flatMap_cons, List.cons_append, subtree_eq hsound id, ← List.flatMap_append]
        at hcount ⊢
      exact .next (ih _ (by simpa using hcount))

theorem sweeps_iff (hsound : atlas.Sound) {id : Nat} {listed : List Nat} :
    atlas.Sweeps (atlas.children id).reverse listed ↔ listed = atlas.subtree id := by
  have hsweeps := sweeps_flatMap hsound (atlas.children id).reverse
  rw [← subtree_eq hsound id] at hsweeps
  constructor
  · intro h
    exact h.unique hsweeps
  · rintro rfl
    exact hsweeps

/-! ## The links upwards -/

theorem climb_none (older : List Node) : climb none older = [] := by
  cases older <;> rfl

/-- The older nodes of an atlas are as good as all of them, for links only lead to older ones. -/
theorem climb_take {id count : Nat} (hid : id < count) (hcount : count ≤ atlas.size) :
    climb (some id) (atlas.nodes.take count).reverse =
      id :: climb (atlas.parent? id) (atlas.nodes.take id).reverse := by
  induction count with
  | zero => cases hid
  | succ count ih =>
    have hlt : count < atlas.nodes.length := hcount
    have hlength : (atlas.nodes.take count).reverse.length = count := by
      rw [List.length_reverse, List.length_take, Nat.min_eq_left (Nat.le_of_lt hlt)]
    rw [← List.take_append_getElem hlt, List.reverse_append, List.reverse_singleton,
      List.singleton_append, climb, hlength]
    split
    · rename_i hsame
      rw [hsame, parent?, List.getElem?_eq_getElem hlt, Option.bind_some]
    · exact ih (by omega) (by omega)

theorem ancestors_of_parent? (hlinks : atlas.Links) {id above : Nat}
    (hparent : atlas.parent? id = some above) :
    atlas.ancestors id = above :: atlas.ancestors above := by
  have habove : above < atlas.size :=
    Nat.lt_trans (hlinks id above hparent) (lt_size_of_parent? hparent)
  have hall : atlas.nodes = atlas.nodes.take atlas.size := List.take_length.symm
  unfold ancestors
  rw [hparent, hall, climb_take habove (Nat.le_refl _)]
  cases hnext : atlas.parent? above with
  | none => rw [climb_none, climb_none]
  | some next =>
    have hlt := hlinks above next hnext
    rw [climb_take hlt (Nat.le_of_lt habove),
      climb_take (Nat.lt_trans hlt habove) (Nat.le_refl _)]

theorem climbs_ancestors (hlinks : atlas.Links) (id : Nat) :
    atlas.Climbs id (atlas.ancestors id) := by
  induction id using Nat.strongRecOn with
  | ind id ih =>
    cases hparent : atlas.parent? id with
    | none =>
      rw [ancestors, hparent, climb_none]
      exact .top hparent
    | some above =>
      rw [ancestors_of_parent? hlinks hparent]
      exact .up hparent (ih above (hlinks id above hparent))

theorem climbs_iff (hlinks : atlas.Links) {id : Nat} {listed : List Nat} :
    atlas.Climbs id listed ↔ listed = atlas.ancestors id := by
  constructor
  · intro h
    exact h.unique (climbs_ancestors hlinks id)
  · rintro rfl
    exact climbs_ancestors hlinks id

theorem Climbs.mem_iff {id outer : Nat} {listed : List Nat} (hclimbs : atlas.Climbs id listed) :
    outer ∈ listed ↔ atlas.Inside outer id := by
  induction hclimbs with
  | top hparent =>
    rw [inside_iff_parent, hparent]
    simp
  | up hparent _ ih =>
    rw [inside_iff_parent, hparent, List.mem_cons, ih]
    simp only [Option.some.injEq, exists_eq_right', within_iff]
    exact or_congr_left eq_comm

theorem mem_ancestors (hlinks : atlas.Links) {outer inner : Nat} :
    outer ∈ atlas.ancestors inner ↔ atlas.Inside outer inner :=
  (climbs_ancestors hlinks inner).mem_iff

/-- The induction goes along the chain of containers. -/
theorem map_url?_ancestors (hsound : atlas.Sound) {id : Nat} {url : Url}
    (hurl : atlas.url? id = some url) :
    (atlas.ancestors id).map atlas.url? = url.containers.map some := by
  induction url using Url.containers.induct generalizing id with
  | case1 url hcontainer =>
    rw [ancestors, (hsound.parent?_eq_none_iff hurl).2 hcontainer, climb_none,
      Url.containers_of_none hcontainer]
    rfl
  | case2 url up hcontainer ih =>
    obtain ⟨above, _, hparent, habove⟩ := hsound.parent?_of_container hurl hcontainer
    rw [ancestors_of_parent? hsound.links hparent, Url.containers_of_some hcontainer,
      List.map_cons, List.map_cons, habove, ih habove]

/-! ## Nothing twice, and nothing before what it is inside of -/

theorem Inside.lt (hlinks : atlas.Links) {outer inner : Nat} (hinside : atlas.Inside outer inner) :
    outer < inner := by
  induction hinside with
  | single hparent => exact hlinks _ _ hparent
  | tail _ hparent ih => exact Nat.lt_trans ih (hlinks _ _ hparent)

theorem Within.le (hlinks : atlas.Links) {outer inner : Nat} (hwithin : atlas.Within outer inner) :
    outer ≤ inner := by
  rcases within_iff.1 hwithin with rfl | hinside
  · exact Nat.le_refl _
  · exact Nat.le_of_lt (hinside.lt hlinks)

/-- Of two ids that have something in common one is inside the other. -/
theorem Within.total {a b inner : Nat} (ha : atlas.Within a inner) (hb : atlas.Within b inner) :
    atlas.Within a b ∨ atlas.Within b a := by
  have hunique : Relator.RightUnique
      (Function.swap fun outer inner => atlas.parent? inner = some outer) := by
    intro inner a b ha hb
    exact Option.some.inj (ha.symm.trans hb)
  have hback := Relation.ReflTransGen.total_of_right_unique hunique
    (Relation.reflTransGen_swap.2 ha) (Relation.reflTransGen_swap.2 hb)
  exact hback.symm.imp Relation.reflTransGen_swap.1 Relation.reflTransGen_swap.1

theorem eq_of_within_child (hlinks : atlas.Links) {id a b : Nat}
    (ha : atlas.parent? a = some id) (hb : atlas.parent? b = some id)
    (hwithin : atlas.Within a b) : a = b := by
  rcases within_iff.1 hwithin with rfl | hinside
  · rfl
  · obtain ⟨above, habove, hparent⟩ := inside_iff_parent.1 hinside
    obtain rfl := Option.some.inj (hb.symm.trans hparent)
    exact absurd (habove.le hlinks) (Nat.not_le.2 (hlinks a id ha))

theorem mem_cons_subtree (hlinks : atlas.Links) {id inner : Nat} :
    inner ∈ id :: atlas.subtree id ↔ atlas.Within id inner := by
  rw [List.mem_cons, mem_subtree hlinks, within_iff]

/-- The induction goes from the youngest id to the oldest one. What is inside two children would
make one of them be inside the other. -/
theorem pairwise_subtree (hsound : atlas.Sound) (id : Nat) :
    (atlas.subtree id).Pairwise fun earlier later => ¬atlas.Within later earlier := by
  have hlinks := hsound.links
  generalize hyounger : atlas.size - id = younger
  induction younger using Nat.strongRecOn generalizing id with
  | ind younger ih =>
    rw [subtree_eq hsound, List.pairwise_flatMap]
    refine ⟨?_, ?_⟩
    · intro child hchild
      have hparent := (hsound.children _ _).1 (List.mem_reverse.1 hchild)
      have hlt := hlinks child id hparent
      have hsize := lt_size_of_parent? hparent
      rw [List.pairwise_cons]
      refine ⟨?_, ih (atlas.size - child) (by omega) child rfl⟩
      intro inner hinner hwithin
      have hinside := (mem_subtree hlinks).1 hinner
      exact absurd (hwithin.le hlinks) (Nat.not_le.2 (hinside.lt hlinks))
    · rw [List.pairwise_reverse]
      refine (hsound.ascending id).imp_of_mem ?_
      intro b a hb ha hlt earlier hearlier later hlater hwithin
      have hparent := (hsound.children _ _).1 ha
      have hparent' := (hsound.children _ _).1 hb
      rw [mem_cons_subtree hlinks] at hearlier hlater
      rcases hearlier.total (hlater.trans hwithin) with hab | hba
      · exact absurd (eq_of_within_child hlinks hparent hparent' hab) (Nat.ne_of_gt hlt)
      · exact absurd (eq_of_within_child hlinks hparent' hparent hba) (Nat.ne_of_lt hlt)

theorem nodup_subtree (hsound : atlas.Sound) (id : Nat) : (atlas.subtree id).Nodup := by
  refine (pairwise_subtree hsound id).imp ?_
  rintro earlier later hapart rfl
  exact hapart .refl

end

/-- Both searches end, each is the converse of the other, and the one upwards goes along the
containers. -/
structure Explored (atlas : Atlas) : Prop where
  /-- From the children of an id the search downwards ends with just this list. -/
  swept : ∀ id listed,
    atlas.Sweeps (atlas.children id).reverse listed ↔ listed = atlas.subtree id
  /-- From an id the search upwards ends with just this list. -/
  climbed : ∀ id listed, atlas.Climbs id listed ↔ listed = atlas.ancestors id
  /-- Downwards an id is found once where it has the id above it, and never otherwise. -/
  count : ∀ outer inner, (atlas.subtree outer).count inner =
    if outer ∈ atlas.ancestors inner then 1 else 0
  proper : ∀ id, id ∉ atlas.subtree id
  /-- Upwards the containers are listed, nearest first. -/
  containers : ∀ id url, atlas.url? id = some url →
    (atlas.ancestors id).map atlas.url? = url.containers.map some
  /-- Downwards an id comes behind its parent, if that is listed too. -/
  ordered : ∀ id front inner back, atlas.subtree id = front ++ inner :: back →
    ∀ above ∈ atlas.subtree id, atlas.parent? inner = some above → above ∈ front

theorem Sound.explored {atlas : Atlas} (hsound : atlas.Sound) : atlas.Explored where
  swept _ _ := sweeps_iff hsound
  climbed _ _ := climbs_iff hsound.links
  count outer inner := by
    rw [(nodup_subtree hsound outer).count]
    exact if_congr ((mem_subtree hsound.links).trans (mem_ancestors hsound.links).symm) rfl rfl
  proper id hmem := by
    have hinside := (mem_subtree hsound.links).1 hmem
    exact absurd (hinside.lt hsound.links) (Nat.lt_irrefl id)
  containers _ _ hurl := map_url?_ancestors hsound hurl
  ordered id front inner back hsubtree above habove hparent := by
    have hpairwise := pairwise_subtree hsound id
    rw [hsubtree] at habove hpairwise
    have hinside : atlas.Within above inner := .single hparent
    rcases List.mem_append.1 habove with hfront | hback
    · exact hfront
    · rcases List.mem_cons.1 hback with rfl | hback
      · exact absurd (hsound.links above above hparent) (Nat.lt_irrefl above)
      · have hbehind := (List.pairwise_append.1 hpairwise).2.1
        exact absurd hinside (List.rel_of_pairwise_cons hbehind hback)

theorem explored_ofList (urls : List Url) : (ofList urls).Explored :=
  (sound_ofList urls).explored

end ProjectRoots.Atlas
