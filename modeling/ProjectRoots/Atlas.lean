import ProjectRoots.Ascending
import ProjectRoots.Url.Walk

/- The atlas is the table of paths: it numbers the urls met so far. A url's id is its place in the
   order of entry, and its container, when new, is entered before it, so a link always leads to a
   smaller id. The same is kept in three places, which `add` keeps in step: a node has the link
   outwards and the set of the ids directly inside it, and a map leads from the urls to the ids.
   What lies below a url is only known as far as it has been entered: `subtree` lists it, and
   `ancestors` follows the links upwards.

   Correspondence (term ↔ Lean):
     path identifier                              ↔ the position of a node
     table of paths, its nodes and its map by url ↔ `Atlas`, `nodes`, `ids`
     set of children, as stored and as asked for  ↔ `Node.inner`, `children`
     interning, and the new node in it            ↔ `enter`, `add`
     the table behind it, the identifier of a url ↔ `intern`, `idOf`
     sub-tree, proper ancestors                   ↔ `subtree`, `ancestors` -/
namespace ProjectRoots

/-- A url of the atlas, the id of its container, and the ids of the urls directly inside it,
ascending. -/
structure Node where
  url : Url
  link : Option Nat
  inner : List Nat := []
deriving DecidableEq

/-- Take one more id among those directly inside. -/
def Node.enclose (node : Node) (id : Nat) : Node :=
  { node with inner := Ascending.insert (fun a b => decide (a < b)) id node.inner }

/-- The nodes when the one that the link leads to has taken another id among those inside it. -/
def Node.encloseAt (nodes : List Node) (link : Option Nat) (id : Nat) : List Node :=
  match link with
  | some above => nodes.modify above (·.enclose id)
  | none => nodes

/-- Of what is read off the nodes nothing changes but the sets. -/
theorem Node.bind_encloseAt {α : Type} (read : Node → Option α)
    (hread : ∀ node id, read (enclose node id) = read node) (nodes : List Node)
    (link : Option Nat) (id place : Nat) :
    (encloseAt nodes link id)[place]?.bind read = nodes[place]?.bind read := by
  cases link with
  | none => rfl
  | some above =>
    rw [encloseAt, List.getElem?_modify]
    cases nodes[place]? with
    | none => rfl
    | some node =>
      by_cases hsame : above = place <;> simp [hsame, hread]

/-- The urls met so far, oldest first; a node's id is its position. -/
structure Atlas where
  nodes : List Node
  /-- The ids by their urls, the youngest first. -/
  ids : List (Url × Nat)
  /-- The map leads to a node of the url. -/
  named : ∀ url id, ids.lookup url = some id → nodes[id]?.map (·.url) = some url

namespace Atlas

/-- No url has been met yet. -/
instance : EmptyCollection Atlas where
  emptyCollection :=
    { nodes := []
      ids := []
      named := by
        intro _ _ hid
        cases hid }

/-- The number of urls known. -/
def size (atlas : Atlas) : Nat :=
  atlas.nodes.length

/-- The id of a url that is known. -/
def find? (atlas : Atlas) (url : Url) : Option Nat :=
  atlas.ids.lookup url

/-- The url with this id. -/
def url? (atlas : Atlas) (id : Nat) : Option Url :=
  atlas.nodes[id]?.map (·.url)

/-- The id of the container of the url with this id. -/
def parent? (atlas : Atlas) (id : Nat) : Option Nat :=
  atlas.nodes[id]?.bind (·.link)

/-- The ids of the urls directly inside the one with this id, oldest first. -/
def children (atlas : Atlas) (id : Nat) : List Nat :=
  (atlas.nodes[id]?.map (·.inner)).getD []

theorem url?_of_find? {atlas : Atlas} {url : Url} {id : Nat} (hfind : atlas.find? url = some id) :
    atlas.url? id = some url :=
  atlas.named url id hfind

theorem lt_size_of_url? {atlas : Atlas} {id : Nat} {url : Url} (hurl : atlas.url? id = some url) :
    id < atlas.size := by
  obtain ⟨node, hnode, _⟩ := Option.map_eq_some_iff.1 hurl
  exact (List.getElem?_eq_some_iff.1 hnode).1

/-- The url gets the next id, which is noted at the node that the link leads to. -/
def add (atlas : Atlas) (url : Url) (link : Option Nat) : Atlas × Nat where
  fst :=
    { nodes := Node.encloseAt (atlas.nodes ++ [⟨url, link, []⟩]) link atlas.size
      ids := (url, atlas.size) :: atlas.ids
      named := by
        intro other id hid
        rw [Option.map_eq_bind, Node.bind_encloseAt _ fun _ _ => rfl, ← Option.map_eq_bind]
        rw [List.lookup_cons] at hid
        split at hid
        · rename_i hsame
          rw [← Option.some.inj hid, size, List.getElem?_concat_length, eq_of_beq hsame]
          rfl
        · have hold := atlas.named other id hid
          rwa [List.getElem?_append_left (lt_size_of_url? hold)] }
  snd := atlas.size

/-- Enter a url and, before it, its container. A url that is known is left alone. The answer is
the id that the url has then. -/
def enter (atlas : Atlas) (url : Url) : Atlas × Nat :=
  match atlas.find? url with
  | some id => (atlas, id)
  | none =>
    match _step : url.container with
    | none => atlas.add url none
    | some up =>
      let (grown, above) := atlas.enter up
      grown.add url (some above)
termination_by url.path.length
decreasing_by exact Url.container_length_lt _step

/-- The atlas with a url and its containers entered. -/
def intern (atlas : Atlas) (url : Url) : Atlas :=
  (atlas.enter url).1

/-- The id of a url that was entered. -/
def idOf (atlas : Atlas) (url : Url) : Nat :=
  (atlas.find? url).getD atlas.size

/-- The ids found below `id` among `nodes`, the first of which has the id `next`. Of two inner
urls the younger comes first, and each is followed by what is below it. -/
def below (id next : Nat) : List Node → List Nat
  | [] => []
  | node :: rest =>
    below id (next + 1) rest ++
      if node.link = some id then next :: below next (next + 1) rest else []

/-- The ids of all known urls inside the one with this id. -/
def subtree (atlas : Atlas) (id : Nat) : List Nat :=
  below id (id + 1) (atlas.nodes.drop (id + 1))

/-- Follow the links from `wanted` through the older nodes, the youngest of which comes first. -/
def climb (wanted : Option Nat) : List Node → List Nat
  | [] => []
  | node :: older =>
    match wanted with
    | none => []
    | some id =>
      if id = older.length then id :: climb node.link older else climb (some id) older

/-- The ids of the known containers around the one with this id, nearest first. -/
def ancestors (atlas : Atlas) (id : Nat) : List Nat :=
  climb (atlas.parent? id) atlas.nodes.reverse

/-- Every link leads to a smaller id. -/
def Links (atlas : Atlas) : Prop :=
  ∀ id link, atlas.parent? id = some link → link < id

end Atlas

end ProjectRoots
