import ProjectRoots.Proofs.Coverage.Scan
import ProjectRoots.Proofs.Graph.Serial

/- Clients of a workspace. Any number of clients read the present snapshot and make commits, for the
   version that they have read or for any other, while urls are entered into the atlas that all
   snapshots share. A request is served as a whole, so what the clients do together is a list of
   requests in some order.

     1. `follows_serve` — a request never takes back a snapshot, a commit or an id.
     2. `sound_serve`, `sound_serveAll` — the present graph is what the accepted commits make of the
        first one, one after another, and a snapshot in the hands of a client is what some of them
        had made of it then, with a coverage that still is the one of its graph.
     3. `serializable_serveAll` — so commits are serial, and each is done as a whole or not at
        all. -/
namespace ProjectRoots

namespace Workspace

theorem commit_eq_ok_iff {workspace next : Workspace} {commit : Commit} :
    workspace.commit commit = .ok next ↔
      ∃ graph, workspace.current.graph.Takes commit graph ∧ load graph workspace.atlas = next := by
  simp only [← Graph.apply_eq_ok_iff, Workspace.commit]
  cases workspace.current.graph.apply commit with
  | ok graph => simp
  | error fault => simp

theorem commit_eq_error_iff {workspace : Workspace} {commit : Commit} {fault : CommitFault} :
    workspace.commit commit = .error fault ↔ workspace.current.graph.Refuses commit fault := by
  rw [← Graph.apply_eq_error_iff, Workspace.commit]
  cases workspace.current.graph.apply commit with
  | ok graph => simp
  | error found => simp

end Workspace

/-! ## Requests -/

/-- A client of a workspace. -/
abbrev Client := Nat

/-- What is asked of a workspace. -/
inductive Request
  /-- A client reads the present snapshot. -/
  | read (client : Client)
  | commit (client : Client) (commit : Commit)
  /-- A url is entered into the atlas. -/
  | intern (url : Url)

/-- A workspace and what it has answered. -/
structure Exchange where
  workspace : Workspace
  /-- The snapshots that clients got, in this order. -/
  handed : List (Client × Snapshot) := []
  /-- The commits that were accepted, in this order. -/
  accepted : List Commit := []

namespace Exchange

/-- The present graph. -/
def graph (exchange : Exchange) : Graph :=
  exchange.workspace.current.graph

/-- Answer a request. A client whose commit is accepted gets the new snapshot. -/
def serve (exchange : Exchange) : Request → Exchange
  | .read client =>
    { exchange with handed := exchange.handed ++ [(client, exchange.workspace.current)] }
  | .commit client commit =>
    match exchange.workspace.commit commit with
    | .ok next =>
      ⟨next, exchange.handed ++ [(client, next.current)], exchange.accepted ++ [commit]⟩
    | .error _ => exchange
  | .intern url => { exchange with workspace := exchange.workspace.intern url }

/-- Answer requests one after another. -/
def serveAll (exchange : Exchange) (requests : List Request) : Exchange :=
  requests.foldl serve exchange

/-- The workspace of a graph before the first request. Urls may be in the atlas already. -/
def opened (first : Graph) (entered : List Url) : Exchange where
  workspace := Workspace.load first (entered.foldl Atlas.intern {})

theorem serve_of_takes {exchange : Exchange} {commit : Commit} {next : Graph}
    (htakes : exchange.graph.Takes commit next) (client : Client) :
    exchange.serve (.commit client commit) =
      ⟨Workspace.load next exchange.workspace.atlas,
        exchange.handed ++ [(client, (Workspace.load next exchange.workspace.atlas).current)],
        exchange.accepted ++ [commit]⟩ := by
  simp only [serve, Workspace.commit_eq_ok_iff.2 ⟨next, htakes, rfl⟩]

theorem serve_of_refuses {exchange : Exchange} {commit : Commit} {fault : CommitFault}
    (hrefuses : exchange.graph.Refuses commit fault) (client : Client) :
    exchange.serve (.commit client commit) = exchange := by
  simp only [serve, Workspace.commit_eq_error_iff.2 hrefuses]

/-! ## Nothing is taken back -/

/-- What was answered before still stands: snapshots, commits, and ids of urls. -/
structure Follows (exchange later : Exchange) : Prop where
  handed : exchange.handed <+: later.handed
  accepted : exchange.accepted <+: later.accepted
  grows : exchange.workspace.atlas.Grows later.workspace.atlas

theorem Follows.refl (exchange : Exchange) : exchange.Follows exchange :=
  ⟨List.prefix_refl _, List.prefix_refl _, .refl⟩

theorem Follows.trans {exchange later last : Exchange} (hlater : exchange.Follows later)
    (hlast : later.Follows last) : exchange.Follows last :=
  ⟨hlater.handed.trans hlast.handed, hlater.accepted.trans hlast.accepted,
    hlater.grows.trans hlast.grows⟩

theorem follows_serve (exchange : Exchange) (request : Request) :
    exchange.Follows (exchange.serve request) := by
  cases request with
  | read client => exact ⟨List.prefix_append _ _, List.prefix_refl _, .refl⟩
  | commit client commit =>
    rcases exchange.graph.apply_spec commit with ⟨next, _, htakes⟩ | ⟨fault, _, hrefuses⟩
    · rw [serve_of_takes htakes]
      exact ⟨List.prefix_append _ _, List.prefix_append _ _, Workspace.grows_load next _⟩
    · rw [serve_of_refuses hrefuses]
      exact .refl exchange
  | intern url => exact ⟨List.prefix_refl _, List.prefix_refl _, Atlas.Grows.refl.intern url⟩

theorem follows_serveAll (exchange : Exchange) (requests : List Request) :
    exchange.Follows (exchange.serveAll requests) := by
  induction requests generalizing exchange with
  | nil => exact .refl exchange
  | cons request rest ih => exact (follows_serve exchange request).trans (ih _)

end Exchange

/-! ## Snapshots in the hands of clients -/

/-- A snapshot is a state that the workspace has had: its graph is what the first of the accepted
commits had made, and its coverage is the one of this graph. -/
structure Snapshot.Stands (snapshot : Snapshot) (first : Graph) (accepted : List Commit)
    (atlas : Atlas) : Prop where
  past : ∃ count ≤ accepted.length, first.Serial (accepted.take count) snapshot.graph
  tracks : snapshot.coverage.Tracks atlas snapshot.graph.references

/-- It makes no difference to a snapshot what is committed and entered later. -/
theorem Snapshot.Stands.later {snapshot : Snapshot} {first : Graph} {accepted more : List Commit}
    {atlas later : Atlas} (hstands : snapshot.Stands first accepted atlas)
    (hmore : accepted <+: more) (hgrows : atlas.Grows later) :
    snapshot.Stands first more later := by
  obtain ⟨rest, rfl⟩ := hmore
  obtain ⟨count, hcount, hserial⟩ := hstands.past
  refine ⟨⟨count, ?_, ?_⟩, hstands.tracks.of_grows hgrows⟩
  · rw [List.length_append]
    exact Nat.le_trans hcount (Nat.le_add_right _ _)
  · rw [List.take_append_of_le_length hcount]
    exact hserial

theorem Snapshot.stands_of_serial {snapshot : Snapshot} {first : Graph} {accepted : List Commit}
    {atlas : Atlas} (hserial : first.Serial accepted snapshot.graph)
    (htracks : snapshot.coverage.Tracks atlas snapshot.graph.references) :
    snapshot.Stands first accepted atlas := by
  refine ⟨⟨accepted.length, Nat.le_refl _, ?_⟩, htracks⟩
  rw [List.take_length]
  exact hserial

namespace Exchange

/-- What holds between any two requests. -/
structure Sound (first : Graph) (exchange : Exchange) : Prop where
  serial : first.Serial exchange.accepted exchange.graph
  grows : Atlas.Grows {} exchange.workspace.atlas
  tracks : exchange.workspace.current.coverage.Tracks exchange.workspace.atlas
    exchange.graph.references
  handed : ∀ entry ∈ exchange.handed,
    entry.2.Stands first exchange.accepted exchange.workspace.atlas

theorem sound_opened (first : Graph) (entered : List Url) : (opened first entered).Sound first := by
  have hentered := Atlas.grows_foldl_intern {} entered
  refine ⟨.nil, hentered.trans (Workspace.grows_load first _), ?_, ?_⟩
  · exact (Coverage.tracks_ofGraph first _).1
  · intro entry hmem
    cases hmem

section
variable {first : Graph} {exchange : Exchange} (hsound : exchange.Sound first)
include hsound

theorem sound_serve (request : Request) : (exchange.serve request).Sound first := by
  have hfollows := follows_serve exchange request
  -- What the clients have already stays as it is, whatever the request.
  have hold : ∀ entry ∈ exchange.handed, entry.2.Stands first (exchange.serve request).accepted
      (exchange.serve request).workspace.atlas := fun entry hmem =>
    (hsound.handed entry hmem).later hfollows.accepted hfollows.grows
  cases request with
  | read client =>
    refine ⟨hsound.serial, hsound.grows, hsound.tracks, ?_⟩
    intro entry hmem
    rcases List.mem_append.1 hmem with hmem | hmem
    · exact hold entry hmem
    · rw [List.mem_singleton.1 hmem]
      exact Snapshot.stands_of_serial hsound.serial hsound.tracks
  | commit client commit =>
    rcases exchange.graph.apply_spec commit with ⟨next, _, htakes⟩ | ⟨fault, _, hrefuses⟩
    · rw [serve_of_takes htakes] at hold ⊢
      have hserial : first.Serial (exchange.accepted ++ [commit]) next :=
        .snoc hsound.serial htakes
      obtain ⟨htracks, hgrows⟩ := Coverage.tracks_ofGraph next exchange.workspace.atlas
      refine ⟨hserial, hsound.grows.trans hgrows, htracks, ?_⟩
      intro entry hmem
      rcases List.mem_append.1 hmem with hmem | hmem
      · exact hold entry hmem
      · rw [List.mem_singleton.1 hmem]
        exact Snapshot.stands_of_serial hserial htracks
    · rw [serve_of_refuses hrefuses]
      exact hsound
  | intern url =>
    have hgrows : exchange.workspace.atlas.Grows (exchange.workspace.atlas.intern url) :=
      hfollows.grows
    exact ⟨hsound.serial, hsound.grows.trans hgrows, hsound.tracks.of_grows hgrows, hold⟩

theorem sound_serveAll (requests : List Request) : (exchange.serveAll requests).Sound first := by
  induction requests generalizing exchange with
  | nil => exact hsound
  | cons request rest ih => exact ih (sound_serve hsound request)

/-! ## What the clients get -/

theorem agrees_of_stands {snapshot : Snapshot}
    (hstands : snapshot.Stands first exchange.accepted exchange.workspace.atlas) (url : Url) :
    snapshot.graph.Agrees exchange.workspace.atlas url
      (snapshot.coverage.affected exchange.workspace.atlas url) :=
  Coverage.agrees_affected (hsound.grows.sound Atlas.sound_empty) hstands.tracks url

/-- A snapshot of the present version is the present one. -/
theorem graph_eq_of_stands {snapshot : Snapshot}
    (hstands : snapshot.Stands first exchange.accepted exchange.workspace.atlas)
    (hversion : snapshot.graph.version = exchange.graph.version) :
    snapshot.graph = exchange.graph := by
  obtain ⟨count, hcount, hserial⟩ := hstands.past
  -- The version counts the commits, so the snapshot is behind all of them.
  have hcount : count = exchange.accepted.length := by
    rw [hserial.version_eq, hsound.serial.version_eq, List.length_take] at hversion
    omega
  rw [hcount, List.take_length] at hserial
  exact hserial.eq hsound.serial

theorem affected_serveAll {entry : Client × Snapshot} (hmem : entry ∈ exchange.handed)
    (requests : List Request) (url : Url) :
    entry.2.coverage.affected (exchange.serveAll requests).workspace.atlas url =
      entry.2.coverage.affected exchange.workspace.atlas url := by
  have hfollows := follows_serveAll exchange requests
  have hlater := sound_serveAll hsound requests
  have hnow := agrees_of_stands hsound (hsound.handed entry hmem) url
  exact hnow.eq hfollows.grows
    (agrees_of_stands hlater (hlater.handed entry (hfollows.handed.subset hmem)) url)

end

/-- Commits are serial, and each is done as a whole or not at all. -/
structure Serializable (first : Graph) (exchange : Exchange) : Prop where
  /-- The present graph is what the accepted commits make of the first one, one after another. -/
  serial : ∀ graph, first.Serial exchange.accepted graph ↔ graph = exchange.graph
  /-- Each of them was made for the version that those before it had led to. -/
  bases : ∀ (count : Nat) (hcount : count < exchange.accepted.length),
    exchange.accepted[count].base = first.version + count
  /-- Of the commits made for one version at most one was accepted. -/
  once : (exchange.accepted.map Commit.base).Nodup
  /-- Every further commit is taken or refused. -/
  either : ∀ commit, (∃ next, exchange.graph.Takes commit next) ∨
    ∃ fault, exchange.graph.Refuses commit fault
  /-- If it is taken, all its changes are done. -/
  takes : ∀ (client : Client) (commit : Commit) (next : Graph), exchange.graph.Takes commit next →
    (exchange.serve (.commit client commit)).graph = next ∧
      (exchange.serve (.commit client commit)).accepted = exchange.accepted ++ [commit]
  /-- If it is refused, for whatever reason, everything is as before. -/
  refuses : ∀ (client : Client) (commit : Commit) (fault : CommitFault),
    exchange.graph.Refuses commit fault →
      exchange.workspace.commit commit = .error fault ∧
        exchange.serve (.commit client commit) = exchange
  /-- A commit for the version of a snapshot is only taken if nothing was accepted since. -/
  seen : ∀ entry ∈ exchange.handed, ∀ (commit : Commit) (next : Graph),
    commit.base = entry.2.graph.version → exchange.graph.Takes commit next →
      entry.2.graph = exchange.graph
  /-- A snapshot that a client got is the state behind some of the accepted commits, and its
  coverage answers for its graph. -/
  handed : ∀ entry ∈ exchange.handed,
    (∃ count ≤ exchange.accepted.length,
        first.Serial (exchange.accepted.take count) entry.2.graph) ∧
      ∀ url, entry.2.graph.Agrees exchange.workspace.atlas url
        (entry.2.coverage.affected exchange.workspace.atlas url)
  /-- Whatever is asked from now on, the clients keep the snapshots that they have, and these answer
  as before. -/
  kept : ∀ requests, exchange.handed <+: (exchange.serveAll requests).handed ∧
    ∀ entry ∈ exchange.handed, ∀ url,
      entry.2.coverage.affected (exchange.serveAll requests).workspace.atlas url =
        entry.2.coverage.affected exchange.workspace.atlas url
  /-- Every entity of the graph is stored under its own id, and nothing else is stored. -/
  stored : ∀ id entity, exchange.graph.entity? id = some entity ↔
    entity ∈ exchange.graph.entities ∧ entity.id = id

theorem Sound.serializable {first : Graph} {exchange : Exchange} (hsound : exchange.Sound first) :
    Serializable first exchange where
  serial graph := ⟨fun hserial => hserial.eq hsound.serial, fun hsame => hsame ▸ hsound.serial⟩
  bases count hcount := by
    have hbase := congrArg (·[count]?) hsound.serial.base_eq
    simpa [hcount] using hbase
  once := by
    rw [hsound.serial.base_eq]
    exact List.nodup_range'
  either commit := by
    rcases exchange.graph.apply_spec commit with ⟨next, _, htakes⟩ | ⟨fault, _, hrefuses⟩
    · exact Or.inl ⟨next, htakes⟩
    · exact Or.inr ⟨fault, hrefuses⟩
  takes client commit next htakes := by
    rw [serve_of_takes htakes]
    exact ⟨rfl, rfl⟩
  refuses client commit fault hrefuses :=
    ⟨Workspace.commit_eq_error_iff.2 hrefuses, serve_of_refuses hrefuses client⟩
  seen entry hmem commit next hbase htakes :=
    graph_eq_of_stands hsound (hsound.handed entry hmem) (hbase.symm.trans htakes.base_eq)
  handed entry hmem :=
    ⟨(hsound.handed entry hmem).past, agrees_of_stands hsound (hsound.handed entry hmem)⟩
  kept requests :=
    ⟨(follows_serveAll exchange requests).handed,
      fun _ hmem => affected_serveAll hsound hmem requests⟩
  stored _ _ := Graph.entity?_eq_some_iff

theorem serializable_serveAll (first : Graph) (entered : List Url) (requests : List Request) :
    Serializable first ((opened first entered).serveAll requests) :=
  (sound_serveAll (sound_opened first entered) requests).serializable

/-- Two clients have read the same version. Of their commits only the first is accepted, and what
the second client makes for the new version fails at its last change. -/
example :
    let served := (opened (Graph.ofList [⟨"module:a", .module, "a", []⟩]) []).serveAll
      [.read 1, .read 2,
        .commit 1 ⟨0, [.rename "module:a" "a" "b", .remove "module:a"]⟩,
        .commit 2 ⟨0, [.remove "module:a"]⟩,
        .commit 2 ⟨1, [.add ⟨"module:c", .module, "c", []⟩, .remove "module:a"]⟩]
    served.accepted.length = 1 ∧ served.graph.size = 0 ∧
      served.handed.map (fun entry => entry.2.graph.version) = [0, 0, 1] := by
  decide +kernel

end Exchange

end ProjectRoots
