import ProjectRoots.Proofs.Graph.Lookup

/- What commits make of a graph. A graph is seen as the map from ids to entities that it is, and it
   is said of such maps what changes do and which of them cannot be done.

     1. `Performs.unique`, `Fails.unique`, `PerformAll.unique`, `FailAll.unique` — changes have one
        outcome, and cannot both be done and fail.
     2. `change_spec`, `changeAll_spec` — it is the outcome that a graph gives.
     3. `apply_eq_ok_iff`, `apply_eq_error_iff` — so it is known which commits are accepted and what
        comes of them, and which are refused and why.
     4. `Serial.eq`, `Serial.base_eq` — the commits that were accepted one after another determine
        the graph, and each was made for the version that it found. -/
namespace ProjectRoots

/-! ## Changes of a map -/

/-- What a change makes of the entities stored under ids. The key is the id that the change names,
not the one of the entity found there. -/
inductive Change.Performs :
    Change → (String → Option Entity) → (String → Option Entity) → Prop
  | add {stored : String → Option Entity} {entity : Entity} (hfree : stored entity.id = none) :
    Performs (.add entity) stored (Function.update stored entity.id (some entity))
  | remove {stored : String → Option Entity} {id : String} {entity : Entity}
    (hfound : stored id = some entity) :
    Performs (.remove id) stored (Function.update stored id none)
  | rename {stored : String → Option Entity} {id old : String} {entity : Entity}
    (hfound : stored id = some entity) (hname : entity.name = old) (new : String) :
    Performs (.rename id old new) stored
      (Function.update stored id (some { entity with name := new }))
  | setRoots {stored : String → Option Entity} {id : String} {entity : Entity}
    (hfound : stored id = some entity) (roots : List Root) :
    Performs (.setRoots id roots) stored
      (Function.update stored id (some { entity with roots := roots }))

/-- Why a change cannot be done to the entities stored under ids. -/
inductive Change.Fails : Change → (String → Option Entity) → CommitFault → Prop
  | add {stored : String → Option Entity} {entity other : Entity}
    (hfound : stored entity.id = some other) :
    Fails (.add entity) stored (.alreadyExists entity.id)
  | remove {stored : String → Option Entity} {id : String} (hfree : stored id = none) :
    Fails (.remove id) stored (.unknownEntity id)
  | rename {stored : String → Option Entity} {id : String} (hfree : stored id = none)
    (old new : String) : Fails (.rename id old new) stored (.unknownEntity id)
  | misnamed {stored : String → Option Entity} {id old : String} {entity : Entity}
    (hfound : stored id = some entity) (hname : entity.name ≠ old) (new : String) :
    Fails (.rename id old new) stored (.nameMismatch id entity.name old)
  | setRoots {stored : String → Option Entity} {id : String} (hfree : stored id = none)
    (roots : List Root) : Fails (.setRoots id roots) stored (.unknownEntity id)

/-- What changes make of the entities stored under ids, one after another. -/
inductive PerformAll :
    List Change → (String → Option Entity) → (String → Option Entity) → Prop
  | nil (stored : String → Option Entity) : PerformAll [] stored stored
  | cons {first : Change} {rest : List Change} {stored middle later : String → Option Entity}
    (hfirst : first.Performs stored middle) (hrest : PerformAll rest middle later) :
    PerformAll (first :: rest) stored later

/-- One of the changes cannot be done, although all before it can. -/
inductive FailAll : List Change → (String → Option Entity) → CommitFault → Prop
  | here {first : Change} {stored : String → Option Entity} {fault : CommitFault}
    (hfails : first.Fails stored fault) (rest : List Change) :
    FailAll (first :: rest) stored fault
  | behind {first : Change} {rest : List Change} {stored middle : String → Option Entity}
    {fault : CommitFault} (hfirst : first.Performs stored middle)
    (hrest : FailAll rest middle fault) : FailAll (first :: rest) stored fault

section
variable {change : Change} {changes : List Change} {stored a b : String → Option Entity}
  {fault other : CommitFault}

theorem Change.Performs.unique (ha : change.Performs stored a) (hb : change.Performs stored b) :
    a = b := by
  cases ha <;> cases hb <;> simp_all

theorem Change.Fails.unique (hfault : change.Fails stored fault)
    (hother : change.Fails stored other) : fault = other := by
  cases hfault <;> cases hother <;> simp_all

theorem Change.Performs.not_fails (hperforms : change.Performs stored a) :
    ¬change.Fails stored fault := by
  intro hfails
  cases hperforms <;> cases hfails <;> simp_all

theorem PerformAll.unique (ha : PerformAll changes stored a) (hb : PerformAll changes stored b) :
    a = b := by
  induction ha with
  | nil => cases hb; rfl
  | cons hfirst _ ih =>
    obtain _ | ⟨hfirst', hrest⟩ := hb
    obtain rfl := hfirst.unique hfirst'
    exact ih hrest

theorem PerformAll.append {more : List Change} {middle : String → Option Entity}
    (hfirst : PerformAll changes stored middle) (hsecond : PerformAll more middle a) :
    PerformAll (changes ++ more) stored a := by
  induction hfirst with
  | nil => exact hsecond
  | cons hchange _ ih => exact .cons hchange (ih hsecond)

theorem PerformAll.not_failAll (hperforms : PerformAll changes stored a) :
    ¬FailAll changes stored fault := by
  intro hfails
  induction hperforms with
  | nil => cases hfails
  | cons hfirst _ ih =>
    cases hfails with
    | here hfails rest => exact hfirst.not_fails hfails
    | behind hfirst' hrest =>
      obtain rfl := hfirst.unique hfirst'
      exact ih hrest

theorem FailAll.unique (hfault : FailAll changes stored fault)
    (hother : FailAll changes stored other) : fault = other := by
  induction hfault with
  | here hfails rest =>
    cases hother with
    | here hfails' _ => exact hfails.unique hfails'
    | behind hfirst _ => exact absurd hfails hfirst.not_fails
  | behind hfirst _ ih =>
    cases hother with
    | here hfails _ => exact absurd hfails hfirst.not_fails
    | behind hfirst' hrest =>
      obtain rfl := hfirst.unique hfirst'
      exact ih hrest

end

/-! ## Changes of a graph -/

namespace Graph

theorem change_spec (graph : Graph) (change : Change) :
    (∃ next, graph.change change = .ok next ∧ change.Performs graph.entity? next.entity?) ∨
      ∃ fault, graph.change change = .error fault ∧ change.Fails graph.entity? fault := by
  cases change with
  | add entity =>
    cases hfind : graph.entity? entity.id with
    | some other => exact Or.inr ⟨_, by simp only [Graph.change, hfind], .add hfind⟩
    | none =>
      refine Or.inl ⟨graph.put entity, by simp only [Graph.change, hfind], ?_⟩
      rw [entity?_put]
      exact .add hfind
  | remove id =>
    cases hfind : graph.entity? id with
    | none => exact Or.inr ⟨_, by simp only [Graph.change, hfind], .remove hfind⟩
    | some entity =>
      refine Or.inl ⟨graph.erase id, by simp only [Graph.change, hfind], ?_⟩
      rw [entity?_erase]
      exact .remove hfind
  | rename id old new =>
    cases hfind : graph.entity? id with
    | none => exact Or.inr ⟨_, by simp only [Graph.change, hfind], .rename hfind old new⟩
    | some entity =>
      by_cases hname : entity.name = old
      · refine Or.inl ⟨graph.put { entity with name := new },
          by simp only [Graph.change, hfind, if_pos hname], ?_⟩
        -- The entity keeps its id, so it goes back to the key that the change names.
        obtain rfl := id_of_entity? hfind
        rw [entity?_put]
        exact .rename hfind hname new
      · exact Or.inr ⟨_, by simp only [Graph.change, hfind, if_neg hname],
          .misnamed hfind hname new⟩
  | setRoots id roots =>
    cases hfind : graph.entity? id with
    | none => exact Or.inr ⟨_, by simp only [Graph.change, hfind], .setRoots hfind roots⟩
    | some entity =>
      refine Or.inl ⟨graph.put { entity with roots := roots },
        by simp only [Graph.change, hfind], ?_⟩
      obtain rfl := id_of_entity? hfind
      rw [entity?_put]
      exact .setRoots hfind roots

theorem changeAll_spec (graph : Graph) (changes : List Change) :
    (∃ next, graph.changeAll changes = .ok next ∧
        PerformAll changes graph.entity? next.entity?) ∨
      ∃ fault, graph.changeAll changes = .error fault ∧ FailAll changes graph.entity? fault := by
  induction changes generalizing graph with
  | nil => exact Or.inl ⟨graph, rfl, .nil _⟩
  | cons first rest ih =>
    rcases graph.change_spec first with ⟨middle, hchange, hfirst⟩ | ⟨fault, hchange, hfirst⟩
    · rcases ih middle with ⟨next, hrest, hperforms⟩ | ⟨fault, hrest, hfails⟩
      · exact Or.inl ⟨next, by simp only [changeAll, hchange, hrest], .cons hfirst hperforms⟩
      · exact Or.inr ⟨fault, by simp only [changeAll, hchange, hrest], .behind hfirst hfails⟩
    · exact Or.inr ⟨fault, by simp only [changeAll, hchange], .here hfirst rest⟩

/-! ## Commits -/

/-- A commit takes a graph to the next one: it is made for this version, and its changes are done
one after another. -/
structure Takes (graph : Graph) (commit : Commit) (next : Graph) : Prop where
  base_eq : commit.base = graph.version
  version_eq : next.version = graph.version + 1
  performed : PerformAll commit.changes graph.entity? next.entity?

/-- Why a graph refuses a commit. -/
inductive Refuses (graph : Graph) (commit : Commit) : CommitFault → Prop
  | stale (hbase : commit.base ≠ graph.version) :
    Refuses graph commit (.staleBase commit.base graph.version)
  | failed {fault : CommitFault} (hbase : commit.base = graph.version)
    (hfails : FailAll commit.changes graph.entity? fault) : Refuses graph commit fault

theorem Takes.unique {graph a b : Graph} {commit : Commit} (ha : graph.Takes commit a)
    (hb : graph.Takes commit b) : a = b :=
  eq_of_entity?_eq (ha.version_eq.trans hb.version_eq.symm) (ha.performed.unique hb.performed)

theorem Takes.not_refuses {graph next : Graph} {commit : Commit} {fault : CommitFault}
    (htakes : graph.Takes commit next) : ¬graph.Refuses commit fault := by
  intro hrefuses
  cases hrefuses with
  | stale hbase => exact hbase htakes.base_eq
  | failed _ hfails => exact htakes.performed.not_failAll hfails

theorem Refuses.unique {graph : Graph} {commit : Commit} {fault other : CommitFault}
    (hfault : graph.Refuses commit fault) (hother : graph.Refuses commit other) :
    fault = other := by
  cases hfault with
  | stale hbase =>
    cases hother with
    | stale => rfl
    | failed hbase' _ => exact absurd hbase' hbase
  | failed hbase hfails =>
    cases hother with
    | stale hbase' => exact absurd hbase hbase'
    | failed _ hfails' => exact hfails.unique hfails'

theorem apply_spec (graph : Graph) (commit : Commit) :
    (∃ next, graph.apply commit = .ok next ∧ graph.Takes commit next) ∨
      ∃ fault, graph.apply commit = .error fault ∧ graph.Refuses commit fault := by
  by_cases hbase : commit.base = graph.version
  · rcases graph.changeAll_spec commit.changes with
      ⟨next, hnext, hperforms⟩ | ⟨fault, hfault, hfails⟩
    · -- Only the version is still the old one.
      refine Or.inl ⟨{ next with version := graph.version + 1 },
        by simp only [apply, if_pos hbase, hnext], hbase, rfl, hperforms⟩
    · exact Or.inr ⟨fault, by simp only [apply, if_pos hbase, hfault], .failed hbase hfails⟩
  · exact Or.inr ⟨_, by simp only [apply, if_neg hbase], .stale hbase⟩

theorem apply_eq_ok_iff {graph next : Graph} {commit : Commit} :
    graph.apply commit = .ok next ↔ graph.Takes commit next := by
  rcases graph.apply_spec commit with ⟨found, happly, htakes⟩ | ⟨fault, happly, hrefuses⟩
  · rw [happly, Except.ok.injEq]
    exact ⟨fun hsame => hsame ▸ htakes, htakes.unique⟩
  · rw [happly]
    exact ⟨nofun, fun htakes => absurd hrefuses htakes.not_refuses⟩

theorem apply_eq_error_iff {graph : Graph} {commit : Commit} {fault : CommitFault} :
    graph.apply commit = .error fault ↔ graph.Refuses commit fault := by
  rcases graph.apply_spec commit with ⟨next, happly, htakes⟩ | ⟨found, happly, hrefuses⟩
  · rw [happly]
    exact ⟨nofun, fun hrefuses => absurd hrefuses htakes.not_refuses⟩
  · rw [happly, Except.error.injEq]
    exact ⟨fun hsame => hsame ▸ hrefuses, hrefuses.unique⟩

/-! ## Histories -/

/-- The graph that a first one becomes by commits that it takes one after another. -/
inductive Serial (first : Graph) : List Commit → Graph → Prop
  | nil : Serial first [] first
  | snoc {commits : List Commit} {graph next : Graph} {commit : Commit}
    (hserial : Serial first commits graph) (htakes : graph.Takes commit next) :
    Serial first (commits ++ [commit]) next

theorem serial_nil_iff {first graph : Graph} : first.Serial [] graph ↔ graph = first := by
  constructor
  · intro hserial
    generalize hnil : ([] : List Commit) = commits at hserial
    cases hserial with
    | nil => rfl
    | snoc => simp at hnil
  · rintro rfl
    exact .nil

theorem serial_snoc_iff {first next : Graph} {commits : List Commit} {commit : Commit} :
    first.Serial (commits ++ [commit]) next ↔
      ∃ graph, first.Serial commits graph ∧ graph.Takes commit next := by
  constructor
  · intro hserial
    generalize hsnoc : commits ++ [commit] = all at hserial
    cases hserial with
    | nil => simp at hsnoc
    | snoc hserial htakes =>
      obtain ⟨rfl, hcommit⟩ := List.append_inj' hsnoc rfl
      obtain rfl := List.singleton_inj.1 hcommit
      exact ⟨_, hserial, htakes⟩
  · rintro ⟨graph, hserial, htakes⟩
    exact .snoc hserial htakes

theorem Serial.version_eq {first graph : Graph} {commits : List Commit}
    (hserial : first.Serial commits graph) : graph.version = first.version + commits.length := by
  induction hserial with
  | nil => rfl
  | snoc _ htakes ih =>
    rw [htakes.version_eq, ih, List.length_append, List.length_singleton, Nat.add_assoc]

theorem Serial.base_eq {first graph : Graph} {commits : List Commit}
    (hserial : first.Serial commits graph) :
    commits.map Commit.base = List.range' first.version commits.length := by
  induction hserial with
  | nil => rfl
  | snoc hserial htakes ih =>
    rw [List.map_append, ih, List.length_append, List.length_singleton, List.range'_concat,
      List.map_singleton, htakes.base_eq, hserial.version_eq, Nat.one_mul]

theorem Serial.eq {first a b : Graph} {commits : List Commit} (ha : first.Serial commits a)
    (hb : first.Serial commits b) : a = b := by
  induction ha generalizing b with
  | nil => exact (serial_nil_iff.1 hb).symm
  | snoc _ htakes ih =>
    obtain ⟨graph, hserial, htakes'⟩ := serial_snoc_iff.1 hb
    obtain rfl := ih hserial
    exact htakes.unique htakes'

end Graph

end ProjectRoots
