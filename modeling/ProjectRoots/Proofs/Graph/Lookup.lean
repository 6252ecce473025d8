import Mathlib.Data.List.Perm.Basic
import Mathlib.Logic.Function.Basic
import ProjectRoots.Graph.Basic
import ProjectRoots.Proofs.Ascending

/- A graph as a map from ids to entities. The entities are kept in a list, and an entity is found by
   going through it. That is the map with the ids for keys: `put` and `erase` change it at one key
   (`entity?_put`, `entity?_erase`), every entity of the list is found under its own id and under no
   other (`entity?_eq_some_iff`), and graphs of one version with the same map are the same
   (`eq_of_entity?_eq`). -/
namespace ProjectRoots

theorem Entity.precedes_irrefl (entity : Entity) : entity.precedes entity = false :=
  decide_eq_false (String.lt_irrefl entity.id)

namespace Graph

theorem entity?_put (graph : Graph) (entity : Entity) :
    (graph.put entity).entity? = Function.update graph.entity? entity.id (some entity) := by
  funext id
  rw [Function.update_apply]
  unfold entity? put
  simp only
  induction graph.entities with
  | nil =>
    rw [Ascending.insert, List.find?_singleton]
    by_cases hid : id = entity.id
    · simp [hid]
    · simp [beq_false_of_ne (Ne.symm hid), hid]
  | cons first rest ih =>
    unfold Ascending.insert
    split
    · rw [List.find?_cons]
      by_cases hid : id = entity.id
      · simp [hid]
      · simp [beq_false_of_ne (Ne.symm hid), hid]
    · rename_i hbefore
      split
      · rename_i hafter
        have hne : first.id ≠ entity.id := by
          intro hsame
          rw [Entity.precedes, hsame] at hafter
          exact String.lt_irrefl _ (of_decide_eq_true hafter)
        rw [List.find?_cons, List.find?_cons, ih]
        by_cases hid : first.id = id
        · have hother : id ≠ entity.id := fun hsame => hne (hid.trans hsame)
          simp [hid, hother]
        · simp [beq_false_of_ne hid]
      · -- The entity takes the place of the one with its id.
        rename_i hafter
        have hsame : first.id = entity.id :=
          String.le_antisymm (String.not_lt.1 fun hlt => hbefore (decide_eq_true hlt))
            (String.not_lt.1 fun hlt => hafter (decide_eq_true hlt))
        rw [List.find?_cons, List.find?_cons, hsame]
        by_cases hid : id = entity.id
        · simp [hid]
        · simp [beq_false_of_ne (Ne.symm hid), hid]

theorem entity?_erase (graph : Graph) (id : String) :
    (graph.erase id).entity? = Function.update graph.entity? id none := by
  funext other
  rw [Function.update_apply]
  unfold entity? erase
  rw [List.find?_filter]
  split
  · rename_i hsame
    rw [List.find?_eq_none]
    intro entity _
    simp [hsame]
  · rename_i hother
    apply congrFun
    apply congrArg
    funext entity
    by_cases hid : entity.id = other
    · simp [hid, hother]
    · simp [beq_false_of_ne hid]

theorem entities_nodup (graph : Graph) : (graph.entities.map Entity.id).Nodup := by
  refine List.pairwise_map.2 (graph.ascending.imp ?_)
  intro a b hbefore hsame
  rw [Entity.precedes, hsame] at hbefore
  exact String.lt_irrefl _ (of_decide_eq_true hbefore)

theorem entity?_eq_some_iff {graph : Graph} {id : String} {entity : Entity} :
    graph.entity? id = some entity ↔ entity ∈ graph.entities ∧ entity.id = id := by
  constructor
  · intro hfind
    exact ⟨List.mem_of_find?_eq_some hfind, id_of_entity? hfind⟩
  · rintro ⟨hmem, rfl⟩
    cases hfind : graph.entity? entity.id with
    | none => simpa using List.find?_eq_none.1 hfind entity hmem
    | some found =>
      have hfound : found ∈ graph.entities := List.mem_of_find?_eq_some hfind
      rw [List.inj_on_of_nodup_map graph.entities_nodup hfound hmem (id_of_entity? hfind)]

theorem eq_of_entity?_eq {a b : Graph} (hversion : a.version = b.version)
    (hentity : a.entity? = b.entity?) : a = b := by
  have hmem : ∀ entity, entity ∈ a.entities ↔ entity ∈ b.entities := by
    intro entity
    have hfind : a.entity? entity.id = some entity ↔ b.entity? entity.id = some entity := by
      rw [hentity]
    simpa [entity?_eq_some_iff] using hfind
  obtain ⟨version, entities, ascending⟩ := a
  obtain rfl : entities = b.entities :=
    Ascending.eq_of_mem_iff Entity.precedes_irrefl Entity.precedes_trans ascending b.ascending hmem
  obtain rfl : version = b.version := hversion
  rfl

end Graph

end ProjectRoots
