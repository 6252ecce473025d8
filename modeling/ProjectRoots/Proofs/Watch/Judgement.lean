import Mathlib.Data.Finset.Lattice.Fold
import ProjectRoots.Watch.Judgement

/- The impact of a batch as a join. A batch is judged from the first event to the last, on top of
   what is known already, and the loop may stop as soon as everything is known. Impacts are a
   semilattice whose bottom is `none`, so the events of a batch have a join that depends on nothing
   but which events there are.

     1. `judge_of_not_touching` — an event has an impact only if it touches a root that counts.
     2. `judgeOnto_eq_sup` — the loop computes the join of what is known and of the impacts of the
        events, whether it stops early or not.
     3. `classify_le_of_touching` — of two batches, the one that has all touching events of the
        other has at least its impact.
     4. `classify_isJoin` — so the order of the events, their number and those that touch nothing
        make no difference, and a batch can be judged in parts. -/
namespace ProjectRoots

namespace Impact

instance : Max Impact :=
  ⟨join⟩

instance : SemilatticeSup Impact :=
  SemilatticeSup.mk' join_comm join_assoc join_self

instance : OrderBot Impact where
  bot := none
  bot_le := none_join

theorem sup_eq_join (a b : Impact) : a ⊔ b = a.join b :=
  rfl

theorem bot_eq_none : (⊥ : Impact) = none :=
  rfl

theorem generic_sup (a : Impact) : generic ⊔ a = generic :=
  generic_join a

theorem foldr_join_map {α : Type} [DecidableEq α] (impact : α → Impact) (items : List α) :
    (items.map impact).foldr join none = items.toFinset.sup impact := by
  induction items with
  | nil => rfl
  | cons item rest ih =>
    rw [List.map_cons, List.foldr_cons, ih, List.toFinset_cons, Finset.sup_insert, sup_eq_join]

end Impact

/-- The same rules, with or without the short circuit. -/
def Rules.circuit (rules : Rules) (short : Bool) : Rules :=
  { rules with settings := { rules.settings with shortCircuit := short } }

namespace Workspace
variable (workspace : Workspace) (rules : Rules)

/-- Whether the event touches a root that counts: a change at one of its urls affects a reference
whose entity is there, and the property counts for that entity. -/
def Touching (event : Event) : Prop :=
  ∃ url ∈ rules.urlsOf event, ∃ reference ∈ (workspace.affected url).references,
    ∃ entity, workspace.current.graph.entity? reference.entity = some entity ∧
      rules.counts entity reference.property = true

theorem touches_eq_true_iff (url : Url) :
    workspace.touches rules url = true ↔
      ∃ reference ∈ (workspace.affected url).references,
        ∃ entity, workspace.current.graph.entity? reference.entity = some entity ∧
          rules.counts entity reference.property = true := by
  unfold touches
  rw [List.any_eq_true]
  apply exists_congr
  intro reference
  apply and_congr_right
  intro _
  cases workspace.current.graph.entity? reference.entity <;> simp

theorem judge_of_touching {event : Event} (htouching : workspace.Touching rules event) :
    workspace.judge rules event = event.nominal := by
  obtain ⟨url, hurl, htouches⟩ := htouching
  apply if_pos
  exact List.any_eq_true.2 ⟨url, hurl, (workspace.touches_eq_true_iff rules url).2 htouches⟩

theorem judge_of_not_touching {event : Event} (hnot : ¬workspace.Touching rules event) :
    workspace.judge rules event = .none := by
  apply if_neg
  intro htouched
  obtain ⟨url, hurl, htouches⟩ := List.any_eq_true.1 htouched
  exact hnot ⟨url, hurl, (workspace.touches_eq_true_iff rules url).1 htouches⟩

/-- The loop over the events: once the impact is `generic`, which is the top, whatever would be
joined to it makes no difference. -/
theorem judgeOnto_eq_sup (known : Impact) (events : List Event) :
    workspace.judgeOnto rules known events =
      known ⊔ events.toFinset.sup (workspace.judge rules) := by
  induction events generalizing known with
  | nil => exact (Impact.join_none known).symm
  | cons event rest ih =>
    unfold judgeOnto
    split
    · rename_i hstop
      rw [hstop.1, Impact.generic_sup]
    · rw [ih, List.toFinset_cons, Finset.sup_insert, ← sup_assoc, Impact.sup_eq_join known]

theorem classify_eq_sup (batch : Batch) :
    workspace.classify rules batch = batch.toFinset.sup (workspace.judge rules) := by
  unfold classify
  rw [judgeOnto_eq_sup, ← Impact.bot_eq_none, bot_sup_eq]

theorem classify_singleton (event : Event) :
    workspace.classify rules [event] = workspace.judge rules event := by
  rw [classify_eq_sup, List.toFinset_cons, List.toFinset_nil, insert_empty_eq, Finset.sup_singleton]

theorem classify_le_of_touching {batch other : Batch}
    (hmem : ∀ event ∈ batch, workspace.Touching rules event → event ∈ other) :
    workspace.classify rules batch ≤ workspace.classify rules other := by
  rw [classify_eq_sup, classify_eq_sup]
  apply Finset.sup_le
  intro event hevent
  by_cases htouching : workspace.Touching rules event
  · apply Finset.le_sup
    exact List.mem_toFinset.2 (hmem event (List.mem_toFinset.1 hevent) htouching)
  · rw [judge_of_not_touching workspace rules htouching]
    exact bot_le

theorem classify_append (first second : Batch) :
    workspace.classify rules (first ++ second) =
      (workspace.classify rules first).join (workspace.classify rules second) := by
  simp only [classify_eq_sup]
  rw [List.toFinset_append, Finset.sup_union, Impact.sup_eq_join]

/-- The impact of the batch is the join over its events, in any order. -/
structure IsJoin (batch : Batch) : Prop where
  /-- An event has the impact of its kind if it touches a root that counts. -/
  single : ∀ event ∈ batch,
    (workspace.Touching rules event → workspace.classify rules [event] = event.nominal) ∧
      (¬workspace.Touching rules event → workspace.classify rules [event] = .none)
  /-- The events are joined. -/
  join : workspace.classify rules batch =
    (batch.map fun event => workspace.classify rules [event]).foldr Impact.join .none
  /-- The short circuit makes no difference. -/
  circuit : ∀ short,
    workspace.classify (rules.circuit short) batch = workspace.classify rules batch
  /-- Nor does it make a difference in which order the events are, how often each of them occurs,
  and whether there are others that touch nothing. -/
  same : ∀ other : Batch,
    (∀ event, workspace.Touching rules event → (event ∈ other ↔ event ∈ batch)) →
    workspace.classify rules other = workspace.classify rules batch
  /-- The impact of two parts is the join of theirs. -/
  parts : ∀ first second : Batch, (first ++ second).Perm batch →
    workspace.classify rules batch =
      (workspace.classify rules first).join (workspace.classify rules second)

theorem classify_isJoin (batch : Batch) : workspace.IsJoin rules batch where
  single event _ := by
    rw [classify_singleton]
    exact ⟨judge_of_touching workspace rules, judge_of_not_touching workspace rules⟩
  join := by
    simp only [classify_singleton]
    rw [classify_eq_sup, Impact.foldr_join_map]
  circuit short := by
    rw [classify_eq_sup, classify_eq_sup]
    rfl
  same other hsame := by
    apply le_antisymm
    · apply classify_le_of_touching
      intro event hmem htouching
      exact (hsame event htouching).1 hmem
    · apply classify_le_of_touching
      intro event hmem htouching
      exact (hsame event htouching).2 hmem
  parts first second hperm := by
    rw [← classify_append, classify_eq_sup, classify_eq_sup, List.toFinset_eq_of_perm _ _ hperm]

end Workspace

end ProjectRoots
