import Mathlib.Data.List.Nodup
import ProjectRoots.Ascending
import ProjectRoots.Graph.Entity

/- Ascending lists as sets. Under a strict total order (`Total`) an ascending list made of any items
   holds just these items (`mem_ofList`), once each and in order (`pairwise_ofList`). An ascending
   list is determined by what it holds (`eq_of_mem_iff`). The order of references is such an
   order. -/
namespace ProjectRoots

namespace Ascending
variable {α : Type} {before : α → α → Bool}

/-- A strict total order. -/
structure Total (before : α → α → Bool) : Prop where
  irrefl : ∀ a, before a a = false
  trans : ∀ a b c, before a b = true → before b c = true → before a c = true
  eq_of_neither : ∀ a b, before a b = false → before b a = false → a = b

section
variable (htotal : Total before)
include htotal

theorem mem_insert {x z : α} {items : List α} :
    z ∈ insert before x items ↔ z = x ∨ z ∈ items := by
  refine ⟨mem_of_mem_insert before, ?_⟩
  intro h
  rcases h with rfl | hmem
  · exact mem_insert_self before z items
  induction items with
  | nil => cases hmem
  | cons y rest ih =>
    unfold insert
    split
    · exact List.mem_cons_of_mem _ hmem
    · rename_i hxy
      split
      · rcases List.mem_cons.1 hmem with rfl | hmem
        · exact List.mem_cons_self
        · exact List.mem_cons_of_mem _ (ih hmem)
      · rename_i hyx
        -- The place is taken by `x` itself, not only by an item like it.
        obtain rfl : x = y := htotal.eq_of_neither x y (by simpa using hxy) (by simpa using hyx)
        exact hmem

theorem pairwise_insert_of_total {x : α} {items : List α}
    (hitems : items.Pairwise fun a b => before a b = true) :
    (insert before x items).Pairwise fun a b => before a b = true := by
  apply pairwise_insert before htotal.trans _ hitems
  intro a b c hab hba hbc
  obtain rfl := htotal.eq_of_neither a b hab hba
  exact hbc

theorem mem_foldl_insert {z : α} (items sorted : List α) :
    z ∈ items.foldl (fun sorted x => insert before x sorted) sorted ↔
      z ∈ sorted ∨ z ∈ items := by
  induction items generalizing sorted with
  | nil => simp
  | cons x rest ih =>
    rw [List.foldl_cons, ih, mem_insert htotal, List.mem_cons, or_comm (a := z = x), or_assoc]

theorem mem_ofList {z : α} {items : List α} : z ∈ ofList before items ↔ z ∈ items := by
  unfold ofList
  rw [mem_foldl_insert htotal]
  simp

theorem pairwise_ofList (items : List α) :
    (ofList before items).Pairwise fun a b => before a b = true := by
  unfold ofList
  apply List.foldlRecOn (motive := List.Pairwise fun a b => before a b = true)
  · exact .nil
  · intro sorted hsorted x _
    exact pairwise_insert_of_total htotal hsorted

end

/-- Two ascending lists that hold the same items are the same list. -/
theorem eq_of_mem_iff (irrefl : ∀ a, before a a = false)
    (trans : ∀ a b c, before a b = true → before b c = true → before a c = true)
    {first second : List α} (hfirst : first.Pairwise fun a b => before a b = true)
    (hsecond : second.Pairwise fun a b => before a b = true)
    (hmem : ∀ x, x ∈ first ↔ x ∈ second) : first = second := by
  have hne : ∀ a b, before a b = true → a ≠ b := by
    intro a b hab h
    obtain rfl := h
    rw [irrefl a] at hab
    cases hab
  apply List.Perm.eq_of_pairwise _ hfirst hsecond
  · exact (List.perm_ext_iff_of_nodup (hfirst.imp (hne _ _)) (hsecond.imp (hne _ _))).2 hmem
  · intro a b _ _ hab hba
    exact absurd rfl (hne a a (trans a b a hab hba))

end Ascending

namespace Reference

theorem precedes_eq_true {a b : Reference} :
    a.precedes b = true ↔ a.entity < b.entity ∨ a.entity = b.entity ∧ a.property < b.property := by
  simp [precedes]

theorem precedes_eq_false {a b : Reference} :
    a.precedes b = false ↔
      b.entity ≤ a.entity ∧ (a.entity = b.entity → b.property ≤ a.property) := by
  rw [← Bool.not_eq_true, precedes_eq_true, not_or, not_and, String.not_lt, String.not_lt]

theorem total_precedes : Ascending.Total precedes where
  irrefl := precedes_irrefl
  trans a b c hab hbc := by
    rw [precedes_eq_true] at hab hbc ⊢
    rcases hab with hab | ⟨hentity, hab⟩
    · rcases hbc with hbc | ⟨hsame, _⟩
      · exact Or.inl (String.lt_trans hab hbc)
      · exact Or.inl (hsame ▸ hab)
    · rw [hentity]
      exact hbc.imp_right fun ⟨hsame, hbc⟩ => ⟨hsame, String.lt_trans hab hbc⟩
  eq_of_neither a b hab hba := by
    obtain ⟨hle, hproperty⟩ := precedes_eq_false.1 hab
    obtain ⟨hge, hproperty'⟩ := precedes_eq_false.1 hba
    have hentity : a.entity = b.entity := String.le_antisymm hge hle
    have hsame : a.property = b.property :=
      String.le_antisymm (hproperty' hentity.symm) (hproperty hentity)
    obtain ⟨entity, property⟩ := a
    obtain rfl : entity = b.entity := hentity
    obtain rfl : property = b.property := hsame
    rfl

end Reference

end ProjectRoots
