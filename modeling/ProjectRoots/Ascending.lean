/- Ascending lists. A list kept in ascending order of a strict order `before` serves as a set, and
   as a map when `before` only looks at a key: an item that is neither before nor after one
   already there takes its place. -/
namespace ProjectRoots.Ascending

variable {α : Type} (before : α → α → Bool)

/-- Put `x` where the order wants it, in place of an item with the same key. -/
def insert (x : α) : List α → List α
  | [] => [x]
  | y :: rest =>
    if before x y then x :: y :: rest
    else if before y x then y :: insert x rest
    else x :: rest

/-- The items in ascending order; of items with the same key the last one stays. -/
def ofList (items : List α) : List α :=
  items.foldl (fun sorted x => insert before x sorted) []

theorem mem_of_mem_insert {x z : α} {items : List α} (h : z ∈ insert before x items) :
    z = x ∨ z ∈ items := by
  induction items with
  | nil => exact Or.inl (List.mem_singleton.1 h)
  | cons y rest ih =>
    unfold insert at h
    split at h
    · exact List.mem_cons.1 h
    · split at h
      · rcases List.mem_cons.1 h with rfl | h
        · exact Or.inr (List.mem_cons_self ..)
        · exact (ih h).imp_right (List.mem_cons_of_mem _)
      · exact (List.mem_cons.1 h).imp_right (List.mem_cons_of_mem _)

theorem mem_insert_self (x : α) (items : List α) : x ∈ insert before x items := by
  induction items with
  | nil => exact List.mem_singleton.2 rfl
  | cons y rest ih =>
    unfold insert
    split
    · exact List.mem_cons_self ..
    · split
      · exact List.mem_cons_of_mem _ ih
      · exact List.mem_cons_self ..

/-- Inserting keeps the order, for an order that is transitive and in which two items that are
neither before one another stand in the same place to all others. -/
theorem pairwise_insert {x : α} {items : List α}
    (trans : ∀ a b c, before a b = true → before b c = true → before a c = true)
    (same : ∀ a b c, before a b = false → before b a = false → before b c = true →
      before a c = true)
    (h : items.Pairwise fun a b => before a b = true) :
    (insert before x items).Pairwise fun a b => before a b = true := by
  induction items with
  | nil => exact List.pairwise_singleton ..
  | cons y rest ih =>
    obtain ⟨hy, hr⟩ := List.pairwise_cons.1 h
    unfold insert
    split
    · rename_i hx
      refine List.pairwise_cons.2 ⟨fun z hz => ?_, h⟩
      rcases List.mem_cons.1 hz with rfl | hz
      · exact hx
      · exact trans _ _ _ hx (hy z hz)
    · rename_i hx
      split
      · rename_i hyx
        refine List.pairwise_cons.2 ⟨fun z hz => ?_, ih hr⟩
        rcases mem_of_mem_insert before hz with rfl | hz
        · exact hyx
        · exact hy z hz
      · rename_i hyx
        refine List.pairwise_cons.2 ⟨fun z hz => ?_, hr⟩
        exact same x y z (by simpa using hx) (by simpa using hyx) (hy z hz)

end ProjectRoots.Ascending
