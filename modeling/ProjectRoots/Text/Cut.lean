/- Cutting texts in two. `cutAt` cuts at the first occurrence of a mark, `cutAtLast` at the last
   occurrence of a character. Both only take the mark away: what stands before it, the mark and
   what stands after it make up the text again. -/
namespace ProjectRoots

/-- What stands before and after the first occurrence of `mark`, if it occurs. -/
def cutAt (mark : List Char) : List Char → Option (List Char × List Char)
  | [] => if mark = [] then some ([], []) else none
  | c :: rest =>
    if mark.isPrefixOf (c :: rest) then some ([], (c :: rest).drop mark.length)
    else (cutAt mark rest).map fun cut => (c :: cut.1, cut.2)

/-- What stands before and after the last occurrence of `mark`, if it occurs. -/
def cutAtLast (mark : Char) : List Char → Option (List Char × List Char)
  | [] => none
  | c :: rest =>
    match cutAtLast mark rest with
    | some (before, after) => some (c :: before, after)
    | none => if c = mark then some ([], rest) else none

theorem eq_of_cutAt {mark text before after : List Char}
    (h : cutAt mark text = some (before, after)) : text = before ++ mark ++ after := by
  induction text generalizing before with
  | nil =>
    unfold cutAt at h
    split at h
    · obtain ⟨rfl, rfl⟩ := Prod.mk.inj (Option.some.inj h)
      simp_all
    · cases h
  | cons c rest ih =>
    unfold cutAt at h
    split at h
    · rename_i hp
      obtain ⟨rfl, rfl⟩ := Prod.mk.inj (Option.some.inj h)
      obtain ⟨tail, ht⟩ := List.isPrefixOf_iff_prefix.1 hp
      rw [← ht, List.drop_left, List.nil_append]
    · obtain ⟨cut, hc, he⟩ := Option.map_eq_some_iff.1 h
      obtain ⟨rfl, rfl⟩ := Prod.mk.inj he
      rw [ih hc]
      simp

theorem eq_of_cutAtLast {mark : Char} {text before after : List Char}
    (h : cutAtLast mark text = some (before, after)) : text = before ++ mark :: after := by
  induction text generalizing before with
  | nil => cases h
  | cons c rest ih =>
    unfold cutAtLast at h
    split at h
    · rename_i hr
      obtain ⟨rfl, rfl⟩ := Prod.mk.inj (Option.some.inj h)
      rw [ih hr, List.cons_append]
    · split at h
      · rename_i hc
        obtain ⟨rfl, rfl⟩ := Prod.mk.inj (Option.some.inj h)
        rw [hc, List.nil_append]
      · cases h

end ProjectRoots
