/- How a batch of events affects the roots of a project. The four impacts form a join-semilattice:
   `none` is the bottom, `generic` the top, and `added` and `removed` have no upper bound but the
   top.

   Correspondence (term ↔ Lean):
     classification, its merge ↔ `Impact`, `join` -/
namespace ProjectRoots

/-- What happened to the roots. -/
inductive Impact
  /-- No root is touched. -/
  | none
  /-- Roots are only added. -/
  | added
  /-- Roots are only removed. -/
  | removed
  /-- Anything else: all roots are to be computed again. -/
  | generic
deriving DecidableEq

namespace Impact

/-- The least impact that covers both. -/
def join : Impact → Impact → Impact
  | none, b => b
  | a, none => a
  | added, added => added
  | removed, removed => removed
  | _, _ => generic

/-- The word for an impact. -/
def text : Impact → String
  | none => "none"
  | added => "added"
  | removed => "removed"
  | generic => "generic"

/-- The impact that a word stands for. -/
def ofText? (word : String) : Option Impact :=
  [none, added, removed, generic].find? (·.text == word)

theorem none_join (a : Impact) : none.join a = a := by
  cases a <;> rfl

theorem join_none (a : Impact) : a.join none = a := by
  cases a <;> rfl

theorem generic_join (a : Impact) : generic.join a = generic := by
  cases a <;> rfl

theorem join_self (a : Impact) : a.join a = a := by
  cases a <;> rfl

theorem join_comm (a b : Impact) : a.join b = b.join a := by
  cases a <;> cases b <;> rfl

theorem join_assoc (a b c : Impact) : (a.join b).join c = a.join (b.join c) := by
  cases a <;> cases b <;> cases c <;> rfl

end Impact

end ProjectRoots
