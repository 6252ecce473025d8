import ProjectRoots.Watch.Watcher

/- The pump passes batches through a watcher in the order of their arrival. Empty batches are passed
   over. For each of the others the permit is taken if it is free, and given back afterwards. -/
namespace ProjectRoots.Watcher

/-- Both phases of a batch, with the permit if it is free. -/
def pumpOne (watcher : Watcher) (caller : Thread) (batch : Batch) : Watcher :=
  let (permit, taken) := watcher.permit.acquire caller
  let watcher := { watcher with permit := permit }
  let watcher := (watcher.before caller batch).1
  let watcher := (watcher.after caller batch).1
  if taken then { watcher with permit := ⟨none⟩ } else watcher

/-- Pass batches through the watcher; the number counts those that are not empty. -/
def pump (watcher : Watcher) (caller : Thread) : List Batch → Watcher × Nat
  | [] => (watcher, 0)
  | [] :: rest => watcher.pump caller rest
  | batch :: rest =>
    let (watcher, count) := (watcher.pumpOne caller batch).pump caller rest
    (watcher, count + 1)

/-- The number of batches that are passed through. -/
theorem pump_count (watcher : Watcher) (caller : Thread) (batches : List Batch) :
    (watcher.pump caller batches).2 = batches.countP (· ≠ []) := by
  fun_induction pump watcher caller batches with
  | case1 => rfl
  | case2 watcher rest ih => simpa using ih
  | case3 watcher batch rest hne pumped count hp ih =>
    rw [hp] at ih
    rw [List.countP_cons_of_pos (by simpa using hne), ← ih]

end ProjectRoots.Watcher
