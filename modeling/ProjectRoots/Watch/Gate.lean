/- What stands between a batch and its judgement: a permit that one thread holds at a time, the
   lifecycle of the model, and the dispatch that is going on.

   Correspondence (term ↔ Lean):
     mutation permit               ↔ `Permit`
     lifecycle of the owning model ↔ `Lifecycle`
     reentrancy guard              ↔ `Dispatch` -/
namespace ProjectRoots

/-- A thread, by number. -/
abbrev Thread := Nat

/-- The right to change the project, held by at most one thread. -/
structure Permit where
  owner : Option Thread := none
deriving DecidableEq

namespace Permit

/-- Take the permit, if nobody has it; also its owner cannot take it twice. -/
def acquire (permit : Permit) (thread : Thread) : Permit × Bool :=
  match permit.owner with
  | none => (⟨some thread⟩, true)
  | some _ => (permit, false)

/-- Give the permit back; only its owner can. -/
def release (permit : Permit) (thread : Thread) : Permit × Bool :=
  if permit.owner = some thread then (⟨none⟩, true) else (permit, false)

/-- Whether this thread has the permit. -/
def isHeld (permit : Permit) (thread : Thread) : Bool :=
  permit.owner == some thread

end Permit

/-- The life of the model that a watcher belongs to. -/
inductive Lifecycle
  | loading
  | ready
  | disposed
deriving DecidableEq

namespace Lifecycle

/-- What was loading is ready. What was disposed stays so. -/
def markReady : Lifecycle → Lifecycle × Bool
  | loading => (ready, true)
  | state => (state, false)

/-- Whether the model is gone. -/
def isDisposed (state : Lifecycle) : Bool :=
  state == disposed

end Lifecycle

/-- Whether a notification is being delivered. -/
inductive Dispatch
  | idle
  | dispatching
deriving DecidableEq

namespace Dispatch

/-- Begin to deliver, unless a notification is being delivered already. -/
def enter : Dispatch → Dispatch × Bool
  | idle => (dispatching, true)
  | dispatching => (dispatching, false)

/-- End the delivery. -/
def exit : Dispatch → Dispatch × Bool
  | dispatching => (idle, true)
  | idle => (idle, false)

/-- Whether a notification is being delivered. -/
def isDispatching (state : Dispatch) : Bool :=
  state == dispatching

end Dispatch

/-- Why a batch is not judged. -/
inductive Suppression
  /-- The caller does not hold the permit. -/
  | noPermit
  /-- The model is gone. -/
  | disposed
  /-- Nobody listens. -/
  | notWired
  /-- A notification is being delivered. -/
  | reentrant
deriving DecidableEq

end ProjectRoots
