import ProjectRoots.Dependent.Basic
import ProjectRoots.Event.Basic
import ProjectRoots.Graph.Basic
import ProjectRoots.Watch.Gate

/- What can be asked of a watcher, and what it answers. A listener is known by the commands that it
   gives while it is being notified; one that behaves differently every time installs its
   successor.

   Correspondence (term ↔ Lean):
     roots listener, a call of it                   ↔ `Listener`, `Notification`
     call of the watcher or of the host, its result ↔ `Command`, `Answer` -/
namespace ProjectRoots

/-- A request to a watcher, or to what belongs to it. -/
inductive Command
  /-- The batch is about to happen. -/
  | before (batch : Batch)
  /-- The batch has happened. -/
  | after (batch : Batch)
  /-- Both phases of a batch, one after the other. -/
  | process (batch : Batch)
  | classify (batch : Batch)
  | suppression
  /-- How many relocations are waiting. -/
  | pending
  | settings
  | dispose
  | markReady
  /-- Let a listener be notified, which gives these commands before and after a change. -/
  | install (onBefore onChanged : List Command)
  | uninstall
  /-- Commit changes for a version of the graph, or for the present one. -/
  | commit (base : Option Nat) (changes : List Change)
  | register (dependent : Dependent)
  | intern (raw : String)
  | acquire (thread : Thread)
  | release (thread : Thread)
  | isHeld (thread : Thread)

/-- What a listener is told. -/
inductive Notification
  /-- Roots are about to change. -/
  | beforeChanged
  /-- Roots have changed. -/
  | changed (impact : Impact)
deriving DecidableEq

/-- A listener: the commands that it gives before and after a change. -/
structure Listener where
  onBefore : List Command := []
  onChanged : List Command := []

/-- The commands that a listener gives when it is told something. -/
def Listener.script (listener : Listener) : Notification → List Command
  | .beforeChanged => listener.onBefore
  | .changed _ => listener.onChanged

/-- What a watcher answers. -/
inductive Answer
  | impact (impact : Impact)
  /-- The answers of both phases. -/
  | phases (before after : Impact)
  | suppression (reason : Option Suppression)
  | count (n : Nat)
  | settings (text : String)
  | done
  | flag (value : Bool)
  /-- The version and size of the graph after a commit. -/
  | committed (version size : Nat)
  | refused (fault : CommitFault)
  /-- The number of dependents. -/
  | registered (count : Nat)
  | interned (id : Nat)
  | noPath (fault : PathFault)

/-- What happened, in the order in which it happened. -/
inductive LogEntry
  /-- A listener is told something. -/
  | notified (notification : Notification)
  /-- The answer to a command that the listener gave meanwhile. -/
  | nested (answer : Answer)
  /-- The listener has taken note. -/
  | returned

end ProjectRoots
