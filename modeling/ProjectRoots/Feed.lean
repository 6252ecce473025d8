import ProjectRoots.Disk.Tree
import ProjectRoots.Event.Basic
import ProjectRoots.Settings.Basic
import ProjectRoots.Url.Basic

/- The feed: the places that are watched, and a queue of batches with a bound. Batches leave the
   queue in the order in which they came; once the queue is closed none comes any more.

   Correspondence (term ↔ Lean):
     event source, its channel ↔ `Feed`, `queue` -/
namespace ProjectRoots

/-- Watched places, as they were given, and batches that wait. -/
structure Feed where
  capacity : Nat
  watched : List Disk.Bytes := []
  queue : List Batch := []
  closed : Bool := false

/-- What becomes of a batch that is submitted. -/
inductive Submission
  | accepted
  /-- The queue is full, and the batch is lost. -/
  | full
  | closed
deriving DecidableEq

/-- The wording of what becomes of a batch. -/
def Submission.message : Submission → String
  | accepted => "ok"
  | full => "full"
  | closed => "channel error: event channel closed"

/-- What comes out of the queue. -/
inductive Reception
  | batch (batch : Batch)
  | empty
  | closed
deriving DecidableEq

namespace Feed

/-- A feed for usable settings. -/
def ofSettings (settings : Settings) : Except SettingsFault Feed :=
  match settings.fault? with
  | some fault => .error fault
  | none => .ok { capacity := settings.channelCapacity.toNat }

/-- Whether a place is watched, however it was written. -/
def watches (feed : Feed) (path : Disk.Bytes) : Bool :=
  feed.watched.any fun known => Disk.steps known == Disk.steps path

/-- Watch a place where there is something. A place that is watched already is not watched
twice. -/
def watch (feed : Feed) (disk : Disk) (path : Disk.Bytes) : Except PathFault Feed :=
  if disk.holds path then
    if feed.watches path then .ok feed
    else .ok { feed with watched := feed.watched ++ [path] }
  else .error (.absent (Disk.shown path))

/-- Watch a place no more. -/
def unwatch (feed : Feed) (path : Disk.Bytes) : Except PathFault Feed :=
  if feed.watches path then
    .ok { feed with
      watched := feed.watched.eraseP fun known => Disk.steps known == Disk.steps path }
  else .error (.absent (Disk.shown path))

/-- Watch nothing any more. -/
def stop (feed : Feed) : Feed :=
  { feed with watched := [] }

/-- Put a batch at the end of the queue, if there is room. -/
def submit (feed : Feed) (batch : Batch) : Feed × Submission :=
  if feed.closed then (feed, .closed)
  else if feed.capacity ≤ feed.queue.length then (feed, .full)
  else ({ feed with queue := feed.queue ++ [batch] }, .accepted)

/-- Take the batch at the head of the queue. -/
def receive (feed : Feed) : Feed × Reception :=
  if feed.closed then (feed, .closed)
  else
    match feed.queue with
    | [] => (feed, .empty)
    | batch :: rest => ({ feed with queue := rest }, .batch batch)

/-- Close the queue; what waits in it is lost. -/
def close (feed : Feed) : Feed :=
  { feed with queue := [], closed := true }

end Feed

end ProjectRoots
