import ByteQueue.Queue.Printer
import ByteQueue.Session.Handles
import ByteQueue.Table
import ByteQueue.Write.Async

/-!
Sessions: programs over numbered queues, named handles, one sink and at most one printer. This
module holds their state; `Session.Step` holds what they can do.

All queues of a session log to one logger, if there is one: a queue has it from its creation on.
-/
namespace ByteQueue

/-- The state of a session. -/
structure Session where
  /-- The configuration of the logger, if there is one. -/
  logger : Option Log.Config := none
  queues : Table Nat Queue := []
  handles : NamedHandles := .empty
  sink : Sink := {}
  /-- Writes that have been started, in the order in which they complete, each with the number
  of its queue. -/
  pending : List (Nat × Completion) := []
  /-- Reports of which the session has not told yet. -/
  reports : List Report := []
  /-- The open printer, and the number of the queue behind it. -/
  printer : Option (Nat × Printer) := none
  /-- How many owners of arrays there have been: queues, and handles to arrays of their own. -/
  owners : Nat := 0

namespace Session

def queue? (session : Session) (index : Nat) : Option Queue := session.queues.get? index

def setQueue (session : Session) (index : Nat) (queue : Queue) : Session :=
  { session with queues := session.queues.insert index queue }

theorem queue?_setQueue (session : Session) (index : Nat) (queue : Queue) :
    (session.setQueue index queue).queue? index = some queue := by
  unfold queue? setQueue
  rw [Table.get?_insert, if_pos rfl]

def handle? (session : Session) (name : String) : Option Handle := session.handles.get? name

def setHandle (session : Session) (name : String) (handle : Handle) : Session :=
  { session with handles := session.handles.insert name handle }

/-- The references that named handles and chunks of queues hold to an array. -/
def references (session : Session) (id : ArrayId) : Nat :=
  session.handles.uses id + sumOf (fun (_, queue) => queue.uses id) session.queues

/-- The references to the array of a handle, the handle itself included if it has a name. -/
def uses (session : Session) (handle : Handle) : Nat :=
  match handle.arrayId? with
  | some id => session.references id
  | none => 0

end Session

end ByteQueue
