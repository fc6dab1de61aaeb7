import ByteQueue.Queue.Append
import ByteQueue.Queue.Consume
import ByteQueue.Queue.Project

/-!
The operations of a queue as data, so that runs of them can be spoken of. `Queue.apply` keeps
the queue that an operation leaves and forgets what it answers; a refused operation leaves the
queue as it was. `Queue.Reachable` collects the queues that valid settings and finite runs lead
to, as long as no more than `2 ^ 63` bytes are buffered.
-/
namespace ByteQueue

/-- An operation on a queue. -/
inductive Operation where
  | append (data : Block)
  | appendAll (pieces : List Block)
  | absorb (handle : Handle)
  | project (limit : UInt64)
  | projectAll
  | confirm (count : UInt64)
  | sealTail
  | take (count : UInt64)
  | drain
  | clear
  deriving DecidableEq

/-- The handles among the arguments are windows inside their arrays. -/
def Operation.InBounds : Operation → Prop
  | .absorb handle => handle.InBounds
  | _ => True

namespace Queue

/-- The queue after an operation. -/
def apply (queue : Queue) : Operation → Queue
  | .append data => (queue.append data).value
  | .appendAll pieces => (queue.appendAll pieces).value
  | .absorb handle => (queue.absorb handle).value
  | .project limit => (queue.project limit).value.1
  | .projectAll => queue.projectAll.value.1
  | .confirm count =>
    match (queue.confirm count).value with
    | .ok after => after
    | .error _ => queue
  | .sealTail => queue.sealTail.value
  | .take count =>
    match (queue.take count).value with
    | .ok (after, _) => after
    | .error _ => queue
  | .drain => queue.drain.value.1
  | .clear => queue.clear

/-- The greatest number of bytes that a queue is expected to hold: `2 ^ 63`. -/
def capacity : Nat := UInt64.size / 2

/-- The queues that runs of operations lead to. Only the number of bytes that are buffered at
any time is bounded, not the number of bytes that pass through. -/
inductive Reachable : Queue → Prop where
  | fresh (logger : Option Log.Config) (owner : Nat) (settings : Settings)
    (valid : settings.Valid) :
    Reachable (Queue.fresh logger owner settings)
  | step {queue : Queue} (before : Reachable queue) (operation : Operation)
    (inBounds : operation.InBounds) (bound : (queue.apply operation).content.length ≤ capacity) :
    Reachable (queue.apply operation)

end Queue

end ByteQueue
