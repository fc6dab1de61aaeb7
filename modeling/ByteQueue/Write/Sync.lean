import ByteQueue.Queue.Append
import ByteQueue.Queue.Consume
import ByteQueue.Write.Sink

/-!
Writing at once. `writeSome` makes one write and consumes what the sink says it took;
`writeAll` repeats that until the queue is empty or a write fails. An error of the sink is
reported or raised as the caller wants it. A sink that claims more than it was given is another
matter: the queue refuses the confirmation, and that is raised in either mode.
-/
namespace ByteQueue

/-- A write that has ended: the sink and the queue afterwards, and the number of bytes written. -/
structure Transfer where
  sink : Sink
  queue : Queue
  ending : Ending UInt64

namespace Transfer

/-- Raises a reported failure if the caller passed no place for it. -/
def escalate (mode : Mode) (transfer : Transfer) : Transfer :=
  { transfer with ending := mode.escalate transfer.ending }

end Transfer

namespace Queue

open Logged

/-- One write of what a projection shows; no write if it shows nothing. -/
def writeSome (queue : Queue) (sink : Sink) : Logged Event Transfer := do
  let (queue, projection) ← queue.projectAll
  if queue.projected = 0 then return ⟨sink, queue, .returned 0 .success⟩
  let (sink, count, code) := sink.write projection
  match ← queue.confirm count with
  | .error failure => return ⟨sink, queue, .raised failure.code⟩
  | .ok queue =>
    if code.isFailure then queue.emit (.streamFailed code)
    queue.emit (.wrote count queue.summary)
    return ⟨sink, queue, .returned count code⟩

/-- One more write after `total` bytes have been written, unless the queue is empty. A write
that fails is the last one. -/
def writeMore : Queue × Sink × UInt64 → Logged Event ((Queue × Sink × UInt64) ⊕ Transfer)
  | (queue, sink, total) => do
    if queue.isEmpty then return .inr ⟨sink, queue, .returned total .success⟩
    let transfer ← queue.writeSome sink
    match transfer.ending with
    | .raised _ => return .inr transfer
    | .returned count code =>
      if code.isFailure then
        return .inr { transfer with ending := .returned (total + count) code }
      else return .inl (transfer.queue, transfer.sink, total + count)

/-- At most `writes` writes, after `total` bytes have been written. -/
def writeUpTo (writes : Nat) (queue : Queue) (sink : Sink) (total : UInt64) :
    Logged Event Transfer :=
  iterate writeMore (fun (queue, sink, total) => ⟨sink, queue, .returned total .success⟩) writes
    (queue, sink, total)

/-- Writes until the queue is empty or a write fails. A write that neither fails nor takes a
byte uses up an answer of the script, so their number is bounded. -/
def writeAll (queue : Queue) (sink : Sink) : Logged Event Transfer :=
  writeUpTo (sink.script.length + queue.size.toNat) queue sink 0

end Queue

end ByteQueue
