import ByteQueue.Encoder.Frame
import ByteQueue.Encoder.Note
import ByteQueue.Encoder.Plan
import ByteQueue.Write.Sync

/-!
An encoder of numbered messages. It appends each message to a queue, the blob as a handle that
all messages share, writes the queue out whenever a first chunk's worth of bytes has gathered,
and once more at the end.
-/
namespace ByteQueue.Encoder

/-- An encoder at work. -/
structure State where
  queue : Queue
  sink : Sink
  /-- The number of the next message. -/
  index : UInt32 := 0
  /-- The number of bytes encoded so far. -/
  offset : UInt64 := 0
  /-- The number of bytes written so far. -/
  total : UInt64 := 0
  /-- The number of times the queue was written out so far. -/
  flushes : UInt64 := 0
  /-- The code that was raised, after which nothing follows. -/
  failure : Option Code := none

open Logged

/-- The owner of the encoder's queue, and that of the blob. -/
def queueOwner : Nat := 0
def blobOwner : Nat := 1

/-- The references to the blob: the encoder's own, and those of chunks. -/
def blobUses (blob : Handle) (queue : Queue) : Nat :=
  match blob.arrayId? with
  | none => 0
  | some id => 1 + queue.uses id

/-- Appends the next message. -/
def encode (blob : Handle) (state : State) : Logged Event State := do
  let fields := Frame.fields state.index state.offset blob.size
  let queue ← state.queue.appendAll (fields.map .ofBytes)
  let queue ← queue.absorb blob
  let offset := state.offset + (queue.size - state.queue.size)
  return { state with queue, offset, index := state.index + 1 }

/-- Writes out what the queue holds; a failure is raised. -/
def flush (state : State) : Logged Event State := do
  let transfer ← state.queue.writeAll state.sink
  let state := { state with queue := transfer.queue, sink := transfer.sink }
  match Mode.raise.escalate transfer.ending with
  | .returned count _ =>
    return { state with total := state.total + count, flushes := state.flushes + 1 }
  | .raised code => return { state with failure := some code }

/-- Encodes the next message, and writes out the queue if it has grown enough. A failure ends
the encoding. -/
def encodeNext (config : Log.Config) (blob : Handle) (state : State) :
    Logged Note (State ⊕ State) := do
  let after ← (encode blob state).mapEvents .queue
  Note.emit config (.encoded state.index after.queue.summary (blobUses blob after.queue))
  if after.queue.size < after.queue.settings.initialChunkSize then return .inl after
  let after ← (flush after).mapEvents .queue
  return if after.failure.isSome then .inr after else .inl after

/-- Encodes `count` messages, up to a failure. -/
def encodeMany (config : Log.Config) (blob : Handle) (count : Nat) (state : State) :
    Logged Note State :=
  iterate (encodeNext config blob) id count state

/-- Encodes all messages of a plan and writes them out, up to a failure. -/
def encodeAll (plan : Plan) (blob : Handle) (queue : Queue) (sink : Sink) :
    Logged Note State := do
  Note.emit plan.config (.encoding plan.count plan.blobSize)
  let state ← encodeMany plan.config blob plan.count.toNat { queue, sink }
  if state.failure.isSome then return state
  let state ← (flush state).mapEvents .queue
  if state.failure = none then
    Note.emit plan.config (.done state.total state.offset state.flushes)
  return state

/-- How a program ends: its exit status, its standard output, and its log. -/
structure Exit where
  status : Nat
  output : Block
  /-- Whether the options are explained instead of followed. -/
  showsUsage : Bool := false
  notes : List Note
  deriving DecidableEq

/-- The blob of a plan, in an array of its own. -/
def blobOf (plan : Plan) : Handle :=
  Handle.ofBlock ⟨blobOwner, 0⟩ ((Block.ofBytes [98]).times plan.blobSize.toNat)

/-- The queue that a plan begins with, if its settings are valid. -/
def queueOf (plan : Plan) : Queue := .fresh (some plan.config) queueOwner plan.settings

/-- Ends the encoding early. -/
def giveUp (plan : Plan) (sink : Sink) (obstacle : Obstacle) :
    Logged Note (Sink × Option Obstacle) := do
  Note.emit plan.config (.caught obstacle)
  return (sink, some obstacle)

/-- Encodes the messages of a plan into a sink: the sink, and what ended the encoding early. The
queue goes out of use before an exception is caught. -/
def run (platform : Platform) (plan : Plan) (sink : Sink) :
    Logged Note (Sink × Option Obstacle) := do
  match ← (Queue.create (some plan.config) queueOwner plan.settings).mapEvents .queue with
  | .error failure => giveUp plan sink (.code failure.code)
  | .ok queue =>
    match platform.refusal? plan.blobSize with
    | some reason =>
      queue.destroy.mapEvents .queue
      giveUp plan sink (.noMemory reason)
    | none =>
      let state ← encodeAll plan (blobOf plan) queue sink
      state.queue.destroy.mapEvents .queue
      match state.failure with
      | some code => giveUp plan state.sink (.code code)
      | none => return (state.sink, none)

/-- The most slices that the standard output takes in one write. -/
def outputSlices : Nat := 64

/-- The whole program. A command line that is not understood is reported with the configuration
that the logger begins with. -/
def execute (platform : Platform) (arguments : List String) : Exit :=
  match Plan.parse platform arguments with
  | .error misuse =>
    { status := 1, output := .empty
      notes := (Note.emit firstConfig (.badCommandLine misuse)).events }
  | .ok plan =>
    if plan.help then { status := 0, output := .empty, showsUsage := true, notes := [] }
    else
      let work := run platform plan { sliceLimit := some outputSlices }
      let (sink, obstacle?) := work.value
      { status := if obstacle? = none then 0 else 1
        output := sink.block
        notes := work.events }

end ByteQueue.Encoder
