import ByteQueue.Encoder.Plan
import ByteQueue.Event

/-! What an encoder reports: events of its queue, and events of its own. -/
namespace ByteQueue.Encoder

/-- What the encoder reports: events of its queue, and events of its own. -/
inductive Note where
  | queue (event : Event)
  | badCommandLine (misuse : Misuse)
  | caught (obstacle : Obstacle)
  | encoding (count : UInt32) (blobSize : UInt64)
  /-- A message was encoded, which left the queue like this, with so many references to the
  blob. -/
  | encoded (index : UInt32) (after : Summary) (blobUses : Nat)
  | done (total offset flushes : UInt64)
  deriving DecidableEq

namespace Note

def severity : Note → Severity
  | .queue event => event.severity
  | .badCommandLine _ | .caught _ => .warning
  | .encoding .. | .done .. => .info
  | .encoded .. => .trace

def component : Note → Component
  | .queue _ => Event.component
  | _ => Component.uncategorized

/-- The call site of an event of the encoder's own. -/
def emit (config : Log.Config) (note : Note) : Logged Note Unit :=
  Log.Context.emit ⟨some config, some note.component⟩ note.severity note

def message (platform : Platform) : Note → String
  | .queue event => event.message platform.layout
  | .badCommandLine misuse =>
    s!"Bad command line: [{platform.complain misuse}].  Usage:\n{Plan.usage platform}"
  | .caught obstacle => s!"Caught exception: [{platform.what obstacle}]."
  | .encoding count blobSize =>
    s!"Encoding [{count}] messages with [{blobSize}]-byte blobs."
  | .encoded index after blobUses =>
    s!"Encoded message [{index}]; [{after.describe}]; blob refs [{blobUses}]."
  | .done total offset flushes =>
    s!"Done: [{total}] bytes (of [{offset}] encoded) written to stdout in [{flushes}] flushes."

/-- The message in the encoder's log. -/
def line (platform : Platform) (note : Note) : String :=
  let component := String.ofList (Text.ofItems (firstConfig.componentItems note.component))
  s!"{String.ofList note.severity.shortName} {component} {note.message platform}"

end Note

end ByteQueue.Encoder
