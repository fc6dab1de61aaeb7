import ByteQueue.Block
import ByteQueue.Log.Context
import ByteQueue.Settings.Named
import ByteQueue.Text.Dump

/-!
What queues, their sizing rules and their settings report about themselves. An event has a
severity and a message; the message is worked out when somebody asks for it.
-/
namespace ByteQueue

/-- The numbers by which a queue describes its state. -/
structure Summary where
  size : UInt64
  chunkCount : Nat
  headOffset : UInt64
  projected : UInt64
  deriving DecidableEq, Repr

/-- How a queue is printed. Where a queue in memory would show its address, this shows `PTR`. -/
def Summary.describe (summary : Summary) : String :=
  s!"Chunked_buffer [PTR] [data_size={summary.size}; chunk_count={summary.chunkCount}; " ++
    s!"head_offset={summary.headOffset}; projected={summary.projected}]"

/-- Something that happened to a queue. -/
inductive Event where
  | checkFailed (check : Check)
  | errorEmitted (failure : Failure)
  | sizingChosen (sizing : Sizing)
  | created (settings : Settings)
  | destroyed (size : UInt64) (chunkCount : Nat)
  | appended (data : Block)
  | coalesced (count spare size : UInt64)
  | allocated (capacity count size : UInt64) (chunkCount : Nat)
  | absorbed (count size : UInt64) (chunkCount : Nat)
  | absorbedInParts (count : UInt64) (parts : Nat) (limit size : UInt64) (chunkCount : Nat)
  | projected (exposed size : UInt64) (slices : Nat) (limit : UInt64) (chunkCount : Nat)
  | confirmRefused (count projected : UInt64)
  | retired (size : UInt64)
  | confirmed (count size : UInt64) (chunkCount : Nat) (headOffset projected : UInt64)
  | tailSealed (size : UInt64)
  | draining (size : UInt64) (chunkCount : Nat)
  | takeRefused (count size : UInt64)
  | takenAsSlice (count : UInt64)
  | takenAsCopy (count : UInt64)
  | streamFailed (code : Code)
  | wrote (count : UInt64) (summary : Summary)
  | wroteLater (count : UInt64) (slices : Nat) (summary : Summary)
  deriving DecidableEq

namespace Event

def severity : Event → Severity
  | .checkFailed _ | .errorEmitted _ | .confirmRefused .. | .takeRefused .. | .streamFailed _ =>
    .warning
  | .created _ => .info
  | .appended _ => .data
  | .sizingChosen _ | .destroyed .. | .coalesced .. | .allocated .. | .absorbed ..
  | .absorbedInParts .. | .projected .. | .retired _ | .confirmed .. | .tailSealed _
  | .draining .. | .takenAsSlice _ | .takenAsCopy _ | .wrote .. | .wroteLater .. => .trace

/-- All of these events are reported under one component. -/
def component : Component := Component.buffer

/-- The message. Only the one on a new queue has several lines: how its settings are laid out is
left open. -/
def message (layout : Layout) : Event → String
  | .checkFailed check =>
    s!"Chunked_buffer_options check [{check.condition}] is false.  Rejecting entire option set."
  | .errorEmitted failure =>
    s!"Error code emitted: [{failure.code.name}] [{failure.message}]."
  | .sizingChosen (.fixed size) => s!"Chunk_sizing_fixed [PTR]: chunk size [{size}]."
  | .sizingChosen (.doubling rule) =>
    s!"Chunk_sizing_doubling [PTR]: chunk size range [{rule.first}, {rule.cap}]."
  | .created settings => s!"Chunked_buffer [PTR] created; options:\n{settings.printout layout}"
  | .destroyed size chunkCount =>
    s!"Chunked_buffer [PTR] destroyed with [{size}] bytes in [{chunkCount}] chunks never written."
  | .appended data =>
    s!"Chunked_buffer [PTR]: appended copy of [{String.ofList (Dump.quote data.bytes)}]."
  | .coalesced count spare size =>
    s!"Chunked_buffer [PTR]: copied [{count}] bytes into tail chunk; its spare now [{spare}]; " ++
      s!"data_size [{size}]."
  | .allocated capacity count size chunkCount =>
    s!"Chunked_buffer [PTR]: allocated chunk of capacity [{capacity}] for [{count}] copied " ++
      s!"bytes; data_size [{size}]; chunk_count [{chunkCount}]."
  | .absorbed count size chunkCount =>
    s!"Chunked_buffer [PTR]: absorbed handle of size [{count}] with no copy; " ++
      s!"data_size [{size}]; chunk_count [{chunkCount}]."
  | .absorbedInParts count parts limit size chunkCount =>
    s!"Chunked_buffer [PTR]: absorbed handle of size [{count}] with no copy, split into " ++
      s!"[{parts}] chunks of at most [{limit}]; data_size [{size}]; chunk_count [{chunkCount}]."
  | .projected exposed size slices limit chunkCount =>
    s!"Chunked_buffer [PTR]: projected [{exposed}] of [{size}] bytes in [{slices}] slices " ++
      s!"(limit [{limit}]; chunk_count [{chunkCount}])."
  | .confirmRefused count exposed =>
    s!"Chunked_buffer [PTR]: asked to mark [{count}] bytes written, but only [{exposed}] are " ++
      "exposed by the latest projection.  Ignoring."
  | .retired size => s!"Chunked_buffer [PTR]: retiring head chunk of size [{size}]."
  | .confirmed count size chunkCount headOffset exposed =>
    s!"Chunked_buffer [PTR]: marked [{count}] bytes written; data_size [{size}]; chunk_count " ++
      s!"[{chunkCount}]; head_offset [{headOffset}]; still exposed [{exposed}]."
  | .tailSealed size => s!"Chunked_buffer [PTR]: sealed tail chunk of size [{size}]."
  | .draining size chunkCount =>
    s!"Chunked_buffer [PTR]: draining [{size}] bytes in [{chunkCount}] chunks."
  | .takeRefused count size =>
    s!"Chunked_buffer [PTR]: asked to consume [{count}] bytes, but only [{size}] are buffered.  " ++
      "Ignoring."
  | .takenAsSlice count =>
    s!"Chunked_buffer [PTR]: consuming [{count}] bytes as slice of head chunk."
  | .takenAsCopy count =>
    s!"Chunked_buffer [PTR]: consuming [{count}] bytes as contiguous copy."
  | .streamFailed code => s!"System error occurred: [{code.name}] [{code.message}]."
  | .wrote count summary => s!"Wrote [{count}] bytes from [{summary.describe}]."
  | .wroteLater count slices summary =>
    s!"Async-wrote [{count}] bytes (projection had [{slices}] slices); now [{summary.describe}]."

/-- What the call sites in queues, their sizing rules and their settings log with. -/
def context (logger : Option Log.Config) : Log.Context := ⟨logger, some component⟩

/-- Whether a logger, if there is one, logs the event. -/
def loggedBy (logger : Option Log.Config) (event : Event) : Bool :=
  (context logger).shouldLog event.severity

/-- The call site of an event. -/
def emit (logger : Option Log.Config) (event : Event) : Logged Event Unit :=
  (context logger).emit event.severity event

theorem events_emit (logger : Option Log.Config) (event : Event) :
    (event.emit logger).events = [event].filter (loggedBy logger) := by
  rw [emit, Log.Context.events_emit]
  rfl

end Event

end ByteQueue
