import ByteQueue.ChunkStore
import ByteQueue.Settings.Validation

/-!
Queues of bytes, held in chunks. Bytes enter at the tail and leave at the head; how far the
head chunk has been consumed is a cursor into it. Beside the chunks a queue keeps two counts:
its `size`, and how many of its leading bytes the latest projection showed that have not been
confirmed since.

The bytes in the queue are its `content`: the bytes of the chunks in order, without those
before the cursor.
-/
namespace ByteQueue

/-- A queue of bytes. -/
structure Queue where
  /-- The configuration of the logger that the queue reports to, if there is one. -/
  logger : Option Log.Config
  settings : Settings
  store : ChunkStore
  /-- How many bytes of the head chunk have been consumed. -/
  headOffset : UInt64
  /-- The number of bytes in the queue. -/
  size : UInt64
  /-- The number of leading bytes that may be confirmed as written. -/
  projected : UInt64
  /-- The identity of the array that is allocated next. -/
  nextArray : ArrayId

namespace Queue

/-- A call site in the queue. -/
def emit (queue : Queue) (event : Event) : Logged Event Unit := event.emit queue.logger

/-- The chunks, head first. -/
def chunks (queue : Queue) : List Chunk := queue.store.toList

/-- The number of chunks. -/
def chunkCount (queue : Queue) : Nat := queue.store.length

theorem chunkCount_eq (queue : Queue) : queue.chunkCount = queue.chunks.length := by
  simp [chunkCount, chunks]

/-- The number of chunks that refer to an array. -/
def uses (queue : Queue) (id : ArrayId) : Nat := queue.store.uses id

theorem uses_eq (queue : Queue) (id : ArrayId) :
    queue.uses id = queue.chunks.countP (Chunk.refersTo id) :=
  queue.store.uses_eq id

/-- The bytes of all chunks, consumed ones of the head chunk included. -/
def stored (queue : Queue) : Bytes := queue.chunks.flatMap Chunk.bytes

/-- The bytes in the queue. -/
def content (queue : Queue) : Bytes := queue.stored.drop queue.headOffset.toNat

/-- What is left of a chunk of which the first `offset` bytes are consumed. -/
def remainder (offset : UInt64) (chunk : Chunk) : Block :=
  chunk.window offset.toNat chunk.length

/-- What is left of each of some chunks. Only the head chunk may be consumed in part. -/
def remainders (offset : UInt64) : List Chunk → List Block
  | [] => []
  | head :: rest => remainder offset head :: rest.map Chunk.block

@[simp] theorem bytes_remainder (offset : UInt64) (chunk : Chunk) :
    (remainder offset chunk).bytes = chunk.bytes.drop offset.toNat := by
  rw [remainder, Chunk.bytes_window, Bytes.window, List.take_of_length_le (by simp)]

theorem remainders_take (offset : UInt64) (chunks : List Chunk) (count : Nat) :
    remainders offset (chunks.take count) = (remainders offset chunks).take count := by
  cases chunks <;> cases count <;> simp [remainders]

/-- What is left of the head chunk. -/
def front (queue : Queue) : Block :=
  match queue.store.head? with
  | some head => remainder queue.headOffset head
  | none => .empty

theorem front_eq (queue : Queue) :
    queue.front = (remainders queue.headOffset queue.chunks).head?.getD .empty := by
  rw [front, ChunkStore.head?_eq, chunks]
  cases queue.store.toList <;> simp [remainders]

def isEmpty (queue : Queue) : Bool := queue.size == 0

def summary (queue : Queue) : Summary :=
  ⟨queue.size, queue.chunkCount, queue.headOffset, queue.projected⟩

/-- The sizing rule of the settings. -/
def sizing (queue : Queue) : Sizing := queue.settings.sizing

/-- The empty queue with these settings whose arrays belong to `owner`. -/
def fresh (logger : Option Log.Config) (owner : Nat) (settings : Settings) : Queue :=
  ⟨logger, settings, .empty, 0, 0, 0, ⟨owner, 0⟩⟩

/-- An empty queue, unless the settings are invalid. -/
def create (logger : Option Log.Config) (owner : Nat) (settings : Settings) :
    Logged Event (Except Failure Queue) := do
  match ← settings.validate logger with
  | .error failure => return .error failure
  | .ok () =>
    let _ ← settings.chooseSizing logger
    let queue := fresh logger owner settings
    queue.emit (.created settings)
    return .ok queue

/-- Reports what is lost when a queue goes out of use. -/
def destroy (queue : Queue) : Logged Event Unit :=
  queue.emit (.destroyed queue.size queue.chunkCount)

/-- Forgets all bytes and the latest projection. -/
def clear (queue : Queue) : Queue :=
  { queue with store := .empty, headOffset := 0, size := 0, projected := 0 }

theorem content_fresh (logger : Option Log.Config) (owner : Nat) (settings : Settings) :
    (fresh logger owner settings).content = [] := rfl

theorem create_value (logger : Option Log.Config) (owner : Nat) (settings : Settings) :
    (create logger owner settings).value =
      if settings.Valid then .ok (fresh logger owner settings) else .error .badSettings := by
  by_cases h : settings.Valid <;> simp [create, Settings.validate_value, h]

end Queue

end ByteQueue
