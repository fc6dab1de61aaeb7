import ByteQueue.Proofs.Queue.Step

/-! The operations of a queue with a guard at every step that could leave its range: differences of
words, the head of a queue, copies into and out of chunks, chunks of handles, and slices. The steps
are those that are made in memory, byte counts by byte counts and chunk by chunk. A step out of
range is a fault, and nothing follows it. -/
namespace ByteQueue

/-- How a step can leave its range. -/
inductive Fault where
  /-- More is taken from a number than it is. -/
  | belowZero
  /-- The head of a queue without chunks is looked at. -/
  | noHead
  /-- A copy goes on behind the last chunk. -/
  | behindLast
  /-- More bytes are copied into a filling chunk than it has room for. -/
  | noRoom
  /-- A sealed chunk is made of a handle without bytes. -/
  | emptyChunk
  /-- A slice reaches past the end of its handle. -/
  | sliceRefused
  /-- A loop does not end after as many turns as it can have. -/
  | endless
  deriving DecidableEq, Repr

/-- A result, or the fault on the way to it. -/
abbrev Guarded (α : Type) := Except Fault α

namespace Guarded

def sub (a b : UInt64) : Guarded UInt64 := if b ≤ a then .ok (a - b) else .error .belowZero

/-- Repeats a step. One of the `turns` must end the loop. -/
def loop {σ α : Type} (next : σ → Guarded (σ ⊕ α)) : Nat → σ → Guarded α
  | 0, _ => .error .endless
  | turns + 1, state => do
    match ← next state with
    | .inl state => loop next turns state
    | .inr result => return result

/-! Chunks and handles. -/

def spare (chunk : FillingChunk) : Guarded UInt64 := sub chunk.capacity chunk.size

/-- A chunk without bytes. -/
def vacant (id : ArrayId) (capacity : UInt64) : FillingChunk where
  id
  capacity
  added := []
  length := 0
  length_eq := (sumOf_nil Block.length).symm

/-- Copies bytes behind those in the chunk. -/
def fill (chunk : FillingChunk) (data : Block) : Guarded FillingChunk := do
  if data.length ≤ (← spare chunk).toNat then return chunk.append data
  else throw .noRoom

def sealedChunk (handle : Handle) : Guarded Chunk :=
  if handle.isEmpty then .error .emptyChunk else .ok (.sealed handle)

def slice (handle : Handle) (offset count : UInt64) : Guarded Handle :=
  match handle.slice offset count with
  | .ok part => .ok part
  | .error _ => .error .sliceRefused

def head (store : ChunkStore) : Guarded Chunk :=
  match store.head? with
  | some head => .ok head
  | none => .error .noHead

/-! Adding bytes. -/

/-- The queue with `data` in its tail chunk, if that has room. The room that is left is told. -/
def coalesce? (queue : Queue) (data : Block) : Guarded (Option Queue) := do
  match queue.store.last? with
  | some (.filling tail) =>
    if (← spare tail) < data.size then return none
    let tail ← fill tail data
    let _ ← spare tail
    return some
      { queue with
        store := queue.store.setLast (.filling tail)
        size := queue.size + data.size }
  | _ => return none

/-- A new chunk is filled before the queue gets it. -/
def pushCopy (queue : Queue) (piece : Block) : Guarded Queue := do
  let chunk ← fill (vacant queue.nextArray (queue.capacityFor piece.size)) piece
  return { queue with
    store := queue.store.push (.filling chunk)
    size := queue.size + piece.size
    nextArray := queue.nextArray.next }

/-- Copies the next piece of the `left` bytes of `data` that begin at `start`. -/
def copyNext (limit : UInt64) (data : Block) :
    Queue × Nat × UInt64 → Guarded ((Queue × Nat × UInt64) ⊕ Queue)
  | (queue, start, left) => do
    if left = 0 then return .inr queue
    let count := if limit = 0 then left else min left limit
    let queue ← pushCopy queue (data.window start count.toNat)
    return .inl (queue, start + count.toNat, ← sub left count)

def pushCopies (queue : Queue) (data : Block) : Guarded Queue :=
  loop (copyNext queue.sizing.greatest data) (data.length + 1) (queue, 0, data.size)

def append (queue : Queue) (data : Block) : Guarded Queue := do
  if data.isEmpty then return queue
  match ← coalesce? queue data with
  | some coalesced => return coalesced
  | none => pushCopies queue data

def appendAll (queue : Queue) (pieces : List Block) : Guarded Queue := pieces.foldlM append queue

def pushHandle (queue : Queue) (handle : Handle) : Guarded Queue := do
  let chunk ← sealedChunk handle
  return { queue with
    store := queue.store.push chunk
    size := queue.size + handle.size }

/-- Refers to the next part of the bytes of a handle that begin at `offset`. -/
def referNext (limit : UInt64) (handle : Handle) :
    Queue × UInt64 → Guarded ((Queue × UInt64) ⊕ Queue)
  | (queue, offset) => do
    if offset = handle.size then return .inr queue
    let count := min (← sub handle.size offset) limit
    let queue ← pushHandle queue (← slice handle offset count)
    return .inl (queue, offset + count)

def pushReference (queue : Queue) (handle : Handle) : Guarded Queue :=
  let limit := queue.sizing.greatest
  if limit = 0 ∨ handle.size ≤ limit then pushHandle queue handle
  else loop (referNext limit handle) (handle.size.toNat + 1) (queue, 0)

def absorb (queue : Queue) (handle : Handle) : Guarded Queue := do
  if handle.isEmpty then return queue
  if handle.size < queue.settings.smallHandleThreshold then
    match ← coalesce? queue handle.block with
    | some coalesced => return coalesced
    | none => pushReference queue handle
  else pushReference queue handle

def sealTail (queue : Queue) : Guarded Queue := do
  match queue.store.last? with
  | some (.filling tail) =>
    return { queue with store := queue.store.setLast (← sealedChunk tail.release) }
  | _ => return queue

/-! Showing bytes. -/

/-- What is left of the head chunk. -/
def front (queue : Queue) : Guarded Block := do
  match queue.store.head? with
  | some head => return head.window queue.headOffset.toNat (← sub head.size queue.headOffset).toNat
  | none => return .empty

/-- What is left of each of the first chunks, and the sum of the sizes. -/
def expose : Nat → List Chunk → UInt64 → Guarded (List Block × UInt64)
  | 0, _, _ | _, [], _ => return ([], 0)
  | limit + 1, chunk :: rest, offset => do
    let count ← sub chunk.size offset
    let (slices, exposed) ← expose limit rest 0
    return (chunk.window offset.toNat count.toNat :: slices, count + exposed)

def project (queue : Queue) (limit : UInt64) : Guarded (Queue × Outcome) := do
  let (slices, exposed) ← expose (queue.sliceLimit limit) queue.chunks queue.headOffset
  return ({ queue with projected := exposed }, .shown exposed slices)

/-! Removing bytes. -/

/-- Retires the head chunk, unless some of it is left when `count` bytes are consumed. -/
def retireNext : ChunkStore × UInt64 × UInt64 →
    Guarded ((ChunkStore × UInt64 × UInt64) ⊕ (ChunkStore × UInt64))
  | (store, offset, count) => do
    if count = 0 then return .inr (store, offset)
    let left ← sub (← head store).size offset
    if count < left then return .inr (store, offset + count)
    return .inl (store.tail, 0, ← sub count left)

def consume (queue : Queue) (count : UInt64) : Guarded Queue := do
  let size ← sub queue.size count
  let (store, headOffset) ←
    loop retireNext (queue.chunkCount + 1) (queue.store, queue.headOffset, count)
  return { queue with store, headOffset, size }

def confirm (queue : Queue) (count : UInt64) : Guarded (Queue × Outcome) := do
  if count > queue.projected then return (queue, .refused .overConfirmed)
  let after ← consume queue count
  return ({ after with projected := ← sub queue.projected count }, .done)

/-- Copies chunk by chunk, until `copied` of the `count` bytes are all of them. -/
def gather : List Chunk → UInt64 → UInt64 → UInt64 → Guarded (List Block)
  | chunks, offset, count, copied =>
    if copied = count then return []
    else
      match chunks with
      | [] => throw .behindLast
      | chunk :: rest => do
        let part := min (← sub count copied) (← sub chunk.size offset)
        let parts ← gather rest 0 count (copied + part)
        return chunk.window offset.toNat part.toNat :: parts

def copyFirst (queue : Queue) (count : UInt64) : Guarded (Queue × Handle) := do
  let parts ← gather queue.chunks queue.headOffset count 0
  return ({ queue with nextArray := queue.nextArray.next },
    .adopt (some ⟨queue.nextArray, .join parts⟩) count)

/-- A handle to the first `count` bytes: a slice of the head chunk, or a copy. -/
def firstBytes (queue : Queue) (count : UInt64) : Guarded (Queue × Handle) := do
  match ← head queue.store with
  | .sealed head =>
    if count ≤ (← sub head.size queue.headOffset) then
      return (queue, ← slice head queue.headOffset count)
    else copyFirst queue count
  | .filling _ => copyFirst queue count

def take (queue : Queue) (count : UInt64) : Guarded (Queue × Outcome) := do
  if count > queue.size then return (queue, .refused .overTaken)
  if count = 0 then return (queue, .taken .empty)
  let (queue, handle) ← firstBytes { queue with projected := 0 } count
  return (← consume queue count, .taken handle)

/-- Handles to what is left of each chunk. -/
def release : List Chunk → UInt64 → Guarded (List Handle)
  | [], _ => return []
  | head :: rest, offset => do
    let first := head.release
    let left ←
      if offset = 0 then pure first
      else do slice first offset (← sub first.size offset)
    return left :: rest.map Chunk.release

def drain (queue : Queue) : Guarded (Queue × Outcome) := do
  return (queue.clear, .drained (← release queue.chunks queue.headOffset))

/-- The queue after an operation, and what the operation tells. -/
def apply (queue : Queue) : Operation → Guarded (Queue × Outcome)
  | .append data => do return (← append queue data, .done)
  | .appendAll pieces => do return (← appendAll queue pieces, .done)
  | .absorb handle => do return (← absorb queue handle, .done)
  | .project limit => project queue limit
  | .projectAll => project queue queue.settings.maxSlices
  | .confirm count => confirm queue count
  | .sealTail => do return (← sealTail queue, .done)
  | .take count => take queue count
  | .drain => drain queue
  | .clear => return (queue.clear, .done)

/-- The queue after some operations, and what each of them told. -/
def run : Queue → List Operation → Guarded (Queue × List Outcome)
  | queue, [] => return (queue, [])
  | queue, operation :: rest => do
    let (queue, outcome) ← apply queue operation
    let (queue, outcomes) ← run queue rest
    return (queue, outcome :: outcomes)

end Guarded

end ByteQueue
