import ByteQueue.Queue.Basic

/-!
How bytes get into a queue. Data is copied: into the tail chunk if that still fills and has
room for all of it, and else into new chunks, whose sizes the sizing rule decides. A handle is
copied only if it is short and the tail chunk has room; else the queue refers to its bytes, cut
into several chunks if the rule bounds their size.

Sealing ends the filling of the tail chunk, so that the next bytes begin a chunk of their own.
-/
namespace ByteQueue.Queue

open Logged

/-- The queue with `data` added to its tail chunk, if that chunk is filling and has room. -/
def coalesce? (queue : Queue) (data : Block) : Option (Logged Event Queue) :=
  match queue.store.last? with
  | some (.filling tail) =>
    if tail.spare < data.size then none
    else some do
      let tail := tail.append data
      let queue :=
        { queue with
          store := queue.store.setLast (.filling tail)
          size := queue.size + data.size }
      queue.emit (.coalesced data.size tail.spare queue.size)
      return queue
  | _ => none

/-- The capacity of a new chunk for `count` bytes. It has room for them under any rule. -/
def capacityFor (queue : Queue) (count : UInt64) : UInt64 :=
  max ((queue.sizing.next? queue.size count).getD count) count

/-- Adds a new filling chunk that holds `piece`. -/
def pushCopy (queue : Queue) (piece : Block) : Logged Event Queue := do
  let capacity := queue.capacityFor piece.size
  let queue :=
    { queue with
      store := queue.store.push (.filling (.ofBlock queue.nextArray capacity piece))
      size := queue.size + piece.size
      nextArray := queue.nextArray.next }
  queue.emit (.allocated capacity piece.size queue.size queue.chunkCount)
  return queue

/-- Adds copies of the pieces that the sizing rule cuts `data` into. -/
def pushCopies (queue : Queue) (data : Block) : Logged Event Queue :=
  fold pushCopy queue (data.pieces queue.sizing.greatest.toNat)

/-- Adds a copy of `data`, in the tail chunk if that is possible. -/
def copyIn (queue : Queue) (data : Block) : Logged Event Queue :=
  match queue.coalesce? data with
  | some coalesced => coalesced
  | none => queue.pushCopies data

/-- Adds a copy of `data`; for no data nothing happens. -/
def append (queue : Queue) (data : Block) : Logged Event Queue :=
  if data.isEmpty then pure queue
  else do
    let queue ← queue.copyIn data
    queue.emit (.appended data)
    return queue

/-- Adds copies of several pieces of data, in order. -/
def appendAll (queue : Queue) (pieces : List Block) : Logged Event Queue :=
  fold append queue pieces

/-- Adds a sealed chunk that refers to the bytes of a handle. -/
def pushHandle (queue : Queue) (handle : Handle) : Queue :=
  { queue with
    store := queue.store.push (.sealed handle)
    size := queue.size + handle.size }

/-- Adds the bytes of a handle without copying them, in parts if there is a greatest size. -/
def pushReference (queue : Queue) (handle : Handle) : Logged Event Queue := do
  let limit := queue.sizing.greatest
  if limit = 0 ∨ handle.size ≤ limit then
    let queue := queue.pushHandle handle
    queue.emit (.absorbed handle.size queue.size queue.chunkCount)
    return queue
  else
    let parts := handle.pieces limit
    let queue := parts.foldl pushHandle queue
    queue.emit (.absorbedInParts handle.size parts.length limit queue.size queue.chunkCount)
    return queue

/-- Adds the bytes of a handle, by copy if it is short and fits into the tail chunk. -/
def absorb (queue : Queue) (handle : Handle) : Logged Event Queue :=
  if handle.isEmpty then pure queue
  else if handle.size < queue.settings.smallHandleThreshold then
    match queue.coalesce? handle.block with
    | some coalesced => coalesced
    | none => queue.pushReference handle
  else queue.pushReference handle

theorem stored_pushCopy (queue : Queue) (piece : Block) :
    (queue.pushCopy piece).value.stored = queue.stored ++ piece.bytes := by
  simp [pushCopy, stored, chunks]

/-- Ends the filling of the tail chunk. Its array stays the same. -/
def sealTail (queue : Queue) : Logged Event Queue := do
  match queue.store.last? with
  | some (.filling tail) =>
    queue.emit (.tailSealed tail.size)
    return { queue with store := queue.store.setLast (.sealed tail.release) }
  | _ => return queue

end ByteQueue.Queue
