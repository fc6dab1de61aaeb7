import ByteQueue.Handle
import ByteQueue.Sum

/-!
Chunks. A filling chunk owns an array of a given capacity and gains bytes at the end of those
it has; a sealed one shows the bytes of a handle and never changes. Releasing a filling chunk
turns its array into a handle; nothing is copied.
-/
namespace ByteQueue

/-- A chunk that still takes bytes. -/
structure FillingChunk where
  id : ArrayId
  capacity : UInt64
  /-- What was added to the chunk, the latest first. -/
  added : List Block
  /-- The number of bytes in the chunk. -/
  length : Nat
  length_eq : length = sumOf Block.length added
  deriving DecidableEq

namespace FillingChunk

/-- A chunk with its first bytes. -/
def ofBlock (id : ArrayId) (capacity : UInt64) (data : Block) : FillingChunk :=
  ⟨id, capacity, [data], data.length, by simp⟩

/-- What is in the chunk. -/
def block (chunk : FillingChunk) : Block := .join chunk.added.reverse

/-- The bytes in the chunk. -/
def bytes (chunk : FillingChunk) : Bytes := chunk.block.bytes

def size (chunk : FillingChunk) : UInt64 := chunk.length.toUInt64

@[simp] theorem length_bytes (chunk : FillingChunk) : chunk.bytes.length = chunk.length := by
  rw [chunk.length_eq, bytes, block, Block.bytes_join, length_flatMap_eq_sumOf, sumOf_reverse]
  simp only [Block.length_bytes]

@[simp] theorem bytes_ofBlock (id : ArrayId) (capacity : UInt64) (data : Block) :
    (ofBlock id capacity data).bytes = data.bytes := by
  simp [ofBlock, bytes, block]

/-- How many more bytes fit. -/
def spare (chunk : FillingChunk) : UInt64 := chunk.capacity - chunk.size

def append (chunk : FillingChunk) (data : Block) : FillingChunk :=
  { chunk with
    added := data :: chunk.added
    length := data.length + chunk.length
    length_eq := by simp [chunk.length_eq] }

@[simp] theorem bytes_append (chunk : FillingChunk) (data : Block) :
    (chunk.append data).bytes = chunk.bytes ++ data.bytes := by
  simp [append, bytes, block]

/-- The array as a handle that shows the bytes in it. -/
def release (chunk : FillingChunk) : Handle :=
  .adopt (some ⟨chunk.id, chunk.block⟩) chunk.size

end FillingChunk

/-- A part of a queue's content. -/
inductive Chunk where
  | filling (chunk : FillingChunk)
  | sealed (handle : Handle)
  deriving DecidableEq

namespace Chunk

def size : Chunk → UInt64
  | .filling chunk => chunk.size
  | .sealed handle => handle.size

/-- What is in the chunk. -/
def block : Chunk → Block
  | .filling chunk => chunk.block
  | .sealed handle => handle.block

/-- The bytes in the chunk. -/
def bytes (chunk : Chunk) : Bytes := chunk.block.bytes

@[simp] theorem bytes_filling (chunk : FillingChunk) : (filling chunk).bytes = chunk.bytes := rfl

@[simp] theorem bytes_sealed (handle : Handle) : (sealed handle).bytes = handle.bytes := rfl

/-- The number of bytes in the chunk. -/
def length : Chunk → Nat
  | .filling chunk => chunk.length
  | .sealed handle => handle.length

/-- The `count` bytes at `start`, or those of them that exist. -/
def window (start count : Nat) : Chunk → Block
  | .filling chunk => chunk.block.window start count
  | .sealed handle => handle.window start count

@[simp] theorem length_bytes (chunk : Chunk) : chunk.bytes.length = chunk.length := by
  cases chunk with
  | filling chunk => exact chunk.length_bytes
  | sealed handle => exact handle.length_bytes

@[simp] theorem bytes_window (start count : Nat) (chunk : Chunk) :
    (chunk.window start count).bytes = chunk.bytes.window start count := by
  cases chunk with
  | filling chunk => exact chunk.block.bytes_window start count
  | sealed handle => exact handle.bytes_window start count

theorem length_window (start count : Nat) (chunk : Chunk) :
    (chunk.window start count).length = min count (chunk.length - start) := by
  rw [← Block.length_bytes, bytes_window, Bytes.length_window, length_bytes]

/-- The bytes as a handle; a filling chunk gives up its array for it. -/
def release : Chunk → Handle
  | .filling chunk => chunk.release
  | .sealed handle => handle

/-- The array that the chunk holds a reference to. A filling chunk is the only owner of its
array, which nobody can share yet. -/
def sharedArrayId? : Chunk → Option ArrayId
  | .filling _ => none
  | .sealed handle => handle.arrayId?

/-- Whether the chunk holds a reference to an array. -/
def refersTo (id : ArrayId) (chunk : Chunk) : Bool := chunk.sharedArrayId? == some id

end Chunk

end ByteQueue
