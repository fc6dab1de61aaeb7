import ByteQueue.Queue.Basic

/-!
Projections: what a queue shows to a writer. A projection has one slice for each chunk from the
head on, up to a limit, and each slice is all that is left of its chunk. The queue remembers
how many bytes the latest projection showed: just these may be confirmed as written.
-/
namespace ByteQueue

/-- What a writer is shown: chunks, of which the first `offset` bytes are consumed and only the
first `limit` count. -/
structure Projection where
  store : ChunkStore
  offset : UInt64
  limit : Nat

namespace Projection

/-- The slices, in order: what is left of each chunk. -/
def slices (projection : Projection) : List Block :=
  Queue.remainders projection.offset (projection.store.take projection.limit)

/-- The number of slices. -/
def count (projection : Projection) : Nat := min projection.limit projection.store.length

/-- The number of bytes shown. -/
def exposed (projection : Projection) : UInt64 :=
  if projection.count = 0 then 0
  else projection.store.sizeOfFirst projection.limit - projection.offset

/-- All bytes shown. -/
def block (projection : Projection) : Block := .join projection.slices

/-- The first `wanted` bytes shown, or as many as there are. -/
def first (projection : Projection) (wanted : Nat) : Block :=
  projection.store.gather projection.limit projection.offset.toNat wanted

/-- No more than the first `limit` slices of a projection. -/
def atMost (limit : Nat) (projection : Projection) : Projection :=
  { projection with limit := min limit projection.limit }

theorem slices_atMost (limit : Nat) (projection : Projection) :
    (projection.atMost limit).slices = projection.slices.take limit := by
  simp [slices, atMost, Queue.remainders_take, List.take_take]

/-- What is exposed of the head chunk is what is left of it, and all of each other chunk. -/
theorem exposed_eq {projection : Projection} {head : Chunk} {rest : List Chunk} {limit : Nat}
    (hc : projection.store.toList = head :: rest) (hl : projection.limit = limit + 1) :
    projection.exposed =
      head.size - projection.offset + wordSum Chunk.size (rest.take limit) := by
  have hn : projection.store.length = rest.length + 1 := by
    rw [← ChunkStore.length_toList, hc, List.length_cons]
  rw [exposed, if_neg (by simp [count, hl, hn]), ChunkStore.sizeOfFirst_eq, hl, hc,
    List.take_succ_cons, wordSum_cons, UInt64.sub_eq_add_neg,
    UInt64.sub_eq_add_neg, UInt64.add_assoc, UInt64.add_assoc,
    UInt64.add_comm (-projection.offset)]

/-- The first bytes shown begin behind the consumed ones. -/
theorem bytes_first (projection : Projection) (wanted : Nat) :
    (projection.first wanted).bytes =
      Bytes.window ((projection.store.toList.take projection.limit).flatMap Chunk.bytes)
        projection.offset.toNat wanted :=
  ChunkStore.bytes_gather ..

end Projection

namespace Queue

open Logged

/-- Shows at most `limit` slices, and never more than the settings allow. -/
def project (queue : Queue) (limit : UInt64) : Logged Event (Queue × Projection) := do
  let limit := min limit queue.settings.maxSlices
  let projection : Projection := ⟨queue.store, queue.headOffset, limit.toNat⟩
  let exposed := projection.exposed
  queue.emit (.projected exposed queue.size projection.count limit queue.chunkCount)
  return ({ queue with projected := exposed }, projection)

/-- Shows as many slices as the settings allow. -/
def projectAll (queue : Queue) : Logged Event (Queue × Projection) :=
  queue.project queue.settings.maxSlices

end Queue

end ByteQueue
