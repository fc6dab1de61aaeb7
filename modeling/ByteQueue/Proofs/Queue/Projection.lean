import ByteQueue.Proofs.Queue.Invariant
import ByteQueue.Queue.Project

/-! What a projection shows is a beginning of the content, and the queue remembers its length. -/
namespace ByteQueue

/-- All bytes in the slices of a projection. -/
def Projection.bytes (projection : Projection) : Bytes := projection.slices.flatMap Block.bytes

namespace Queue

open Logged

/-- The sum as a word need not be the number of bytes, since the head chunk counts with bytes that
are consumed. -/
theorem toNat_sum_size {chunks : List Chunk} (h : ∀ chunk ∈ chunks, chunk.WellFormed) :
    (wordSum Chunk.size chunks).toNat = (chunks.flatMap Chunk.bytes).length % 2 ^ 64 := by
  rw [Word.toNat_wordSum, sum_toNat_size h]

/-- How many chunks a projection shows at most. -/
def sliceLimit (queue : Queue) (limit : UInt64) : Nat := (min limit queue.settings.maxSlices).toNat

theorem value_project (queue : Queue) (limit : UInt64) :
    (queue.project limit).value =
      ({ queue with
          projected := Projection.exposed ⟨queue.store, queue.headOffset, queue.sliceLimit limit⟩ },
        ⟨queue.store, queue.headOffset, queue.sliceLimit limit⟩) :=
  rfl

theorem slices_project (queue : Queue) (limit : UInt64) :
    (queue.project limit).value.2.slices =
      remainders queue.headOffset (queue.chunks.take (queue.sliceLimit limit)) := by
  rw [value_project, Projection.slices, ChunkStore.take_eq]
  rfl

theorem Cursor.take {offset : UInt64} {chunks : List Chunk} (h : Cursor offset chunks)
    {count : Nat} (hCount : count ≠ 0) : Cursor offset (chunks.take count) := by
  obtain ⟨count, rfl⟩ := Nat.exists_eq_succ_of_ne_zero hCount
  cases chunks with
  | nil => exact h
  | cons head rest => exact h

/-- What is left of the first chunks is a beginning of the content. -/
theorem Consistent.remainders_take_prefix {queue : Queue} (h : queue.Consistent) (count : Nat) :
    (remainders queue.headOffset (queue.chunks.take count)).flatMap Block.bytes <+:
      queue.content := by
  by_cases h0 : count = 0
  · rw [h0, List.take_zero]
    exact List.nil_prefix
  · have hCursor := h.cursor.take h0
    rw [hCursor.flatMap_remainders, content, stored, ← List.take_append_drop count queue.chunks,
      List.flatMap_append, List.drop_append_of_le_length (by simpa using hCursor.le),
      List.take_append_drop]
    exact List.prefix_append ..

/-- The number of bytes that is told is the number of those that are shown. The difference of
the two words that it is computed from is right even where the first of them wrapped around. -/
theorem Consistent.toNat_exposed {queue : Queue} (h : queue.Consistent) (count : Nat) :
    (Projection.exposed ⟨queue.store, queue.headOffset, count⟩).toNat =
      ((remainders queue.headOffset (queue.chunks.take count)).flatMap Block.bytes).length := by
  have hStore : queue.store.length = queue.chunks.length := queue.store.length_toList.symm
  by_cases h0 : count = 0
  · simp [Projection.exposed, Projection.count, h0, remainders]
  by_cases hn : queue.chunks = []
  · simp [Projection.exposed, Projection.count, hStore, hn, remainders]
  have hCursor := h.cursor.take h0
  have hTake : ∀ chunk ∈ queue.chunks.take count, chunk.WellFormed :=
    fun chunk hm => h.chunks_wellFormed chunk (List.mem_of_mem_take hm)
  have hCount : Projection.count ⟨queue.store, queue.headOffset, count⟩ ≠ 0 := by
    have hSome : queue.chunks.length ≠ 0 := fun hn' => hn (List.length_eq_zero_iff.mp hn')
    show min count queue.store.length ≠ 0
    omega
  have hLength := (h.remainders_take_prefix count).length_le
  have hLt := h.length_content_lt
  rw [hCursor.flatMap_remainders, List.length_drop] at hLength ⊢
  have hDifference : ((queue.chunks.take count).flatMap Chunk.bytes).length -
      queue.headOffset.toNat < 2 ^ 64 := by omega
  rw [Projection.exposed, if_neg hCount, ChunkStore.sizeOfFirst_eq]
  exact Word.toNat_sub_of_mod (toNat_sum_size hTake) hCursor.le hDifference

/-- The slices show leading bytes, and their number is what may be confirmed. -/
theorem Consistent.project {queue : Queue} (h : queue.Consistent) (limit : UInt64) :
    (queue.project limit).value.2.bytes <+: queue.content ∧
      (queue.project limit).value.1.projected.toNat =
        (queue.project limit).value.2.bytes.length := by
  rw [Projection.bytes, queue.slices_project limit]
  exact ⟨h.remainders_take_prefix _, h.toNat_exposed _⟩

theorem WellFormed.project {queue : Queue} (h : queue.WellFormed) (limit : UInt64) :
    (queue.project limit).value.1.WellFormed where
  valid := h.valid
  chunks_wellFormed := h.chunks_wellFormed
  cursor := h.cursor
  size_eq := h.size_eq
  projected_le := by
    obtain ⟨hPrefix, hProjected⟩ := h.toConsistent.project limit
    have hLength := hPrefix.length_le
    rw [UInt64.le_iff_toNat_le, hProjected]
    show _ ≤ queue.size.toNat
    rw [h.size_eq]
    exact hLength

end Queue

end ByteQueue
