import ByteQueue.Chunk
import ByteQueue.Proofs.Word

/-! Chunks as queues hold them: never empty, and with sizes that are what they say. A filling
chunk keeps its bytes when it gives up its array, and a long handle is cut into such chunks. -/
namespace ByteQueue

/-- No chunk of a queue is empty. What is in a filling chunk fits, and a sealed one is a window
inside its array, so sizes as words are sizes as numbers. -/
def Chunk.WellFormed : Chunk → Prop
  | .filling chunk => 0 < chunk.length ∧ chunk.length ≤ chunk.capacity.toNat
  | .sealed handle => 0 < handle.size.toNat ∧ handle.InBounds

namespace Block

theorem toNat_size {block : Block} (h : block.length < 2 ^ 64) :
    block.size.toNat = block.length :=
  Word.toNat_toUInt64 h

end Block

namespace Chunk

theorem WellFormed.toNat_size {chunk : Chunk} (h : chunk.WellFormed) :
    chunk.size.toNat = chunk.length := by
  cases chunk with
  | filling chunk =>
    have hc := chunk.capacity.toNat_lt
    exact Word.toNat_toUInt64 (by have := h.2; omega)
  | sealed handle => exact h.2.length_eq.symm

theorem WellFormed.length_pos {chunk : Chunk} (h : chunk.WellFormed) : 0 < chunk.length := by
  cases chunk with
  | filling chunk => exact h.1
  | sealed handle =>
    have hl : (sealed handle).length = handle.size.toNat := h.2.length_eq
    exact hl ▸ h.1

theorem WellFormed.length_lt {chunk : Chunk} (h : chunk.WellFormed) : chunk.length < 2 ^ 64 :=
  h.toNat_size ▸ chunk.size.toNat_lt

/-- How much is left of a chunk behind its first bytes. -/
theorem WellFormed.toNat_left {chunk : Chunk} (h : chunk.WellFormed) {offset : UInt64}
    (hOffset : offset.toNat ≤ chunk.length) :
    (chunk.size - offset).toNat = chunk.length - offset.toNat := by
  rw [Word.toNat_sub_of_le (by rw [h.toNat_size]; exact hOffset), h.toNat_size]

theorem toNat_spare {chunk : FillingChunk} (h : (filling chunk).WellFormed) :
    chunk.spare.toNat = chunk.capacity.toNat - chunk.length := by
  have hs : chunk.size.toNat = chunk.length := h.toNat_size
  rw [FillingChunk.spare, Word.toNat_sub_of_le (hs.symm ▸ h.2), hs]

/-- What is no larger than the room that is left fits behind the bytes of a chunk. -/
theorem fits_of_size_le_spare {chunk : FillingChunk} (h : (filling chunk).WellFormed)
    {data : Block} (hData : data.length < 2 ^ 64) (hRoom : data.size ≤ chunk.spare) :
    chunk.length + data.length ≤ chunk.capacity.toNat := by
  have hLe := UInt64.le_iff_toNat_le.mp hRoom
  have hCapacity := h.2
  rw [Block.toNat_size hData, toNat_spare h] at hLe
  omega

theorem wellFormed_ofBlock {id : ArrayId} {capacity : UInt64} {data : Block}
    (pos : 0 < data.length) (fits : data.length ≤ capacity.toNat) :
    (filling (.ofBlock id capacity data)).WellFormed :=
  ⟨pos, fits⟩

theorem wellFormed_append {chunk : FillingChunk} (h : (filling chunk).WellFormed) {data : Block}
    (fits : chunk.length + data.length ≤ chunk.capacity.toNat) :
    (filling (chunk.append data)).WellFormed := by
  have hl : (chunk.append data).length = data.length + chunk.length := rfl
  refine ⟨?_, ?_⟩
  · have := h.1
    omega
  · rw [hl, Nat.add_comm]
    exact fits

/-- Sealing a chunk changes neither its bytes nor its size. -/
theorem bytes_release {chunk : FillingChunk} (h : (filling chunk).WellFormed) :
    (sealed chunk.release).bytes = chunk.bytes := by
  have hs : chunk.size.toNat = chunk.bytes.length := by
    rw [chunk.length_bytes]
    exact h.toNat_size
  rw [bytes_sealed, Handle.bytes_eq]
  simp only [FillingChunk.release, Handle.adopt]
  rw [Bytes.window, hs, FillingChunk.bytes]
  simp only [UInt64.toNat_zero, List.drop_zero, List.take_length]

theorem wellFormed_release {chunk : FillingChunk} (h : (filling chunk).WellFormed) :
    (sealed chunk.release).WellFormed := by
  have hs : chunk.size.toNat = chunk.length := h.toNat_size
  have hb : chunk.block.length = chunk.length := by
    rw [← chunk.length_bytes, FillingChunk.bytes, Block.length_bytes]
  have hl : chunk.length < UInt64.size := h.length_lt
  refine ⟨?_, ?_, ?_⟩
  · exact hs.symm ▸ h.1
  · simp [FillingChunk.release, Handle.adopt, hs, hb]
  · simpa [FillingChunk.release, Handle.adopt, hs] using hl

theorem length_release {chunk : FillingChunk} (h : (filling chunk).WellFormed) :
    (sealed chunk.release).length = chunk.length := by
  rw [← length_bytes, bytes_release h, chunk.length_bytes]

/-- Any chunk gives up its bytes as a handle that shows them all. -/
theorem WellFormed.release {chunk : Chunk} (h : chunk.WellFormed) :
    (sealed chunk.release).WellFormed ∧ chunk.release.bytes = chunk.bytes := by
  cases chunk with
  | filling chunk => exact ⟨wellFormed_release h, bytes_release h⟩
  | sealed handle => exact ⟨h, rfl⟩

end Chunk

namespace Handle

theorem isEmpty_iff {handle : Handle} : handle.isEmpty = true ↔ handle.size = 0 := beq_iff_eq

theorem InBounds.bytes_eq_nil {handle : Handle} (hb : handle.InBounds) (h0 : handle.size = 0) :
    handle.bytes = [] := by
  rw [← List.length_eq_zero_iff, length_bytes, hb.length_eq, h0]
  rfl

/-- The check by a difference of words is one of an exact sum. -/
theorem out_of_range_iff (handle : Handle) (offset count : UInt64) :
    offset > handle.size ∨ count > handle.size - offset ↔
      handle.size.toNat < offset.toNat + count.toNat := by
  rw [gt_iff_lt, gt_iff_lt, UInt64.lt_iff_toNat_lt, UInt64.lt_iff_toNat_lt]
  by_cases hOffset : offset.toNat ≤ handle.size.toNat
  · rw [Word.toNat_sub_of_le hOffset]
    omega
  · exact ⟨fun _ => by omega, fun _ => .inl (by omega)⟩

theorem slice_eq_ok {handle : Handle} {offset count : UInt64}
    (h : offset.toNat + count.toNat ≤ handle.size.toNat) (hc : count ≠ 0) :
    handle.slice offset count = .ok ⟨handle.array, handle.start + offset, count⟩ := by
  rw [slice, if_neg (by rw [out_of_range_iff]; omega), if_neg hc]

/-- A slice that is not empty is a window inside the array that it was taken from. -/
theorem wellFormed_slice {handle : Handle} (hb : handle.InBounds) {offset count : UInt64}
    (h : offset.toNat + count.toNat ≤ handle.size.toNat) (hc : count ≠ 0) :
    (Chunk.sealed ⟨handle.array, handle.start + offset, count⟩).WellFormed := by
  refine ⟨Word.toNat_pos hc, ?_⟩
  unfold InBounds at hb ⊢
  cases ha : handle.array with
  | none =>
    simp only [ha] at hb
    have hp := Word.toNat_pos hc
    rw [hb] at h
    simp at h
    omega
  | some array =>
    simp only [ha, UInt64.size] at hb ⊢
    have hs : (handle.start + offset).toNat = handle.start.toNat + offset.toNat :=
      Word.toNat_add_of_lt (by omega)
    omega

/-- The part of a handle that begins at a multiple of the limit, which is a word. -/
theorem slice_piece (handle : Handle) {limit : UInt64} {position : Nat}
    (hBefore : position * limit.toNat < handle.size.toNat) (hLimit : 0 < limit.toNat) :
    ∃ offset count, offset.toNat = position * limit.toNat ∧
      count.toNat = min limit.toNat (handle.size.toNat - position * limit.toNat) ∧
      offset.toNat + count.toNat ≤ handle.size.toNat ∧ count ≠ 0 ∧
      (handle.slice (position.toUInt64 * limit)
        (min limit (handle.size - position.toUInt64 * limit))).toOption.getD .empty =
          ⟨handle.array, handle.start + offset, count⟩ := by
  have hSize := handle.size.toNat_lt
  have hOffset : (position.toUInt64 * limit).toNat = position * limit.toNat := by
    have hLe : position ≤ position * limit.toNat := Nat.le_mul_of_pos_right _ hLimit
    rw [UInt64.toNat_mul, Word.toNat_toUInt64 (by omega), Nat.mod_eq_of_lt (by omega)]
  have hRest : (handle.size - position.toUInt64 * limit).toNat =
      handle.size.toNat - position * limit.toNat := by
    rw [Word.toNat_sub_of_le (by omega), hOffset]
  have hCount : (min limit (handle.size - position.toUInt64 * limit)).toNat =
      min limit.toNat (handle.size.toNat - position * limit.toNat) := by
    rw [Word.toNat_min, hRest]
  have hFits : (position.toUInt64 * limit).toNat +
      (min limit (handle.size - position.toUInt64 * limit)).toNat ≤ handle.size.toNat := by
    omega
  have hNonzero : min limit (handle.size - position.toUInt64 * limit) ≠ 0 := by
    intro hn
    rw [hn, UInt64.toNat_zero] at hCount
    omega
  refine ⟨_, _, hOffset, hCount, hFits, hNonzero, ?_⟩
  rw [slice_eq_ok hFits hNonzero]
  rfl

/-- The number of parts is that of the multiples of the limit inside the window. -/
theorem lt_size_of_piece {handle : Handle} {limit : UInt64} {position : Nat}
    (hPosition : position < (handle.size.toNat + limit.toNat - 1) / limit.toNat)
    (hLimit : 0 < limit.toNat) : position * limit.toNat < handle.size.toNat := by
  have := (Nat.le_div_iff_mul_le hLimit).mp hPosition
  rw [Nat.succ_mul] at this
  omega

/-- The multiples of the limit for which there are parts cover the window. -/
theorem size_le_mul_pieces (handle : Handle) {limit : UInt64} (hPos : 0 < limit.toNat) :
    handle.size.toNat ≤ (handle.size.toNat + limit.toNat - 1) / limit.toNat * limit.toNat := by
  have hDiv := Nat.div_add_mod (handle.size.toNat + limit.toNat - 1) limit.toNat
  have hMod := Nat.mod_lt (handle.size.toNat + limit.toNat - 1) hPos
  rw [Nat.mul_comm] at hDiv
  omega

theorem wellFormed_of_mem_pieces {handle part : Handle} (hb : handle.InBounds) {limit : UInt64}
    (hLimit : limit ≠ 0) (h : part ∈ handle.pieces limit) : (Chunk.sealed part).WellFormed := by
  have hPos := Word.toNat_pos hLimit
  obtain ⟨position, hRange, hPart⟩ := List.mem_map.mp h
  obtain ⟨offset, count, _, _, hFits, hNonzero, hPiece⟩ :=
    handle.slice_piece (lt_size_of_piece (List.mem_range.mp hRange) hPos) hPos
  rw [← hPart, hPiece]
  exact wellFormed_slice hb hFits hNonzero

end Handle

end ByteQueue
