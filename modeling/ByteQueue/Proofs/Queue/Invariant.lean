import ByteQueue.Proofs.Chunk
import ByteQueue.Queue.Basic

/-! What holds of a queue between any two operations. The counts that a queue keeps beside its
chunks are words; here they are tied to the bytes themselves, so that they never wrap around. -/
namespace ByteQueue.Queue

/-- The cursor stands before the last byte of the head chunk, and at 0 if there is none. -/
def Cursor (offset : UInt64) : List Chunk → Prop
  | [] => offset = 0
  | head :: _ => offset.toNat < head.length

/-- What adding and removing bytes keeps, whatever may be confirmed as written. -/
structure Consistent (queue : Queue) : Prop where
  valid : queue.settings.Valid
  chunks_wellFormed : ∀ chunk ∈ queue.chunks, chunk.WellFormed
  cursor : Cursor queue.headOffset queue.chunks
  size_eq : queue.size.toNat = queue.content.length

/-- A consistent queue of which no more may be confirmed than it holds. -/
structure WellFormed (queue : Queue) : Prop extends Consistent queue where
  projected_le : queue.projected ≤ queue.size

/-- Sizes of chunks add up to the number of their bytes. -/
theorem sum_toNat_size {chunks : List Chunk} (h : ∀ chunk ∈ chunks, chunk.WellFormed) :
    sumOf (fun chunk => chunk.size.toNat) chunks = (chunks.flatMap Chunk.bytes).length := by
  induction chunks with
  | nil => rfl
  | cons head rest ih =>
    have hHead := (h head List.mem_cons_self).toNat_size
    have hRest := ih fun chunk hm => h chunk (List.mem_cons_of_mem _ hm)
    rw [sumOf_cons, hHead, hRest, List.flatMap_cons, List.length_append, Chunk.length_bytes]

theorem Cursor.le {offset : UInt64} {chunks : List Chunk} (h : Cursor offset chunks) :
    offset.toNat ≤ (chunks.flatMap Chunk.bytes).length := by
  cases chunks with
  | nil => rw [show offset = 0 from h]; exact Nat.zero_le _
  | cons head rest =>
    have hlt : offset.toNat < head.length := h
    simp only [List.flatMap_cons, List.length_append, Chunk.length_bytes]
    omega

/-- Chunks behind the others leave the cursor where it is. -/
theorem Cursor.append {offset : UInt64} {chunks added : List Chunk} (h : Cursor offset chunks)
    (hAdded : ∀ chunk ∈ added, chunk.WellFormed) : Cursor offset (chunks ++ added) := by
  cases chunks with
  | cons head rest => exact h
  | nil =>
    have h0 : offset = 0 := h
    cases added with
    | nil => exact h
    | cons head rest =>
      have hp := (hAdded head List.mem_cons_self).length_pos
      show offset.toNat < head.length
      rw [h0]
      exact hp

theorem Cursor.setLast {offset : UInt64} {earlier : List Chunk} {last replacing : Chunk}
    (h : Cursor offset (earlier ++ [last])) (hLength : last.length ≤ replacing.length) :
    Cursor offset (earlier ++ [replacing]) := by
  cases earlier with
  | nil => exact Nat.lt_of_lt_of_le h hLength
  | cons head rest => exact h

/-- What is left of a chunk is a window that ends with the chunk. -/
theorem window_left {chunk : Chunk} {offset count : UInt64}
    (hCount : count.toNat = chunk.length - offset.toNat) :
    chunk.window offset.toNat count.toNat = remainder offset chunk := by
  apply Block.bytes_inj.mp
  rw [Chunk.bytes_window, bytes_remainder, Bytes.window, hCount]
  exact List.take_of_length_le (by simp)

/-- What is left of some chunks is what their bytes are behind the cursor. -/
theorem Cursor.flatMap_remainders {offset : UInt64} {chunks : List Chunk}
    (h : Cursor offset chunks) :
    (remainders offset chunks).flatMap Block.bytes =
      (chunks.flatMap Chunk.bytes).drop offset.toNat := by
  cases chunks with
  | nil => simp [remainders]
  | cons head rest =>
    have hlt : offset.toNat < head.length := h
    have hle : offset.toNat ≤ head.bytes.length := by
      rw [Chunk.length_bytes]
      omega
    rw [List.flatMap_cons, List.drop_append_of_le_length hle, remainders, List.flatMap_cons,
      bytes_remainder, List.flatMap_map]
    rfl

/-- Each chunk has bytes that are not consumed: a chunk that has none left is retired at once. -/
theorem Cursor.ne_nil_of_mem_remainders {offset : UInt64} {chunks : List Chunk}
    (h : Cursor offset chunks) (hChunks : ∀ chunk ∈ chunks, chunk.WellFormed) {left : Block}
    (hm : left ∈ remainders offset chunks) : left.bytes ≠ [] := by
  cases chunks with
  | nil => cases hm
  | cons head rest =>
    have hOffset : offset.toNat < head.length := h
    rcases List.mem_cons.mp hm with rfl | hm
    · rw [bytes_remainder, ← List.length_pos_iff, List.length_drop, Chunk.length_bytes]
      omega
    · obtain ⟨chunk, hChunk, rfl⟩ := List.mem_map.mp hm
      have hPos := (hChunks chunk (List.mem_cons_of_mem _ hChunk)).length_pos
      rw [← Chunk.length_bytes] at hPos
      exact List.length_pos_iff.mp hPos

namespace Consistent

variable {queue : Queue}

theorem headOffset_le (h : queue.Consistent) : queue.headOffset.toNat ≤ queue.stored.length :=
  h.cursor.le

theorem length_content (h : queue.Consistent) :
    queue.content.length + queue.headOffset.toNat = queue.stored.length := by
  have hle := h.headOffset_le
  rw [content, List.length_drop]
  omega

theorem length_content_lt (h : queue.Consistent) : queue.content.length < 2 ^ 64 :=
  h.size_eq ▸ queue.size.toNat_lt

theorem size_eq_size (h : queue.Consistent) : queue.size = queue.content.size := by
  apply UInt64.toNat_inj.mp
  rw [h.size_eq, Bytes.size, Word.toNat_toUInt64 h.length_content_lt]

/-- The content is what is left of each chunk. -/
theorem content_eq (h : queue.Consistent) :
    queue.content = (remainders queue.headOffset queue.chunks).flatMap Block.bytes := by
  rw [h.cursor.flatMap_remainders]
  rfl

/-- A queue without bytes has no chunks, since each would hold some. -/
theorem chunks_eq_nil (h : queue.Consistent) (hn : queue.content = []) : queue.chunks = [] := by
  have hc := h.cursor
  cases hq : queue.chunks with
  | nil => rfl
  | cons head rest =>
    rw [hq] at hc
    have hlt : queue.headOffset.toNat < head.length := hc
    have hl := h.length_content
    rw [stored, hq, hn] at hl
    simp only [List.flatMap_cons, List.length_append, Chunk.length_bytes, List.length_nil] at hl
    omega

end Consistent

theorem wellFormed_clear {queue : Queue} (valid : queue.settings.Valid) :
    queue.clear.WellFormed where
  valid := valid
  chunks_wellFormed := by simp [clear, chunks]
  cursor := rfl
  size_eq := rfl
  projected_le := UInt64.le_refl _

theorem wellFormed_fresh (logger : Option Log.Config) (owner : Nat) {settings : Settings}
    (valid : settings.Valid) :
    (fresh logger owner settings).WellFormed :=
  @wellFormed_clear (fresh logger owner settings) valid

end ByteQueue.Queue
