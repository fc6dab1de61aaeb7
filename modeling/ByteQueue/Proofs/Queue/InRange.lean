import ByteQueue.Proofs.Queue.Guarded
import ByteQueue.Proofs.Queue.Reference

/-! No operation on a queue leaves its range. From the invariant follows that each guarded operation
ends without a fault, and with the result of the operation that has no guards. -/
namespace ByteQueue

/-- A window that begins in the first part goes on at the start of the second one. -/
theorem Bytes.window_append {first : Bytes} {start : Nat} (h : start ≤ first.length)
    (rest : Bytes) (count : Nat) :
    Bytes.window (first ++ rest) start count =
      first.window start (min count (first.length - start)) ++
        rest.window 0 (count - (first.length - start)) := by
  have hDrop : (first.drop start).length = first.length - start := List.length_drop
  rw [window, window, window, List.drop_append_of_le_length h, List.take_append, List.drop_zero,
    ← hDrop, ← List.take_eq_take_min]

namespace Guarded

open Queue

theorem sub_eq {a b : UInt64} (h : b.toNat ≤ a.toNat) : sub a b = .ok (a - b) :=
  if_pos (UInt64.le_iff_toNat_le.mpr h)

@[simp] theorem ok_bind {α β : Type} (value : α) (next : α → Guarded β) :
    ((Except.ok value : Guarded α) >>= next) = next value := rfl

theorem loop_succ {σ α : Type} (next : σ → Guarded (σ ⊕ α)) (turns : Nat) (state : σ) :
    loop next (turns + 1) state = next state >>= fun
      | .inl state => loop next turns state
      | .inr result => .ok result := rfl

/-! Chunks and handles. -/

theorem spare_eq {chunk : FillingChunk} (h : chunk.length ≤ chunk.capacity.toNat) :
    spare chunk = .ok chunk.spare ∧
      chunk.spare.toNat = chunk.capacity.toNat - chunk.length := by
  have hSize : chunk.size.toNat = chunk.length :=
    Word.toNat_toUInt64 (Nat.lt_of_le_of_lt h chunk.capacity.toNat_lt)
  refine ⟨sub_eq (hSize ▸ h), ?_⟩
  rw [FillingChunk.spare, Word.toNat_sub_of_le (hSize ▸ h), hSize]

theorem fill_eq {chunk : FillingChunk} {data : Block}
    (h : chunk.length + data.length ≤ chunk.capacity.toNat) :
    fill chunk data = .ok (chunk.append data) := by
  obtain ⟨hSpare, hLeft⟩ := spare_eq (show chunk.length ≤ chunk.capacity.toNat by omega)
  rw [fill, hSpare, ok_bind, if_pos (by omega)]
  rfl

theorem sealedChunk_eq {handle : Handle} (h : handle.size ≠ 0) :
    sealedChunk handle = .ok (.sealed handle) :=
  if_neg (mt Handle.isEmpty_iff.mp h)

theorem slice_eq {handle : Handle} {offset count : UInt64}
    (h : offset.toNat + count.toNat ≤ handle.size.toNat) (h0 : count ≠ 0) :
    slice handle offset count = .ok ⟨handle.array, handle.start + offset, count⟩ := by
  rw [slice, Handle.slice_eq_ok h h0]

theorem head_eq {store : ChunkStore} {first : Chunk} {rest : List Chunk}
    (h : store.toList = first :: rest) : head store = .ok first := by
  rw [head, ChunkStore.head?_eq, h, List.head?_cons]

/-! Adding bytes. -/

theorem coalesce?_eq {queue : Queue} (h : queue.Consistent) {data : Block}
    (hData : data.length < 2 ^ 64) :
    coalesce? queue data = .ok ((queue.coalesce? data).map Logged.value) := by
  rw [coalesce?, Queue.coalesce?]
  rcases hLast : queue.store.last? with _ | tail | handle
  · rfl
  · have hTail := h.tail_wellFormed hLast
    obtain ⟨hSpare, hLeft⟩ := spare_eq hTail.2
    dsimp only
    rw [hSpare, ok_bind]
    split
    · rfl
    · next hRoom =>
      have hFits := Chunk.fits_of_size_le_spare hTail hData (UInt64.not_lt.mp hRoom)
      rw [fill_eq hFits, ok_bind, (spare_eq (Chunk.wellFormed_append hTail hFits).2).1]
      rfl
  · rfl

theorem pushCopy_eq (queue : Queue) {piece : Block} (h : piece.length < 2 ^ 64) :
    pushCopy queue piece = .ok (queue.pushCopy piece).value := by
  have hRoom := UInt64.le_iff_toNat_le.mp (queue.le_capacityFor piece.size)
  rw [Block.toNat_size h] at hRoom
  rw [pushCopy, fill_eq (by rw [vacant, Nat.zero_add]; exact hRoom)]
  rfl

theorem toNat_piece (limit left : UInt64) :
    (if limit = 0 then left else min left limit).toNat =
      if limit.toNat = 0 then left.toNat else min left.toNat limit.toNat := by
  by_cases hLimit : limit = 0
  · rw [if_pos hLimit, if_pos (by rw [hLimit]; rfl)]
  · rw [if_neg hLimit, if_neg (Word.toNat_pos hLimit).ne', Word.toNat_min]

/-- A turn copies the first of the pieces of what is left. -/
theorem copyNext_eq (limit : UInt64) {data : Block} (hData : data.length < 2 ^ 64) (queue : Queue)
    {start : Nat} {left : UInt64} (hLeft : start + left.toNat = data.length) (h0 : left ≠ 0) :
    ∃ piece count, Bytes.pieces limit.toNat (data.bytes.drop start) =
        piece :: Bytes.pieces limit.toNat (data.bytes.drop (start + count.toNat)) ∧
      copyNext limit data (queue, start, left) =
        .ok (.inl ((queue.pushCopy (.ofBytes piece)).value, start + count.toNat, left - count)) ∧
      0 < count.toNat ∧ count.toNat ≤ left.toNat := by
  have hPos := Word.toNat_pos h0
  have hLength : (data.bytes.drop start).length = left.toNat := by
    rw [List.length_drop, Block.length_bytes]
    omega
  have hSome : data.bytes.drop start ≠ [] := List.ne_nil_of_length_pos (hLength ▸ hPos)
  have hCount := toNat_piece limit left
  rw [copyNext, if_neg h0]
  generalize (if limit = 0 then left else min left limit) = count at *
  have hBounds : 0 < count.toNat ∧ count.toNat ≤ left.toNat := by
    rw [hCount]
    split <;> omega
  have hPiece : data.window start count.toNat =
      Block.ofBytes ((data.bytes.drop start).take count.toNat) :=
    Block.bytes_inj.mp (by rw [Block.bytes_window, Block.bytes_ofBytes, Bytes.window])
  have hShort : (data.window start count.toNat).length < 2 ^ 64 := by
    rw [← Block.length_bytes, Block.bytes_window, Bytes.length_window, Block.length_bytes]
    omega
  have hCopy := pushCopy_eq queue hShort
  rw [hPiece] at hCopy
  refine ⟨(data.bytes.drop start).take count.toNat, count, ?_, ?_, hBounds⟩
  · rw [Bytes.pieces_of_ne_nil hSome, hLength, ← hCount, List.drop_drop]
  · simp only [hPiece, hCopy, sub_eq hBounds.2, ok_bind]
    rfl

/-- The turns of the loop copy the pieces of what is left, one by one. The induction is on the
turns, of which there are more than bytes. -/
theorem loop_copyNext (limit : UInt64) {data : Block} (hData : data.length < 2 ^ 64)
    (turns : Nat) (queue : Queue) (start : Nat) (left : UInt64)
    (hLeft : start + left.toNat = data.length) (hTurns : left.toNat < turns) :
    loop (copyNext limit data) turns (queue, start, left) =
      .ok (((Bytes.pieces limit.toNat (data.bytes.drop start)).map Block.ofBytes).foldl
        (fun queue piece => (queue.pushCopy piece).value) queue) := by
  induction turns generalizing queue start left with
  | zero => exact absurd hTurns (Nat.not_lt_zero _)
  | succ turns ih =>
    rw [loop_succ]
    by_cases h0 : left = 0
    · have hEnd : data.bytes.length ≤ start := by
        rw [Block.length_bytes, ← hLeft, h0]
        exact Nat.le_refl _
      rw [copyNext, if_pos h0, List.drop_of_length_le hEnd, Bytes.pieces]
      rfl
    · obtain ⟨piece, count, hPieces, hTurn, hPos, hLe⟩ := copyNext_eq limit hData queue hLeft h0
      have hLess := Word.toNat_sub_of_le hLe
      rw [hTurn, ok_bind, hPieces, List.map_cons, List.foldl_cons]
      exact ih _ _ _ (by omega) (by omega)

theorem pushCopies_eq (queue : Queue) {data : Block} (h : data.length < 2 ^ 64) :
    pushCopies queue data = .ok (queue.pushCopies data).value := by
  have hSize := Block.toNat_size h
  rw [pushCopies, loop_copyNext _ h _ _ _ _ (by omega) (by omega), Queue.pushCopies,
    Logged.fold_eq, value_foldlM, Block.pieces_eq, List.drop_zero]

theorem append_eq {queue : Queue} (h : queue.Consistent) {data : Block}
    (hData : data.length < 2 ^ 64) : append queue data = .ok (queue.append data).value := by
  unfold append Queue.append
  split
  · rfl
  · rw [coalesce?_eq h hData, ok_bind, Queue.copyIn]
    cases queue.coalesce? data with
    | some coalesced => rfl
    | none => exact pushCopies_eq queue hData

/-- The queue stays consistent from piece to piece, since its bytes can still be counted. -/
theorem appendAll_eq {queue : Queue} (h : queue.Consistent) {pieces : List Block}
    (hBound : queue.content.length + (pieces.flatMap Block.bytes).length < 2 ^ 64) :
    appendAll queue pieces = .ok (queue.appendAll pieces).value := by
  rw [appendAll, Queue.appendAll, Logged.fold_eq, value_foldlM]
  induction pieces generalizing queue with
  | nil => rfl
  | cons first rest ih =>
    rw [List.flatMap_cons] at hBound
    obtain ⟨hFirst, hRest⟩ := (grows_append queue first).next h hBound
    rw [List.length_append, Block.length_bytes] at hBound
    rw [List.foldlM_cons, append_eq h (by omega), ok_bind, List.foldl_cons,
      ih hFirst (by rw [List.length_append, Block.length_bytes] at hRest; omega)]

theorem pushHandle_eq (queue : Queue) {handle : Handle} (h0 : handle.size ≠ 0) :
    pushHandle queue handle = .ok (queue.pushHandle handle) := by
  rw [pushHandle, sealedChunk_eq h0]
  rfl

/-- A turn refers to the part of a handle that begins after as many limits as parts were made. -/
theorem referNext_eq {handle : Handle} {limit : UInt64} (hPos : 0 < limit.toNat) {position : Nat}
    (hBefore : position * limit.toNat < handle.size.toNat) (queue : Queue) {offset : UInt64}
    (hOffset : offset.toNat = position * limit.toNat) :
    ∃ part next, (handle.slice (position.toUInt64 * limit)
        (min limit (handle.size - position.toUInt64 * limit))).toOption.getD .empty = part ∧
      referNext limit handle (queue, offset) = .ok (.inl (queue.pushHandle part, next)) ∧
      next.toNat = min ((position + 1) * limit.toNat) handle.size.toNat := by
  obtain ⟨start, size, hStart, hSize, hFits, h0, hPiece⟩ := handle.slice_piece hBefore hPos
  have hSame : start = offset := UInt64.toNat_inj.mp (by omega)
  subst hSame
  have hLeft : (handle.size - start).toNat = handle.size.toNat - start.toNat :=
    Word.toNat_sub_of_le (by omega)
  have hLength : min (handle.size - start) limit = size :=
    UInt64.toNat_inj.mp (by rw [Word.toNat_min, hLeft]; omega)
  have hMore : start ≠ handle.size := fun hn => by
    rw [← hn] at hBefore
    omega
  have hPush : pushHandle queue ⟨handle.array, handle.start + start, size⟩ = _ :=
    pushHandle_eq queue h0
  refine ⟨_, start + size, hPiece, ?_, ?_⟩
  · rw [referNext, if_neg hMore, sub_eq (by omega)]
    simp only [ok_bind, hLength, slice_eq hFits h0, hPush]
    rfl
  · rw [Word.toNat_add_of_lt (by have := handle.size.toNat_lt; omega), Nat.succ_mul]
    omega

/-- The turns of the loop refer to the parts of a handle from a position on. The induction is on
the number of these parts. -/
theorem loop_referNext {handle : Handle} {limit : UInt64} (hPos : 0 < limit.toNat)
    (count position turns : Nat) (queue : Queue) (offset : UInt64)
    (hNumber : (handle.size.toNat + limit.toNat - 1) / limit.toNat = position + count)
    (hAll : handle.size.toNat ≤ (position + count) * limit.toNat)
    (hOffset : offset.toNat = min (position * limit.toNat) handle.size.toNat)
    (hTurns : count < turns) :
    loop (referNext limit handle) turns (queue, offset) =
      .ok (((List.range' position count).map fun position =>
        (handle.slice (position.toUInt64 * limit)
          (min limit (handle.size - position.toUInt64 * limit))).toOption.getD .empty).foldl
            Queue.pushHandle queue) := by
  induction count generalizing position turns queue offset with
  | zero =>
    obtain ⟨turns, rfl⟩ := Nat.exists_eq_succ_of_ne_zero (show turns ≠ 0 by omega)
    have hEnd : offset = handle.size :=
      UInt64.toNat_inj.mp (by rw [hOffset]; exact Nat.min_eq_right hAll)
    rw [loop_succ, referNext, if_pos hEnd]
    rfl
  | succ count ih =>
    obtain ⟨turns, rfl⟩ := Nat.exists_eq_succ_of_ne_zero (show turns ≠ 0 by omega)
    have hBefore : position * limit.toNat < handle.size.toNat :=
      Handle.lt_size_of_piece (by omega) hPos
    obtain ⟨part, next, hPart, hTurn, hNext⟩ :=
      referNext_eq hPos hBefore queue (hOffset.trans (Nat.min_eq_left hBefore.le))
    have hShift : position + (count + 1) = position + 1 + count := by omega
    rw [hShift] at hNumber hAll
    rw [loop_succ, hTurn, ok_bind, List.range'_succ, List.map_cons, List.foldl_cons, hPart]
    exact ih (position + 1) turns _ _ hNumber hAll hNext (by omega)

theorem pushReference_eq (queue : Queue) {handle : Handle} (h0 : handle.size ≠ 0) :
    pushReference queue handle = .ok (queue.pushReference handle).value := by
  rw [pushReference, value_pushReference]
  split
  · exact pushHandle_eq queue h0
  · next h =>
    have hPos := Word.toNat_pos fun hn => h (.inl hn)
    generalize queue.sizing.greatest = limit at hPos
    generalize hNumber : (handle.size.toNat + limit.toNat - 1) / limit.toNat = number
    have hAll : handle.size.toNat ≤ number * limit.toNat :=
      hNumber ▸ Handle.size_le_mul_pieces handle hPos
    have hTurns : number < handle.size.toNat + 1 := by
      rw [← hNumber, Nat.div_lt_iff_lt_mul hPos, Nat.succ_mul]
      have := Nat.le_mul_of_pos_right handle.size.toNat hPos
      omega
    rw [loop_referNext hPos number 0 _ queue 0 (by rw [hNumber, Nat.zero_add])
      (by rwa [Nat.zero_add]) (by simp) hTurns, Handle.pieces, hNumber, List.range_eq_range']

theorem absorb_eq {queue : Queue} (h : queue.Consistent) {handle : Handle}
    (hb : handle.InBounds) : absorb queue handle = .ok (queue.absorb handle).value := by
  have hShort : handle.block.length < 2 ^ 64 := Handle.length_block hb ▸ handle.size.toNat_lt
  unfold absorb Queue.absorb
  split
  · rfl
  · next h0 =>
    have hReferred := pushReference_eq queue (mt Handle.isEmpty_iff.mpr h0)
    split
    · rw [coalesce?_eq h hShort, ok_bind]
      cases queue.coalesce? handle.block with
      | some coalesced => rfl
      | none => exact hReferred
    · exact hReferred

theorem sealTail_eq {queue : Queue} (h : queue.Consistent) :
    sealTail queue = .ok queue.sealTail.value := by
  rw [sealTail, Queue.sealTail]
  rcases hLast : queue.store.last? with _ | tail | handle
  · rfl
  · have hTail := Chunk.wellFormed_release (h.tail_wellFormed hLast)
    have hSize : tail.release.size ≠ 0 := by
      intro hn
      have := hTail.1
      rw [hn] at this
      exact Nat.lt_irrefl 0 this
    dsimp only
    rw [sealedChunk_eq hSize]
    rfl
  · rfl

/-! Showing bytes. -/

theorem left_eq {chunk : Chunk} (h : chunk.WellFormed) {offset : UInt64}
    (hOffset : offset.toNat < chunk.length) :
    sub chunk.size offset = .ok (chunk.size - offset) ∧
      (chunk.size - offset).toNat = chunk.length - offset.toNat := by
  have hLe : offset.toNat ≤ chunk.size.toNat := by
    rw [h.toNat_size]
    exact hOffset.le
  exact ⟨sub_eq hLe, h.toNat_left hOffset.le⟩

theorem front_eq {queue : Queue} (h : queue.Consistent) : front queue = .ok queue.front := by
  rw [front, Queue.front, ChunkStore.head?_eq]
  have hCursor := h.cursor
  have hChunks := h.chunks_wellFormed
  rw [chunks] at hCursor hChunks
  cases hStore : queue.store.toList with
  | nil => rfl
  | cons head rest =>
    rw [hStore] at hCursor hChunks
    obtain ⟨hSub, hCount⟩ := left_eq (hChunks head List.mem_cons_self) hCursor
    dsimp only [List.head?_cons]
    rw [hSub, ok_bind, window_left hCount]
    rfl

/-- Behind the head chunk all of each chunk is shown. -/
theorem expose_zero {chunks : List Chunk} (h : ∀ chunk ∈ chunks, chunk.WellFormed) (limit : Nat) :
    expose limit chunks 0 =
      .ok ((chunks.take limit).map Chunk.block, wordSum Chunk.size (chunks.take limit)) := by
  induction chunks generalizing limit with
  | nil => cases limit <;> rfl
  | cons first rest ih =>
    cases limit with
    | zero => rfl
    | succ limit =>
      have hFirst := h first List.mem_cons_self
      have hRest := ih (fun chunk hm => h chunk (List.mem_cons_of_mem _ hm)) limit
      have hPos : (0 : UInt64).toNat < first.length := hFirst.length_pos
      obtain ⟨hSub, hCount⟩ := left_eq hFirst hPos
      have hAll : remainder 0 first = first.block :=
        Block.bytes_inj.mp (by rw [bytes_remainder]; rfl)
      rw [expose, hSub, ok_bind, hRest, ok_bind, window_left hCount, hAll, UInt64.sub_zero]
      rfl

/-- What is shown, and how much that is told to be, is as for the projection. -/
theorem expose_eq {store : ChunkStore} (h : ∀ chunk ∈ store.toList, chunk.WellFormed)
    {offset : UInt64} (hCursor : Cursor offset store.toList) (limit : Nat) :
    expose limit store.toList offset =
      .ok (Projection.slices ⟨store, offset, limit⟩,
        Projection.exposed ⟨store, offset, limit⟩) := by
  rw [Projection.slices, ChunkStore.take_eq]
  cases limit with
  | zero =>
    have hNone : Projection.count ⟨store, offset, 0⟩ = 0 := Nat.zero_min _
    rw [Projection.exposed, if_pos hNone]
    rfl
  | succ limit =>
    cases hStore : store.toList with
    | nil =>
      have hLength : store.length = 0 := by rw [← store.length_toList, hStore]; rfl
      have hNone : Projection.count ⟨store, offset, limit + 1⟩ = 0 := by
        rw [Projection.count, hLength, Nat.min_zero]
      rw [Projection.exposed, if_pos hNone]
      rfl
    | cons head rest =>
      rw [hStore] at h hCursor
      have hRest := expose_zero (fun chunk hm => h chunk (List.mem_cons_of_mem _ hm)) limit
      obtain ⟨hSub, hCount⟩ := left_eq (h head List.mem_cons_self) hCursor
      have hExposed : Projection.exposed ⟨store, offset, limit + 1⟩ = _ :=
        Projection.exposed_eq hStore rfl
      rw [expose, hSub, ok_bind, hRest, ok_bind, window_left hCount, hExposed]
      rfl

theorem project_eq {queue : Queue} (h : queue.Consistent) (limit : UInt64) :
    project queue limit =
      .ok ((queue.project limit).value.1, .shown (queue.project limit).value.1.projected
        (queue.project limit).value.2.slices) := by
  have hExpose : expose (queue.sliceLimit limit) queue.store.toList queue.headOffset = _ :=
    expose_eq h.chunks_wellFormed h.cursor (queue.sliceLimit limit)
  rw [project, chunks, hExpose]
  rfl

/-! Removing bytes. -/

/-- A turn without guards that goes on consumes all that is left of the head chunk. -/
theorem value_retireHead_inl {logger : Option Log.Config} {store : ChunkStore} {first : Chunk}
    {rest : List Chunk} (h : store.toList = first :: rest) {offset count : UInt64}
    {state : ChunkStore × UInt64 × UInt64}
    (hTurn : (retireHead logger (store, offset, count)).value = .inl state) :
    state = (store.tail, 0, count - (first.size - offset)) ∧ first.size - offset ≤ count := by
  rw [retireHead, ChunkStore.head?_eq, h, List.head?_cons] at hTurn
  dsimp only at hTurn
  split at hTurn
  · cases hTurn
  · split at hTurn
    · cases hTurn
    · next hAll =>
      cases hTurn
      exact ⟨rfl, UInt64.not_lt.mp hAll⟩

/-- While there is a head chunk with bytes left, a turn is one without guards. -/
theorem retireNext_eq (logger : Option Log.Config) {store : ChunkStore} {first : Chunk}
    {rest : List Chunk} (h : store.toList = first :: rest) (hFirst : first.WellFormed)
    {offset : UInt64} (hOffset : offset.toNat < first.length) (count : UInt64) :
    retireNext (store, offset, count) = .ok (retireHead logger (store, offset, count)).value := by
  rw [retireNext, retireHead, ChunkStore.head?_eq, h, List.head?_cons, head_eq h]
  simp only [ok_bind, (left_eq hFirst hOffset).1]
  by_cases h0 : count = 0
  · rw [if_pos h0, if_pos h0]
    rfl
  · rw [if_neg h0, if_neg h0]
    by_cases hInside : count < first.size - offset
    · rw [if_pos hInside, if_pos hInside]
      rfl
    · rw [if_neg hInside, if_neg hInside,
        sub_eq (UInt64.le_iff_toNat_le.mp (UInt64.not_lt.mp hInside))]
      rfl

/-- The turns of the loop retire chunk by chunk, like the loop without guards. The induction is on
the number of chunks; as long as bytes are to be consumed there is a head chunk. -/
theorem loop_retireNext (logger : Option Log.Config) {store : ChunkStore} {offset count : UInt64}
    {turns : Nat} (hChunks : ∀ chunk ∈ store.toList, chunk.WellFormed)
    (hCursor : Cursor offset store.toList)
    (hCount : offset.toNat + count.toNat ≤ (store.toList.flatMap Chunk.bytes).length)
    (hTurns : store.length < turns) :
    loop retireNext turns (store, offset, count) =
      .ok (retireFrom logger store offset count).value := by
  unfold retireFrom
  generalize hLength : store.length = length at hTurns
  induction length generalizing store offset count turns with
  | zero =>
    obtain ⟨turns, rfl⟩ := Nat.exists_eq_succ_of_ne_zero (show turns ≠ 0 by omega)
    have hNil := List.length_eq_zero_iff.mp (store.length_toList.trans hLength)
    rw [hNil] at hCount
    have h0 : count = 0 := UInt64.toNat_inj.mp (Nat.eq_zero_of_add_eq_zero_left
      (Nat.le_zero.mp hCount))
    rw [loop_succ, retireNext, if_pos h0]
    rfl
  | succ length ih =>
    obtain ⟨turns, rfl⟩ := Nat.exists_eq_succ_of_ne_zero (show turns ≠ 0 by omega)
    obtain ⟨first, rest, hStore⟩ :=
      List.exists_cons_of_length_eq_add_one (store.length_toList.trans hLength)
    have hTail : store.tail.toList = rest := by rw [ChunkStore.toList_tail, hStore, List.tail_cons]
    have hTailLength : store.tail.length = length := by
      rw [ChunkStore.length_tail, hLength, Nat.add_sub_cancel]
    rw [hStore] at hChunks hCursor hCount
    obtain ⟨hFirst, hRest⟩ := List.forall_mem_cons.mp hChunks
    have hOffset : offset.toNat < first.length := hCursor
    have hLeft := hFirst.toNat_left hOffset.le
    rw [List.flatMap_cons, List.length_append, Chunk.length_bytes] at hCount
    rw [loop_succ, retireNext_eq logger hStore hFirst hOffset, ok_bind, Logged.value_iterate_succ]
    cases hTurn : (retireHead logger (store, offset, count)).value with
    | inr result => rfl
    | inl state =>
      obtain ⟨rfl, hLess⟩ := value_retireHead_inl hStore hTurn
      have hDifference := Word.toNat_sub_of_le (UInt64.le_iff_toNat_le.mp hLess)
      have hBehind : (0 : UInt64).toNat + (count - (first.size - offset)).toNat ≤
          (store.tail.toList.flatMap Chunk.bytes).length := by
        rw [hTail, hDifference, hLeft, UInt64.toNat_zero]
        omega
      exact ih (hTail ▸ hRest) (hTail ▸ Cursor.zero hRest) hBehind hTailLength (by omega)

theorem consume_eq {queue : Queue} (h : queue.Consistent) {count : UInt64}
    (hCount : count.toNat ≤ queue.content.length) :
    consume queue count = .ok (queue.consume count).value := by
  have hLength := h.length_content
  have hStored : queue.headOffset.toNat + count.toNat ≤
      (queue.store.toList.flatMap Chunk.bytes).length := by
    show _ ≤ queue.stored.length
    omega
  have hLoop :=
    loop_retireNext queue.logger h.chunks_wellFormed h.cursor hStored (Nat.lt_succ_self _)
  have hSize : count.toNat ≤ queue.size.toNat := h.size_eq ▸ hCount
  rw [consume, sub_eq hSize, ok_bind, chunkCount, hLoop]
  rfl

/-- Not every queue is consumed without a fault: this one counts a byte that it does not have. -/
example : consume { fresh none 0 {} with size := 1 } 1 = .error .noHead := rfl

theorem confirm_eq {queue : Queue} (h : queue.WellFormed) (count : UInt64) :
    confirm queue count = .ok (queue.apply (.confirm count), queue.outcome (.confirm count)) := by
  rw [confirm, Queue.apply, Queue.outcome, value_confirm]
  by_cases hRefused : queue.projected < count
  · rw [if_pos hRefused, if_pos hRefused]
    rfl
  · have hLe := UInt64.le_iff_toNat_le.mp (UInt64.not_lt.mp hRefused)
    have hProjected := UInt64.le_iff_toNat_le.mp h.projected_le
    have hSize := h.size_eq
    rw [if_neg hRefused, if_neg hRefused, consume_eq h.toConsistent (by omega), ok_bind,
      sub_eq hLe]
    rfl

/-- The copies of all parts together are the bytes that are wanted, and they are complete before
the chunks end. -/
theorem gather_eq {chunks : List Chunk} (h : ∀ chunk ∈ chunks, chunk.WellFormed)
    {offset count copied : UInt64} (hCursor : Cursor offset chunks)
    (hCopied : copied.toNat ≤ count.toNat)
    (hCount : offset.toNat + (count.toNat - copied.toNat) ≤
      (chunks.flatMap Chunk.bytes).length) :
    ∃ parts, gather chunks offset count copied = .ok parts ∧
      parts.flatMap Block.bytes = Bytes.window (chunks.flatMap Chunk.bytes) offset.toNat
        (count.toNat - copied.toNat) := by
  induction chunks generalizing offset copied with
  | nil =>
    have hEnd : copied = count := by
      rw [List.flatMap_nil, List.length_nil] at hCount
      exact UInt64.toNat_inj.mp (by omega)
    exact ⟨[], by rw [gather, if_pos hEnd]; rfl, by simp [hEnd, Bytes.window]⟩
  | cons first rest ih =>
    by_cases hEnd : copied = count
    · exact ⟨[], by rw [gather, if_pos hEnd]; rfl, by simp [hEnd, Bytes.window]⟩
    obtain ⟨hFirst, hRest⟩ := List.forall_mem_cons.mp h
    obtain ⟨hSub, hLeft⟩ := left_eq hFirst hCursor
    have hOffset : offset.toNat < first.length := hCursor
    have hWanted : (count - copied).toNat = count.toNat - copied.toNat :=
      Word.toNat_sub_of_le hCopied
    generalize hPart : min (count - copied) (first.size - offset) = part
    have hPart' : part.toNat = min (count.toNat - copied.toNat) (first.length - offset.toNat) := by
      rw [← hPart, Word.toNat_min, hWanted, hLeft]
    have hSum : (copied + part).toNat = copied.toNat + part.toNat :=
      Word.toNat_add_of_lt (by have := count.toNat_lt; omega)
    rw [List.flatMap_cons, List.length_append, Chunk.length_bytes] at hCount
    have hNext : (copied + part).toNat ≤ count.toNat := by omega
    obtain ⟨parts, hGather, hBytes⟩ :=
      ih hRest (Cursor.zero hRest) hNext (by rw [UInt64.toNat_zero]; omega)
    refine ⟨first.window offset.toNat part.toNat :: parts, ?_, ?_⟩
    · rw [gather, if_neg hEnd, sub_eq hCopied, hSub]
      simp only [ok_bind, hPart, hGather]
      rfl
    · have hBehind : count.toNat - (copied + part).toNat =
          count.toNat - copied.toNat - (first.length - offset.toNat) := by omega
      rw [List.flatMap_cons, List.flatMap_cons, hBytes, Chunk.bytes_window, hBehind, hPart',
        Bytes.window_append (by rw [Chunk.length_bytes]; omega), Chunk.length_bytes]
      rfl

/-- The copy is the one that is made without guards. -/
theorem copyFirst_eq {queue : Queue} (h : queue.Consistent) {count : UInt64}
    (hCount : count.toNat ≤ queue.content.length) :
    copyFirst queue count = .ok (queue.copyFirst count).value := by
  have hLength := h.length_content
  have hWanted : queue.headOffset.toNat + (count.toNat - (0 : UInt64).toNat) ≤
      queue.stored.length := by
    rw [UInt64.toNat_zero]
    omega
  obtain ⟨parts, hGather, hBytes⟩ :=
    gather_eq h.chunks_wellFormed h.cursor (Nat.zero_le _) hWanted
  have hJoin : Block.join parts = queue.first count := by
    apply Block.bytes_inj.mp
    rw [Block.bytes_join, hBytes, bytes_first]
    rfl
  rw [copyFirst, hGather, ok_bind, hJoin]
  rfl

theorem firstBytes_eq {queue : Queue} (h : queue.Consistent) {count : UInt64}
    (hCount : count.toNat ≤ queue.content.length) (h0 : count ≠ 0) :
    ∃ result, firstBytes queue count = .ok result ∧
      (queue.firstBytes count).value = .ok result := by
  have hPos := Word.toNat_pos h0
  have hCopy := copyFirst_eq h hCount
  rw [firstBytes, Queue.firstBytes, ChunkStore.head?_eq]
  cases hStore : queue.store.toList with
  | nil =>
    have hNone : queue.content = [] := by
      rw [content, stored, chunks, hStore, List.flatMap_nil, List.drop_nil]
    rw [hNone, List.length_nil] at hCount
    omega
  | cons head rest =>
    rw [head_eq hStore]
    cases head with
    | filling tail => exact ⟨_, hCopy, rfl⟩
    | «sealed» handle =>
      have hCursor : Cursor queue.headOffset (.sealed handle :: rest) := hStore ▸ h.cursor
      have hHead := h.chunks_wellFormed (.sealed handle)
        (by rw [chunks, hStore]; exact List.mem_cons_self)
      have hSub : sub handle.size queue.headOffset = .ok (handle.size - queue.headOffset) :=
        (left_eq hHead hCursor).1
      dsimp only [List.head?_cons]
      by_cases hFits : count ≤ handle.size - queue.headOffset
      · obtain ⟨part, hSlice, _⟩ := h.slice_head hStore hFits h0
        refine ⟨(queue, part), ?_, ?_⟩
        · simp only [ok_bind, hSub, if_pos hFits, slice, hSlice]
          rfl
        · rw [if_pos hFits, hSlice]
          rfl
      · refine ⟨(queue.copyFirst count).value, ?_, ?_⟩
        · simp only [ok_bind, hSub, if_neg hFits, hCopy]
        · rw [if_neg hFits]
          rfl

theorem take_eq {queue : Queue} (h : queue.WellFormed) (count : UInt64) :
    take queue count = .ok (queue.apply (.take count), queue.outcome (.take count)) := by
  rw [take, Queue.apply, Queue.outcome]
  by_cases hRefused : queue.size < count
  · rw [if_pos hRefused, value_take_of_lt hRefused]
    rfl
  rw [if_neg hRefused]
  by_cases h0 : count = 0
  · rw [if_pos h0, h0, value_take_zero]
    rfl
  have hCount : count.toNat ≤ queue.content.length :=
    h.size_eq ▸ UInt64.le_iff_toNat_le.mp (UInt64.not_lt.mp hRefused)
  have hBefore : Consistent { queue with projected := 0 } :=
    ⟨h.valid, h.chunks_wellFormed, h.cursor, h.size_eq⟩
  obtain ⟨result, hGuarded, hValue⟩ := firstBytes_eq hBefore hCount h0
  obtain ⟨after, handle⟩ := result
  have hAfter : after.Consistent ∧ after.content = queue.content := by
    obtain ⟨next, _, hFirst, _⟩ := hBefore.firstBytes hCount h0
    rw [hValue] at hFirst
    cases hFirst
    exact ⟨⟨h.valid, h.chunks_wellFormed, h.cursor, h.size_eq⟩, rfl⟩
  have hConsume := consume_eq hAfter.1 (hAfter.2 ▸ hCount)
  rw [if_neg h0, value_take (UInt64.not_lt.mp hRefused) h0, hGuarded, hValue, ok_bind]
  dsimp only
  rw [hConsume]
  rfl

theorem release_eq {chunks : List Chunk} (h : ∀ chunk ∈ chunks, chunk.WellFormed)
    {offset : UInt64} (hCursor : Cursor offset chunks) :
    release chunks offset = .ok (Queue.release chunks offset) := by
  cases chunks with
  | nil => rfl
  | cons head rest =>
    rw [release, Queue.release]
    by_cases h0 : offset = 0
    · rw [if_pos h0, if_pos h0]
      rfl
    · obtain ⟨hReleased, hBytes⟩ := (h head List.mem_cons_self).release
      have hLt : offset.toNat < head.length := hCursor
      have hSize : head.release.size.toNat = head.length := by
        rw [← hReleased.2.length_eq, ← Handle.length_bytes, hBytes, Chunk.length_bytes]
      have hLeft : (head.release.size - offset).toNat = head.length - offset.toNat := by
        rw [Word.toNat_sub_of_le (by omega), hSize]
      have hSome : head.release.size - offset ≠ 0 := by
        intro hn
        rw [hn, UInt64.toNat_zero] at hLeft
        omega
      have hWindow : offset.toNat + (head.release.size - offset).toNat ≤
          head.release.size.toNat := by omega
      rw [if_neg h0, if_neg h0, sub_eq (by omega)]
      simp only [ok_bind, slice_eq hWindow hSome, Handle.slice_eq_ok hWindow hSome]
      rfl

theorem drain_eq {queue : Queue} (h : queue.Consistent) :
    drain queue = .ok (queue.drain.value.1, .drained queue.drain.value.2) := by
  rw [drain, release_eq h.chunks_wellFormed h.cursor]
  rfl

/-! Operations and runs of them. -/

/-- An operation on a well-formed queue stays in its range, and does what it does without guards. -/
theorem apply_eq {queue : Queue} (h : queue.WellFormed) {operation : Operation}
    (hBounds : operation.InBounds)
    (hBound : (queue.apply operation).content.length ≤ capacity) :
    apply queue operation = .ok (queue.apply operation, queue.outcome operation) := by
  have hTail : operation.AtTail → queue.content.length + operation.entering.length < 2 ^ 64 :=
    fun hTail => (grows_apply h.toConsistent hTail hBounds).length_lt h.toConsistent hBound
  cases operation with
  | append data =>
    have hData : data.length < 2 ^ 64 := by
      have := hTail trivial
      rw [Operation.entering, Block.length_bytes] at this
      omega
    rw [apply, append_eq h.toConsistent hData]
    rfl
  | appendAll pieces =>
    rw [apply, appendAll_eq h.toConsistent (hTail trivial)]
    rfl
  | absorb handle =>
    rw [apply, absorb_eq h.toConsistent hBounds]
    rfl
  | sealTail =>
    rw [apply, sealTail_eq h.toConsistent]
    rfl
  | project limit => exact project_eq h.toConsistent limit
  | projectAll => exact project_eq h.toConsistent queue.settings.maxSlices
  | confirm count => exact confirm_eq h count
  | take count => exact take_eq h count
  | drain => exact drain_eq h.toConsistent
  | clear => rfl

end Guarded

namespace Queue

/-- What each operation of a run tells. -/
def outcomes : Queue → List Operation → List Outcome
  | _, [] => []
  | queue, operation :: rest => queue.outcome operation :: (queue.apply operation).outcomes rest

theorem WellFormed.guarded_run {queue : Queue} (h : queue.WellFormed) {operations : List Operation}
    (admissible : queue.Admissible operations) :
    Guarded.run queue operations = .ok (queue.run operations, queue.outcomes operations) := by
  induction operations generalizing queue with
  | nil => rfl
  | cons operation rest ih =>
    obtain ⟨hBounds, hBound, hRest⟩ := admissible
    rw [Guarded.run, Guarded.apply_eq h hBounds hBound, Guarded.ok_bind]
    dsimp only
    rw [ih (h.apply hBounds hBound) hRest]
    rfl

/-- No step of any run from a new queue is out of range: with a guard at each of them the run ends
without a fault, and with the same queue and the same outcomes. Nor is a step by which the front
of that queue is looked at. -/
theorem run_stays_in_range (logger : Option Log.Config) (owner : Nat) (settings : Settings)
    (valid : settings.Valid) (operations : List Operation)
    (admissible : (fresh logger owner settings).Admissible operations) :
    let queue := (fresh logger owner settings).run operations
    Guarded.run (fresh logger owner settings) operations =
        .ok (queue, (fresh logger owner settings).outcomes operations) ∧
      Guarded.front queue = .ok queue.front := by
  have hFresh := wellFormed_fresh logger owner valid
  exact ⟨hFresh.guarded_run admissible, Guarded.front_eq (hFresh.run admissible).toConsistent⟩

/-- A run that fills and splits chunks, copies a handle into the tail, consumes a head chunk in
part, takes a slice of a chunk and then a copy across chunks, and drains what is left of another. -/
theorem run_stays_in_range_in_small_chunks :
    let settings : Settings := { initialChunkSize := 4, smallHandleThreshold := 3 }
    let long : Handle := .adopt (some ⟨⟨1, 0⟩, .ofBytes [10, 11, 12, 13, 14, 15]⟩) 6
    let short : Handle := .adopt (some ⟨⟨1, 1⟩, .ofBytes [7, 8]⟩) 2
    let operations : List Operation :=
      [.append (.ofBytes [1, 2, 3, 4, 5, 6]), .absorb short, .absorb long, .projectAll, .confirm 9,
        .confirm 20, .take 2, .append (.ofBytes [16, 17]), .take 2, .sealTail, .take 9, .drain]
    let queue := (fresh none 0 settings).run operations
    settings.Valid ∧ (fresh none 0 settings).Admissible operations ∧
      Guarded.run (fresh none 0 settings) operations =
        .ok (queue, (fresh none 0 settings).outcomes operations) ∧
      Guarded.front queue = .ok queue.front ∧
      ((fresh none 0 settings).outcomes operations).getLast? =
        some (.drained [{ long with start := 5, size := 1 },
          .adopt (some ⟨⟨0, 2⟩, .ofBytes [16, 17]⟩) 2]) := by
  intro settings long short operations queue
  have hValid : settings.Valid := by decide
  have hAdmissible : (fresh none 0 settings).Admissible operations := by decide +kernel
  obtain ⟨hRun, hFront⟩ := run_stays_in_range none 0 settings hValid operations hAdmissible
  exact ⟨hValid, hAdmissible, hRun, hFront, by decide +kernel⟩

end Queue

end ByteQueue
