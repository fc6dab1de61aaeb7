import ByteQueue.Proofs.Queue.Invariant
import ByteQueue.Queue.Consume

/-! Consumption: confirming, taking and draining remove the leading bytes of the content and
nothing else. The bytes that are handed out are the ones that are removed. -/
namespace ByteQueue.Queue

open Logged

theorem Cursor.zero {chunks : List Chunk} (h : ∀ chunk ∈ chunks, chunk.WellFormed) :
    Cursor 0 chunks := by
  cases chunks with
  | nil => rfl
  | cons head rest => exact (h head List.mem_cons_self).length_pos

section

variable (logger : Option Log.Config)

theorem value_retire_cons (head : Chunk) (rest : List Chunk) (offset count : UInt64) :
    (retire logger (head :: rest) offset count).value =
      if count = 0 then (head :: rest, offset)
      else if count < head.size - offset then (head :: rest, offset + count)
      else (retire logger rest 0 (count - (head.size - offset))).value := by
  rw [retire]
  split
  · rfl
  · dsimp only
    split <;> rfl

/-- Retiring leaves the last chunks, with the cursor behind the bytes that were consumed. The
induction needs the cursor at any position, since only the first chunk can be consumed in part. -/
theorem retire_spec (chunks : List Chunk) (offset count : UInt64)
    (hChunks : ∀ chunk ∈ chunks, chunk.WellFormed) (hCursor : Cursor offset chunks)
    (hCount : offset.toNat + count.toNat ≤ (chunks.flatMap Chunk.bytes).length) :
    (retire logger chunks offset count).value.1 <:+ chunks ∧
      Cursor (retire logger chunks offset count).value.2
        (retire logger chunks offset count).value.1 ∧
      ((retire logger chunks offset count).value.1.flatMap Chunk.bytes).drop
          (retire logger chunks offset count).value.2.toNat =
        (chunks.flatMap Chunk.bytes).drop (offset.toNat + count.toNat) := by
  induction chunks generalizing offset count with
  | nil => exact ⟨List.suffix_refl [], hCursor, by simp [retire]⟩
  | cons head rest ih =>
    obtain ⟨hHead, hRest⟩ := List.forall_mem_cons.mp hChunks
    have hlt : offset.toNat < head.length := hCursor
    have hLeft := hHead.toNat_left hlt.le
    rw [List.flatMap_cons, List.length_append, Chunk.length_bytes] at hCount
    rw [value_retire_cons]
    by_cases h0 : count = 0
    · rw [if_pos h0, h0]
      exact ⟨List.suffix_refl _, hCursor, by simp⟩
    rw [if_neg h0]
    by_cases hs : count < head.size - offset
    · have hs' := UInt64.lt_iff_toNat_lt.mp hs
      have hSum : (offset + count).toNat = offset.toNat + count.toNat :=
        Word.toNat_add_of_lt (by have := hHead.length_lt; omega)
      rw [if_pos hs]
      refine ⟨List.suffix_refl _, ?_, by rw [hSum]⟩
      show (offset + count).toNat < head.length
      omega
    · have hs' : head.length - offset.toNat ≤ count.toNat := by
        have := UInt64.le_iff_toNat_le.mp (UInt64.not_lt.mp hs)
        omega
      have hLess : (count - (head.size - offset)).toNat =
          count.toNat - (head.length - offset.toNat) := by
        rw [Word.toNat_sub_of_le (by omega), hLeft]
      rw [if_neg hs]
      obtain ⟨hSuffix, hCursor', hDrop⟩ :=
        ih 0 (count - (head.size - offset)) hRest (Cursor.zero hRest)
          (by rw [hLess, UInt64.toNat_zero]; omega)
      have hPast : head.bytes.drop (offset.toNat + count.toNat) = [] :=
        List.drop_eq_nil_of_le (by rw [Chunk.length_bytes]; omega)
      have hSkip : offset.toNat + count.toNat - head.length =
          count.toNat - (head.length - offset.toNat) := by omega
      refine ⟨hSuffix.trans (List.suffix_cons head rest), hCursor', ?_⟩
      rw [hDrop, hLess, List.flatMap_cons, UInt64.toNat_zero, Nat.zero_add, List.drop_append,
        hPast, List.nil_append, Chunk.length_bytes, hSkip]

theorem toList_retireFrom (store : ChunkStore) (offset count : UInt64) :
    (retireFrom logger store offset count).value.1.toList =
        (retire logger store.toList offset count).value.1 ∧
      (retireFrom logger store offset count).value.2 =
        (retire logger store.toList offset count).value.2 := by
  have h := congrArg Logged.value (retireFrom_eq logger store offset count)
  rw [value_map] at h
  exact ⟨congrArg Prod.fst h, congrArg Prod.snd h⟩

theorem value_retireFrom_nil {store : ChunkStore} (hChunks : store.toList = [])
    (offset count : UInt64) : (retireFrom logger store offset count).value = (store, offset) := by
  have hLength : store.length = 0 := by rw [← ChunkStore.length_toList, hChunks, List.length_nil]
  rw [retireFrom, hLength, iterate_zero, value_pure]

theorem value_retireFrom_cons {store : ChunkStore} {head : Chunk} {rest : List Chunk}
    (hChunks : store.toList = head :: rest) (offset count : UInt64) :
    (retireFrom logger store offset count).value =
      if count = 0 then (store, offset)
      else if count < head.size - offset then (store, offset + count)
      else (retireFrom logger store.tail 0 (count - (head.size - offset))).value := by
  have hLength : store.length = rest.length + 1 := by
    rw [← ChunkStore.length_toList, hChunks, List.length_cons]
  have hTail : store.tail.length = rest.length := by
    rw [ChunkStore.length_tail, hLength, Nat.add_sub_cancel]
  rw [retireFrom, retireFrom, hLength, hTail, value_iterate_succ]
  by_cases h0 : count = 0
  · simp [retireHead, hChunks, h0]
  · by_cases hFits : count < head.size - offset
    · simp [retireHead, hChunks, h0, hFits]
    · simp [retireHead, hChunks, h0, hFits]

theorem value_retireFrom_zero (store : ChunkStore) (offset : UInt64) :
    (retireFrom logger store offset 0).value = (store, offset) := by
  cases hChunks : store.toList with
  | nil => exact value_retireFrom_nil logger hChunks offset 0
  | cons head rest => rw [value_retireFrom_cons logger hChunks, if_pos rfl]

end

theorem Consistent.content_consume {queue : Queue} (h : queue.Consistent) {count : UInt64}
    (hCount : count.toNat ≤ queue.content.length) :
    (queue.consume count).value.content = queue.content.drop count.toNat ∧
      (queue.consume count).value.chunks <:+ queue.chunks ∧
      Cursor (queue.consume count).value.headOffset (queue.consume count).value.chunks := by
  have hl := h.length_content
  obtain ⟨hSuffix, hCursor, hDrop⟩ :=
    retire_spec queue.logger queue.chunks queue.headOffset count h.chunks_wellFormed h.cursor
      (show _ ≤ queue.stored.length by omega)
  obtain ⟨hStore, hOffset⟩ := toList_retireFrom queue.logger queue.store queue.headOffset count
  have hChunks : (queue.consume count).value.chunks =
      (retire queue.logger queue.chunks queue.headOffset count).value.1 := hStore
  have hHead : (queue.consume count).value.headOffset =
      (retire queue.logger queue.chunks queue.headOffset count).value.2 := hOffset
  refine ⟨?_, hChunks ▸ hSuffix, by rw [hHead, hChunks]; exact hCursor⟩
  rw [content, stored, hChunks, hHead, hDrop, content, List.drop_drop]
  rfl

theorem Consistent.consume {queue : Queue} (h : queue.Consistent) {count : UInt64}
    (hCount : count.toNat ≤ queue.content.length) : (queue.consume count).value.Consistent := by
  obtain ⟨hContent, hSuffix, hCursor⟩ := h.content_consume hCount
  refine ⟨h.valid, fun chunk hm => h.chunks_wellFormed chunk (hSuffix.subset hm), hCursor, ?_⟩
  rw [hContent, List.length_drop]
  show (queue.size - count).toNat = _
  rw [Word.toNat_sub_of_le (by rw [h.size_eq]; exact hCount), h.size_eq]

/-! Confirming. -/

theorem value_confirm (queue : Queue) (count : UInt64) :
    (queue.confirm count).value =
      if queue.projected < count then .error .overConfirmed
      else .ok { (queue.consume count).value with projected := queue.projected - count } := by
  unfold confirm
  split <;> rfl

/-- To confirm nothing changes nothing. -/
theorem value_confirm_zero (queue : Queue) : (queue.confirm 0).value = .ok queue := by
  have hConsumed : (queue.consume 0).value = queue := by
    unfold consume
    rw [value_bind, value_retireFrom_zero]
    exact congrArg (Queue.mk _ _ _ _ · _ _) (UInt64.sub_zero queue.size)
  rw [value_confirm, if_neg UInt64.not_lt_zero, hConsumed, UInt64.sub_zero]

theorem exists_value_confirm {queue : Queue} {count : UInt64} (hLe : count ≤ queue.projected) :
    ∃ after, (queue.confirm count).value = .ok after :=
  ⟨_, by rw [value_confirm, if_neg (UInt64.not_lt.mpr hLe)]⟩

theorem confirm_eq_error_iff {queue : Queue} {count : UInt64} :
    (∃ failure, (queue.confirm count).value = .error failure) ↔ queue.projected < count := by
  rw [value_confirm]
  split
  · next h => exact ⟨fun _ => h, fun _ => ⟨_, rfl⟩⟩
  · next h =>
    constructor
    · rintro ⟨failure, hn⟩
      cases hn
    · exact fun hn => absurd hn h

/-- What is confirmed is what the queue holds in front. -/
theorem WellFormed.confirm {queue after : Queue} (h : queue.WellFormed) {count : UInt64}
    (hValue : (queue.confirm count).value = .ok after) :
    after.WellFormed ∧ after.content = queue.content.drop count.toNat ∧
      count.toNat ≤ queue.projected.toNat ∧
      after.projected.toNat = queue.projected.toNat - count.toNat := by
  rw [value_confirm] at hValue
  split at hValue
  · cases hValue
  · next hn =>
    have hLe := UInt64.le_iff_toNat_le.mp (UInt64.not_lt.mp hn)
    have hProjected := UInt64.le_iff_toNat_le.mp h.projected_le
    have hSize := h.size_eq
    have hCount : count.toNat ≤ queue.content.length := by omega
    have hSub := Word.toNat_sub_of_le hLe
    have hConsume := h.toConsistent.consume hCount
    have hSizeAfter : (queue.consume count).value.size.toNat = queue.size.toNat - count.toNat :=
      Word.toNat_sub_of_le (by omega)
    cases hValue
    refine ⟨⟨⟨hConsume.valid, hConsume.chunks_wellFormed, hConsume.cursor, hConsume.size_eq⟩, ?_⟩,
      (h.toConsistent.content_consume hCount).1, hLe, hSub⟩
    show queue.projected - count ≤ (queue.consume count).value.size
    rw [UInt64.le_iff_toNat_le, hSub, hSizeAfter]
    omega

/-! Taking. -/

theorem value_take_of_lt {queue : Queue} {count : UInt64} (h : queue.size < count) :
    (queue.take count).value = .error .overTaken := by
  unfold take
  rw [if_pos h]
  rfl

theorem value_take_zero (queue : Queue) : (queue.take 0).value = .ok (queue, .empty) := by
  unfold take
  rw [if_neg (by rw [gt_iff_lt, UInt64.lt_iff_toNat_lt]; exact Nat.not_lt_zero _)]
  rfl

theorem value_take {queue : Queue} {count : UInt64} (hLe : count ≤ queue.size) (h0 : count ≠ 0) :
    (queue.take count).value =
      match (firstBytes { queue with projected := 0 } count).value with
      | .error failure => .error failure
      | .ok (queue, handle) => .ok ((queue.consume count).value, handle) := by
  unfold take
  rw [if_neg (UInt64.not_lt.mpr hLe), if_neg h0, value_bind]
  cases (firstBytes { queue with projected := 0 } count).value with
  | error failure => rfl
  | ok result => rfl

/-- A copy of leading bytes is a window onto all of a new array. -/
theorem copyFirst_spec (queue : Queue) {count : UInt64}
    (hCount : count.toNat ≤ queue.content.length) :
    (queue.copyFirst count).value.2.bytes = queue.content.take count.toNat ∧
      (queue.copyFirst count).value.2.InBounds := by
  have hBytes := queue.bytes_first count
  have hLength : (queue.first count).length = count.toNat := by
    rw [← Block.length_bytes, hBytes, List.length_take]
    omega
  constructor
  · show (Handle.adopt (some ⟨queue.nextArray, queue.first count⟩) count).bytes = _
    rw [Handle.bytes_eq]
    show (queue.first count).bytes.window 0 count.toNat = _
    rw [Bytes.window, List.drop_zero, hBytes, List.take_take, Nat.min_self]
  · show 0 + count.toNat ≤ (queue.first count).length ∧ 0 + count.toNat < UInt64.size
    have := count.toNat_lt
    exact ⟨by omega, by simpa using this⟩

/-- Where the head chunk is sealed and holds the leading bytes, a slice of it shows them. -/
theorem Consistent.slice_head {queue : Queue} (h : queue.Consistent) {head : Handle}
    {rest : List Chunk} (hChunks : queue.chunks = .sealed head :: rest) {count : UInt64}
    (hFits : count ≤ head.size - queue.headOffset) (h0 : count ≠ 0) :
    ∃ slice, head.slice queue.headOffset count = .ok slice ∧
      slice.bytes = queue.content.take count.toNat ∧ slice.InBounds := by
  have hWellFormed := h.chunks_wellFormed (.sealed head) (by rw [hChunks]; exact List.mem_cons_self)
  have hLt : queue.headOffset.toNat < head.length := by
    have hCursor := h.cursor
    rwa [hChunks] at hCursor
  have hSize : head.size.toNat = head.length := hWellFormed.2.length_eq.symm
  have hLeft : (head.size - queue.headOffset).toNat = head.length - queue.headOffset.toNat := by
    rw [Word.toNat_sub_of_le (by omega), hSize]
  have hCount := UInt64.le_iff_toNat_le.mp hFits
  have hWindow : queue.headOffset.toNat + count.toNat ≤ head.size.toNat := by omega
  have hSlice := Handle.slice_eq_ok hWindow h0
  refine ⟨_, hSlice, ?_, (Handle.wellFormed_slice hWellFormed.2 hWindow h0).2⟩
  rw [Handle.bytes_slice hWellFormed.2 hSlice, Bytes.window, content, stored, hChunks,
    List.flatMap_cons, Chunk.bytes_sealed,
    List.drop_append_of_le_length (by rw [Handle.length_bytes]; omega),
    List.take_append_of_le_length (by rw [List.length_drop, Handle.length_bytes]; omega)]

/-- The leading bytes can always be had as a handle, and the queue is not changed by that. -/
theorem Consistent.firstBytes {queue : Queue} (h : queue.Consistent) {count : UInt64}
    (hCount : count.toNat ≤ queue.content.length) (h0 : count ≠ 0) :
    ∃ next handle, (queue.firstBytes count).value =
        .ok ({ queue with nextArray := next }, handle) ∧
      handle.bytes = queue.content.take count.toNat ∧ handle.InBounds := by
  have hCopy := queue.copyFirst_spec hCount
  unfold Queue.firstBytes
  split
  · next head hHead =>
    rw [ChunkStore.head?_eq] at hHead
    obtain ⟨rest, hChunks⟩ := List.head?_eq_some_iff.mp hHead
    split
    · next hFits =>
      obtain ⟨slice, hSlice, hSpec⟩ := h.slice_head hChunks hFits h0
      rw [hSlice]
      exact ⟨queue.nextArray, slice, rfl, hSpec⟩
    · exact ⟨queue.nextArray.next, (queue.copyFirst count).value.2, rfl, hCopy⟩
  · exact ⟨queue.nextArray.next, (queue.copyFirst count).value.2, rfl, hCopy⟩

/-- What is taken is what the queue held in front, and it is gone from there. -/
theorem WellFormed.take {queue : Queue} (h : queue.WellFormed) {count : UInt64}
    (hLe : count ≤ queue.size) (h0 : count ≠ 0) :
    ∃ after handle, (queue.take count).value = .ok (after, handle) ∧ after.WellFormed ∧
      after.settings = queue.settings ∧ after.projected = 0 ∧
      after.content = queue.content.drop count.toNat ∧
      handle.bytes = queue.content.take count.toNat ∧ handle.InBounds := by
  have hCount : count.toNat ≤ queue.content.length := by
    have := UInt64.le_iff_toNat_le.mp hLe
    rwa [h.size_eq] at this
  have hBefore : Consistent { queue with projected := 0 } :=
    ⟨h.valid, h.chunks_wellFormed, h.cursor, h.size_eq⟩
  obtain ⟨next, handle, hValue, hBytes, hBounds⟩ := hBefore.firstBytes hCount h0
  have hNext : Consistent { queue with projected := 0, nextArray := next } :=
    ⟨h.valid, h.chunks_wellFormed, h.cursor, h.size_eq⟩
  refine ⟨_, handle, by rw [value_take hLe h0, hValue], ⟨hNext.consume hCount, ?_⟩, rfl, rfl,
    (hNext.content_consume hCount).1, hBytes, hBounds⟩
  rw [UInt64.le_iff_toNat_le]
  exact Nat.zero_le _

/-! Draining. -/

/-- The first handle of a drained queue shows what is left of the head chunk. -/
theorem release_cons {head : Chunk} (hHead : head.WellFormed) {offset : UInt64}
    (hLt : offset.toNat < head.length) (rest : List Chunk) :
    ∃ left, release (head :: rest) offset = left :: rest.map Chunk.release ∧
      left.bytes = head.bytes.drop offset.toNat ∧ (Chunk.sealed left).WellFormed := by
  obtain ⟨hReleased, hBytes⟩ := hHead.release
  by_cases h0 : offset = 0
  · exact ⟨head.release, by simp [release, h0], by simp [h0, hBytes], hReleased⟩
  · have hSize : head.release.size.toNat = head.length := by
      rw [← hReleased.2.length_eq, ← Handle.length_bytes, hBytes, Chunk.length_bytes]
    have hRemains : (head.release.size - offset).toNat = head.length - offset.toNat := by
      rw [Word.toNat_sub_of_le (by omega), hSize]
    have hNonzero : head.release.size - offset ≠ 0 := by
      intro hn
      rw [hn, UInt64.toNat_zero] at hRemains
      omega
    have hWindow : offset.toNat + (head.release.size - offset).toNat ≤
        head.release.size.toNat := by omega
    have hSlice := Handle.slice_eq_ok hWindow hNonzero
    have hRelease : release (head :: rest) offset =
        ⟨head.release.array, head.release.start + offset, head.release.size - offset⟩ ::
          rest.map Chunk.release := by
      simp [release, h0, hSlice, Except.toOption]
    refine ⟨_, hRelease, ?_, Handle.wellFormed_slice hReleased.2 hWindow hNonzero⟩
    rw [Handle.bytes_slice hReleased.2 hSlice, hBytes, Bytes.window, hRemains]
    exact List.take_of_length_le (by simp)

/-- The handles of all chunks show what is left of them, and none is empty. -/
theorem release_spec {chunks : List Chunk} {offset : UInt64}
    (hChunks : ∀ chunk ∈ chunks, chunk.WellFormed) (hCursor : Cursor offset chunks) :
    (release chunks offset).flatMap Handle.bytes =
        (chunks.flatMap Chunk.bytes).drop offset.toNat ∧
      ∀ handle ∈ release chunks offset, (Chunk.sealed handle).WellFormed := by
  cases chunks with
  | nil => simp [release]
  | cons head rest =>
    have hLt : offset.toNat < head.length := hCursor
    have hRest : ∀ chunk ∈ rest, (Chunk.sealed chunk.release).WellFormed ∧
        chunk.release.bytes = chunk.bytes :=
      fun chunk hm => (hChunks chunk (List.mem_cons_of_mem _ hm)).release
    have hRestBytes : (rest.map Chunk.release).flatMap Handle.bytes =
        rest.flatMap Chunk.bytes := by
      rw [List.flatMap_map, List.flatMap_def, List.flatMap_def,
        List.map_congr_left fun chunk hm => (hRest chunk hm).2]
    obtain ⟨left, hEq, hLeftBytes, hLeft⟩ :=
      release_cons (hChunks head List.mem_cons_self) hLt rest
    rw [hEq]
    constructor
    · rw [List.flatMap_cons, List.flatMap_cons, hLeftBytes, hRestBytes,
        List.drop_append_of_le_length (by rw [Chunk.length_bytes]; omega)]
    · intro handle hm
      rcases List.mem_cons.mp hm with rfl | hm
      · exact hLeft
      · obtain ⟨chunk, hc, rfl⟩ := List.mem_map.mp hm
        exact (hRest chunk hc).1

end ByteQueue.Queue
