import ByteQueue.Proofs.Handle
import ByteQueue.Proofs.Queue.Retirement

/-! References: what becomes of a handle that a queue absorbs. Unless it is copied, its bytes stay
in its own array: the queue holds windows onto that array, which lie one behind the other until
they are consumed, and hands them out as they are. -/
namespace ByteQueue

/-- Consecutive windows onto the array of a handle, from `start` on to the end of its window. -/
def Handle.Tiles (handle : Handle) : Nat → List Handle → Prop
  | start, [] => start = handle.size.toNat
  | start, part :: rest =>
    part.array = handle.array ∧ part.start.toNat = handle.start.toNat + start ∧
      part.size ≠ 0 ∧ handle.Tiles (start + part.size.toNat) rest

namespace Handle.Tiles

variable {handle : Handle} {start : Nat} {parts : List Handle}

theorem sum_size (h : handle.Tiles start parts) :
    start + sumOf (fun part => part.size.toNat) parts = handle.size.toNat := by
  induction parts generalizing start with
  | nil => exact h
  | cons part rest ih =>
    have hRest := ih h.2.2.2
    rw [sumOf_cons, ← Nat.add_assoc]
    exact hRest

theorem array_eq (h : handle.Tiles start parts) {part : Handle} (hm : part ∈ parts) :
    part.array = handle.array := by
  induction parts generalizing start with
  | nil => cases hm
  | cons first rest ih =>
    rcases List.mem_cons.mp hm with rfl | hm
    · exact h.1
    · exact ih h.2.2.2 hm

/-- Where something is left to be covered there is a last part. -/
theorem exists_last (h : handle.Tiles start parts) (hStart : start < handle.size.toNat) :
    ∃ earlier last, parts = earlier ++ [last] := by
  cases parts using List.reverseRecOn with
  | nil =>
    rw [show start = _ from h] at hStart
    exact absurd hStart (Nat.lt_irrefl _)
  | append_singleton earlier last => exact ⟨earlier, last, rfl⟩

/-- Without the first parts, the others cover what these do not. -/
theorem drop {first second : List Handle} (h : handle.Tiles start (first ++ second)) :
    handle.Tiles (start + sumOf (fun part => part.size.toNat) first) second := by
  induction first generalizing start with
  | nil => exact h
  | cons part rest ih =>
    rw [sumOf_cons, ← Nat.add_assoc]
    exact ih h.2.2.2

end Handle.Tiles

namespace Handle

theorem tiles_self {handle : Handle} (h0 : handle.size ≠ 0) : handle.Tiles 0 [handle] :=
  ⟨rfl, rfl, h0, Nat.zero_add _⟩

/-- A window that is cut off in front still ends where the next one begins. -/
theorem Tiles.trim {handle part : Handle} {start : Nat} {rest : List Handle}
    (h : handle.Tiles start (part :: rest)) (hb : part.InBounds) {offset : UInt64}
    (hOffset : offset.toNat < part.size.toNat) :
    handle.Tiles (start + offset.toNat)
      (⟨part.array, part.start + offset, part.size - offset⟩ :: rest) := by
  obtain ⟨hArray, hStart, _, hRest⟩ := h
  have hWindow := hb.window_lt
  have hLength : (part.size - offset).toNat = part.size.toNat - offset.toNat :=
    Word.toNat_sub_of_le (Nat.le_of_lt hOffset)
  have hEnd : start + offset.toNat + (part.size - offset).toNat = start + part.size.toNat := by
    omega
  refine ⟨hArray, ?_, ?_, ?_⟩
  · rw [Word.toNat_add_of_lt (by omega), hStart, Nat.add_assoc]
  · intro hn
    have hNone : (part.size - offset).toNat = 0 := congrArg UInt64.toNat hn
    omega
  · rw [hEnd]
    exact hRest

/-- A part at an offset, and then the parts behind it. -/
theorem tiles_cons {handle : Handle} (hb : handle.InBounds) {offset count : UInt64}
    {rest : List Handle} (hFits : offset.toNat + count.toNat ≤ handle.size.toNat) (h0 : count ≠ 0)
    (hRest : handle.Tiles (offset.toNat + count.toNat) rest) :
    handle.Tiles offset.toNat (⟨handle.array, handle.start + offset, count⟩ :: rest) := by
  have hWindow := hb.window_lt
  exact ⟨rfl, Word.toNat_add_of_lt (by omega), h0, hRest⟩

/-- The pieces from a position on are windows one behind the other. The induction is on their
number; before the position lie as many limits. -/
theorem tiles_pieces_from {handle : Handle} (hb : handle.InBounds) {limit : UInt64}
    (hPos : 0 < limit.toNat) (count position : Nat)
    (hNumber : (handle.size.toNat + limit.toNat - 1) / limit.toNat = position + count)
    (hAll : handle.size.toNat ≤ (position + count) * limit.toNat) :
    handle.Tiles (min (position * limit.toNat) handle.size.toNat)
      ((List.range' position count).map fun position =>
        (handle.slice (position.toUInt64 * limit)
          (min limit (handle.size - position.toUInt64 * limit))).toOption.getD empty) := by
  induction count generalizing position with
  | zero => exact Nat.min_eq_right hAll
  | succ count ih =>
    have hBefore : position * limit.toNat < handle.size.toNat :=
      lt_size_of_piece (by omega) hPos
    obtain ⟨offset, size, hOffset, hSize, hFits, h0, hPiece⟩ := handle.slice_piece hBefore hPos
    have hNext : min ((position + 1) * limit.toNat) handle.size.toNat =
        offset.toNat + size.toNat := by
      rw [Nat.succ_mul]
      omega
    have hShift : position + (count + 1) = position + 1 + count := by omega
    rw [hShift] at hNumber hAll
    have hRest := ih (position + 1) hNumber hAll
    rw [hNext] at hRest
    rw [List.range'_succ, List.map_cons, hPiece, Nat.min_eq_left (Nat.le_of_lt hBefore), ← hOffset]
    exact tiles_cons hb hFits h0 hRest

/-- The pieces of a handle are windows one behind the other. -/
theorem tiles_pieces {handle : Handle} (hb : handle.InBounds) {limit : UInt64}
    (hLimit : limit ≠ 0) : handle.Tiles 0 (handle.pieces limit) := by
  have hPos := Word.toNat_pos hLimit
  have hAll := handle.size_le_mul_pieces hPos
  generalize hNumber : (handle.size.toNat + limit.toNat - 1) / limit.toNat = number at hAll
  rw [← Nat.zero_add number] at hNumber hAll
  have hFirst := tiles_pieces_from hb hPos number 0 hNumber hAll
  rw [Nat.zero_add] at hNumber
  rwa [Nat.zero_mul, Nat.zero_min, ← List.range_eq_range', ← hNumber] at hFirst

theorem length_block {handle : Handle} (hb : handle.InBounds) :
    handle.block.length = handle.size.toNat := by
  rw [← Block.length_bytes, ← hb.length_eq, ← length_bytes]
  rfl

theorem size_block {handle : Handle} (hb : handle.InBounds) : handle.block.size = handle.size := by
  rw [Block.size, length_block hb, Nat.toUInt64, UInt64.ofNat_toNat]

end Handle

namespace Queue

open Logged

/-- A handle is copied if it is short and the tail chunk has room for all of it. -/
def Copies (queue : Queue) (handle : Handle) : Prop :=
  handle.size < queue.settings.smallHandleThreshold ∧
    ∃ tail, queue.chunks.getLast? = some (.filling tail) ∧ handle.size ≤ tail.spare

/-- What it is to be copied: the tail chunk, and nothing else, has the bytes of the handle in its
own array behind those that it had. -/
def Coalesced (queue : Queue) (handle : Handle) (after : Queue) : Prop :=
  ∃ earlier tail, queue.chunks = earlier ++ [.filling tail] ∧
    after.chunks = earlier ++ [.filling (tail.append handle.block)]

theorem coalesced_of_coalesce {queue : Queue} {handle : Handle} {coalesced : Logged Event Queue}
    (hb : handle.InBounds) (h : queue.coalesce? handle.block = some coalesced) :
    (∃ tail, queue.chunks.getLast? = some (.filling tail) ∧ handle.size ≤ tail.spare) ∧
      queue.Coalesced handle coalesced.value := by
  obtain ⟨tail, hLast, hRoom, hValue⟩ := exists_tail_of_coalesce h
  obtain ⟨earlier, hChunks, hAfter⟩ := exists_chunks_eq hLast
  rw [ChunkStore.last?_eq] at hLast
  rw [Handle.size_block hb] at hRoom
  refine ⟨⟨tail, hLast, hRoom⟩, earlier, tail, hChunks, ?_⟩
  rw [hValue]
  exact hAfter _

theorem chunks_foldl_pushHandle (queue : Queue) (parts : List Handle) :
    (parts.foldl pushHandle queue).chunks = queue.chunks ++ parts.map Chunk.sealed := by
  induction parts generalizing queue with
  | nil => rw [List.foldl_nil, List.map_nil, List.append_nil]
  | cons part rest ih =>
    have hFirst : (queue.pushHandle part).chunks = queue.chunks ++ [.sealed part] :=
      queue.store.toList_push _
    rw [List.foldl_cons, ih, hFirst, List.append_assoc]
    rfl

/-- The windows onto a handle that is referred to: all of it, or its pieces if it is too long. -/
def windows (queue : Queue) (handle : Handle) : List Handle :=
  if queue.sizing.greatest = 0 ∨ handle.size ≤ queue.sizing.greatest then [handle]
  else handle.pieces queue.sizing.greatest

theorem tiles_windows (queue : Queue) {handle : Handle} (hb : handle.InBounds)
    (h0 : handle.size ≠ 0) : handle.Tiles 0 (queue.windows handle) := by
  unfold windows
  split
  · exact Handle.tiles_self h0
  · next h =>
    have hLimit : queue.sizing.greatest ≠ 0 := fun hn => h (.inl hn)
    exact Handle.tiles_pieces hb hLimit

/-- A handle that is referred to: its windows are behind the chunks that were there. -/
theorem chunks_pushReference (queue : Queue) (handle : Handle) :
    (queue.pushReference handle).value.chunks =
      queue.chunks ++ (queue.windows handle).map Chunk.sealed := by
  rw [value_pushReference, windows]
  split
  · exact queue.store.toList_push _
  · exact chunks_foldl_pushHandle queue _

/-- A handle that is not empty is either copied into the tail chunk or referred to. -/
theorem value_absorb (queue : Queue) {handle : Handle} (hb : handle.InBounds)
    (h0 : handle.size ≠ 0) :
    (queue.Copies handle → ∃ coalesced, queue.coalesce? handle.block = some coalesced ∧
        (queue.absorb handle).value = coalesced.value) ∧
      (¬ queue.Copies handle →
        (queue.absorb handle).value = (queue.pushReference handle).value) := by
  unfold absorb
  rw [if_neg (mt Handle.isEmpty_iff.mp h0)]
  split
  · next hSmall =>
    split
    · next coalesced hc =>
      have hRoom := (coalesced_of_coalesce hb hc).1
      exact ⟨fun _ => ⟨coalesced, hc, rfl⟩, fun hn => absurd ⟨hSmall, hRoom⟩ hn⟩
    · next hNone =>
      refine ⟨fun ⟨_, tail, hLast, hRoom⟩ => ?_, fun _ => rfl⟩
      rw [← Handle.size_block hb] at hRoom
      obtain ⟨coalesced, hc⟩ := coalesce?_of_room ((ChunkStore.last?_eq _).trans hLast) hRoom
      rw [hc] at hNone
      cases hNone
  · next hLarge => exact ⟨fun hn => absurd hn.1 hLarge, fun _ => rfl⟩

/-- What absorbing a handle that is not empty does to the chunks. -/
theorem chunks_absorb (queue : Queue) {handle : Handle} (hb : handle.InBounds)
    (h0 : handle.size ≠ 0) :
    (queue.Copies handle → queue.Coalesced handle (queue.absorb handle).value) ∧
      (¬ queue.Copies handle → ∃ parts, handle.Tiles 0 parts ∧
        (queue.absorb handle).value.chunks = queue.chunks ++ parts.map Chunk.sealed) := by
  obtain ⟨hCopied, hReferred⟩ := queue.value_absorb hb h0
  refine ⟨fun h => ?_, fun h => ?_⟩
  · obtain ⟨coalesced, hc, hValue⟩ := hCopied h
    rw [hValue]
    exact (coalesced_of_coalesce hb hc).2
  · rw [hReferred h]
    exact ⟨_, queue.tiles_windows hb h0, queue.chunks_pushReference handle⟩

/-- A handle that is copied only fills chunks. -/
theorem fills_absorb (queue : Queue) {handle : Handle} (hb : handle.InBounds)
    (hCopied : queue.Copies handle) : Fills queue handle.bytes (queue.absorb handle).value := by
  by_cases h0 : handle.size = 0
  · rw [hb.bytes_eq_nil h0, queue.absorb_of_size_eq_zero h0]
    exact .nothing queue
  · obtain ⟨coalesced, hc, hValue⟩ := (queue.value_absorb hb h0).1 hCopied
    rw [hValue]
    exact fills_coalesce hc

/-- A handle is copied just when the condition for it holds. -/
theorem copies_iff_coalesced (queue : Queue) {handle : Handle} (hb : handle.InBounds)
    (h0 : handle.size ≠ 0) :
    queue.Copies handle ↔ queue.Coalesced handle (queue.absorb handle).value := by
  obtain ⟨hCopied, hReferred⟩ := queue.chunks_absorb hb h0
  refine ⟨hCopied, fun ⟨earlier, tail, hChunks, hAfter⟩ => ?_⟩
  by_contra hn
  obtain ⟨parts, hTiles, hParts⟩ := hReferred hn
  obtain ⟨earlier', last, rfl⟩ := hTiles.exists_last (Word.toNat_pos h0)
  rw [hAfter, List.map_append, List.map_singleton, ← List.append_assoc] at hParts
  cases (List.append_inj' hParts rfl).2

/-- The chunks up to a sealed one stay as they are when another takes the place of a last one that
was filling. -/
theorem exists_setLast_eq {kept back earlier : List Chunk} {handle : Handle} {tail : FillingChunk}
    (h : kept ++ .sealed handle :: back = earlier ++ [.filling tail]) (replacing : Chunk) :
    ∃ rest, earlier ++ [replacing] = kept ++ .sealed handle :: rest := by
  cases back using List.reverseRecOn with
  | nil => cases (List.append_inj' h rfl).2
  | append_singleton between last =>
    rw [← List.cons_append, ← List.append_assoc] at h
    rw [← (List.append_inj' h rfl).1]
    exact ⟨between ++ [replacing], by simp⟩

/-- Growth leaves the chunks up to a sealed one as they are. -/
theorem Grows.keeps {before after : Queue} {data : Bytes} (h : Grows before data after)
    {kept back : List Chunk} {handle : Handle}
    (hChunks : before.chunks = kept ++ .sealed handle :: back) :
    ∃ rest, after.chunks = kept ++ .sealed handle :: rest := by
  induction h generalizing back with
  | nothing queue => exact ⟨back, hChunks⟩
  | fill last fits =>
    obtain ⟨earlier, hBefore, hAfter⟩ := exists_chunks_eq last
    obtain ⟨rest, hRest⟩ := exists_setLast_eq (hChunks.symm.trans hBefore) _
    exact ⟨rest, (hAfter _).trans hRest⟩
  | sealing last wellFormed =>
    obtain ⟨earlier, hBefore, hAfter⟩ := exists_chunks_eq last
    obtain ⟨rest, hRest⟩ := exists_setLast_eq (hChunks.symm.trans hBefore) _
    exact ⟨rest, (hAfter _).trans hRest⟩
  | @copy queue piece pos =>
    have hPush : (queue.pushCopy piece).value.chunks = queue.chunks ++ [_] :=
      queue.store.toList_push _
    exact ⟨back ++ [_], by rw [hPush, hChunks, List.append_assoc]; rfl⟩
  | @refer queue handle wellFormed =>
    have hPush : (queue.pushHandle handle).chunks = queue.chunks ++ [_] :=
      queue.store.toList_push _
    exact ⟨back ++ [_], by rw [hPush, hChunks, List.append_assoc]; rfl⟩
  | trans left right ihl ihr =>
    obtain ⟨between, hBetween⟩ := ihl hChunks
    exact ihr hBetween

/-- Where the bytes of a handle are, `before` of which were ahead of them when the queue absorbed
it and from which `done` bytes have left it since: in windows onto its array from `start` on, in
sealed chunks one behind the other. What is covered twice or not at all has left. -/
structure RefersAt (queue : Queue) (handle : Handle) (before done : Nat) (front : List Chunk)
    (parts : List Handle) (back : List Chunk) (start : Nat) : Prop where
  chunks_eq : queue.chunks = front ++ (parts.map Chunk.sealed ++ back)
  tiles : handle.Tiles start parts
  start_le : start ≤ done - before
  position_eq : (front.flatMap Chunk.bytes).length + done =
    queue.headOffset.toNat + before + start

def Refers (queue : Queue) (handle : Handle) (before done : Nat) : Prop :=
  ∃ front parts back start, queue.RefersAt handle before done front parts back start

variable {queue : Queue} {handle : Handle} {before done : Nat}

/-- A handle that is not copied is referred to. -/
theorem refers_absorb (h : queue.WellFormed) (hb : handle.InBounds) (h0 : handle.size ≠ 0)
    (hReferred : ¬ queue.Copies handle) :
    (queue.absorb handle).value.Refers handle queue.content.length 0 := by
  obtain ⟨parts, hTiles, hChunks⟩ := (queue.chunks_absorb hb h0).2 hReferred
  have hFrame := (grows_absorb queue hb).frame
  have hLength := h.length_content
  refine ⟨queue.chunks, parts, [], 0, ?_, hTiles, Nat.zero_le _, ?_⟩
  · rw [hChunks, List.append_nil]
  · rw [hFrame.2.1]
    show queue.stored.length + 0 = _
    omega

theorem Refers.grow {after : Queue} {data : Bytes} (h : queue.Refers handle before done)
    (hGrows : Grows queue data after) (hLeft : done - before < handle.size.toNat) :
    after.Refers handle before done := by
  obtain ⟨front, parts, back, start, hAt⟩ := h
  obtain ⟨earlier, last, rfl⟩ := hAt.tiles.exists_last (Nat.lt_of_le_of_lt hAt.start_le hLeft)
  have hChunks : queue.chunks =
      (front ++ earlier.map Chunk.sealed) ++ .sealed last :: back := by
    rw [hAt.chunks_eq]
    simp
  obtain ⟨rest, hAfter⟩ := hGrows.keeps hChunks
  refine ⟨front, earlier ++ [last], rest, start, ?_, hAt.tiles, hAt.start_le, ?_⟩
  · rw [hAfter]
    simp
  · rw [hGrows.frame.2.1]
    exact hAt.position_eq

/-- Retired chunks are ahead of the handle's bytes, or windows onto bytes of it that have been
consumed. -/
theorem Refers.retire {after : Queue} {count : Nat} (h : queue.Refers handle before done)
    (hQueue : queue.WellFormed) (hRetires : Retires queue count after)
    (hLeft : done + count - before < handle.size.toNat) :
    after.Refers handle before (done + count) := by
  obtain ⟨front, parts, back, start, hAt⟩ := h
  obtain ⟨retired, hChunks, hPosition⟩ := hRetires.chunks_eq
  have hStart := hAt.start_le
  have hBefore := hAt.position_eq
  have hSum := hAt.tiles.sum_size
  have hSealed {some : List Handle} (hSome : some ⊆ parts) :
      ((some.map Chunk.sealed).flatMap Chunk.bytes).length =
        sumOf (fun part => part.size.toNat) some := by
    rw [← sum_toNat_size, sumOf_map]
    · rfl
    · intro chunk hm
      refine hQueue.chunks_wellFormed chunk ?_
      rw [hAt.chunks_eq]
      exact List.mem_append_right _ (List.mem_append_left _ (List.map_subset _ hSome hm))
  rcases List.append_eq_append_iff.mp (hAt.chunks_eq.symm.trans hChunks) with
    ⟨more, hRetired, hRest⟩ | ⟨kept, hFront, hRest⟩
  · rw [hRetired, List.flatMap_append, List.length_append] at hPosition
    rcases List.append_eq_append_iff.mp hRest with ⟨beyond, hMore, _⟩ | ⟨kept, hMore, hAfter⟩
    · -- All windows would be retired, although bytes in them have not been consumed.
      rw [hMore, List.flatMap_append, List.length_append, hSealed (List.Subset.refl _)] at hPosition
      omega
    · obtain ⟨gone, rest, rfl, hGone, rfl⟩ := List.map_eq_append_iff.mp hMore
      rw [← hGone, hSealed (List.subset_append_left _ _)] at hPosition
      exact ⟨[], rest, back, _, hAfter, hAt.tiles.drop, by omega, by simp; omega⟩
  · rw [hFront, List.flatMap_append, List.length_append] at hBefore
    exact ⟨kept, parts, back, start, hRest, hAt.tiles, by omega, by omega⟩

theorem Refers.apply (h : queue.Refers handle before done) (hQueue : queue.WellFormed)
    {operation : Operation} (hBounds : operation.InBounds)
    (hAfter : (queue.apply operation).WellFormed)
    (hLeft : done + (queue.leaving operation).length - before < handle.size.toNat) :
    (queue.apply operation).Refers handle before (done + (queue.leaving operation).length) := by
  by_cases hTail : operation.AtTail
  · rw [queue.leaving_of_atTail hTail] at hLeft ⊢
    exact h.grow (grows_apply hQueue.toConsistent hTail hBounds) hLeft
  · exact h.retire hQueue (hQueue.retires hBounds hTail hAfter) hLeft

/-- Whatever else happens, windows stay as long as bytes in them have not been consumed. -/
theorem Refers.run (h : queue.Refers handle before done) (hQueue : queue.WellFormed)
    {operations : List Operation} (admissible : queue.Admissible operations)
    (hLeft : done + (queue.consumed operations).length - before < handle.size.toNat) :
    (queue.run operations).Refers handle before (done + (queue.consumed operations).length) := by
  induction operations generalizing queue done with
  | nil => exact h
  | cons operation rest ih =>
    obtain ⟨hBounds, hBound, hRest⟩ := admissible
    have hAfter := hQueue.apply hBounds hBound
    rw [consumed, List.length_append, ← Nat.add_assoc] at hLeft ⊢
    exact ih (h.apply hQueue hBounds hAfter (by omega)) hAfter hRest hLeft

/-! What is handed out of the windows onto a handle. -/

theorem WellFormed.headOffset_lt_sealed (h : queue.WellFormed) {head : Handle} {rest : List Chunk}
    (hChunks : queue.chunks = .sealed head :: rest) :
    queue.headOffset.toNat < head.size.toNat ∧ head.InBounds := by
  have hHead := h.chunks_wellFormed (.sealed head) (by rw [hChunks]; exact List.mem_cons_self)
  have hCursor := h.cursor
  rw [hChunks] at hCursor
  exact ⟨hHead.2.length_eq ▸ hCursor, hHead.2⟩

theorem Cursor.of_append {offset : UInt64} {front rest : List Chunk}
    (h : Cursor offset (front ++ rest)) (hFront : front ≠ []) : Cursor offset front := by
  obtain ⟨head, others, rfl⟩ := List.exists_cons_of_ne_nil hFront
  exact h

theorem release_sealed (head : Handle) (rest : List Chunk) {offset : UInt64}
    (hOffset : offset.toNat < head.size.toNat) :
    release (.sealed head :: rest) offset =
      ⟨head.array, head.start + offset, head.size - offset⟩ :: rest.map Chunk.release := by
  have hRest := Word.toNat_sub_of_le (Nat.le_of_lt hOffset)
  have hNonzero : head.size - offset ≠ 0 := by
    intro hn
    rw [hn, UInt64.toNat_zero] at hRest
    omega
  have hFits : offset.toNat + (head.size - offset).toNat ≤ head.size.toNat := by omega
  have hSlice := Handle.slice_eq_ok hFits hNonzero
  by_cases h0 : offset = 0
  · simp [release, h0, Chunk.release]
  · simp [release, h0, Chunk.release, hSlice, Except.toOption]

theorem release_append {front : List Chunk} (hFront : front ≠ []) (rest : List Chunk)
    (offset : UInt64) :
    release (front ++ rest) offset = release front offset ++ rest.map Chunk.release := by
  obtain ⟨head, others, rfl⟩ := List.exists_cons_of_ne_nil hFront
  simp [release]

theorem map_release_sealed (parts : List Handle) :
    (parts.map Chunk.sealed).map Chunk.release = parts := by
  rw [List.map_map]
  exact List.map_id parts

theorem outcome_drain (queue : Queue) :
    queue.outcome .drain = .drained (release queue.chunks queue.headOffset) := rfl

/-- Bytes that lie in a sealed head chunk are taken as a slice of it. -/
theorem WellFormed.outcome_take_sealed (h : queue.WellFormed) {head : Handle} {rest : List Chunk}
    (hChunks : queue.chunks = .sealed head :: rest) {count : UInt64} (h0 : count ≠ 0)
    (hFits : count ≤ head.size - queue.headOffset) :
    queue.outcome (.take count) =
      .taken ⟨head.array, head.start + queue.headOffset, count⟩ := by
  obtain ⟨hOffset, hb⟩ := h.headOffset_lt_sealed hChunks
  have hCount := UInt64.le_iff_toNat_le.mp hFits
  rw [Word.toNat_sub_of_le (Nat.le_of_lt hOffset)] at hCount
  have hLe : count ≤ queue.size := by
    have hLength := h.length_content
    rw [stored, hChunks, List.flatMap_cons, List.length_append, Chunk.bytes_sealed,
      Handle.length_bytes, hb.length_eq] at hLength
    rw [UInt64.le_iff_toNat_le, h.size_eq]
    omega
  have hHead : queue.store.head? = some (.sealed head) := by
    rw [ChunkStore.head?_eq]
    exact List.head?_eq_some_iff.mpr ⟨rest, hChunks⟩
  have hWithin : queue.headOffset.toNat + count.toNat ≤ head.size.toNat := by omega
  have hSlice := Handle.slice_eq_ok hWithin h0
  have hFirst : (firstBytes { queue with projected := 0 } count).value =
      .ok ({ queue with projected := 0 },
        ⟨head.array, head.start + queue.headOffset, count⟩) := by
    unfold firstBytes
    dsimp only
    rw [hHead]
    dsimp only
    rw [if_pos hFits, hSlice]
    rfl
  rw [outcome, value_take hLe h0, hFirst]

/-- With chunks ahead none of the handle's bytes have been consumed; with none, the cursor is in
the first window. -/
theorem RefersAt.cases_front {front back : List Chunk} {parts : List Handle} {start : Nat}
    (h : queue.RefersAt handle before done front parts back start) (hQueue : queue.WellFormed)
    (hLeft : done - before < handle.size.toNat) :
    (front ≠ [] ∧ done < before ∧ start = 0) ∨
      ∃ head rest, front = [] ∧ parts = head :: rest ∧ before ≤ done ∧
        done - before = start + queue.headOffset.toNat := by
  have hStart := h.start_le
  have hPosition := h.position_eq
  cases front with
  | nil =>
    right
    cases parts with
    | nil =>
      have hAll : start = handle.size.toNat := h.tiles
      omega
    | cons head rest =>
      refine ⟨head, rest, rfl, rfl, ?_, ?_⟩
      · simp at hPosition
        omega
      · simp at hPosition
        omega
  | cons first others =>
    left
    have hCursor := hQueue.cursor
    rw [h.chunks_eq] at hCursor
    have hOffset : queue.headOffset.toNat < first.length := hCursor
    rw [List.flatMap_cons, List.length_append, Chunk.length_bytes] at hPosition
    exact ⟨nofun, by omega, by omega⟩

/-- Drained handles, as long as something is ahead of the windows: these are handed out whole. -/
theorem RefersAt.drain_behind {front back : List Chunk} {parts : List Handle}
    (h : queue.RefersAt handle before done front parts back 0) (hQueue : queue.WellFormed)
    (hFront : front ≠ []) :
    ∃ ahead behind, queue.outcome .drain = .drained (ahead ++ (parts ++ behind)) ∧
      (ahead.flatMap Handle.bytes).length = before - done := by
  have hChunks := h.chunks_eq
  have hPosition := h.position_eq
  have hCursor : Cursor queue.headOffset front := by
    have hCursor := hQueue.cursor
    rw [hChunks] at hCursor
    exact hCursor.of_append hFront
  have hWellFormed : ∀ chunk ∈ front, chunk.WellFormed := fun chunk hm =>
    hQueue.chunks_wellFormed chunk (by rw [hChunks]; exact List.mem_append_left _ hm)
  refine ⟨release front queue.headOffset, back.map Chunk.release, ?_, ?_⟩
  · rw [outcome_drain, hChunks, release_append hFront, List.map_append, map_release_sealed]
  · rw [(release_spec hWellFormed hCursor).1, List.length_drop]
    omega

/-- Drained handles, where the cursor is in the first window: what is left of it is handed out. -/
theorem RefersAt.drain_head {back : List Chunk} {head : Handle} {rest : List Handle} {start : Nat}
    (h : queue.RefersAt handle before done [] (head :: rest) back start)
    (hQueue : queue.WellFormed) :
    ∃ parts behind, queue.outcome .drain = .drained (parts ++ behind) ∧
      handle.Tiles (start + queue.headOffset.toNat) parts := by
  have hChunks : queue.chunks = .sealed head :: (rest.map Chunk.sealed ++ back) := h.chunks_eq
  obtain ⟨hOffset, hb⟩ := hQueue.headOffset_lt_sealed hChunks
  refine ⟨⟨head.array, head.start + queue.headOffset, head.size - queue.headOffset⟩ :: rest,
    back.map Chunk.release, ?_, h.tiles.trim hb hOffset⟩
  rw [outcome_drain, hChunks, release_sealed head _ hOffset, List.map_append, map_release_sealed]
  rfl

/-- Drained handles: what is ahead, the windows onto the bytes of the handle that are left, and
what is behind. -/
theorem Refers.drain (h : queue.Refers handle before done) (hQueue : queue.WellFormed)
    (hLeft : done - before < handle.size.toNat) :
    ∃ ahead parts behind, queue.outcome .drain = .drained (ahead ++ (parts ++ behind)) ∧
      handle.Tiles (done - before) parts ∧
      (ahead.flatMap Handle.bytes).length = before - done := by
  obtain ⟨front, parts, back, start, hAt⟩ := h
  rcases hAt.cases_front hQueue hLeft with
    ⟨hFront, hAhead, rfl⟩ | ⟨head, rest, rfl, rfl, hLe, hDone⟩
  · obtain ⟨ahead, behind, hOutcome, hLength⟩ := hAt.drain_behind hQueue hFront
    rw [Nat.sub_eq_zero_of_le (Nat.le_of_lt hAhead)]
    exact ⟨ahead, parts, behind, hOutcome, hAt.tiles, hLength⟩
  · obtain ⟨parts, behind, hOutcome, hTiles⟩ := hAt.drain_head hQueue
    rw [Nat.sub_eq_zero_of_le hLe, hDone]
    exact ⟨[], parts, behind, hOutcome, hTiles, rfl⟩

/-- Where the bytes of the handle are in front, a slice of the head chunk is one of its array. -/
theorem Refers.take (h : queue.Refers handle before done) (hQueue : queue.WellFormed)
    (hFront : before ≤ done) (hLeft : done - before < handle.size.toNat) :
    ∃ head rest, queue.chunks = .sealed head :: rest ∧ ∀ count, count ≠ 0 →
      count ≤ head.size - queue.headOffset → ∃ taken, queue.outcome (.take count) = .taken taken ∧
        taken.array = handle.array ∧ taken.start.toNat = handle.start.toNat + (done - before) ∧
        taken.size = count := by
  obtain ⟨front, parts, back, start, hAt⟩ := h
  rcases hAt.cases_front hQueue hLeft with ⟨_, hAhead, _⟩ | ⟨head, rest, rfl, rfl, _, hDone⟩
  · omega
  · have hChunks : queue.chunks = .sealed head :: (rest.map Chunk.sealed ++ back) := hAt.chunks_eq
    obtain ⟨hOffset, hb⟩ := hQueue.headOffset_lt_sealed hChunks
    obtain ⟨hArray, hStart, _, _⟩ := hAt.tiles
    have hWindow := hb.window_lt
    refine ⟨head, _, hChunks, fun count h0 hFits =>
      ⟨_, hQueue.outcome_take_sealed hChunks h0 hFits, hArray, ?_, rfl⟩⟩
    rw [Word.toNat_add_of_lt (by omega), hStart, hDone, Nat.add_assoc]

end Queue

end ByteQueue
