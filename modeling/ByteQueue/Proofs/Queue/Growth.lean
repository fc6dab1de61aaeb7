import ByteQueue.Proofs.Queue.Invariant
import ByteQueue.Queue.Append

/-! Growth: all that appending, absorbing and sealing can do to a queue, as a few elementary
steps at its tail. What such steps keep is proved once for each of them; every operation that
adds bytes is then a sequence of such steps. -/
namespace ByteQueue.Queue

open Logged

/-- `after` comes from `before` by elementary steps at the tail, which add `data` together. -/
inductive Grows : Queue → Bytes → Queue → Prop where
  | nothing (queue : Queue) : Grows queue [] queue
  | fill {queue : Queue} {tail : FillingChunk} {data : Block}
      (last : queue.store.last? = some (.filling tail)) (fits : data.size ≤ tail.spare) :
      Grows queue data.bytes
        { queue with
          store := queue.store.setLast (.filling (tail.append data))
          size := queue.size + data.size }
  | copy {queue : Queue} {piece : Block} (pos : 0 < piece.length) :
      Grows queue piece.bytes (queue.pushCopy piece).value
  | refer {queue : Queue} {handle : Handle} (wellFormed : (Chunk.sealed handle).WellFormed) :
      Grows queue handle.bytes (queue.pushHandle handle)
  | sealing {queue : Queue} {tail : FillingChunk}
      (last : queue.store.last? = some (.filling tail))
      (wellFormed : (Chunk.filling tail).WellFormed) :
      Grows queue [] { queue with store := queue.store.setLast (.sealed tail.release) }
  | trans {before between after : Queue} {first second : Bytes}
      (left : Grows before first between) (right : Grows between second after) :
      Grows before (first ++ second) after

theorem exists_chunks_eq {queue : Queue} {last : Chunk} (h : queue.store.last? = some last) :
    ∃ earlier, queue.chunks = earlier ++ [last] ∧
      ∀ replacing, (queue.store.setLast replacing).toList = earlier ++ [replacing] := by
  rw [ChunkStore.last?_eq] at h
  obtain ⟨earlier, he⟩ := List.getLast?_eq_some_iff.mp h
  exact ⟨earlier, he, by simp [he]⟩

/-- Growth changes neither the cursor nor what may be confirmed. -/
theorem Grows.frame {before after : Queue} {data : Bytes} (h : Grows before data after) :
    after.settings = before.settings ∧ after.headOffset = before.headOffset ∧
      after.projected = before.projected := by
  induction h with
  | nothing queue => exact ⟨rfl, rfl, rfl⟩
  | fill last fits => exact ⟨rfl, rfl, rfl⟩
  | copy pos => exact ⟨rfl, rfl, rfl⟩
  | refer wellFormed => exact ⟨rfl, rfl, rfl⟩
  | sealing last wellFormed => exact ⟨rfl, rfl, rfl⟩
  | trans left right ihl ihr =>
    exact ⟨ihr.1.trans ihl.1, ihr.2.1.trans ihl.2.1, ihr.2.2.trans ihl.2.2⟩

theorem Grows.stored_eq {before after : Queue} {data : Bytes} (h : Grows before data after) :
    after.stored = before.stored ++ data := by
  induction h with
  | nothing queue => simp
  | @fill queue tail data last fits =>
    obtain ⟨earlier, he, hs⟩ := exists_chunks_eq last
    rw [stored, stored, chunks, hs, he]
    simp
  | @copy queue piece pos => exact stored_pushCopy queue piece
  | refer wellFormed => simp [stored, chunks, pushHandle]
  | @sealing queue tail last wellFormed =>
    obtain ⟨earlier, he, hs⟩ := exists_chunks_eq last
    rw [stored, stored, chunks, hs, he]
    simp only [List.flatMap_append, List.flatMap_singleton, List.append_nil,
      Chunk.bytes_release wellFormed, Chunk.bytes_filling]
  | trans left right ihl ihr => rw [ihr, ihl, List.append_assoc]

theorem Grows.content_eq {before after : Queue} {data : Bytes} (h : Grows before data after)
    (hBefore : before.Consistent) : after.content = before.content ++ data := by
  rw [content, h.stored_eq, h.frame.2.1, List.drop_append_of_le_length hBefore.headOffset_le]
  rfl

/-- A chunk has room for the bytes that it is allocated for, under any sizing rule. -/
theorem le_capacityFor (queue : Queue) (count : UInt64) : count ≤ queue.capacityFor count := by
  rw [capacityFor, UInt64.le_iff_toNat_le, Word.toNat_max]
  exact Nat.le_max_right _ _

/-- What a growing queue needs to stay consistent: its chunks and their count of bytes. -/
theorem Consistent.grow {before after : Queue} {data : Bytes} (hBefore : before.Consistent)
    (hGrows : Grows before data after) (hChunks : ∀ chunk ∈ after.chunks, chunk.WellFormed)
    (hCursor : Cursor before.headOffset after.chunks)
    (hSize : after.size.toNat = before.size.toNat + data.length) : after.Consistent where
  valid := hGrows.frame.1 ▸ hBefore.valid
  chunks_wellFormed := hChunks
  cursor := hGrows.frame.2.1.symm ▸ hCursor
  size_eq := by rw [hGrows.content_eq hBefore, List.length_append, hSize, hBefore.size_eq]

/-- A well-formed chunk at the end, in place of a shorter last one. -/
theorem Consistent.replace {before after : Queue} {data : Bytes} (hBefore : before.Consistent)
    (hGrows : Grows before data after) {last replacing : Chunk}
    (hLast : before.store.last? = some last) (hLength : last.length ≤ replacing.length)
    (hReplacing : replacing.WellFormed)
    (hStore : after.store = before.store.setLast replacing)
    (hSize : after.size.toNat = before.size.toNat + data.length) : after.Consistent := by
  obtain ⟨earlier, he, hs⟩ := exists_chunks_eq hLast
  have hAfter : after.chunks = earlier ++ [replacing] := by rw [chunks, hStore, hs]
  have hChunks := hBefore.chunks_wellFormed
  have hCursor := hBefore.cursor
  rw [he] at hChunks hCursor
  refine hBefore.grow hGrows ?_ ?_ hSize
  · rw [hAfter]
    intro chunk hm
    rcases List.mem_append.mp hm with hm | hm
    · exact hChunks chunk (List.mem_append_left _ hm)
    · rw [List.mem_singleton.mp hm]
      exact hReplacing
  · rw [hAfter]
    exact hCursor.setLast hLength

/-- A well-formed chunk behind the others. -/
theorem Consistent.push {before after : Queue} {data : Bytes} (hBefore : before.Consistent)
    (hGrows : Grows before data after) {last : Chunk} (hLast : last.WellFormed)
    (hStore : after.store = before.store.push last)
    (hSize : after.size.toNat = before.size.toNat + data.length) : after.Consistent := by
  have hAfter : after.chunks = before.chunks ++ [last] := by
    rw [chunks, hStore, ChunkStore.toList_push]
    rfl
  have hAdded : ∀ chunk ∈ [last], chunk.WellFormed := by
    intro chunk hm
    rw [List.mem_singleton.mp hm]
    exact hLast
  refine hBefore.grow hGrows ?_ ?_ hSize
  · rw [hAfter]
    intro chunk hm
    rcases List.mem_append.mp hm with hm | hm
    · exact hBefore.chunks_wellFormed chunk hm
    · exact hAdded chunk hm
  · rw [hAfter]
    exact hBefore.cursor.append hAdded

theorem Consistent.tail_wellFormed {queue : Queue} (h : queue.Consistent) {last : Chunk}
    (hLast : queue.store.last? = some last) : last.WellFormed := by
  obtain ⟨earlier, he, _⟩ := exists_chunks_eq hLast
  exact h.chunks_wellFormed last (by rw [he]; simp)

/-- Growth keeps a queue consistent as long as its bytes can be counted by a word. -/
theorem Grows.consistent {before after : Queue} {data : Bytes} (h : Grows before data after)
    (hBefore : before.Consistent) (hBound : before.content.length + data.length < 2 ^ 64) :
    after.Consistent := by
  induction h with
  | nothing queue => exact hBefore
  | @fill queue tail data last fits =>
    have hTail := hBefore.tail_wellFormed last
    rw [Block.length_bytes] at hBound
    have hData : data.size.toNat = data.length := Block.toNat_size (by omega)
    have hRoom := Chunk.fits_of_size_le_spare hTail (by omega) fits
    refine hBefore.replace (.fill last fits) last ?_ (Chunk.wellFormed_append hTail hRoom) rfl ?_
    · exact Nat.le_add_left tail.length data.length
    · rw [Block.length_bytes, ← hData]
      exact Word.toNat_add_of_lt (by rw [hData, hBefore.size_eq]; exact hBound)
  | @copy queue piece pos =>
    rw [Block.length_bytes] at hBound
    have hPiece : piece.size.toNat = piece.length := Block.toNat_size (by omega)
    have hRoom : piece.length ≤ (queue.capacityFor piece.size).toNat := by
      have := UInt64.le_iff_toNat_le.mp (queue.le_capacityFor piece.size)
      rwa [hPiece] at this
    refine hBefore.push (.copy pos) (Chunk.wellFormed_ofBlock pos hRoom) rfl ?_
    rw [Block.length_bytes, ← hPiece]
    exact Word.toNat_add_of_lt (by rw [hPiece, hBefore.size_eq]; exact hBound)
  | @refer queue handle wellFormed =>
    rw [Handle.length_bytes, wellFormed.2.length_eq] at hBound
    refine hBefore.push (.refer wellFormed) wellFormed rfl ?_
    rw [Handle.length_bytes, wellFormed.2.length_eq]
    exact Word.toNat_add_of_lt (by rw [hBefore.size_eq]; exact hBound)
  | sealing last wellFormed =>
    refine hBefore.replace (.sealing last wellFormed) last ?_
      (Chunk.wellFormed_release wellFormed) rfl rfl
    exact Nat.le_of_eq (Chunk.length_release wellFormed).symm
  | trans left right ihl ihr =>
    rw [List.length_append] at hBound
    have hBetween := ihl hBefore (by omega)
    refine ihr hBetween ?_
    rw [left.content_eq hBefore, List.length_append]
    omega

/-- Where bytes are added piece by piece, the rest can still be counted after the first one. -/
theorem Grows.next {before after : Queue} {first rest : Bytes} (h : Grows before first after)
    (hBefore : before.Consistent)
    (hBound : before.content.length + (first ++ rest).length < 2 ^ 64) :
    after.Consistent ∧
      after.content.length + rest.length = before.content.length + (first ++ rest).length := by
  rw [List.length_append] at hBound ⊢
  refine ⟨h.consistent hBefore (by omega), ?_⟩
  rw [h.content_eq hBefore, List.length_append]
  omega

theorem Grows.wellFormed {before after : Queue} {data : Bytes} (h : Grows before data after)
    (hBefore : before.WellFormed) (hBound : before.content.length + data.length < 2 ^ 64) :
    after.WellFormed where
  toConsistent := h.consistent hBefore.toConsistent hBound
  projected_le := by
    have hAfter := (h.consistent hBefore.toConsistent hBound).size_eq
    have hLe := UInt64.le_iff_toNat_le.mp hBefore.projected_le
    rw [h.content_eq hBefore.toConsistent, List.length_append] at hAfter
    rw [h.frame.2.2, UInt64.le_iff_toNat_le, hAfter, ← hBefore.size_eq]
    omega

/-- The growth by copies alone: into the tail chunk, or into chunks of the queue's own. -/
inductive Fills : Queue → Bytes → Queue → Prop where
  | nothing (queue : Queue) : Fills queue [] queue
  | fill {queue : Queue} {tail : FillingChunk} {data : Block}
      (last : queue.store.last? = some (.filling tail)) (fits : data.size ≤ tail.spare) :
      Fills queue data.bytes
        { queue with
          store := queue.store.setLast (.filling (tail.append data))
          size := queue.size + data.size }
  | copy {queue : Queue} {piece : Block} (pos : 0 < piece.length) :
      Fills queue piece.bytes (queue.pushCopy piece).value
  | trans {before between after : Queue} {first second : Bytes}
      (left : Fills before first between) (right : Fills between second after) :
      Fills before (first ++ second) after

theorem Fills.grows {before after : Queue} {data : Bytes} (h : Fills before data after) :
    Grows before data after := by
  induction h with
  | nothing queue => exact .nothing queue
  | fill last fits => exact .fill last fits
  | copy pos => exact .copy pos
  | trans left right ihl ihr => exact ihl.trans ihr

/-! The operations that add bytes. -/

/-- What was added to the tail chunk had room there. -/
theorem exists_tail_of_coalesce {queue : Queue} {data : Block} {coalesced : Logged Event Queue}
    (h : queue.coalesce? data = some coalesced) :
    ∃ tail, queue.store.last? = some (.filling tail) ∧ data.size ≤ tail.spare ∧
      coalesced.value = { queue with
        store := queue.store.setLast (.filling (tail.append data))
        size := queue.size + data.size } := by
  unfold coalesce? at h
  split at h
  · next tail hLast =>
    split at h
    · cases h
    · next hRoom =>
      cases h
      exact ⟨tail, hLast, UInt64.not_lt.mp hRoom, rfl⟩
  · cases h

theorem coalesce?_of_room {queue : Queue} {data : Block} {tail : FillingChunk}
    (hLast : queue.store.last? = some (.filling tail)) (hRoom : data.size ≤ tail.spare) :
    ∃ coalesced, queue.coalesce? data = some coalesced := by
  unfold coalesce?
  rw [hLast]
  dsimp only
  rw [if_neg (UInt64.not_lt.mpr hRoom)]
  exact ⟨_, rfl⟩

/-- Data is not added to the tail chunk only if that has no room for it. -/
theorem spare_lt_of_coalesce_eq_none {queue : Queue} {data : Block}
    (h : queue.coalesce? data = none) {tail : FillingChunk}
    (hLast : queue.store.last? = some (.filling tail)) : tail.spare < data.size := by
  by_contra hn
  obtain ⟨coalesced, hSome⟩ := coalesce?_of_room hLast (UInt64.not_lt.mp hn)
  rw [h] at hSome
  cases hSome

theorem fills_coalesce {queue : Queue} {data : Block} {coalesced : Logged Event Queue}
    (h : queue.coalesce? data = some coalesced) : Fills queue data.bytes coalesced.value := by
  obtain ⟨tail, hLast, hRoom, hValue⟩ := exists_tail_of_coalesce h
  rw [hValue]
  exact .fill hLast hRoom

/-- A relation between queues that adds up along a list holds of a fold if it holds of each of
its steps. -/
theorem foldl_adds_up {α : Type} {relation : Queue → Bytes → Queue → Prop}
    (nothing : ∀ queue, relation queue [] queue)
    (trans : ∀ {before between after first second}, relation before first between →
      relation between second after → relation before (first ++ second) after)
    (f : Queue → α → Queue) (bytes : α → Bytes) (elements : List α)
    (hStep : ∀ queue, ∀ element ∈ elements, relation queue (bytes element) (f queue element))
    (queue : Queue) : relation queue (elements.flatMap bytes) (elements.foldl f queue) := by
  induction elements generalizing queue with
  | nil => exact nothing queue
  | cons first rest ih =>
    have hFirst := hStep queue first List.mem_cons_self
    have hRest := ih (fun queue element hm => hStep queue element (List.mem_cons_of_mem _ hm))
      (f queue first)
    exact trans hFirst hRest

theorem value_foldlM {α : Type} (f : Queue → α → Logged Event Queue) (elements : List α)
    (queue : Queue) :
    (elements.foldlM f queue).value =
      elements.foldl (fun queue element => (f queue element).value) queue := by
  induction elements generalizing queue with
  | nil => rfl
  | cons first rest ih => rw [List.foldlM_cons, value_bind, ih, List.foldl_cons]

/-- The chunks for copies of some pieces, as they are allocated one after the other. -/
def copies : Queue → List Block → List FillingChunk
  | _, [] => []
  | queue, piece :: rest =>
    .ofBlock queue.nextArray (queue.capacityFor piece.size) piece ::
      copies (queue.pushCopy piece).value rest

theorem map_bytes_copies (queue : Queue) (pieces : List Block) :
    (queue.copies pieces).map FillingChunk.bytes = pieces.map Block.bytes := by
  induction pieces generalizing queue with
  | nil => rfl
  | cons first rest ih => rw [copies, List.map_cons, List.map_cons, ih, FillingChunk.bytes_ofBlock]

/-- New chunks come behind the others, one for each piece. -/
theorem chunks_foldl_pushCopy (queue : Queue) (pieces : List Block) :
    (pieces.foldl (fun queue piece => (queue.pushCopy piece).value) queue).chunks =
      queue.chunks ++ (queue.copies pieces).map Chunk.filling := by
  induction pieces generalizing queue with
  | nil => exact (List.append_nil _).symm
  | cons first rest ih =>
    have hPush : (queue.pushCopy first).value.chunks =
        queue.chunks ++
          [.filling (.ofBlock queue.nextArray (queue.capacityFor first.size) first)] :=
      ChunkStore.toList_push ..
    rw [List.foldl_cons, ih, hPush, List.append_assoc]
    rfl

theorem chunks_pushCopies (queue : Queue) (data : Block) :
    (queue.pushCopies data).value.chunks =
      queue.chunks ++ (queue.copies (data.pieces queue.sizing.greatest.toNat)).map .filling := by
  rw [pushCopies, fold_eq, value_foldlM, chunks_foldl_pushCopy]

theorem fills_pushCopies (queue : Queue) (data : Block) :
    Fills queue data.bytes (queue.pushCopies data).value := by
  have hBytes := data.flatMap_bytes_pieces queue.sizing.greatest.toNat
  rw [pushCopies, fold_eq, value_foldlM, ← hBytes]
  refine foldl_adds_up .nothing .trans _ _ _ (fun _ piece hm => .copy ?_) queue
  rw [← Block.length_bytes]
  exact List.length_pos_iff.mpr (Bytes.ne_nil_of_mem_pieces (Block.bytes_mem_pieces hm))

/-- What appending comes to: nothing for no data; else the data gets into the tail chunk, or into
chunks of its own. -/
theorem append_cases (queue : Queue) (data : Block) :
    (data.bytes = [] ∧ (queue.append data).value = queue) ∨
      (∃ coalesced, data.bytes ≠ [] ∧ queue.coalesce? data = some coalesced ∧
        (queue.append data).value = coalesced.value) ∨
      (data.bytes ≠ [] ∧ queue.coalesce? data = none ∧
        (queue.append data).value = (queue.pushCopies data).value) := by
  by_cases hData : data.bytes = []
  · rw [append, if_pos (Block.isEmpty_iff.mpr hData)]
    exact .inl ⟨hData, rfl⟩
  · rw [append, if_neg (mt Block.isEmpty_iff.mp hData), copyIn]
    cases hCoalesced : queue.coalesce? data with
    | some coalesced => exact .inr (.inl ⟨coalesced, hData, rfl, rfl⟩)
    | none => exact .inr (.inr ⟨hData, rfl, rfl⟩)

theorem fills_append (queue : Queue) (data : Block) :
    Fills queue data.bytes (queue.append data).value := by
  rcases queue.append_cases data with
    ⟨hNone, hValue⟩ | ⟨coalesced, _, hSome, hValue⟩ | ⟨_, _, hValue⟩
  · rw [hValue, hNone]
    exact .nothing queue
  · rw [hValue]
    exact fills_coalesce hSome
  · rw [hValue]
    exact fills_pushCopies queue data

theorem fills_appendAll (queue : Queue) (pieces : List Block) :
    Fills queue (pieces.flatMap Block.bytes) (queue.appendAll pieces).value := by
  rw [appendAll, fold_eq, value_foldlM]
  exact foldl_adds_up .nothing .trans _ _ _ (fun queue piece _ => fills_append queue piece) queue

theorem grows_append (queue : Queue) (data : Block) :
    Grows queue data.bytes (queue.append data).value :=
  (fills_append queue data).grows

theorem grows_appendAll (queue : Queue) (pieces : List Block) :
    Grows queue (pieces.flatMap Block.bytes) (queue.appendAll pieces).value :=
  (fills_appendAll queue pieces).grows

theorem value_pushReference (queue : Queue) (handle : Handle) :
    (queue.pushReference handle).value =
      if queue.sizing.greatest = 0 ∨ handle.size ≤ queue.sizing.greatest then
        queue.pushHandle handle
      else (handle.pieces queue.sizing.greatest).foldl pushHandle queue := by
  unfold pushReference
  dsimp only
  split <;> rfl

theorem grows_pushReference (queue : Queue) {handle : Handle}
    (hHandle : (Chunk.sealed handle).WellFormed) :
    Grows queue handle.bytes (queue.pushReference handle).value := by
  rw [value_pushReference]
  split
  · exact .refer hHandle
  · next h =>
    have hLimit : queue.sizing.greatest ≠ 0 := fun hn => h (.inl hn)
    have hBytes : (handle.pieces queue.sizing.greatest).flatMap Handle.bytes = handle.bytes := by
      rw [List.flatMap_def, Handle.map_bytes_pieces hHandle.2 hLimit, Bytes.flatten_pieces]
    rw [← hBytes]
    exact foldl_adds_up .nothing .trans _ _ _
      (fun _ part hm => .refer (Handle.wellFormed_of_mem_pieces hHandle.2 hLimit hm)) queue

/-- There is nothing to absorb in an empty handle. -/
theorem absorb_of_size_eq_zero (queue : Queue) {handle : Handle} (h0 : handle.size = 0) :
    (queue.absorb handle).value = queue := by
  rw [absorb, if_pos (Handle.isEmpty_iff.mpr h0)]
  rfl

theorem grows_absorb (queue : Queue) {handle : Handle} (hHandle : handle.InBounds) :
    Grows queue handle.bytes (queue.absorb handle).value := by
  by_cases h0 : handle.size = 0
  · rw [hHandle.bytes_eq_nil h0, queue.absorb_of_size_eq_zero h0]
    exact .nothing queue
  · have hReferred := grows_pushReference queue ⟨Word.toNat_pos h0, hHandle⟩
    rw [absorb, if_neg (mt Handle.isEmpty_iff.mp h0)]
    split
    · split
      · next h => exact (fills_coalesce h).grows
      · exact hReferred
    · exact hReferred

theorem grows_sealTail {queue : Queue} (h : queue.Consistent) :
    Grows queue [] queue.sealTail.value := by
  unfold sealTail
  split
  · next tail ht => exact .sealing ht (h.tail_wellFormed ht)
  · exact .nothing queue

end ByteQueue.Queue
