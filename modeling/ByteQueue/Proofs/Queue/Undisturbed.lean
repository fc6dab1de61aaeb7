import ByteQueue.Proofs.Queue.Home
import ByteQueue.Proofs.Queue.Run
import ByteQueue.Proofs.Queue.Slices

/-! What is in a queue is not disturbed by operations at the tail. Every chunk stays at its position
in its array; only the last one may gain bytes, behind those that it has, or be sealed. So a slice
that was shown denotes the same bytes in memory as long as nothing but such operations follows. -/
namespace ByteQueue

/-- Some bytes of an array, from a position on. -/
structure Place where
  array : Option ArrayId
  start : Nat
  count : Nat
  deriving DecidableEq

/-- What is added behind some bytes is not in a window of them. -/
theorem Bytes.window_of_prefix {data more : Bytes} (h : data <+: more) {start count : Nat}
    (hFull : (data.window start count).length = count) :
    more.window start count = data.window start count := by
  obtain ⟨rest, rfl⟩ := h
  rw [Bytes.length_window] at hFull
  by_cases h0 : count = 0
  · rw [h0, Bytes.window, Bytes.window, List.take_zero, List.take_zero]
  · rw [Bytes.window, List.drop_append_of_le_length (by omega), Bytes.window,
      List.take_append_of_le_length (by rw [List.length_drop]; omega)]

namespace Chunk

/-- The array of a chunk, with the bytes that have been put into it so far. -/
def array? : Chunk → Option SharedArray
  | .filling chunk => some ⟨chunk.id, chunk.block⟩
  | .sealed handle => handle.array

/-- Where in its array a chunk begins. -/
def start : Chunk → UInt64
  | .filling _ => 0
  | .sealed handle => handle.start

/-- Where the bytes of a chunk are that follow its first `offset` ones. -/
def place (offset : Nat) (chunk : Chunk) : Place :=
  ⟨chunk.home?, chunk.start.toNat + offset, chunk.length - offset⟩

/-- The bytes at a place, if it is in the array of the chunk. -/
def read? (chunk : Chunk) (place : Place) : Option Bytes := do
  let array ← chunk.array?
  if place.array = some array.id then some (array.block.bytes.window place.start place.count)
  else none

/-- A chunk, and what it is after bytes may have been added: they are behind those that it had. -/
inductive Gains : Chunk → Chunk → Prop where
  | same (chunk : Chunk) : Gains chunk chunk
  | fill {tail later : FillingChunk} (id_eq : later.id = tail.id)
    (capacity_eq : later.capacity = tail.capacity) (bytes_kept : tail.bytes <+: later.bytes) :
    Gains (.filling tail) (.filling later)

/-- A chunk, and what it is after bytes may have been added and it may have been sealed. -/
inductive Persists : Chunk → Chunk → Prop where
  | gained {chunk later : Chunk} (gains : Gains chunk later) : Persists chunk later
  | sealed {chunk : Chunk} {later : FillingChunk} (gains : Gains chunk (.filling later))
    (wellFormed : (Chunk.filling later).WellFormed) : Persists chunk (.sealed later.release)

theorem Gains.trans {first second third : Chunk} (left : Gains first second)
    (right : Gains second third) : Gains first third := by
  cases left with
  | same => exact right
  | fill hId hCapacity hPrefix =>
    cases right with
    | same => exact .fill hId hCapacity hPrefix
    | fill hId' hCapacity' hPrefix' =>
      exact .fill (hId'.trans hId) (hCapacity'.trans hCapacity) (hPrefix.trans hPrefix')

/-- A sealed chunk does not change any more. -/
theorem Persists.eq_of_sealed {handle : Handle} {later : Chunk}
    (h : Persists (.sealed handle) later) : later = .sealed handle := by
  cases h with
  | gained gains =>
    cases gains with
    | same => rfl
  | sealed gains => cases gains

theorem Persists.trans {first second third : Chunk} (left : Persists first second)
    (right : Persists second third) : Persists first third := by
  cases left with
  | gained gains =>
    cases right with
    | gained gains' => exact .gained (gains.trans gains')
    | sealed gains' wellFormed => exact .sealed (gains.trans gains') wellFormed
  | sealed gains wellFormed =>
    rw [right.eq_of_sealed]
    exact .sealed gains wellFormed

theorem home?_eq (chunk : Chunk) : chunk.home? = chunk.array?.map SharedArray.id := by
  cases chunk <;> rfl

theorem Gains.array {chunk later : Chunk} (h : chunk.Gains later) {array : SharedArray}
    (hArray : chunk.array? = some array) :
    ∃ after, later.array? = some after ∧ after.id = array.id ∧
      array.block.bytes <+: after.block.bytes := by
  cases h with
  | same => exact ⟨array, hArray, rfl, List.prefix_refl _⟩
  | fill hId hCapacity hPrefix =>
    cases hArray
    exact ⟨_, rfl, hId, hPrefix⟩

/-- The array of a chunk is still its array, with all bytes that were there. -/
theorem Persists.array {chunk later : Chunk} (h : chunk.Persists later) {array : SharedArray}
    (hArray : chunk.array? = some array) :
    ∃ after, later.array? = some after ∧ after.id = array.id ∧
      array.block.bytes <+: after.block.bytes := by
  cases h with
  | gained gains => exact gains.array hArray
  | sealed gains => exact gains.array hArray

/-- All bytes at a place can be read there later on. -/
theorem Persists.read?_eq {chunk later : Chunk} (h : chunk.Persists later) {place : Place}
    {data : Bytes} (hRead : chunk.read? place = some data) (hFull : data.length = place.count) :
    later.read? place = some data := by
  unfold read? at hRead ⊢
  cases hArray : chunk.array? with
  | none =>
    rw [hArray] at hRead
    cases hRead
  | some array =>
    obtain ⟨after, hAfter, hId, hPrefix⟩ := h.array hArray
    rw [hArray] at hRead
    rw [hAfter]
    dsimp only [Option.bind_eq_bind, Option.bind_some] at hRead ⊢
    rw [hId]
    split at hRead
    · next hPlace =>
      have hData := Option.some.inj hRead
      rw [← hData] at hFull
      rw [if_pos hPlace, Bytes.window_of_prefix hPrefix hFull, hData]
    · cases hRead

/-- At the place of a chunk are its bytes. -/
theorem WellFormed.read?_place {chunk : Chunk} (h : chunk.WellFormed) (offset : Nat) :
    chunk.read? (chunk.place offset) = some (chunk.bytes.drop offset) := by
  cases chunk with
  | filling chunk =>
    have hAll : chunk.block.bytes.window (0 + offset) (chunk.length - offset) =
        chunk.block.bytes.drop offset := by
      rw [Nat.zero_add, Bytes.window, List.take_of_length_le]
      rw [List.length_drop, ← chunk.length_bytes]
      exact Nat.le_refl _
    exact (if_pos rfl).trans (congrArg some hAll)
  | sealed handle =>
    obtain ⟨hPos, hBounds⟩ := h
    have hLength : (sealed handle).length = handle.size.toNat := hBounds.length_eq
    unfold read? place
    rw [hLength, bytes_sealed, Handle.bytes_eq]
    cases hArray : handle.array with
    | none =>
      unfold Handle.InBounds at hBounds
      rw [hArray] at hBounds
      rw [show handle.size = 0 from hBounds] at hPos
      cases hPos
    | some array =>
      have hFound : (sealed handle).array? = some array := hArray
      have hHome : (sealed handle).home? = some array.id := by rw [home?_eq, hFound]; rfl
      rw [hFound, hHome]
      refine (if_pos rfl).trans (congrArg some ?_)
      show array.block.bytes.window (handle.start.toNat + offset) (handle.size.toNat - offset) =
        (array.block.bytes.window handle.start.toNat handle.size.toNat).drop offset
      rw [Bytes.window, Bytes.window, List.drop_take, List.drop_drop]

/-- A chunk that gives up its array for a handle shows the same place. -/
theorem WellFormed.place_release {chunk : Chunk} (h : chunk.WellFormed) :
    (sealed chunk.release).place 0 = chunk.place 0 := by
  cases chunk with
  | filling chunk =>
    show Place.mk (some chunk.id) 0 (sealed chunk.release).length = ⟨some chunk.id, 0, chunk.length⟩
    rw [length_release h]
  | sealed handle => rfl

end Chunk

namespace Queue

open Logged

/-- Each chunk is still there at its position, related to what it was; and only the last one can
have changed. -/
def Undisturbed (relation : Chunk → Chunk → Prop) (before after : List Chunk) : Prop :=
  ∀ position chunk, before[position]? = some chunk →
    ∃ later, after[position]? = some later ∧ relation chunk later ∧
      (position + 1 < before.length → later = chunk)

namespace Undisturbed

variable {relation : Chunk → Chunk → Prop} {first second third : List Chunk}

theorem push (hSame : ∀ chunk, relation chunk chunk) {added : List Chunk}
    (hSecond : second = first ++ added) : Undisturbed relation first second := by
  subst hSecond
  intro position chunk hChunk
  obtain ⟨hInside, _⟩ := List.getElem?_eq_some_iff.mp hChunk
  rw [List.getElem?_append_left hInside]
  exact ⟨chunk, hChunk, hSame chunk, fun _ => rfl⟩

theorem replace (hSame : ∀ chunk, relation chunk chunk) (earlier : List Chunk)
    {last replacing : Chunk} (hLast : relation last replacing) :
    Undisturbed relation (earlier ++ [last]) (earlier ++ [replacing]) := by
  intro position chunk hChunk
  by_cases hInner : position < earlier.length
  · rw [List.getElem?_append_left hInner] at hChunk ⊢
    exact ⟨chunk, hChunk, hSame chunk, fun _ => rfl⟩
  · have hLe : earlier.length ≤ position := Nat.le_of_not_lt hInner
    rw [List.getElem?_append_right hLe, List.getElem?_singleton] at hChunk ⊢
    split at hChunk
    · next h0 =>
      cases hChunk
      refine ⟨replacing, if_pos h0, hLast, fun hNotLast => ?_⟩
      rw [List.length_append, List.length_singleton] at hNotLast
      omega
    · cases hChunk

theorem trans (hTrans : ∀ {first second third}, relation first second → relation second third →
    relation first third) (left : Undisturbed relation first second)
    (right : Undisturbed relation second third) : Undisturbed relation first third := by
  intro position chunk hChunk
  obtain ⟨between, hBetween, hLeft, hSame⟩ := left position chunk hChunk
  obtain ⟨later, hLater, hRight, hSame'⟩ := right position between hBetween
  refine ⟨later, hLater, hTrans hLeft hRight, fun hInner => ?_⟩
  -- the chunk behind this one is still there in between
  obtain ⟨next, hNext⟩ : ∃ next, first[position + 1]? = some next :=
    ⟨_, List.getElem?_eq_getElem hInner⟩
  obtain ⟨_, hStill, _⟩ := left _ next hNext
  rw [hSame' (List.getElem?_eq_some_iff.mp hStill).1, hSame hInner]

/-- If the last chunk is as it was, so are all. -/
theorem isPrefix (h : Undisturbed relation first second)
    (hLast : ∀ last later, first.getLast? = some last → relation last later → later = last) :
    first <+: second := by
  rw [List.prefix_iff_getElem?]
  intro position hInside
  obtain ⟨later, hLater, hRelated, hSame⟩ := h position _ (List.getElem?_eq_getElem hInside)
  by_cases hInner : position + 1 < first.length
  · rw [hLater, hSame hInner]
  · have hEnd : first.getLast? = some first[position] := by
      rw [List.getLast?_eq_getElem?, List.getElem?_eq_getElem (by omega)]
      congr 2
      omega
    rw [hLater, hLast _ _ hEnd hRelated]

theorem mono (h : Undisturbed relation first second) {weaker : Chunk → Chunk → Prop}
    (hWeaker : ∀ {chunk later}, relation chunk later → weaker chunk later) :
    Undisturbed weaker first second := by
  intro position chunk hChunk
  obtain ⟨later, hLater, hRelated, hSame⟩ := h position chunk hChunk
  exact ⟨later, hLater, hWeaker hRelated, hSame⟩

end Undisturbed

/-- Copies leave the chunks of a queue where they are. -/
theorem Fills.undisturbed {before after : Queue} {data : Bytes} (h : Fills before data after) :
    Undisturbed Chunk.Gains before.chunks after.chunks := by
  induction h with
  | nothing queue => exact .push .same (List.append_nil _).symm
  | @fill queue tail data last fits =>
    obtain ⟨earlier, hBefore, hAfter⟩ := exists_chunks_eq last
    have hGains : Chunk.Gains (.filling tail) (.filling (tail.append data)) :=
      .fill rfl rfl (by rw [FillingChunk.bytes_append]; exact List.prefix_append ..)
    have hFilled := Undisturbed.replace .same earlier hGains
    rw [← hBefore, ← hAfter] at hFilled
    exact hFilled
  | @copy queue piece pos => exact .push .same (queue.store.toList_push _)
  | trans left right ihl ihr => exact ihl.trans Chunk.Gains.trans ihr

/-- So does all growth, by which the last chunk may also be sealed. -/
theorem Grows.undisturbed {before after : Queue} {data : Bytes} (h : Grows before data after) :
    Undisturbed Chunk.Persists before.chunks after.chunks := by
  induction h with
  | nothing queue => exact (Fills.nothing queue).undisturbed.mono .gained
  | fill last fits => exact (Fills.fill last fits).undisturbed.mono .gained
  | copy pos => exact (Fills.copy pos).undisturbed.mono .gained
  | @refer queue handle wellFormed =>
    exact .push (fun chunk => .gained (.same chunk)) (queue.store.toList_push _)
  | @sealing queue tail last wellFormed =>
    obtain ⟨earlier, hBefore, hAfter⟩ := exists_chunks_eq last
    have hSealed := Undisturbed.replace (fun chunk => .gained (.same chunk)) earlier
      (Chunk.Persists.sealed (.same _) wellFormed)
    rw [← hBefore, ← hAfter] at hSealed
    exact hSealed
  | trans left right ihl ihr => exact ihl.trans Chunk.Persists.trans ihr

/-- What an operation other than sealing leaves of the chunks. -/
theorem undisturbed_apply (queue : Queue) {operation : Operation} (hTail : operation.AtTail)
    (hAdds : operation ≠ .sealTail) (hBounds : operation.InBounds) :
    Undisturbed Chunk.Gains queue.chunks (queue.apply operation).chunks := by
  cases operation with
  | append data => exact (fills_append queue data).undisturbed
  | appendAll pieces => exact (fills_appendAll queue pieces).undisturbed
  | absorb handle =>
    by_cases hCopied : queue.Copies handle
    · exact (fills_absorb queue hBounds hCopied).undisturbed
    · by_cases h0 : handle.size = 0
      · rw [apply, queue.absorb_of_size_eq_zero h0]
        exact (Fills.nothing queue).undisturbed
      · obtain ⟨parts, _, hParts⟩ := (queue.chunks_absorb hBounds h0).2 hCopied
        exact .push .same hParts
  | sealTail => exact absurd rfl hAdds
  | project _ | projectAll | confirm _ | take _ | drain | clear => exact hTail.elim

theorem WellFormed.grows_run {queue : Queue} (h : queue.WellFormed) {operations : List Operation}
    (hTail : ∀ operation ∈ operations, operation.AtTail)
    (admissible : queue.Admissible operations) :
    Grows queue (operations.flatMap Operation.entering) (queue.run operations) := by
  induction operations generalizing queue with
  | nil => exact .nothing queue
  | cons operation rest ih =>
    obtain ⟨hBounds, hBound, hRest⟩ := admissible
    have hFirst := grows_apply h.toConsistent (hTail operation List.mem_cons_self) hBounds
    exact hFirst.trans (ih (h.apply hBounds hBound)
      (fun operation hm => hTail operation (List.mem_cons_of_mem _ hm)) hRest)

/-! Sealing. -/

/-- A queue without a filling chunk at its end is left as it is, and nothing is noted. -/
theorem sealTail_of_not_filling {queue : Queue}
    (hLast : ∀ tail, queue.chunks.getLast? ≠ some (.filling tail)) :
    queue.sealTail = pure queue := by
  unfold sealTail
  rw [ChunkStore.last?_eq]
  split
  · next tail hTail => exact absurd hTail (hLast tail)
  · rfl

theorem chunks_sealTail (queue : Queue) :
    queue.sealTail.value.chunks =
      queue.chunks.dropLast ++
        queue.chunks.getLast?.toList.map fun last => .sealed last.release := by
  unfold sealTail
  split
  · next tail hTail =>
    obtain ⟨earlier, hBefore, hAfter⟩ := exists_chunks_eq hTail
    rw [hBefore, List.dropLast_concat, List.getLast?_concat]
    exact hAfter _
  · next hOther =>
    show queue.chunks = _
    cases hEnd : queue.chunks.getLast? with
    | none =>
      rw [List.getLast?_eq_none_iff.mp hEnd]
      rfl
    | some last =>
      obtain ⟨earlier, hBefore⟩ := List.getLast?_eq_some_iff.mp hEnd
      cases last with
      | filling tail => exact absurd (queue.store.last?_eq.trans hEnd) (hOther tail)
      | sealed handle =>
        rw [hBefore, List.dropLast_concat]
        rfl

theorem getLast?_sealTail (queue : Queue) (tail : FillingChunk) :
    queue.sealTail.value.chunks.getLast? ≠ some (.filling tail) := by
  rw [chunks_sealTail]
  cases hEnd : queue.chunks.getLast? with
  | none =>
    rw [List.getLast?_eq_none_iff.mp hEnd]
    exact nofun
  | some last =>
    rw [Option.toList_some, List.map_singleton, List.getLast?_concat]
    exact nofun

/-- Behind a chunk that is not filling, bytes begin a chunk of their own. -/
theorem Consistent.exists_added {queue : Queue} (h : queue.Consistent)
    (hLast : ∀ tail, queue.chunks.getLast? ≠ some (.filling tail)) {operation : Operation}
    (hTail : operation.AtTail) (hBounds : operation.InBounds) (hSome : operation.entering ≠ []) :
    ∃ added, added ≠ [] ∧ (queue.apply operation).chunks = queue.chunks ++ added := by
  have hAdds : operation ≠ .sealTail := by
    rintro rfl
    exact hSome rfl
  have hUndisturbed := queue.undisturbed_apply hTail hAdds hBounds
  have hPrefix := hUndisturbed.isPrefix fun last later hEnd hGains => by
    cases hGains with
    | same => rfl
    | fill => exact absurd hEnd (hLast _)
  obtain ⟨added, hAdded⟩ := hPrefix
  refine ⟨added, ?_, hAdded.symm⟩
  rintro rfl
  have hStored := (grows_apply h hTail hBounds).stored_eq
  rw [List.append_nil] at hAdded
  rw [stored, ← hAdded, ← stored, List.self_eq_append_right] at hStored
  exact hSome hStored

/-! Slices in memory. -/

/-- Where the bytes of a slice are that a projection shows at some position. -/
def place? (queue : Queue) (position : Nat) : Option Place :=
  queue.chunks[position]?.map (Chunk.place (if position = 0 then queue.headOffset.toNat else 0))

/-- The bytes at a place, in the array of the chunk at some position. -/
def read? (queue : Queue) (position : Nat) (place : Place) : Option Bytes :=
  queue.chunks[position]?.bind (Chunk.read? · place)

theorem Consistent.read?_place {queue : Queue} (h : queue.Consistent) {limit : UInt64}
    {position : Nat} {slice : Block}
    (hSlice : (queue.project limit).value.2.slices[position]? = some slice) :
    ∃ place, queue.place? position = some place ∧ place.count = slice.length ∧
      queue.read? position place = some slice.bytes := by
  rw [slices_project, getElem?_remainders, Option.map_eq_some_iff] at hSlice
  obtain ⟨chunk, hShown, hSlice⟩ := hSlice
  have hChunk : queue.chunks[position]? = some chunk := by
    rw [List.getElem?_take] at hShown
    split at hShown
    · exact hShown
    · cases hShown
  have hWell := h.chunks_wellFormed chunk (List.mem_of_getElem? hChunk)
  have hBytes : slice.bytes =
      chunk.bytes.drop (if position = 0 then queue.headOffset.toNat else 0) := by
    rw [← hSlice]
    split
    · exact bytes_remainder ..
    · rfl
  refine ⟨chunk.place (if position = 0 then queue.headOffset.toNat else 0), ?_, ?_, ?_⟩
  · rw [place?, hChunk, Option.map_some]
  · rw [← Block.length_bytes, hBytes, List.length_drop, Chunk.length_bytes]
    rfl
  · rw [read?, hChunk, Option.bind_some, hWell.read?_place, hBytes]

theorem Undisturbed.read? {queue after : Queue}
    (h : Undisturbed Chunk.Persists queue.chunks after.chunks) {position : Nat} {place : Place}
    {data : Bytes} (hRead : queue.read? position place = some data)
    (hFull : data.length = place.count) : after.read? position place = some data := by
  obtain ⟨chunk, hChunk, hHere⟩ := Option.bind_eq_some_iff.mp hRead
  obtain ⟨later, hLater, hPersists, _⟩ := h position chunk hChunk
  exact Option.bind_eq_some_iff.mpr ⟨later, hLater, hPersists.read?_eq hHere hFull⟩

/-- Operations at the tail disturb nothing that is in the queue. What adds bytes may only put some
behind those of the last chunk, in its array; sealing only makes that chunk a sealed one of the same
bytes at the same place. Whatever the number of such operations after a projection, neither the
cursor nor what may be confirmed changes, each chunk is still at its position, and each slice that
was shown denotes the same bytes at its place in memory. After sealing, bytes that are added begin a
chunk of their own, and sealing again does nothing. -/
theorem tail_operations_disturb_nothing {queue : Queue} (reachable : Reachable queue) :
    let sealed := queue.apply .sealTail
    (∀ operation : Operation, operation.AtTail → operation.InBounds →
      let after := queue.apply operation
      after.headOffset = queue.headOffset ∧ after.projected = queue.projected ∧
        (operation ≠ .sealTail → Undisturbed Chunk.Gains queue.chunks after.chunks)) ∧
    (sealed.chunks = queue.chunks.dropLast ++
          queue.chunks.getLast?.toList.map (fun last => .sealed last.release) ∧
        (∀ last ∈ queue.chunks.getLast?, (Chunk.sealed last.release).bytes = last.bytes ∧
          (Chunk.sealed last.release).place 0 = last.place 0) ∧
        sealed.sealTail = pure sealed ∧
        ∀ operation : Operation, operation.AtTail → operation.InBounds → operation.entering ≠ [] →
          ∃ added, added ≠ [] ∧ (sealed.apply operation).chunks = sealed.chunks ++ added) ∧
    (∀ limit operations,
      let shown := queue.apply (.project limit)
      (∀ operation ∈ operations, operation.AtTail) → shown.Admissible operations →
      let after := shown.run operations
      after.headOffset = shown.headOffset ∧ after.projected = shown.projected ∧
        Undisturbed Chunk.Persists queue.chunks after.chunks ∧
        ∀ position slice, (queue.project limit).value.2.slices[position]? = some slice →
          ∃ place, queue.place? position = some place ∧
            after.read? position place = some slice.bytes) := by
  have h := reachable.wellFormed
  have hConsistent := h.toConsistent
  intro sealed
  refine ⟨fun operation hTail hBounds => ?_, ?_, ?_⟩
  · have hGrows := grows_apply hConsistent hTail hBounds
    exact ⟨hGrows.frame.2.1, hGrows.frame.2.2,
      fun hAdds => queue.undisturbed_apply hTail hAdds hBounds⟩
  · have hSealed : sealed.Consistent :=
      (grows_sealTail hConsistent).consistent hConsistent h.length_content_lt
    have hLast := queue.getLast?_sealTail
    refine ⟨queue.chunks_sealTail, fun last hm => ?_, sealTail_of_not_filling hLast,
      fun operation => hSealed.exists_added hLast⟩
    have hWell := hConsistent.chunks_wellFormed last (List.mem_of_getLast? hm)
    exact ⟨hWell.release.2, hWell.place_release⟩
  · intro limit operations shown hTail admissible
    have hShown : shown.WellFormed := h.project limit
    have hGrows := hShown.grows_run hTail admissible
    have hChunks : Undisturbed Chunk.Persists queue.chunks (shown.run operations).chunks :=
      hGrows.undisturbed
    refine ⟨hGrows.frame.2.1, hGrows.frame.2.2, hChunks, fun position slice hSlice => ?_⟩
    obtain ⟨place, hPlace, hCount, hRead⟩ := hConsistent.read?_place hSlice
    exact ⟨place, hPlace, hChunks.read? hRead (slice.length_bytes.trans hCount.symm)⟩

/-- A short handle is copied behind the two bytes of a slice that was shown, the chunk is sealed,
and more is added in new chunks. -/
theorem tail_operations_leave_slices :
    let settings : Settings := { initialChunkSize := 4, smallHandleThreshold := 3, maxSlices := 2 }
    let queue := (fresh none 0 settings).run
      [.append (.ofBytes [1, 2, 3, 4, 5, 6]), .project 1, .confirm 1]
    let operations : List Operation :=
      [.absorb (.adopt (some ⟨⟨1, 0⟩, .ofBytes [7]⟩) 1), .sealTail,
        .absorb (.adopt (some ⟨⟨2, 0⟩, .ofBytes [8, 9, 10]⟩) 3), .append (.ofBytes [11, 12])]
    let shown := queue.apply (.project 9)
    let after := shown.run operations
    Reachable queue ∧ (∀ operation ∈ operations, operation.AtTail) ∧ shown.Admissible operations ∧
      (queue.project 9).value.2.slices[1]? = some (.ofBytes [5, 6]) ∧
      queue.place? 1 = some ⟨some ⟨0, 1⟩, 0, 2⟩ ∧
      after.read? 1 ⟨some ⟨0, 1⟩, 0, 2⟩ = some [5, 6] ∧ after.projected = 5 ∧
      after.chunks.map Chunk.bytes = [[1, 2, 3, 4], [5, 6, 7], [8, 9, 10], [11, 12]] ∧
      ∃ added, added ≠ [] ∧
        ((queue.apply .sealTail).apply (.append (.ofBytes [7]))).chunks =
          (queue.apply .sealTail).chunks ++ added := by
  intro settings queue operations shown after
  have hReachable : Reachable queue :=
    (Reachable.fresh none 0 settings (by decide)).run (by decide +kernel)
  have hTail : ∀ operation ∈ operations, operation.AtTail := by decide
  have hAdmissible : shown.Admissible operations := by decide +kernel
  have hSlice : (queue.project 9).value.2.slices[1]? = some (.ofBytes [5, 6]) := by decide +kernel
  have hPlace : queue.place? 1 = some ⟨some ⟨0, 1⟩, 0, 2⟩ := by decide +kernel
  have hProjected : shown.projected = 5 := by decide +kernel
  have hChunks :
      after.chunks.map Chunk.bytes = [[1, 2, 3, 4], [5, 6, 7], [8, 9, 10], [11, 12]] := by
    decide +kernel
  obtain ⟨_, ⟨_, _, _, hNew⟩, hRuns⟩ := tail_operations_disturb_nothing hReachable
  obtain ⟨_, hExposed, _, hSlices⟩ := hRuns 9 operations hTail hAdmissible
  obtain ⟨place, hThere, hRead⟩ := hSlices 1 _ hSlice
  cases hPlace.symm.trans hThere
  exact ⟨hReachable, hTail, hAdmissible, hSlice, hPlace, hRead, hExposed.trans hProjected, hChunks,
    hNew (.append (.ofBytes [7])) trivial trivial (by decide)⟩

end Queue

end ByteQueue
