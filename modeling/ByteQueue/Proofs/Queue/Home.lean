import ByteQueue.Proofs.Queue.Reference

/-! Homes: for each byte in a queue, the array that it is in. A byte stays in the array in which
it arrived until it leaves, so homes go through a queue as bytes do. Each chunk holds a byte that
has not been consumed, and so a queue refers to no array but those of its bytes. -/
namespace ByteQueue

namespace Chunk

/-- The array in which the bytes of a chunk are. -/
def home? : Chunk → Option ArrayId
  | .filling chunk => some chunk.id
  | .sealed handle => handle.arrayId?

/-- The array of each byte of a chunk. -/
def homes (chunk : Chunk) : List (Option ArrayId) := List.replicate chunk.length chunk.home?

theorem home?_of_refersTo {id : ArrayId} {chunk : Chunk} (h : chunk.refersTo id = true) :
    chunk.home? = some id := by
  cases chunk with
  | filling chunk => cases h
  | sealed handle => exact beq_iff_eq.mp h

end Chunk

namespace Queue

open Logged

/-- The array of each byte of each chunk, consumed ones of the head chunk included. -/
def storedHomes (queue : Queue) : List (Option ArrayId) := queue.chunks.flatMap Chunk.homes

/-- The array of each byte in a queue. -/
def homes (queue : Queue) : List (Option ArrayId) :=
  queue.storedHomes.drop queue.headOffset.toNat

/-- The arrays in which the bytes arrive that an operation adds. -/
def arriving (queue : Queue) (operation : Operation) : List (Option ArrayId) :=
  (queue.apply operation).homes.drop (queue.homes.length - (queue.leaving operation).length)

/-- The arrays in which all bytes arrive in a run, in order. -/
def arrived : Queue → List Operation → List (Option ArrayId)
  | _, [] => []
  | queue, operation :: rest => queue.arriving operation ++ (queue.apply operation).arrived rest

theorem length_flatMap_homes (chunks : List Chunk) :
    (chunks.flatMap Chunk.homes).length = (chunks.flatMap Chunk.bytes).length := by
  induction chunks with
  | nil => rfl
  | cons head rest ih =>
    rw [List.flatMap_cons, List.flatMap_cons, List.length_append, List.length_append, ih,
      Chunk.length_bytes, Chunk.homes, List.length_replicate]

theorem length_homes (queue : Queue) : queue.homes.length = queue.content.length := by
  rw [homes, content, List.length_drop, List.length_drop, storedHomes, length_flatMap_homes,
    stored]

/-! The elementary steps. A byte that is copied is in an array of the queue's own; one that is
referred to is where it was; and sealing moves nothing. -/

theorem storedHomes_push {queue after : Queue} {last : Chunk}
    (hStore : after.store = queue.store.push last) :
    after.storedHomes = queue.storedHomes ++ last.homes := by
  rw [storedHomes, chunks, hStore, ChunkStore.toList_push, List.flatMap_append,
    List.flatMap_singleton]
  rfl

theorem storedHomes_fill {queue : Queue} {tail : FillingChunk} {data : Block} {size : UInt64}
    (hLast : queue.store.last? = some (.filling tail)) :
    storedHomes { queue with store := queue.store.setLast (.filling (tail.append data)), size } =
      queue.storedHomes ++ List.replicate data.length (some tail.id) := by
  obtain ⟨earlier, hBefore, hAfter⟩ := exists_chunks_eq hLast
  have hTail : (Chunk.filling (tail.append data)).homes =
      (Chunk.filling tail).homes ++ List.replicate data.length (some tail.id) := by
    show List.replicate (data.length + tail.length) (some tail.id) = _
    rw [Nat.add_comm]
    exact List.replicate_append_replicate.symm
  rw [storedHomes, storedHomes, chunks, hAfter, hBefore, List.flatMap_append,
    List.flatMap_singleton, hTail, List.flatMap_append, List.flatMap_singleton, List.append_assoc]

theorem storedHomes_sealing {queue : Queue} {tail : FillingChunk}
    (hLast : queue.store.last? = some (.filling tail))
    (wellFormed : (Chunk.filling tail).WellFormed) :
    storedHomes { queue with store := queue.store.setLast (.sealed tail.release) } =
      queue.storedHomes := by
  obtain ⟨earlier, hBefore, hAfter⟩ := exists_chunks_eq hLast
  have hTail : (Chunk.sealed tail.release).homes = (Chunk.filling tail).homes := by
    rw [Chunk.homes, Chunk.length_release wellFormed]
    rfl
  rw [storedHomes, storedHomes, chunks, hAfter, hBefore, List.flatMap_append,
    List.flatMap_singleton, hTail, List.flatMap_append, List.flatMap_singleton]

/-- Growth puts homes behind those that were there. -/
theorem Grows.storedHomes {before after : Queue} {data : Bytes} (h : Grows before data after) :
    ∃ added, added.length = data.length ∧
      after.storedHomes = before.storedHomes ++ added := by
  induction h with
  | nothing queue => exact ⟨[], rfl, (List.append_nil _).symm⟩
  | fill last fits => exact ⟨_, by simp, storedHomes_fill last⟩
  | @copy queue piece pos =>
    refine ⟨_, ?_, storedHomes_push rfl⟩
    rw [Chunk.homes, List.length_replicate, ← Chunk.length_bytes, Chunk.bytes_filling,
      FillingChunk.bytes_ofBlock]
  | refer wellFormed =>
    refine ⟨_, ?_, storedHomes_push rfl⟩
    rw [Chunk.homes, List.length_replicate, ← Chunk.length_bytes, Chunk.bytes_sealed]
  | sealing last wellFormed =>
    exact ⟨[], rfl, (storedHomes_sealing last wellFormed).trans (List.append_nil _).symm⟩
  | trans left right ihl ihr =>
    obtain ⟨first, hFirst, hBetween⟩ := ihl
    obtain ⟨second, hSecond, hAfter⟩ := ihr
    exact ⟨first ++ second, by rw [List.length_append, List.length_append, hFirst, hSecond],
      by rw [hAfter, hBetween, List.append_assoc]⟩

/-- The arrays of the chunks that a queue fills are its own. -/
structure Owns (owner : Nat) (queue : Queue) : Prop where
  next_eq : queue.nextArray.owner = owner
  filling_eq : ∀ tail, .filling tail ∈ queue.chunks → tail.id.owner = owner

namespace Owns

variable {owner : Nat} {before after : Queue} {data : Bytes}

/-- A chunk in place of the last one, or behind it, that is sealed or the queue's own. -/
theorem of_last (h : before.Owns owner) {earlier : List Chunk} {last : Chunk}
    (hEarlier : earlier ⊆ before.chunks) (hAfter : after.chunks = earlier ++ [last])
    (hLast : ∀ tail, last = .filling tail → tail.id.owner = owner)
    (hNext : after.nextArray.owner = before.nextArray.owner) : after.Owns owner := by
  refine ⟨hNext.trans h.next_eq, fun tail hm => ?_⟩
  rw [hAfter] at hm
  rcases List.mem_append.mp hm with hm | hm
  · exact h.filling_eq tail (hEarlier hm)
  · exact hLast tail (List.mem_singleton.mp hm).symm

theorem last_eq (h : before.Owns owner) {tail : FillingChunk}
    (hLast : before.store.last? = some (.filling tail)) : tail.id.owner = owner := by
  obtain ⟨earlier, hBefore, _⟩ := exists_chunks_eq hLast
  exact h.filling_eq tail (by rw [hBefore]; exact List.mem_append_right _ List.mem_cons_self)

theorem grow (h : before.Owns owner) (hGrows : Grows before data after) : after.Owns owner := by
  induction hGrows with
  | nothing queue => exact h
  | fill last fits =>
    obtain ⟨earlier, hBefore, hAfter⟩ := exists_chunks_eq last
    have hTail := h.last_eq last
    refine h.of_last (by rw [hBefore]; exact List.subset_append_left ..) (hAfter _) ?_ rfl
    rintro tail ⟨⟩
    exact hTail
  | copy pos =>
    refine h.of_last (List.Subset.refl _) (ChunkStore.toList_push ..) ?_ rfl
    rintro tail ⟨⟩
    exact h.next_eq
  | refer wellFormed =>
    exact h.of_last (List.Subset.refl _) (ChunkStore.toList_push ..) nofun rfl
  | sealing last wellFormed =>
    obtain ⟨earlier, hBefore, hAfter⟩ := exists_chunks_eq last
    exact h.of_last (by rw [hBefore]; exact List.subset_append_left ..) (hAfter _) nofun rfl
  | trans left right ihl ihr => exact ihr (ihl h)

theorem retire {count : Nat} (h : before.Owns owner) (hRetires : Retires before count after) :
    after.Owns owner := by
  obtain ⟨retired, hChunks, _⟩ := hRetires.chunks_eq
  refine ⟨hRetires.owner_eq.trans h.next_eq, fun tail hm => h.filling_eq tail ?_⟩
  rw [hChunks]
  exact List.mem_append_right _ hm

/-- Bytes that are copied arrive in arrays of the queue's own. -/
theorem storedHomes_fills (h : before.Owns owner) (hFills : Fills before data after) :
    ∃ added, after.storedHomes = before.storedHomes ++ added ∧
      ∀ home ∈ added, ∃ id, home = some id ∧ id.owner = owner := by
  induction hFills with
  | nothing queue => exact ⟨[], (List.append_nil _).symm, nofun⟩
  | fill last fits =>
    refine ⟨_, storedHomes_fill last, fun home hm => ?_⟩
    exact ⟨_, List.eq_of_mem_replicate hm, h.last_eq last⟩
  | copy pos =>
    refine ⟨_, storedHomes_push rfl, fun home hm => ?_⟩
    exact ⟨_, List.eq_of_mem_replicate hm, h.next_eq⟩
  | trans left right ihl ihr =>
    obtain ⟨first, hBetween, hFirst⟩ := ihl h
    obtain ⟨second, hAfter, hSecond⟩ := ihr (h.grow left.grows)
    refine ⟨first ++ second, by rw [hAfter, hBetween, List.append_assoc], fun home hm => ?_⟩
    exact (List.mem_append.mp hm).elim (hFirst home) (hSecond home)

end Owns

variable {queue : Queue}

theorem WellFormed.headOffset_le_homes (h : queue.WellFormed) :
    queue.headOffset.toNat ≤ queue.storedHomes.length := by
  rw [storedHomes, length_flatMap_homes]
  exact h.headOffset_le

theorem Retires.homes {after : Queue} {count : Nat} (h : Retires queue count after) :
    after.homes = queue.homes.drop count := by
  obtain ⟨retired, hChunks, hPosition⟩ := h.chunks_eq
  have hStored : queue.storedHomes = retired.flatMap Chunk.homes ++ after.storedHomes := by
    rw [storedHomes, hChunks, List.flatMap_append]
    rfl
  have hBefore : queue.homes.drop count = queue.storedHomes.drop (queue.headOffset.toNat + count) :=
    List.drop_drop
  rw [hBefore, ← hPosition, hStored, ← length_flatMap_homes, ← List.drop_drop, List.drop_left]
  rfl

theorem WellFormed.homes_grow {after : Queue} {data : Bytes} {added : List (Option ArrayId)}
    (h : queue.WellFormed) (hGrows : Grows queue data after)
    (hStored : after.storedHomes = queue.storedHomes ++ added) :
    after.homes = queue.homes ++ added := by
  rw [homes, hStored, hGrows.frame.2.1, List.drop_append_of_le_length h.headOffset_le_homes]
  rfl

theorem arriving_of_atTail {operation : Operation} {added : List (Option ArrayId)}
    (hTail : operation.AtTail) (hHomes : (queue.apply operation).homes = queue.homes ++ added) :
    queue.arriving operation = added := by
  rw [arriving, queue.leaving_of_atTail hTail, hHomes, List.length_nil, Nat.sub_zero,
    List.drop_left]

/-- The homes of bytes that leave are the first ones, and the homes of those that stay do not
change. -/
theorem WellFormed.homes_apply (h : queue.WellFormed) {operation : Operation}
    (hBounds : operation.InBounds) (hAfter : (queue.apply operation).WellFormed) :
    (queue.apply operation).homes =
        (queue.homes ++ queue.arriving operation).drop (queue.leaving operation).length ∧
      (queue.arriving operation).length = operation.entering.length := by
  by_cases hTail : operation.AtTail
  · have hGrows := grows_apply h.toConsistent hTail hBounds
    obtain ⟨added, hLength, hStored⟩ := hGrows.storedHomes
    have hHomes := h.homes_grow hGrows hStored
    rw [arriving_of_atTail hTail hHomes, queue.leaving_of_atTail hTail]
    exact ⟨hHomes, hLength⟩
  · have hHomes := (h.retires hBounds hTail hAfter).homes
    have hNone : queue.arriving operation = [] := by
      rw [arriving, hHomes]
      exact List.drop_eq_nil_of_le (Nat.le_of_eq List.length_drop)
    rw [hNone, List.append_nil, entering_of_not_atTail hTail]
    exact ⟨hHomes, rfl⟩

/-- In a run homes go through a queue as its bytes do. -/
theorem WellFormed.homes_run (h : queue.WellFormed) {operations : List Operation}
    (admissible : queue.Admissible operations) :
    (queue.run operations).homes =
      (queue.homes ++ queue.arrived operations).drop (queue.consumed operations).length := by
  induction operations generalizing queue with
  | nil => exact (List.append_nil _).symm
  | cons operation rest ih =>
    obtain ⟨hBounds, hBound, hRest⟩ := admissible
    have hAfter := h.apply hBounds hBound
    obtain ⟨hHomes, hArriving⟩ := h.homes_apply hBounds hAfter
    have hLeaving : (queue.leaving operation).length ≤
        (queue.homes ++ queue.arriving operation).length := by
      have hConserved := congrArg List.length (h.leaving_append_content hBounds)
      rw [List.length_append, List.length_append] at hConserved
      rw [List.length_append, length_homes, hArriving]
      omega
    rw [run_cons, ih hAfter hRest, hHomes, consumed, arrived, List.length_append,
      ← List.drop_drop, ← List.append_assoc, List.drop_append_of_le_length hLeaving]

theorem owns_fresh (logger : Option Log.Config) (owner : Nat) (settings : Settings) :
    (fresh logger owner settings).Owns owner :=
  ⟨rfl, nofun⟩

theorem WellFormed.owns_apply (h : queue.WellFormed) {owner : Nat} (owns : queue.Owns owner)
    {operation : Operation} (hBounds : operation.InBounds)
    (hAfter : (queue.apply operation).WellFormed) : (queue.apply operation).Owns owner := by
  by_cases hTail : operation.AtTail
  · exact owns.grow (grows_apply h.toConsistent hTail hBounds)
  · exact owns.retire (h.retires hBounds hTail hAfter)

theorem WellFormed.owns_run (h : queue.WellFormed) {owner : Nat} (owns : queue.Owns owner)
    {operations : List Operation} (admissible : queue.Admissible operations) :
    (queue.run operations).Owns owner := by
  induction operations generalizing queue with
  | nil => exact owns
  | cons operation rest ih =>
    obtain ⟨hBounds, hBound, hRest⟩ := admissible
    have hAfter := h.apply hBounds hBound
    exact ih hAfter (h.owns_apply owns hBounds hAfter) hRest

/-- A handle that is referred to arrives in its own array. -/
theorem WellFormed.arriving_absorb (h : queue.WellFormed) {handle : Handle} (hb : handle.InBounds)
    (hReferred : ¬ queue.Copies handle) (hAfter : (queue.apply (.absorb handle)).WellFormed) :
    queue.arriving (.absorb handle) = List.replicate handle.length handle.arrayId? := by
  have hBounds : (Operation.absorb handle).InBounds := hb
  have hTail : (Operation.absorb handle).AtTail := trivial
  have hLength : (queue.arriving (.absorb handle)).length = handle.length :=
    (h.homes_apply hBounds hAfter).2.trans handle.length_bytes
  refine List.eq_replicate_iff.mpr ⟨hLength, ?_⟩
  by_cases h0 : handle.size = 0
  · rw [hb.length_eq, h0] at hLength
    rw [List.eq_nil_of_length_eq_zero hLength]
    nofun
  · obtain ⟨parts, hTiles, hChunks⟩ := (queue.chunks_absorb hb h0).2 hReferred
    have hStored : (queue.apply (.absorb handle)).storedHomes =
        queue.storedHomes ++ (parts.map Chunk.sealed).flatMap Chunk.homes := by
      rw [storedHomes, Queue.apply, hChunks, List.flatMap_append]
      rfl
    rw [arriving_of_atTail hTail (h.homes_grow (grows_absorb queue hb) hStored)]
    intro home hm
    obtain ⟨chunk, hChunk, hHome⟩ := List.mem_flatMap.mp hm
    obtain ⟨part, hPart, rfl⟩ := List.mem_map.mp hChunk
    rw [List.eq_of_mem_replicate hHome]
    exact congrArg (Option.map SharedArray.id) (hTiles.array_eq hPart)

/-- All other bytes arrive in arrays of the queue's own. -/
theorem WellFormed.arriving_owned (h : queue.WellFormed) {owner : Nat} (owns : queue.Owns owner)
    {operation : Operation} (hBounds : operation.InBounds)
    (hAfter : (queue.apply operation).WellFormed)
    (hCopied : ∀ handle, operation = .absorb handle → queue.Copies handle) :
    ∀ home ∈ queue.arriving operation, ∃ id, home = some id ∧ id.owner = owner := by
  have hFilled (hTail : operation.AtTail)
      (hFills : Fills queue operation.entering (queue.apply operation)) :
      ∀ home ∈ queue.arriving operation, ∃ id, home = some id ∧ id.owner = owner := by
    obtain ⟨added, hStored, hOwned⟩ := owns.storedHomes_fills hFills
    rw [arriving_of_atTail hTail (h.homes_grow hFills.grows hStored)]
    exact hOwned
  cases operation with
  | append data => exact hFilled trivial (fills_append queue data)
  | appendAll pieces => exact hFilled trivial (fills_appendAll queue pieces)
  | absorb handle => exact hFilled trivial (fills_absorb queue hBounds (hCopied handle rfl))
  | project _ | projectAll | confirm _ | sealTail | take _ | drain | clear =>
    rw [List.eq_nil_of_length_eq_zero (h.homes_apply hBounds hAfter).2]
    nofun

/-- Each chunk holds a byte that has not been consumed. -/
theorem WellFormed.home?_mem_homes (h : queue.WellFormed) {chunk : Chunk}
    (hm : chunk ∈ queue.chunks) : chunk.home? ∈ queue.homes := by
  have hPos := (h.chunks_wellFormed chunk hm).length_pos
  have hCursor := h.cursor
  rw [homes, storedHomes]
  cases hChunks : queue.chunks with
  | nil =>
    rw [hChunks] at hm
    cases hm
  | cons head rest =>
    rw [hChunks] at hm hCursor
    have hOffset : queue.headOffset.toNat < head.length := hCursor
    have hLe : queue.headOffset.toNat ≤ head.homes.length := by
      rw [Chunk.homes, List.length_replicate]
      exact Nat.le_of_lt hOffset
    rw [List.flatMap_cons, List.drop_append_of_le_length hLe, Chunk.homes, List.drop_replicate]
    rcases List.mem_cons.mp hm with rfl | hm
    · exact List.mem_append_left _ (List.mem_replicate.mpr ⟨by omega, rfl⟩)
    · exact List.mem_append_right _
        (List.mem_flatMap.mpr ⟨chunk, hm, List.mem_replicate.mpr ⟨by omega, rfl⟩⟩)

/-- A queue refers to no array but those of its bytes. -/
theorem WellFormed.uses_eq_zero (h : queue.WellFormed) {id : ArrayId}
    (hNone : some id ∉ queue.homes) : queue.uses id = 0 := by
  rw [uses_eq, List.countP_eq_zero]
  intro chunk hm hRefers
  exact hNone (Chunk.home?_of_refersTo hRefers ▸ h.home?_mem_homes hm)

end Queue

end ByteQueue
