import ByteQueue.Proofs.Queue.Reference
import ByteQueue.Proofs.Sizing

/-! The discipline of chunk sizes. Each sizing rule allows some chunks only, and a queue holds no
others, in whichever way they got there: copied, absorbed, cut into parts, or sealed. -/
namespace ByteQueue

open Queue

/-- What a sizing rule promises about a chunk. Under the doubling rule a filling chunk larger than
the cap has no room left. -/
def Sizing.Allows : Sizing → Chunk → Prop
  | .fixed size, .filling chunk => chunk.capacity = size ∧ chunk.size ≤ size
  | .fixed size, .sealed handle => handle.size ≤ size
  | .doubling rule, .filling chunk =>
    rule.first ≤ chunk.capacity ∧ chunk.capacity ≤ rule.cap ∨
      chunk.size = chunk.capacity ∧ rule.cap ≤ chunk.capacity
  | .doubling _, .sealed _ => True

namespace Sizing.Allows

variable {sizing : Sizing}

/-- A chunk that still fills stays allowed, and one that is full takes nothing more. -/
theorem append {tail : FillingChunk} {data : Block} (h : sizing.Allows (.filling tail))
    (hTail : (Chunk.filling tail).WellFormed)
    (hAfter : (Chunk.filling (tail.append data)).WellFormed) :
    sizing.Allows (.filling (tail.append data)) := by
  have hSize : tail.size.toNat = tail.length := hTail.toNat_size
  have hSizeAfter : (tail.append data).size.toNat = (tail.append data).length := hAfter.toNat_size
  have hFits : (tail.append data).length ≤ tail.capacity.toNat := hAfter.2
  have hLonger : tail.length ≤ (tail.append data).length := Nat.le_add_left tail.length data.length
  cases sizing with
  | fixed size =>
    refine ⟨h.1, UInt64.le_iff_toNat_le.mpr ?_⟩
    rw [hSizeAfter, ← h.1]
    exact hFits
  | doubling rule =>
    refine h.imp id fun hFull => ⟨UInt64.toNat_inj.mp ?_, hFull.2⟩
    have hNoRoom := congrArg UInt64.toNat hFull.1
    show (tail.append data).size.toNat = tail.capacity.toNat
    omega

theorem release {tail : FillingChunk} (h : sizing.Allows (.filling tail)) :
    sizing.Allows (.sealed tail.release) := by
  cases sizing with
  | fixed size => exact h.2
  | doubling rule => trivial

end Sizing.Allows

namespace Handle

theorem size_le_of_mem_pieces {handle part : Handle} {limit : UInt64} (hLimit : limit ≠ 0)
    (h : part ∈ handle.pieces limit) : part.size ≤ limit := by
  have hPos := Word.toNat_pos hLimit
  obtain ⟨position, hRange, hPart⟩ := List.mem_map.mp h
  obtain ⟨offset, count, _, hCount, _, _, hPiece⟩ :=
    handle.slice_piece (lt_size_of_piece (List.mem_range.mp hRange) hPos) hPos
  rw [← hPart, hPiece, UInt64.le_iff_toNat_le, hCount]
  exact Nat.min_le_left _ _

end Handle

namespace Queue

open Logged

/-- All chunks are allowed by the sizing rule of the queue. -/
def Disciplined (queue : Queue) : Prop := ∀ chunk ∈ queue.chunks, queue.sizing.Allows chunk

namespace Disciplined

variable {queue after : Queue}

/-- Another chunk takes the place of the last one. -/
theorem replace (h : queue.Disciplined) {last replacing : Chunk}
    (hLast : queue.store.last? = some last) (hSettings : after.settings = queue.settings)
    (hStore : after.store = queue.store.setLast replacing)
    (hAllows : queue.sizing.Allows last → queue.sizing.Allows replacing) : after.Disciplined := by
  obtain ⟨earlier, hChunks, hAfter⟩ := exists_chunks_eq hLast
  intro chunk hm
  rw [chunks, hStore, hAfter] at hm
  rw [sizing, hSettings]
  rcases List.mem_append.mp hm with hm | hm
  · exact h chunk (by rw [hChunks]; exact List.mem_append_left _ hm)
  · rw [List.mem_singleton.mp hm]
    exact hAllows (h last (by rw [hChunks]; simp))

/-- Another chunk comes behind the others. -/
theorem push (h : queue.Disciplined) {last : Chunk} (hSettings : after.settings = queue.settings)
    (hStore : after.store = queue.store.push last) (hAllows : queue.sizing.Allows last) :
    after.Disciplined := by
  intro chunk hm
  rw [chunks, hStore, ChunkStore.toList_push] at hm
  rw [sizing, hSettings]
  rcases List.mem_append.mp hm with hm | hm
  · exact h chunk hm
  · rw [List.mem_singleton.mp hm]
    exact hAllows

end Disciplined

theorem sizing_valid {settings : Settings} (valid : settings.Valid) :
    match settings.sizing with
    | .fixed size => size ≠ 0
    | .doubling rule => rule.first ≠ 0 ∧ rule.first ≤ rule.cap := by
  obtain ⟨hInitial, _, hCap⟩ := settings.valid_iff.mp valid
  rw [Settings.sizing]
  cases hRule : settings.rule with
  | doubling => exact ⟨hInitial, hCap hRule⟩
  | fixed => exact hInitial
  | unlisted => exact hInitial

/-- The rule finds a size for a copy that is no longer than it allows, if what the queue is to hold
can be reached by doubling. The chunk for the copy has just that size and is as the rule has it. -/
theorem allows_copy {queue : Queue} (valid : queue.settings.Valid) {piece : Block}
    (hPiece : queue.sizing.greatest ≠ 0 → piece.length ≤ queue.sizing.greatest.toNat)
    (hBound : queue.size.toNat + piece.length ≤ 2 ^ 63) :
    queue.sizing.next? queue.size piece.size = some (queue.capacityFor piece.size) ∧
      ∀ array, queue.sizing.Allows
        (.filling (.ofBlock array (queue.capacityFor piece.size) piece)) := by
  have hValid := sizing_valid valid
  have hLength : piece.size.toNat = piece.length := Block.toNat_size (by omega)
  rw [← sizing] at hValid
  have hFound : ∃ size, queue.sizing.next? queue.size piece.size = some size ∧ piece.size ≤ size ∧
      ∀ array, queue.sizing.Allows (.filling (.ofBlock array size piece)) := by
    cases hSizing : queue.sizing with
    | fixed size =>
      rw [hSizing] at hValid hPiece
      have hLe : piece.size ≤ size := by
        rw [UInt64.le_iff_toNat_le, hLength]
        exact hPiece hValid
      exact ⟨size, rfl, hLe, fun _ => ⟨rfl, hLe⟩⟩
    | doubling rule =>
      rw [hSizing] at hValid
      have hSum : queue.size.toNat + piece.size.toNat ≤ 2 ^ 63 := by rwa [hLength]
      obtain ⟨size, hNext, hRoom, hSize⟩ := Doubling.next_spec hValid.1 hValid.2 hSum
      refine ⟨size, hNext, hRoom, fun _ => hSize.imp id fun hExact => ⟨hExact.1.symm, ?_⟩⟩
      show rule.cap ≤ size
      rw [hExact.1]
      exact hExact.2
  obtain ⟨size, hNext, hRoom, hAllows⟩ := hFound
  have hCapacity : queue.capacityFor piece.size = size := by
    rw [capacityFor, hNext, Option.getD_some]
    apply UInt64.toNat_inj.mp
    rw [Word.toNat_max]
    exact Nat.max_eq_left (UInt64.le_iff_toNat_le.mp hRoom)
  rw [hCapacity]
  exact ⟨hNext, hAllows⟩

/-- A handle that is short enough, or of any size where there is no greatest one. -/
theorem allows_sealed {queue : Queue} (valid : queue.settings.Valid) {handle : Handle}
    (h : queue.sizing.greatest = 0 ∨ handle.size ≤ queue.sizing.greatest) :
    queue.sizing.Allows (.sealed handle) := by
  have hValid := sizing_valid valid
  rw [← sizing] at hValid
  cases hSizing : queue.sizing with
  | fixed size =>
    rw [hSizing] at hValid h
    exact h.resolve_left hValid
  | doubling rule => trivial

namespace Disciplined

variable {queue : Queue}

theorem coalesce (h : queue.Disciplined) (hQueue : queue.Consistent) {data : Block}
    (hData : data.length < 2 ^ 64) {coalesced : Logged Event Queue}
    (hCoalesced : queue.coalesce? data = some coalesced) : coalesced.value.Disciplined := by
  obtain ⟨tail, hLast, hRoom, hValue⟩ := exists_tail_of_coalesce hCoalesced
  have hTail := hQueue.tail_wellFormed hLast
  have hFits := Chunk.fits_of_size_le_spare hTail hData hRoom
  rw [hValue]
  exact h.replace hLast rfl rfl fun hAllows =>
    hAllows.append hTail (Chunk.wellFormed_append hTail hFits)

theorem pushCopy (h : queue.Disciplined) (valid : queue.settings.Valid) {piece : Block}
    (hPiece : queue.sizing.greatest ≠ 0 → piece.length ≤ queue.sizing.greatest.toNat)
    (hBound : queue.size.toNat + piece.length ≤ 2 ^ 63) :
    (queue.pushCopy piece).value.Disciplined :=
  h.push rfl rfl ((allows_copy valid hPiece hBound).2 queue.nextArray)

/-- Copies of several pieces. The count of bytes goes up by each of them, and stays in bounds. -/
theorem foldl_pushCopy (h : queue.Disciplined) (hQueue : queue.Consistent) {pieces : List Block}
    (hPieces : ∀ piece ∈ pieces, 0 < piece.length ∧
      (queue.sizing.greatest ≠ 0 → piece.length ≤ queue.sizing.greatest.toNat))
    (hBound : queue.content.length + (pieces.flatMap Block.bytes).length ≤ 2 ^ 63) :
    (pieces.foldl (fun queue piece => (queue.pushCopy piece).value) queue).Disciplined := by
  induction pieces generalizing queue with
  | nil => exact h
  | cons first rest ih =>
    obtain ⟨hPos, hFirst⟩ := hPieces first List.mem_cons_self
    rw [List.flatMap_cons] at hBound
    have hWord := Nat.lt_of_le_of_lt hBound (by decide : 2 ^ 63 < 2 ^ 64)
    obtain ⟨hNext, hLength⟩ := (Grows.copy hPos).next hQueue hWord
    rw [List.length_append, Block.length_bytes] at hBound hLength
    have hAllowed := h.pushCopy hQueue.valid hFirst (by rw [hQueue.size_eq]; omega)
    rw [List.foldl_cons]
    exact ih hAllowed hNext (fun piece hm => hPieces piece (List.mem_cons_of_mem _ hm)) (by omega)

theorem append (h : queue.Disciplined) (hQueue : queue.Consistent) {data : Block}
    (hBound : queue.content.length + data.length ≤ 2 ^ 63) :
    (queue.append data).value.Disciplined := by
  rcases queue.append_cases data with
    ⟨_, hValue⟩ | ⟨coalesced, _, hSome, hValue⟩ | ⟨_, _, hValue⟩
  · rw [hValue]
    exact h
  · rw [hValue]
    exact h.coalesce hQueue (by omega) hSome
  · rw [hValue, pushCopies, fold_eq, value_foldlM]
    refine h.foldl_pushCopy hQueue (fun piece hm => ?_)
      (by rw [Block.flatMap_bytes_pieces, Block.length_bytes]; exact hBound)
    have hPiece := Block.bytes_mem_pieces hm
    rw [← Block.length_bytes]
    exact ⟨List.length_pos_iff.mpr (Bytes.ne_nil_of_mem_pieces hPiece), fun hLimit =>
      Bytes.length_le_of_mem_pieces (Word.toNat_pos hLimit).ne' hPiece⟩

theorem appendAll (h : queue.Disciplined) (hQueue : queue.Consistent) {pieces : List Block}
    (hBound : queue.content.length + (pieces.flatMap Block.bytes).length ≤ 2 ^ 63) :
    (queue.appendAll pieces).value.Disciplined := by
  rw [Queue.appendAll, fold_eq, value_foldlM]
  induction pieces generalizing queue with
  | nil => exact h
  | cons first rest ih =>
    rw [List.flatMap_cons] at hBound
    have hWord := Nat.lt_of_le_of_lt hBound (by decide : 2 ^ 63 < 2 ^ 64)
    obtain ⟨hNext, hLength⟩ := (grows_append queue first).next hQueue hWord
    rw [List.length_append, Block.length_bytes] at hBound hLength
    rw [List.foldl_cons]
    exact ih (h.append hQueue (by omega)) hNext (by omega)

theorem foldl_pushHandle (h : queue.Disciplined) {parts : List Handle}
    (hParts : ∀ part ∈ parts, queue.sizing.Allows (.sealed part)) :
    (parts.foldl Queue.pushHandle queue).Disciplined := by
  induction parts generalizing queue with
  | nil => exact h
  | cons first rest ih =>
    rw [List.foldl_cons]
    exact ih (h.push rfl rfl (hParts first List.mem_cons_self))
      fun part hm => hParts part (List.mem_cons_of_mem _ hm)

theorem pushReference (h : queue.Disciplined) (valid : queue.settings.Valid) (handle : Handle) :
    (queue.pushReference handle).value.Disciplined := by
  rw [value_pushReference]
  split
  · next hWhole => exact h.push rfl rfl (allows_sealed valid hWhole)
  · next hCut =>
    have hLimit : queue.sizing.greatest ≠ 0 := fun hn => hCut (.inl hn)
    exact h.foldl_pushHandle fun part hm =>
      allows_sealed valid (.inr (Handle.size_le_of_mem_pieces hLimit hm))

theorem absorb (h : queue.Disciplined) (hQueue : queue.Consistent) {handle : Handle}
    (hb : handle.InBounds) : (queue.absorb handle).value.Disciplined := by
  have hReferred := h.pushReference hQueue.valid handle
  unfold Queue.absorb
  split
  · exact h
  · split
    · split
      · next hCoalesced =>
        have hShort : handle.block.length < 2 ^ 64 := Handle.length_block hb ▸ handle.size.toNat_lt
        exact h.coalesce hQueue hShort hCoalesced
      · exact hReferred
    · exact hReferred

theorem sealTail (h : queue.Disciplined) : queue.sealTail.value.Disciplined := by
  unfold Queue.sealTail
  split
  · next tail hLast => exact h.replace hLast rfl rfl Sizing.Allows.release
  · exact h

/-- Every operation keeps the discipline: chunks that are added or changed are as the sizing rule
has it, and of the others none is changed. -/
theorem apply (h : queue.Disciplined) (hQueue : queue.WellFormed) {operation : Operation}
    (hBounds : operation.InBounds)
    (hBound : (queue.apply operation).content.length ≤ capacity) :
    (queue.apply operation).Disciplined := by
  have hCapacity : capacity = 2 ^ 63 := by decide
  have hTail : operation.AtTail →
      queue.content.length + operation.entering.length ≤ 2 ^ 63 := by
    intro hTail
    have hContent := (grows_apply hQueue.toConsistent hTail hBounds).content_eq hQueue.toConsistent
    rwa [hContent, List.length_append, hCapacity] at hBound
  have hHead : ¬ operation.AtTail → (queue.apply operation).Disciplined := by
    intro hHead chunk hm
    rw [sizing, hQueue.settings_apply hBounds]
    exact h chunk ((hQueue.suffix_apply hHead).1.subset hm)
  cases operation with
  | append data =>
    have hData := hTail trivial
    rw [Operation.entering, Block.length_bytes] at hData
    exact h.append hQueue.toConsistent hData
  | appendAll pieces => exact h.appendAll hQueue.toConsistent (hTail trivial)
  | absorb handle => exact h.absorb hQueue.toConsistent hBounds
  | sealTail => exact h.sealTail
  | project _ | projectAll | confirm _ | take _ | drain | clear => exact hHead id

theorem run (h : queue.Disciplined) (hQueue : queue.WellFormed) {operations : List Operation}
    (admissible : queue.Admissible operations) : (queue.run operations).Disciplined := by
  induction operations generalizing queue with
  | nil => exact h
  | cons operation rest ih =>
    obtain ⟨hBounds, hBound, hRest⟩ := admissible
    exact ih (h.apply hQueue hBounds hBound) (hQueue.apply hBounds hBound) hRest

end Disciplined

/-! Under the doubling rule no more than one chunk is added at a time. -/

theorem chunkCount_coalesce {queue : Queue} {data : Block} {coalesced : Logged Event Queue}
    (h : queue.coalesce? data = some coalesced) :
    coalesced.value.chunkCount = queue.chunkCount := by
  obtain ⟨tail, hLast, _, hValue⟩ := exists_tail_of_coalesce h
  obtain ⟨earlier, hChunks, hAfter⟩ := exists_chunks_eq hLast
  rw [hValue, chunkCount_eq, chunkCount_eq, hChunks, chunks, hAfter, List.length_append,
    List.length_append]
  rfl

theorem chunkCount_push (queue : Queue) {after : Queue} {last : Chunk}
    (h : after.store = queue.store.push last) : after.chunkCount = queue.chunkCount + 1 := by
  rw [chunkCount_eq, chunkCount_eq, chunks, h, ChunkStore.toList_push, List.length_append]
  rfl

/-- Without a greatest size data is copied into one chunk at most. -/
theorem chunkCount_append_le {queue : Queue} (h0 : queue.sizing.greatest = 0) (data : Block) :
    (queue.append data).value.chunkCount ≤ queue.chunkCount + 1 := by
  rcases queue.append_cases data with
    ⟨_, hValue⟩ | ⟨coalesced, _, hSome, hValue⟩ | ⟨hData, _, hValue⟩
  · rw [hValue]
    exact Nat.le_succ _
  · rw [hValue]
    exact Nat.le_succ_of_le (Nat.le_of_eq (chunkCount_coalesce hSome))
  · have hOne : data.pieces queue.sizing.greatest.toNat = [data] := by
      rw [h0, Block.pieces, if_pos UInt64.toNat_zero, if_neg (mt Block.isEmpty_iff.mp hData)]
    rw [hValue, pushCopies, hOne, fold_eq, value_foldlM]
    exact Nat.le_of_eq (queue.chunkCount_push rfl)

/-- Nor is a handle cut into parts then. -/
theorem chunkCount_absorb_le {queue : Queue} (h0 : queue.sizing.greatest = 0) (handle : Handle) :
    (queue.absorb handle).value.chunkCount ≤ queue.chunkCount + 1 := by
  have hReferred : (queue.pushReference handle).value.chunkCount ≤ queue.chunkCount + 1 := by
    rw [value_pushReference, if_pos (.inl h0)]
    exact Nat.le_of_eq (queue.chunkCount_push rfl)
  unfold absorb
  split
  · exact Nat.le_succ _
  · split
    · split
      · next hCoalesced => exact Nat.le_succ_of_le (Nat.le_of_eq (chunkCount_coalesce hCoalesced))
      · exact hReferred
    · exact hReferred

/-- After every run from a new queue its chunks have the sizes that the rule of the settings calls
for. Under every rule but the doubling one each filling chunk has the initial size, and no chunk
is larger than that. Under the doubling rule the size of a filling chunk is between the initial one
and the cap, unless it is full; and neither data nor a handle ever takes more than one new chunk. -/
theorem run_keeps_chunk_sizes (logger : Option Log.Config) (owner : Nat) (settings : Settings)
    (valid : settings.Valid) (operations : List Operation)
    (admissible : (fresh logger owner settings).Admissible operations) :
    let queue := (fresh logger owner settings).run operations
    (settings.rule ≠ .doubling →
        (∀ tail, .filling tail ∈ queue.chunks → tail.capacity = settings.initialChunkSize) ∧
        ∀ chunk ∈ queue.chunks, chunk.size ≤ settings.initialChunkSize) ∧
      (settings.rule = .doubling →
        (∀ tail, .filling tail ∈ queue.chunks →
          settings.initialChunkSize ≤ tail.capacity ∧ tail.capacity ≤ settings.maxChunkSize ∨
            tail.size = tail.capacity ∧ settings.maxChunkSize ≤ tail.capacity) ∧
        (∀ data, (queue.apply (.append data)).chunkCount ≤ queue.chunkCount + 1) ∧
        ∀ handle, (queue.apply (.absorb handle)).chunkCount ≤ queue.chunkCount + 1) := by
  intro queue
  have hFresh := wellFormed_fresh logger owner valid
  have hNone : (fresh logger owner settings).Disciplined := by
    intro chunk hm
    cases hm
  have hQueue : queue.Disciplined := hNone.run hFresh admissible
  have hSizing : queue.sizing = settings.sizing :=
    congrArg Settings.sizing (hFresh.settings_run admissible)
  refine ⟨fun hRule => ?_, fun hRule => ?_⟩
  · have hFixed : queue.sizing = .fixed settings.initialChunkSize := by
      rw [hSizing, Settings.sizing]
      split
      · contradiction
      · rfl
      · rfl
    rw [Disciplined, hFixed] at hQueue
    refine ⟨fun tail hm => (hQueue _ hm).1, fun chunk hm => ?_⟩
    cases chunk with
    | filling tail => exact (hQueue _ hm).2
    | «sealed» handle => exact hQueue _ hm
  · have hDoubling :
        queue.sizing = .doubling ⟨settings.initialChunkSize, settings.maxChunkSize⟩ := by
      rw [hSizing, Settings.sizing, hRule]
    have h0 : queue.sizing.greatest = 0 := by rw [hDoubling]; rfl
    rw [Disciplined, hDoubling] at hQueue
    exact ⟨fun tail hm => hQueue _ hm, chunkCount_append_le h0, chunkCount_absorb_le h0⟩

/-- A rule without a meaning, which acts as the fixed one: data and a handle are cut, a chunk is
sealed and another one consumed in part. And the doubling rule with a chunk of the first size, one
of twice that size, and a full one beyond the cap. -/
theorem run_keeps_chunk_sizes_of_both_rules :
    let unlisted : Settings :=
      { rule := .unlisted, initialChunkSize := 4, smallHandleThreshold := 3 }
    let doubling : Settings := { rule := .doubling, initialChunkSize := 4, maxChunkSize := 16 }
    let handle : Handle := .adopt (some ⟨⟨1, 0⟩, .ofBytes [10, 11, 12, 13, 14, 15]⟩) 6
    let cutting : List Operation :=
      [.append (.ofBytes [1, 2, 3, 4, 5, 6]), .sealTail, .append (.ofBytes [7, 8]), .absorb handle,
        .projectAll, .confirm 2]
    let growing : List Operation :=
      [.append (.ofBytes [1, 2, 3]), .append (.ofBytes [4, 5, 6, 7, 8]),
        .append (.ofBytes (List.replicate 20 9))]
    let cut := (fresh none 0 unlisted).run cutting
    let grown := (fresh none 0 doubling).run growing
    (unlisted.Valid ∧ (fresh none 0 unlisted).Admissible cutting ∧
      (∀ tail, .filling tail ∈ cut.chunks → tail.capacity = 4) ∧
      (∀ chunk ∈ cut.chunks, chunk.size ≤ 4) ∧ cut.chunks.map Chunk.size = [4, 2, 2, 4, 2]) ∧
    doubling.Valid ∧ (fresh none 0 doubling).Admissible growing ∧
      (∀ tail, .filling tail ∈ grown.chunks → 4 ≤ tail.capacity ∧ tail.capacity ≤ 16 ∨
        tail.size = tail.capacity ∧ 16 ≤ tail.capacity) ∧
      grown.chunks.map Chunk.size = [3, 5, 20] ∧
      (grown.apply (.append (.ofBytes (List.replicate 40 0)))).chunkCount ≤ 4 ∧
      (grown.apply (.absorb handle)).chunkCount ≤ 4 := by
  intro unlisted doubling handle cutting growing cut grown
  have hUnlisted : unlisted.Valid := by decide
  have hDoubling : doubling.Valid := by decide
  have hCutting : (fresh none 0 unlisted).Admissible cutting := by decide +kernel
  have hGrowing : (fresh none 0 doubling).Admissible growing := by decide +kernel
  have hCount : grown.chunkCount = 3 := by decide +kernel
  obtain ⟨hCapacity, hSize⟩ :=
    (run_keeps_chunk_sizes none 0 unlisted hUnlisted cutting hCutting).1 (by decide)
  obtain ⟨hTails, hAppend, hAbsorb⟩ :=
    (run_keeps_chunk_sizes none 0 doubling hDoubling growing hGrowing).2 rfl
  have hData := hAppend (.ofBytes (List.replicate 40 0))
  have hHandle := hAbsorb handle
  rw [show chunkCount (run _ growing) = 3 from hCount] at hData hHandle
  exact ⟨⟨hUnlisted, hCutting, hCapacity, hSize, by decide +kernel⟩, hDoubling, hGrowing, hTails,
    by decide +kernel, hData, hHandle⟩

end Queue

end ByteQueue
