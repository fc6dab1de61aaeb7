import ByteQueue.Proofs.Queue.Discipline
import ByteQueue.Proofs.Queue.Representation

/-! Fragmentation. A copy begins a new chunk only where the tail chunk has no room for it, so the
two together hold more than a first chunk can. Nothing that happens later undoes this: chunks gain
bytes, and they go away as a whole, the first ones first. Hence chunks are on average more than half
as large as a first chunk, however short the copies are. -/
namespace ByteQueue

/-- Among these sizes any two neighbours exceed the limit together. -/
def Crowded (limit : Nat) (sizes : List Nat) : Prop :=
  sizes.IsChain fun first second => limit < first + second

namespace Crowded

variable {limit : Nat}

/-- The last size may grow. -/
theorem raise_last {sizes : List Nat} {last raised : Nat} (h : Crowded limit (sizes ++ [last]))
    (hRaised : last ≤ raised) : Crowded limit (sizes ++ [raised]) := by
  obtain ⟨hSizes, _, hBorder⟩ := List.isChain_append.mp h
  refine hSizes.append (.singleton raised) fun before hm after hn => ?_
  have hSum := hBorder before hm last rfl
  rw [List.head?_cons, Option.mem_some_iff] at hn
  omega

/-- Sizes in pairs: each pair exceeds the limit. The induction takes two sizes at a time. -/
theorem half_mul_le {sizes : List Nat} (h : Crowded limit sizes) :
    sizes.length / 2 * (limit + 1) ≤ sumOf id sizes := by
  induction sizes using List.twoStepInduction with
  | nil => simp
  | singleton size => simp
  | cons_cons first second rest ih _ =>
    obtain ⟨hPair, hRest⟩ := List.isChain_cons_cons.mp h
    have hTail := ih hRest.tail
    have hHalf : (first :: second :: rest).length / 2 = rest.length / 2 + 1 :=
      Nat.add_div_right rest.length Nat.two_pos
    rw [hHalf, Nat.succ_mul, sumOf_cons, sumOf_cons, id, id]
    omega

end Crowded

/-- The pieces of a long copy: only the last one is shorter than the limit, and it is not empty. -/
theorem Bytes.crowded_pieces (limit : Nat) (data : Bytes) :
    Crowded limit ((data.pieces limit).map List.length) := by
  rw [Crowded, List.isChain_map]
  fun_induction Bytes.pieces limit data with
  | case1 => exact .nil
  | case2 first rest => exact .singleton _
  | case3 first rest hLimit ih =>
    refine ih.cons fun next hm => ?_
    have hMember := List.mem_of_mem_head? hm
    have hNext := List.length_pos_iff.mpr (ne_nil_of_mem_pieces hMember)
    have hLeft : (first :: rest).drop limit ≠ [] := by
      intro hn
      rw [hn, pieces] at hMember
      cases hMember
    have hFull := List.length_pos_iff.mpr hLeft
    rw [List.length_drop] at hFull
    rw [List.length_take]
    omega

namespace Operation

/-- The operations that neither refer to the bytes of a handle nor seal a chunk. -/
def Copying : Operation → Prop
  | .absorb _ | .sealTail => False
  | .append _ | .appendAll _ | .project _ | .projectAll | .confirm _ | .take _ | .drain
  | .clear => True

instance (operation : Operation) : Decidable operation.Copying :=
  match operation with
  | .absorb _ | .sealTail => isFalse id
  | .append _ | .appendAll _ | .project _ | .projectAll | .confirm _ | .take _ | .drain
  | .clear => isTrue trivial

end Operation

namespace Queue

open Logged

/-- The numbers of bytes in the chunks. -/
def lengths (queue : Queue) : List Nat := queue.chunks.map Chunk.length

/-- A queue that holds copies only, in chunks of which neighbours exceed the first chunk size. -/
structure Compact (queue : Queue) : Prop where
  filling : ∀ chunk ∈ queue.chunks, ∃ tail, chunk = .filling tail
  crowded : Crowded queue.settings.initialChunkSize.toNat queue.lengths

/-- No rule makes a chunk smaller than the first one. -/
theorem Disciplined.initial_le_capacity {queue : Queue} (h : queue.Disciplined)
    (valid : queue.settings.Valid) {tail : FillingChunk} (hm : .filling tail ∈ queue.chunks) :
    queue.settings.initialChunkSize ≤ tail.capacity := by
  have hAllows := h _ hm
  have hCap := (queue.settings.valid_iff.mp valid).2.2
  rw [sizing, Settings.sizing] at hAllows
  cases hRule : queue.settings.rule with
  | doubling =>
    rw [hRule] at hAllows
    rcases hAllows with hBetween | hFull
    · exact hBetween.1
    · exact UInt64.le_trans (hCap hRule) hFull.2
  | fixed | unlisted =>
    rw [hRule] at hAllows
    exact UInt64.le_of_eq hAllows.1.symm

/-- The greatest size is the first one, unless there is none. -/
theorem greatest_eq (queue : Queue) :
    queue.sizing.greatest = 0 ∨ queue.sizing.greatest = queue.settings.initialChunkSize := by
  rw [sizing, Settings.sizing]
  cases queue.settings.rule with
  | doubling => exact .inl rfl
  | fixed | unlisted => exact .inr rfl

namespace Compact

variable {queue : Queue}

/-- Chunks that go away in front leave the others as they are. -/
theorem of_suffix (h : queue.Compact) {after : Queue} (hSettings : after.settings = queue.settings)
    (hChunks : after.chunks <:+ queue.chunks) : after.Compact where
  filling chunk hm := h.filling chunk (hChunks.subset hm)
  crowded := by
    rw [hSettings]
    exact h.crowded.suffix (hChunks.map Chunk.length)

theorem exists_tail (h : queue.Compact) {last : Chunk} (hm : last ∈ queue.chunks.getLast?) :
    ∃ tail, last = .filling tail ∧ queue.store.last? = some (.filling tail) ∧
      .filling tail ∈ queue.chunks := by
  have hMember := List.mem_of_getLast? hm
  obtain ⟨tail, rfl⟩ := h.filling last hMember
  exact ⟨tail, rfl, (ChunkStore.last?_eq _).trans hm, hMember⟩

theorem coalesce (h : queue.Compact) {data : Block} {coalesced : Logged Event Queue}
    (hCoalesced : queue.coalesce? data = some coalesced) : coalesced.value.Compact := by
  obtain ⟨tail, hLast, _, hValue⟩ := exists_tail_of_coalesce hCoalesced
  obtain ⟨earlier, hChunks, hAfter⟩ := exists_chunks_eq hLast
  have hAfter : coalesced.value.chunks = earlier ++ [.filling (tail.append data)] := by
    rw [hValue]
    exact hAfter _
  have hCrowded := h.crowded
  rw [lengths, hChunks, List.map_append] at hCrowded
  refine ⟨fun chunk hm => ?_, ?_⟩
  · rw [hAfter] at hm
    rcases List.mem_append.mp hm with hm | hm
    · exact h.filling chunk (by rw [hChunks]; exact List.mem_append_left _ hm)
    · exact ⟨_, List.mem_singleton.mp hm⟩
  · rw [lengths, hAfter, List.map_append, hValue]
    exact hCrowded.raise_last (Nat.le_add_left tail.length data.length)

/-- A tail chunk without room for the data, and the first piece of the data: either the piece is all
of the data, or it is as large as a first chunk. -/
theorem lt_tail_add_piece (h : queue.Compact) (hDisciplined : queue.Disciplined)
    (hQueue : queue.Consistent) {data : Block} (hData : data.bytes ≠ [])
    (hNone : queue.coalesce? data = none) {last : Chunk} (hLast : last ∈ queue.chunks.getLast?)
    {piece : Bytes} (hPiece : piece ∈ (data.bytes.pieces queue.sizing.greatest.toNat).head?) :
    queue.settings.initialChunkSize.toNat < last.length + piece.length := by
  obtain ⟨tail, rfl, hTail, hMember⟩ := h.exists_tail hLast
  have hWellFormed := hQueue.tail_wellFormed hTail
  have hPos := hWellFormed.length_pos
  have hInitial := UInt64.le_iff_toNat_le.mp (hDisciplined.initial_le_capacity hQueue.valid hMember)
  have hSpare := UInt64.lt_iff_toNat_lt.mp (spare_lt_of_coalesce_eq_none hNone hTail)
  have hSize : data.size.toNat ≤ data.length :=
    (UInt64.toNat_ofNat' ..).trans_le (Nat.mod_le ..)
  rw [Chunk.toNat_spare hWellFormed] at hSpare
  rw [Bytes.pieces_of_ne_nil hData, List.head?_cons, Option.mem_some_iff] at hPiece
  show _ < tail.length + _
  replace hPos : 0 < tail.length := hPos
  rw [← hPiece, List.length_take, Block.length_bytes]
  rcases queue.greatest_eq with hGreatest | hGreatest
  · rw [hGreatest, if_pos UInt64.toNat_zero]
    omega
  · rw [hGreatest]
    split
    · omega
    · omega

theorem pushCopies (h : queue.Compact) (hDisciplined : queue.Disciplined)
    (hQueue : queue.Consistent) {data : Block} (hData : data.bytes ≠ [])
    (hNone : queue.coalesce? data = none) : (queue.pushCopies data).value.Compact := by
  have hSettings : (queue.pushCopies data).value.settings = queue.settings :=
    (fills_pushCopies queue data).grows.frame.1
  have hChunks := queue.chunks_pushCopies data
  have hBytes := queue.map_bytes_copies (data.pieces queue.sizing.greatest.toNat)
  generalize queue.copies (data.pieces queue.sizing.greatest.toNat) = added at hChunks hBytes
  have hPieces : added.map FillingChunk.length =
      (data.bytes.pieces queue.sizing.greatest.toNat).map List.length := by
    rw [← Block.map_bytes_pieces, ← hBytes, List.map_map]
    exact List.map_congr_left fun chunk _ => chunk.length_bytes.symm
  have hAdded : (added.map Chunk.filling).map Chunk.length = added.map FillingChunk.length :=
    List.map_map
  -- Copies are cut where there is a greatest size, and that is the first one.
  have hCrowded :
      Crowded queue.settings.initialChunkSize.toNat (added.map FillingChunk.length) := by
    rw [hPieces]
    rcases queue.greatest_eq with hGreatest | hGreatest
    · rw [hGreatest, Bytes.pieces_of_le hData (.inl UInt64.toNat_zero)]
      exact .singleton _
    · rw [← hGreatest]
      exact Bytes.crowded_pieces _ _
  refine ⟨fun chunk hm => ?_, ?_⟩
  · rw [hChunks] at hm
    rcases List.mem_append.mp hm with hm | hm
    · exact h.filling chunk hm
    · obtain ⟨tail, _, hTail⟩ := List.mem_map.mp hm
      exact ⟨tail, hTail.symm⟩
  · rw [lengths, hSettings, hChunks, List.map_append, hAdded]
    refine h.crowded.append hCrowded fun before hBefore after hAfter => ?_
    rw [lengths, List.getLast?_map] at hBefore
    rw [hPieces, List.head?_map] at hAfter
    obtain ⟨last, hLast, rfl⟩ := Option.map_eq_some_iff.mp hBefore
    obtain ⟨piece, hPiece, rfl⟩ := Option.map_eq_some_iff.mp hAfter
    exact h.lt_tail_add_piece hDisciplined hQueue hData hNone hLast hPiece

theorem append (h : queue.Compact) (hDisciplined : queue.Disciplined) (hQueue : queue.Consistent)
    (data : Block) : (queue.append data).value.Compact := by
  rcases queue.append_cases data with
    ⟨_, hValue⟩ | ⟨coalesced, _, hSome, hValue⟩ | ⟨hData, hNone, hValue⟩
  · rw [hValue]
    exact h
  · rw [hValue]
    exact h.coalesce hSome
  · rw [hValue]
    exact h.pushCopies hDisciplined hQueue hData hNone

/-- Several copies, one after the other; each of them meets what a run would have left. -/
theorem appendAll (h : queue.Compact) (hDisciplined : queue.Disciplined)
    (hQueue : queue.Consistent) {pieces : List Block}
    (hBound : queue.content.length + (pieces.flatMap Block.bytes).length ≤ 2 ^ 63) :
    (queue.appendAll pieces).value.Compact := by
  rw [Queue.appendAll, fold_eq, value_foldlM]
  induction pieces generalizing queue with
  | nil => exact h
  | cons first rest ih =>
    rw [List.flatMap_cons] at hBound
    have hWord := Nat.lt_of_le_of_lt hBound (by decide : 2 ^ 63 < 2 ^ 64)
    obtain ⟨hNext, hLength⟩ := (grows_append queue first).next hQueue hWord
    rw [List.length_append, Block.length_bytes] at hBound hLength
    rw [List.foldl_cons]
    exact ih (h.append hDisciplined hQueue first) (hDisciplined.append hQueue (by omega)) hNext
      (by omega)

theorem apply (h : queue.Compact) (hDisciplined : queue.Disciplined) (hQueue : queue.WellFormed)
    {operation : Operation} (copying : operation.Copying)
    (hBound : (queue.apply operation).content.length ≤ capacity) :
    (queue.apply operation).Compact := by
  have hCapacity : capacity = 2 ^ 63 := by decide
  have hHead (hInside : operation.InBounds) (hHead : ¬ operation.AtTail) :
      (queue.apply operation).Compact :=
    h.of_suffix (hQueue.settings_apply hInside) (hQueue.suffix_apply hHead).1
  cases operation with
  | append data => exact h.append hDisciplined hQueue.toConsistent data
  | appendAll pieces =>
    have hContent := (grows_appendAll queue pieces).content_eq hQueue.toConsistent
    rw [Queue.apply, hContent, List.length_append, hCapacity] at hBound
    exact h.appendAll hDisciplined hQueue.toConsistent hBound
  | absorb _ | sealTail => exact copying.elim
  | project _ | projectAll | confirm _ | take _ | drain | clear => exact hHead trivial id

theorem run (h : queue.Compact) (hDisciplined : queue.Disciplined) (hQueue : queue.WellFormed)
    {operations : List Operation} (copying : ∀ operation ∈ operations, operation.Copying)
    (admissible : queue.Admissible operations) : (queue.run operations).Compact := by
  induction operations generalizing queue with
  | nil => exact h
  | cons operation rest ih =>
    obtain ⟨hBounds, hBound, hRest⟩ := admissible
    have hFirst := h.apply hDisciplined hQueue (copying operation List.mem_cons_self) hBound
    exact ih hFirst (hDisciplined.apply hQueue hBounds hBound) (hQueue.apply hBounds hBound)
      (fun operation hm => copying operation (List.mem_cons_of_mem _ hm)) hRest

end Compact

theorem compact_fresh (logger : Option Log.Config) (owner : Nat) (settings : Settings) :
    (fresh logger owner settings).Compact where
  filling := nofun
  crowded := .nil

/-- After every run of copies and of operations that remove bytes, the sizes of two neighbouring
chunks add up to more than the first chunk size, under every sizing rule. So the number of chunks is
bounded by the bytes in them, whatever the sizes of the copies were. -/
theorem run_bounds_fragmentation (logger : Option Log.Config) (owner : Nat) (settings : Settings)
    (valid : settings.Valid) (operations : List Operation)
    (copying : ∀ operation ∈ operations, operation.Copying)
    (admissible : (fresh logger owner settings).Admissible operations) :
    let queue := (fresh logger owner settings).run operations
    (∀ index (h : index + 1 < queue.chunks.length),
        settings.initialChunkSize.toNat <
          queue.chunks[index].size.toNat + queue.chunks[index + 1].size.toNat) ∧
      queue.chunkCount / 2 * (settings.initialChunkSize.toNat + 1) ≤
        queue.size.toNat + queue.headOffset.toNat := by
  intro queue
  have hFresh := wellFormed_fresh logger owner valid
  have hQueue : queue.WellFormed := hFresh.run admissible
  have hSettings : queue.settings = settings := hFresh.settings_run admissible
  have hCompact : queue.Compact :=
    (compact_fresh logger owner settings).run (fun _ hm => nomatch hm) hFresh copying admissible
  have hCrowded := hCompact.crowded
  have hSizes : queue.lengths = queue.chunks.map fun chunk => chunk.size.toNat :=
    List.map_congr_left fun chunk hm => (hQueue.chunks_wellFormed chunk hm).toNat_size.symm
  rw [hSettings, hSizes] at hCrowded
  refine ⟨List.isChain_iff_getElem.mp ((List.isChain_map _).mp hCrowded), ?_⟩
  have hHalf := hCrowded.half_mul_le
  rw [List.length_map, sumOf_map] at hHalf
  rw [hQueue.represents.size_eq, chunkCount_eq]
  exact hHalf

/-- Short copies under both rules: into the tail chunk, behind a tail chunk with too little room,
and in several pieces; in the end some chunks are gone and another one is consumed in part. -/
theorem run_bounds_fragmentation_of_short_copies :
    let fixed : Settings := { initialChunkSize := 4 }
    let doubling : Settings := { rule := .doubling, initialChunkSize := 4, maxChunkSize := 8 }
    let operations : List Operation :=
      [.append (.ofBytes [1, 2, 3]), .append (.ofBytes [4, 5]), .append (.ofBytes [6]),
        .appendAll [.ofBytes [7, 8], .ofBytes (List.replicate 9 0)], .projectAll, .confirm 4,
        .take 1, .append (.ofBytes [9, 10, 11])]
    let first := (fresh none 0 fixed).run operations
    let second := (fresh none 0 doubling).run operations
    ((∀ operation ∈ operations, operation.Copying) ∧
      fixed.Valid ∧ (fresh none 0 fixed).Admissible operations ∧
      first.chunks.map Chunk.size = [3, 2, 4, 4, 4] ∧
      (∀ index (h : index + 1 < first.chunks.length),
        4 < first.chunks[index].size.toNat + first.chunks[index + 1].size.toNat) ∧
      5 / 2 * (4 + 1) ≤ first.size.toNat + first.headOffset.toNat) ∧
    doubling.Valid ∧ (fresh none 0 doubling).Admissible operations ∧
      second.chunks.map Chunk.size = [5, 9, 3] ∧
      3 / 2 * (4 + 1) ≤ second.size.toNat + second.headOffset.toNat := by
  intro fixed doubling operations first second
  have hCopying : ∀ operation ∈ operations, operation.Copying := by decide
  have hFixed : fixed.Valid := by decide
  have hDoubling : doubling.Valid := by decide
  have hFirst : (fresh none 0 fixed).Admissible operations := by decide +kernel
  have hSecond : (fresh none 0 doubling).Admissible operations := by decide +kernel
  obtain ⟨hNeighbours, hBound⟩ :=
    run_bounds_fragmentation none 0 fixed hFixed operations hCopying hFirst
  have hOther := (run_bounds_fragmentation none 0 doubling hDoubling operations hCopying hSecond).2
  have hCount : chunkCount (run _ operations) = 5 := (by decide +kernel : first.chunkCount = 5)
  have hOtherCount : chunkCount (run _ operations) = 3 :=
    (by decide +kernel : second.chunkCount = 3)
  rw [hCount] at hBound
  rw [hOtherCount] at hOther
  exact ⟨⟨hCopying, hFixed, hFirst, by decide +kernel, hNeighbours, hBound⟩, hDoubling, hSecond,
    by decide +kernel, hOther⟩

end Queue

end ByteQueue
