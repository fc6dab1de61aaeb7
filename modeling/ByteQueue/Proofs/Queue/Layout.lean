import ByteQueue.Proofs.Queue.Discipline
import ByteQueue.Proofs.Queue.InRange

/-! Layout: which chunks added bytes come to lie in. What the tail chunk has no room for is cut by
the sizing rule, and the sizes of the pieces depend only on the rule and on the number of bytes.
Copies and windows onto a handle are made by two loops, of which one counts down what is left and
the other counts up to the size; both of them end, with pieces of the same sizes. -/
namespace ByteQueue

/-- The sizes of the pieces that a rule cuts `count` bytes into: as many times the greatest size as
it fits, and what is left. Without a greatest size nothing is cut. -/
def Sizing.pieceSizes : Sizing → Nat → List Nat
  | .fixed size, count =>
    List.replicate (count / size.toNat) size.toNat ++
      if count % size.toNat = 0 then [] else [count % size.toNat]
  | .doubling _, count => [count]

namespace Bytes

/-- Byte strings are cut out of all of their bytes by their lengths. -/
theorem splitLengths_flatten (parts : List Bytes) :
    (parts.map List.length).splitLengths parts.flatten = parts := by
  induction parts with
  | nil => rfl
  | cons first rest ih =>
    rw [List.map_cons, List.flatten_cons, List.splitLengths_cons, List.take_left, List.drop_left,
      ih]

/-- Cutting with a limit is division with a rest. -/
theorem map_length_pieces {limit : Nat} (hLimit : limit ≠ 0) (data : Bytes) :
    (data.pieces limit).map List.length =
      List.replicate (data.length / limit) limit ++
        if data.length % limit = 0 then [] else [data.length % limit] := by
  fun_induction pieces limit data with
  | case1 => simp
  | case2 first rest h => exact absurd h hLimit
  | case3 first rest _ ih =>
    rw [List.map_cons, ih, List.length_drop, List.length_take]
    generalize hCount : (first :: rest).length = count
    have hSome : count ≠ 0 := by simp [← hCount]
    by_cases hLe : limit ≤ count
    · have hPos := Nat.pos_of_ne_zero hLimit
      rw [Nat.min_eq_left hLe, Nat.mod_eq_sub_mod hLe, Nat.div_eq_sub_div hPos hLe,
        List.replicate_succ, List.cons_append]
    · have hLt := Nat.lt_of_not_le hLe
      rw [Nat.sub_eq_zero_of_le hLt.le, Nat.min_eq_right hLt.le, Nat.div_eq_of_lt hLt,
        Nat.mod_eq_of_lt hLt, if_neg hSome]
      simp

end Bytes

theorem Handle.map_size_pieces {handle : Handle} (hb : handle.InBounds) {limit : UInt64}
    (hLimit : limit ≠ 0) :
    (handle.pieces limit).map (fun part => part.size.toNat) =
      (handle.bytes.pieces limit.toNat).map List.length := by
  rw [← map_bytes_pieces hb hLimit, List.map_map]
  refine List.map_congr_left fun part hm => ?_
  have hPart := (wellFormed_of_mem_pieces hb hLimit hm).2
  rw [Function.comp_apply, length_bytes, hPart.length_eq]

namespace Guarded

/-- A loop with no bound on its turns comes to an end with a result. -/
inductive Ends {σ α : Type} (next : σ → Guarded (σ ⊕ α)) : σ → α → Prop where
  | last {state : σ} {result : α} (done : next state = .ok (.inr result)) : Ends next state result
  | turn {state between : σ} {result : α} (more : next state = .ok (.inl between))
    (rest : Ends next between result) : Ends next state result

/-- A loop that ends within some number of turns ends. -/
theorem ends_of_loop {σ α : Type} {next : σ → Guarded (σ ⊕ α)} {turns : Nat} {state : σ}
    {result : α} (h : loop next turns state = .ok result) : Ends next state result := by
  induction turns generalizing state with
  | zero => cases h
  | succ turns ih =>
    rw [loop_succ] at h
    cases hTurn : next state with
    | error fault =>
      rw [hTurn] at h
      cases h
    | ok outcome =>
      rw [hTurn, ok_bind] at h
      cases outcome with
      | inl between => exact .turn hTurn (ih h)
      | inr ended =>
        cases h
        exact .last hTurn

/-- The loop that copies what is left ends, however much that is. -/
theorem ends_copyNext (queue : Queue) {data : Block} (h : data.length < 2 ^ 64) :
    Ends (copyNext queue.sizing.greatest data) (queue, 0, data.size)
      (queue.pushCopies data).value :=
  ends_of_loop (pushCopies_eq queue h)

/-- The loop that refers to a handle part by part ends as well. -/
theorem ends_referNext (queue : Queue) {handle : Handle}
    (hLong : ¬ (queue.sizing.greatest = 0 ∨ handle.size ≤ queue.sizing.greatest)) :
    Ends (referNext queue.sizing.greatest handle) (queue, 0)
      (queue.pushReference handle).value := by
  have h0 : handle.size ≠ 0 := fun hn => hLong (.inr (hn ▸ UInt64.zero_le))
  have hLoop := pushReference_eq queue h0
  rw [pushReference, if_neg hLong] at hLoop
  exact ends_of_loop hLoop

end Guarded

namespace Queue

open Logged

variable {queue : Queue} {data : Block}

/-- The tail chunk is filling and has room for so many bytes. -/
def HasRoom (queue : Queue) (count : Nat) : Prop :=
  ∃ tail, queue.chunks.getLast? = some (.filling tail) ∧ count ≤ tail.spare.toNat

instance (queue : Queue) (count : Nat) : Decidable (queue.HasRoom count) :=
  match h : queue.chunks.getLast? with
  | some (.filling tail) => decidable_of_iff (count ≤ tail.spare.toNat) (by simp [HasRoom, h])
  | some (.sealed _) => isFalse (by simp [HasRoom, h])
  | none => isFalse (by simp [HasRoom, h])

/-- The pieces of data are as long as the sizing rule has it. -/
theorem map_length_pieces (valid : queue.settings.Valid) {data : Bytes} (hData : data ≠ []) :
    (data.pieces queue.sizing.greatest.toNat).map List.length =
      queue.sizing.pieceSizes data.length := by
  have hValid := sizing_valid valid
  rw [← sizing] at hValid
  cases hSizing : queue.sizing with
  | fixed size =>
    rw [hSizing] at hValid
    exact Bytes.map_length_pieces (Word.toNat_pos hValid).ne' data
  | doubling rule =>
    have hNone : (Sizing.doubling rule).greatest.toNat = 0 := rfl
    rw [Bytes.pieces_of_le hData (.inl hNone)]
    rfl

/-! Copies. -/

theorem chunks_append_of_room (hData : data.bytes ≠ []) (hShort : data.length < 2 ^ 64)
    (hRoom : queue.HasRoom data.length) :
    ∃ earlier tail, queue.chunks = earlier ++ [.filling tail] ∧
      (queue.append data).value.chunks = earlier ++ [.filling (tail.append data)] := by
  obtain ⟨tail, hLast, hFits⟩ := hRoom
  rw [← Block.toNat_size hShort, ← UInt64.le_iff_toNat_le] at hFits
  rcases queue.append_cases data with
    ⟨hNone, _⟩ | ⟨coalesced, _, hSome, hValue⟩ | ⟨_, hNone, _⟩
  · exact absurd hNone hData
  · obtain ⟨tail, hLast, _, hCoalesced⟩ := exists_tail_of_coalesce hSome
    obtain ⟨earlier, hChunks, hAfter⟩ := exists_chunks_eq hLast
    refine ⟨earlier, tail, hChunks, ?_⟩
    rw [hValue, hCoalesced]
    exact hAfter _
  · have hLess := spare_lt_of_coalesce_eq_none hNone ((ChunkStore.last?_eq _).trans hLast)
    exact absurd hFits (UInt64.not_le.mpr hLess)

theorem value_append_of_no_room (hData : data.bytes ≠ []) (hShort : data.length < 2 ^ 64)
    (hRoom : ¬ queue.HasRoom data.length) :
    (queue.append data).value = (queue.pushCopies data).value := by
  rcases queue.append_cases data with
    ⟨hNone, _⟩ | ⟨coalesced, _, hSome, _⟩ | ⟨_, _, hValue⟩
  · exact absurd hNone hData
  · obtain ⟨tail, hLast, hFits, _⟩ := exists_tail_of_coalesce hSome
    rw [UInt64.le_iff_toNat_le, Block.toNat_size hShort] at hFits
    exact absurd ⟨tail, (ChunkStore.last?_eq _).symm.trans hLast, hFits⟩ hRoom
  · exact hValue

theorem map_bytes_copies_pieces (valid : queue.settings.Valid) (hData : data.bytes ≠ []) :
    (queue.copies (data.pieces queue.sizing.greatest.toNat)).map FillingChunk.bytes =
      (queue.sizing.pieceSizes data.length).splitLengths data.bytes := by
  have hCut := Bytes.splitLengths_flatten (data.bytes.pieces queue.sizing.greatest.toNat)
  rw [Bytes.flatten_pieces, map_length_pieces valid hData, Block.length_bytes] at hCut
  rw [map_bytes_copies, Block.map_bytes_pieces, hCut]

/-- Under the fixed rule all chunks for copies are of its size, since no piece is longer. -/
theorem capacity_of_mem_copies {size : UInt64} (hSizing : queue.sizing = .fixed size)
    {pieces : List Block} (hPieces : ∀ piece ∈ pieces, piece.size ≤ size) {chunk : FillingChunk}
    (hm : chunk ∈ queue.copies pieces) : chunk.capacity = size := by
  induction pieces generalizing queue with
  | nil => cases hm
  | cons first rest ih =>
    rcases List.mem_cons.mp hm with rfl | hm
    · have hFirst := UInt64.le_iff_toNat_le.mp (hPieces first List.mem_cons_self)
      show max ((queue.sizing.next? queue.size first.size).getD first.size) first.size = size
      rw [hSizing, Sizing.next?, Option.getD_some]
      apply UInt64.toNat_inj.mp
      rw [Word.toNat_max]
      exact Nat.max_eq_left hFirst
    · have hNext : (queue.pushCopy first).value.sizing = .fixed size := hSizing
      exact ih hNext (fun piece hm => hPieces piece (List.mem_cons_of_mem _ hm)) hm

/-- The chunks for copies are of the size that the rule finds for all of the data. -/
theorem Consistent.capacity_copies (h : queue.Consistent) (hData : data.bytes ≠ [])
    (hBound : queue.content.length + data.length ≤ 2 ^ 63) :
    ∃ size, queue.sizing.next? queue.size data.size = some size ∧
      ∀ chunk ∈ queue.copies (data.pieces queue.sizing.greatest.toNat), chunk.capacity = size := by
  cases hSizing : queue.sizing with
  | fixed size =>
    have hValid := sizing_valid h.valid
    rw [← sizing, hSizing] at hValid
    refine ⟨size, rfl, fun chunk hm => capacity_of_mem_copies hSizing (fun piece hm => ?_) hm⟩
    have hPiece := Block.bytes_mem_pieces hm
    have hLe : piece.bytes.length ≤ size.toNat :=
      Bytes.length_le_of_mem_pieces (Word.toNat_pos hValid).ne' hPiece
    rw [Block.length_bytes] at hLe
    rw [UInt64.le_iff_toNat_le, Block.toNat_size (Nat.lt_of_le_of_lt hLe size.toNat_lt)]
    exact hLe
  | doubling rule =>
    have hNone : queue.sizing.greatest = 0 := by rw [hSizing]; rfl
    have hPieces : data.pieces (Sizing.doubling rule).greatest.toNat = [data] :=
      if_neg (mt Block.isEmpty_iff.mp hData)
    have hNext := (allows_copy h.valid (fun hn => absurd hNone hn)
      (by rw [h.size_eq]; exact hBound)).1
    rw [hSizing] at hNext
    refine ⟨_, hNext, fun chunk hm => ?_⟩
    rw [hPieces] at hm
    rw [List.mem_singleton.mp hm]
    rfl

/-! Windows onto a handle. -/

theorem map_size_windows (valid : queue.settings.Valid) {handle : Handle} (hb : handle.InBounds)
    (h0 : handle.size ≠ 0) :
    (queue.windows handle).map (fun part => part.size.toNat) =
      queue.sizing.pieceSizes handle.size.toNat := by
  have hLength : handle.bytes.length = handle.size.toNat := by
    rw [Handle.length_bytes, hb.length_eq]
  have hSome : handle.bytes ≠ [] := List.ne_nil_of_length_pos (hLength ▸ Word.toNat_pos h0)
  rw [← hLength, ← map_length_pieces valid hSome, windows]
  split
  · next hWhole =>
    have hOne : queue.sizing.greatest.toNat = 0 ∨
        handle.bytes.length ≤ queue.sizing.greatest.toNat := by
      rw [hLength]
      exact hWhole.imp (congrArg UInt64.toNat) UInt64.le_iff_toNat_le.mp
    rw [Bytes.pieces_of_le hSome hOne, List.map_singleton, List.map_singleton, hLength]
  · next hLong => exact Handle.map_size_pieces hb fun hn => hLong (.inl hn)

/-- How added bytes are laid out, wherever the cursor is. What there is room for only extends the
tail chunk. Everything else leaves the chunks that were there as they are and comes behind them:
copies in filling chunks of the size that the rule finds, and a handle as windows onto its own
array, one behind the other. Both are cut into pieces of the same sizes, by loops that end. -/
theorem added_bytes_are_laid_out (reachable : Reachable queue) :
    (∀ data : Block, data.bytes ≠ [] → queue.content.length + data.length ≤ capacity →
      let after := (queue.append data).value
      after.headOffset = queue.headOffset ∧
      (queue.HasRoom data.length → ∃ earlier tail, queue.chunks = earlier ++ [.filling tail] ∧
        after.chunks = earlier ++ [.filling (tail.append data)]) ∧
      (¬ queue.HasRoom data.length →
        (∃ (added : List FillingChunk) (size : UInt64),
          after.chunks = queue.chunks ++ added.map Chunk.filling ∧
          added.map FillingChunk.bytes =
            (queue.sizing.pieceSizes data.length).splitLengths data.bytes ∧
          queue.sizing.next? queue.size data.size = some size ∧
          ∀ chunk ∈ added, chunk.capacity = size) ∧
        Guarded.Ends (Guarded.copyNext queue.sizing.greatest data) (queue, 0, data.size) after)) ∧
    ∀ handle : Handle, handle.InBounds → handle.size ≠ 0 → ¬ queue.Copies handle →
      let after := (queue.absorb handle).value
      after.headOffset = queue.headOffset ∧
      (∃ parts : List Handle,
        after.chunks = queue.chunks ++ parts.map Chunk.sealed ∧ handle.Tiles 0 parts ∧
        parts.map (fun part => part.size.toNat) = queue.sizing.pieceSizes handle.size.toNat) ∧
      (¬ (queue.sizing.greatest = 0 ∨ handle.size ≤ queue.sizing.greatest) →
        Guarded.Ends (Guarded.referNext queue.sizing.greatest handle) (queue, 0) after) := by
  have hQueue := reachable.wellFormed.toConsistent
  have hCapacity : capacity = 2 ^ 63 := by decide
  refine ⟨fun data hData hBound => ?_, fun handle hb h0 hReferred => ?_⟩
  · rw [hCapacity] at hBound
    have hShort : data.length < 2 ^ 64 := by omega
    refine ⟨(grows_append queue data).frame.2.1, chunks_append_of_room hData hShort,
      fun hRoom => ?_⟩
    obtain ⟨size, hNext, hSizes⟩ := hQueue.capacity_copies hData hBound
    rw [value_append_of_no_room hData hShort hRoom]
    exact ⟨⟨_, size, queue.chunks_pushCopies data, map_bytes_copies_pieces hQueue.valid hData,
      hNext, hSizes⟩, Guarded.ends_copyNext queue hShort⟩
  · refine ⟨(grows_absorb queue hb).frame.2.1, ?_⟩
    rw [(queue.value_absorb hb h0).2 hReferred]
    exact ⟨⟨_, queue.chunks_pushReference handle, queue.tiles_windows hb h0,
      map_size_windows hQueue.valid hb h0⟩, Guarded.ends_referNext queue⟩

/-- Behind a tail chunk with room for one byte: nine bytes under both rules, and a handle of eight,
which the size divides. -/
theorem added_bytes_are_laid_out_in_nine_and_eight :
    let fixed : Settings := { initialChunkSize := 4 }
    let doubling : Settings := { rule := .doubling, initialChunkSize := 4, maxChunkSize := 8 }
    let operations : List Operation := [.append (.ofBytes [1, 2, 3]), .projectAll, .confirm 1]
    let first := (fresh none 0 fixed).run operations
    let second := (fresh none 0 doubling).run operations
    let data := Block.ofBytes [4, 5, 6, 7, 8, 9, 10, 11, 12]
    let handle : Handle := .adopt (some ⟨⟨1, 0⟩, .ofBytes [1, 2, 3, 4, 5, 6, 7, 8]⟩) 8
    Reachable first ∧ Reachable second ∧ first.HasRoom 1 ∧ ¬ first.HasRoom 9 ∧
      ¬ second.HasRoom 9 ∧ ¬ first.Copies handle ∧
      (∃ added : List FillingChunk,
        (first.append data).value.chunks = first.chunks ++ added.map Chunk.filling ∧
        added.map FillingChunk.bytes = [[4, 5, 6, 7], [8, 9, 10, 11], [12]]) ∧
      (∃ added : List FillingChunk,
        (second.append data).value.chunks = second.chunks ++ added.map Chunk.filling ∧
        added.map FillingChunk.bytes = [[4, 5, 6, 7, 8, 9, 10, 11, 12]]) ∧
      (∃ parts : List Handle,
        (first.absorb handle).value.chunks = first.chunks ++ parts.map Chunk.sealed ∧
        handle.Tiles 0 parts ∧ parts.map (fun part => part.size.toNat) = [4, 4]) ∧
      Guarded.Ends (Guarded.referNext 4 handle) (first, 0) (first.absorb handle).value := by
  intro fixed doubling operations first second data handle
  have hFirst : Reachable first :=
    (Reachable.fresh none 0 fixed (by decide)).run (by decide +kernel)
  have hSecond : Reachable second :=
    (Reachable.fresh none 0 doubling (by decide)).run (by decide +kernel)
  have hRoom : first.HasRoom 1 := by decide +kernel
  have hNoRoom : ¬ first.HasRoom 9 := by decide +kernel
  have hOtherNoRoom : ¬ second.HasRoom 9 := by decide +kernel
  have hNotCopied : ¬ first.Copies handle := fun ⟨_, tail, hLast, hFits⟩ =>
    absurd ⟨tail, hLast, UInt64.le_iff_toNat_le.mp hFits⟩
      (by decide +kernel : ¬ first.HasRoom 8)
  have hBound : first.content.length + data.length ≤ capacity := by decide +kernel
  have hOtherBound : second.content.length + data.length ≤ capacity := by decide +kernel
  have hCut : (first.sizing.pieceSizes data.length).splitLengths data.bytes =
      [[4, 5, 6, 7], [8, 9, 10, 11], [12]] := by decide +kernel
  have hUncut : (second.sizing.pieceSizes data.length).splitLengths data.bytes =
      [[4, 5, 6, 7, 8, 9, 10, 11, 12]] := by decide +kernel
  have hParts : first.sizing.pieceSizes handle.size.toNat = [4, 4] := by decide +kernel
  have hGreatest : first.sizing.greatest = 4 := by decide +kernel
  clear_value first second
  obtain ⟨hData, hHandle⟩ := added_bytes_are_laid_out hFirst
  obtain ⟨hOther, _⟩ := added_bytes_are_laid_out hSecond
  obtain ⟨⟨added, _, hAdded, hBytes, _⟩, _⟩ := (hData data (by decide) hBound).2.2 hNoRoom
  obtain ⟨⟨others, _, hOthers, hOtherBytes, _⟩, _⟩ :=
    (hOther data (by decide) hOtherBound).2.2 hOtherNoRoom
  obtain ⟨_, ⟨parts, hBehind, hTiles, hSizes⟩, hEnds⟩ :=
    hHandle handle (by decide) (by decide) hNotCopied
  rw [hGreatest] at hEnds
  exact ⟨hFirst, hSecond, hRoom, hNoRoom, hOtherNoRoom, hNotCopied,
    ⟨added, hAdded, hBytes.trans hCut⟩, ⟨others, hOthers, hOtherBytes.trans hUncut⟩,
    ⟨parts, hBehind, hTiles, hSizes.trans hParts⟩, hEnds (by decide)⟩

end Queue

end ByteQueue
