import ByteQueue.Proofs.Queue.Slices
import ByteQueue.Proofs.Write.Attempts

/-! Projections by the number of chunks. Each write to a sink that accepts everything retires the
chunks that were shown, as many as there may be slices, so the number of writes follows from the
number of chunks alone. -/
namespace ByteQueue

open Queue

/-- Takes all of a write of up to `size` bytes, without an error. -/
def Response.AcceptsAll (size : UInt64) (response : Response) : Prop :=
  response.error = 0 ∧
    match response.acceptance with
    | .all => True
    | .atMost count => size ≤ count
    | .overclaim .. => False

/-- Takes all of each write of up to `slices` slices with up to `size` bytes. -/
structure Sink.AcceptsAll (slices : Nat) (size : UInt64) (sink : Sink) : Prop where
  le_sliceLimit : ∀ limit, sink.sliceLimit = some limit → slices ≤ limit
  script_accepts : ∀ response ∈ sink.script, response.AcceptsAll size

theorem Response.AcceptsAll.code_eq {response : Response} {size : UInt64}
    (h : response.AcceptsAll size) : response.code = .success := if_pos h.1

namespace Sink.AcceptsAll

variable {sink : Sink} {slices : Nat} {size : UInt64}

theorem honest (h : sink.AcceptsAll slices size) : sink.Honest := by
  intro response hm
  have hTakes := (h.script_accepts response hm).2
  unfold Response.Honest
  cases hAcceptance : response.acceptance with
  | all | atMost => rfl
  | overclaim =>
    rw [hAcceptance] at hTakes
    exact hTakes.elim

theorem answer (h : sink.AcceptsAll slices size) : sink.answer.AcceptsAll size := by
  unfold Sink.answer
  cases hs : sink.script with
  | nil => exact ⟨rfl, trivial⟩
  | cons response rest =>
    exact h.script_accepts response (by rw [hs]; exact List.mem_cons_self)

/-- What accepts a write accepts a smaller one. -/
theorem mono (h : sink.AcceptsAll slices size) {smaller : UInt64} (hLe : smaller ≤ size) :
    sink.AcceptsAll slices smaller := by
  refine ⟨h.le_sliceLimit, fun response hm => ?_⟩
  obtain ⟨hError, hTakes⟩ := h.script_accepts response hm
  refine ⟨hError, ?_⟩
  split at hTakes
  · trivial
  · exact UInt64.le_trans hLe hTakes
  · exact hTakes

theorem write (h : sink.AcceptsAll slices size) (projection : Projection) :
    (sink.write projection).1.AcceptsAll slices size :=
  ⟨h.le_sliceLimit, fun response hm => h.script_accepts response (List.mem_of_mem_tail hm)⟩

theorem offered_eq (h : sink.AcceptsAll slices size) {projection : Projection}
    (hLimit : projection.limit ≤ slices) : sink.offered projection = projection := by
  unfold offered
  split
  · rfl
  · next limit hSome =>
    have hLe := h.le_sliceLimit limit hSome
    rw [Projection.atMost, Nat.min_eq_right (Nat.le_trans hLimit hLe)]

theorem bytes_accepted (h : sink.AcceptsAll slices size) {projection : Projection}
    (hCursor : Cursor projection.offset projection.store.toList)
    (hLimit : projection.limit ≤ slices) (hLength : projection.bytes.length ≤ size.toNat) :
    (sink.accepted projection).bytes = projection.bytes := by
  have hTakes := h.answer.2
  rw [accepted, h.offered_eq hLimit]
  cases hAcceptance : sink.answer.acceptance with
  | all => exact Projection.bytes_block projection
  | atMost count =>
    rw [hAcceptance] at hTakes
    have hLe : size ≤ count := hTakes
    show (projection.first count.toNat).bytes = _
    rw [Projection.bytes_first_of_cursor hCursor, List.take_of_length_le]
    exact Nat.le_trans hLength (UInt64.le_iff_toNat_le.mp hLe)
  | overclaim =>
    rw [hAcceptance] at hTakes
    exact hTakes.elim

end Sink.AcceptsAll

namespace Queue

/-- The bytes of a projection end with a chunk. -/
theorem Consistent.offset_add_length_shown {queue : Queue} (h : queue.Consistent) {limit : UInt64}
    (hLimit : queue.sliceLimit limit ≠ 0) :
    queue.headOffset.toNat + (queue.project limit).value.2.bytes.length =
      ((queue.chunks.take (queue.sliceLimit limit)).flatMap Chunk.bytes).length := by
  have hCursor := h.cursor.take hLimit
  have hLe := hCursor.le
  rw [Projection.bytes, slices_project, hCursor.flatMap_remainders, List.length_drop]
  omega

/-- To confirm all that a projection showed is to retire the chunks that it showed. -/
theorem Consistent.chunks_confirm {queue after : Queue} (h : queue.Consistent) {limit : UInt64}
    (hLimit : queue.sliceLimit limit ≠ 0)
    (hValue : ((queue.project limit).value.1.confirm
      (Bytes.size (queue.project limit).value.2.bytes)).value = .ok after) :
    after.chunks = queue.chunks.drop (queue.sliceLimit limit) := by
  have hShown := (h.project limit).1.length_le
  have hShort := Word.toNat_toUInt64 (Nat.lt_of_le_of_lt hShown h.length_content_lt)
  have hEnd := h.offset_add_length_shown hLimit
  rw [← hShort] at hEnd
  have hRetired := retire_take queue.logger h.chunks_wellFormed h.cursor hEnd
  have hChunks := (toList_retireFrom queue.logger queue.store queue.headOffset
    (Bytes.size (queue.project limit).value.2.bytes)).1
  rw [value_confirm] at hValue
  split at hValue
  · cases hValue
  · cases hValue
    exact hChunks.trans (congrArg Prod.fst hRetired)

theorem sliceLimit_eq_min (queue : Queue) (limit : UInt64) :
    queue.sliceLimit limit = min limit.toNat queue.settings.maxSlices.toNat :=
  Word.toNat_min ..

theorem sliceLimit_maxSlices (queue : Queue) :
    queue.sliceLimit queue.settings.maxSlices = queue.settings.maxSlices.toNat := by
  rw [sliceLimit_eq_min, Nat.min_self]

theorem Consistent.maxSlices_ne_zero {queue : Queue} (h : queue.Consistent) :
    queue.settings.maxSlices.toNat ≠ 0 :=
  Nat.ne_of_gt (Word.toNat_pos ((Settings.valid_iff _).mp h.valid).2.1)

/-- What is left after the first chunks takes one round less. -/
theorem ceilDiv_sub_add_one {number width : Nat} (hNumber : number ≠ 0) (hWidth : width ≠ 0) :
    (number - width) ⌈/⌉ width + 1 = number ⌈/⌉ width := by
  have hPos : 0 < width := Nat.pos_of_ne_zero hWidth
  rw [Nat.ceilDiv_eq_add_pred_div, Nat.ceilDiv_eq_add_pred_div,
    show number + width - 1 = number - 1 + width by omega, Nat.add_div_right _ hPos]
  by_cases hLe : width ≤ number
  · rw [show number - width + width - 1 = number - 1 by omega]
  · rw [Nat.div_eq_of_lt (by omega), Nat.div_eq_of_lt (by omega)]

end Queue

namespace Balance

variable {before sink : Sink} {owed earlier : Bytes} {queue : Queue}

/-- One round: a write to a sink that accepts everything retires as many chunks as may be shown, and
the sink accepts what is left just as well. -/
theorem round (h : Balance before owed sink queue earlier []) (hSome : queue.content ≠ [])
    (hAccepts : sink.AcceptsAll queue.settings.maxSlices.toNat queue.size) :
    ∃ written after count, (queue.writeSome sink).value =
        ⟨written, after, .returned count .success⟩ ∧
      Balance before owed written after (earlier ++ (Attempt.next queue sink).taken) [] ∧
      after.chunks = queue.chunks.drop queue.settings.maxSlices.toNat ∧
      after.settings = queue.settings ∧
      written.AcceptsAll after.settings.maxSlices.toNat after.size := by
  obtain ⟨after, hValue, hWrite, hAfter⟩ := h.writeSome hSome
  have hConsistent := h.wellFormed.toConsistent
  have hShown := (hConsistent.project queue.settings.maxSlices).1.length_le
  rw [← hConsistent.size_eq] at hShown
  have hAll : (sink.accepted queue.projectAll.value.2).bytes = queue.projectAll.value.2.bytes :=
    hAccepts.bytes_accepted hConsistent.cursor (Nat.le_of_eq queue.sliceLimit_maxSlices) hShown
  have hLimit : queue.sliceLimit queue.settings.maxSlices ≠ 0 := by
    rw [queue.sliceLimit_maxSlices]
    exact hConsistent.maxSlices_ne_zero
  have hSettings := queue.settings_writeSome sink
  have hChunks := hConsistent.chunks_confirm hLimit (hAll ▸ hValue)
  have hContent := congrArg List.length (hAfter.conserved.trans h.conserved.symm)
  have hSmaller : after.size ≤ queue.size := by
    rw [UInt64.le_iff_toNat_le, hAfter.wellFormed.size_eq, h.wellFormed.size_eq]
    simp only [List.length_append] at hContent
    omega
  rw [hWrite] at hSettings
  rw [hAccepts.answer.code_eq] at hWrite
  rw [queue.sliceLimit_maxSlices] at hChunks
  rw [h.wellFormed.taken_next sink]
  refine ⟨_, after, _, hWrite, hAfter, hChunks, hSettings, ?_⟩
  rw [show after.settings = queue.settings from hSettings]
  exact (hAccepts.write _).mono hSmaller

/-- Round by round. The induction is on the writes of the loop: each starts with the chunks that the
rounds before it have left. -/
theorem rounds (h : Balance before owed sink queue earlier [])
    (hAccepts : sink.AcceptsAll queue.settings.maxSlices.toNat queue.size) {total : UInt64}
    {attempts : List Attempt} {transfer : Transfer}
    (loop : Loop queue sink total attempts transfer) :
    attempts.length = queue.chunks.length ⌈/⌉ queue.settings.maxSlices.toNat ∧
      firstFailure (attempts.map Attempt.answer) = .success := by
  induction loop generalizing earlier with
  | @empty queue sink total hEmpty =>
    have hNone := h.wellFormed.isEmpty_iff.mp hEmpty
    rw [h.wellFormed.toConsistent.chunks_eq_nil hNone]
    exact ⟨(zero_ceilDiv _).symm, rfl⟩
  | failed hSome hWrite hFails =>
    have hHolds := mt h.wellFormed.isEmpty_iff.mpr hSome
    obtain ⟨_, _, _, hMade, _⟩ := h.round hHolds hAccepts
    cases hWrite.symm.trans hMade
    cases hFails
  | raised hSome hWrite =>
    have hHolds := mt h.wellFormed.isEmpty_iff.mpr hSome
    obtain ⟨_, _, _, hMade, _⟩ := h.round hHolds hAccepts
    cases hWrite.symm.trans hMade
  | @again queue after sink written total count code attempts transfer hSome hWrite hGoesOn _ ih =>
    have hHolds := mt h.wellFormed.isEmpty_iff.mpr hSome
    obtain ⟨_, _, _, hMade, hAfter, hChunks, hSettings, hStill⟩ := h.round hHolds hAccepts
    cases hWrite.symm.trans hMade
    obtain ⟨hLength, hSuccess⟩ := ih hAfter hStill
    have hConsistent := h.wellFormed.toConsistent
    have hNumber : queue.chunks.length ≠ 0 := by
      intro hNone
      rw [hConsistent.content_eq, List.length_eq_zero_iff.mp hNone] at hHolds
      exact hHolds rfl
    rw [hChunks, hSettings, List.length_drop] at hLength
    constructor
    · rw [List.length_cons, hLength, ceilDiv_sub_add_one hNumber hConsistent.maxSlices_ne_zero]
    · show firstFailure (sink.answer :: attempts.map Attempt.answer) = .success
      rw [firstFailure, hAccepts.answer.code_eq, hSuccess]
      rfl

end Balance

namespace Outlet

/-- A projection puts one slice for each of the first chunks into a vector, whatever that held, and
tells their size; the slices show all that is left of these chunks. Writing everything to a sink
that accepts it retires the chunks in rounds of as many as may be shown. The number of writes is
that of the rounds, everything is written, and nothing is left in the queue. -/
theorem projects_and_writes_by_chunks {outlet : Outlet} (reachable : Queue.Reachable outlet.queue) :
    let queue := outlet.queue
    let most := queue.settings.maxSlices.toNat
    (∀ limit target,
      let result : UInt64 × List Block := (queue.projectInto limit).run target
      queue.Shows (min limit.toNat most) result.2 ∧
        result.1.toNat = sumOf Block.length result.2 ∧
        queue.outcome (.project limit) = .shown result.1 result.2) ∧
    (outlet.sink.AcceptsAll most queue.size → ∀ mode,
      let transfer := outlet.write .all mode
      transfer.sink.writes = outlet.sink.writes + queue.chunks.length ⌈/⌉ most ∧
        transfer.sink.bytes = outlet.sink.bytes ++ queue.content ∧
        transfer.ending = .returned queue.size .success ∧
        transfer.queue.chunks = [] ∧ transfer.queue.size = 0) := by
  intro queue most
  have h : queue.WellFormed := reachable.wellFormed
  have hConsistent := h.toConsistent
  constructor
  · intro limit target
    obtain ⟨_, hProjected⟩ := hConsistent.project limit
    have hShows := hConsistent.shows_take (queue.sliceLimit limit)
    rw [← queue.slices_project, queue.sliceLimit_eq_min] at hShows
    intro result
    rw [show result = _ from hConsistent.run_projectInto limit target]
    refine ⟨hShows, ?_, rfl⟩
    rw [hProjected, Projection.bytes, length_flatMap_eq_sumOf]
    exact congrArg (sumOf · _) (funext Block.length_bytes)
  · intro hAccepts mode transfer
    have hSlices : outlet.sink.sliceLimit ≠ some 0 := fun h0 =>
      hConsistent.maxSlices_ne_zero (Nat.le_zero.mp (hAccepts.le_sliceLimit 0 h0))
    have hStart := Balance.start h hAccepts.honest
    obtain ⟨attempts, loop⟩ := hStart.loop_writeUpTo hSlices
      (outlet.sink.script.length + queue.size.toNat) (by rw [h.size_eq]) 0
    obtain ⟨hNumber, hSuccess⟩ := hStart.rounds hAccepts loop
    obtain ⟨hPassage, hEnding, hAll⟩ := hStart.passage hSlices loop
    have hNone := hAll hSuccess
    have hTaken := hPassage.content_eq
    rw [hNone, List.append_nil] at hTaken
    rw [hSuccess, hTaken, UInt64.zero_add, ← hConsistent.size_eq_size] at hEnding
    obtain ⟨_, hEnded, _⟩ := h.writeAll hAccepts.honest
    refine ⟨hPassage.writes_eq.trans (congrArg _ hNumber), ?_, ?_,
      hEnded.wellFormed.toConsistent.chunks_eq_nil hNone, ?_⟩
    · exact hPassage.bytes_eq.trans (congrArg _ hTaken)
    · show mode.escalate (queue.writeAll outlet.sink).value.ending = _
      rw [show (queue.writeAll outlet.sink).value.ending = _ from hEnding, Mode.escalate,
        if_neg (by rintro ⟨_, hFails⟩; cases hFails)]
    · exact beq_iff_eq.mp (hEnded.wellFormed.isEmpty_iff.mpr hNone)

/-- Five chunks, of which the first is consumed in part and the third is sealed, are written in
three rounds. -/
theorem projects_and_writes_five_chunks :
    let settings : Settings := { initialChunkSize := 4, smallHandleThreshold := 1, maxSlices := 2 }
    let queue := (Queue.fresh none 0 settings).run
      [.append (.ofBytes [1, 2, 3, 4, 5]), .project 1, .confirm 3,
        .absorb (.adopt (some ⟨⟨1, 0⟩, .ofBytes [6, 7]⟩) 2), .append (.ofBytes [8, 9, 10, 11, 12])]
    let sink : Sink := { script := [⟨.all, 0⟩, ⟨.atMost 9, 0⟩], sliceLimit := some 3 }
    let result : UInt64 × List Block := (queue.projectInto 9).run [.ofBytes [0]]
    let transfer := Outlet.write ⟨queue, sink⟩ .all .raise
    Queue.Reachable queue ∧ sink.AcceptsAll 2 queue.size ∧ queue.chunks.length = 5 ∧
      result = (2, [.ofBytes [4], .ofBytes [5]]) ∧
      queue.Shows 2 [.ofBytes [4], .ofBytes [5]] ∧
      transfer.sink.writes = 3 ∧ transfer.sink.bytes = [4, 5, 6, 7, 8, 9, 10, 11, 12] ∧
      transfer.ending = .returned 9 .success ∧ transfer.queue.chunks = [] := by
  intro settings queue sink result transfer
  have hReachable : Queue.Reachable queue :=
    (Queue.Reachable.fresh none 0 settings (by decide)).run (by decide +kernel)
  have hMost : queue.settings.maxSlices.toNat = 2 := by decide +kernel
  have hSize : queue.size = 9 := by decide +kernel
  have hChunks : queue.chunks.length = 5 := by decide +kernel
  have hContent : queue.content = [4, 5, 6, 7, 8, 9, 10, 11, 12] := by decide +kernel
  have hResult : result = (2, [.ofBytes [4], .ofBytes [5]]) := by decide +kernel
  have hAccepts : sink.AcceptsAll 2 9 := by
    refine ⟨fun limit hLimit => ?_, fun response hm => ?_⟩
    · cases hLimit
      decide
    · simp only [sink, List.mem_cons, List.not_mem_nil, or_false] at hm
      obtain rfl | rfl := hm
      · exact ⟨rfl, trivial⟩
      · exact ⟨rfl, by decide⟩
  -- the rest follows without another run of the operations
  clear_value queue
  obtain ⟨hProjects, hWrites⟩ :=
    @projects_and_writes_by_chunks ⟨queue, sink⟩ hReachable
  dsimp only at hProjects hWrites
  rw [hMost] at hProjects hWrites
  rw [hChunks, hContent, hSize] at hWrites
  have hShows := (hProjects 9 [.ofBytes [0]]).1
  rw [show (queue.projectInto 9).run [.ofBytes [0]] = _ from hResult] at hShows
  obtain ⟨hNumber, hBytes, hEnding, hNone, _⟩ := hWrites hAccepts .raise
  rw [← hSize] at hAccepts
  exact ⟨hReachable, hAccepts, hChunks, hResult, hShows, hNumber, hBytes, hEnding, hNone⟩

end Outlet

end ByteQueue
