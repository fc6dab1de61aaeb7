import ByteQueue.Proofs.Write.Exchange

/-! The attempts of a loop of writes. Each of them writes a queue that is not empty and shows the
sink at least one byte. The loop stops with the first attempt that fails, or where nothing is left;
since an attempt that takes nothing uses up an answer of the script, it always stops. -/
namespace ByteQueue

open Queue

/-- One write in a loop: the bytes that the sink was shown, and its answer. -/
structure Attempt where
  shown : Bytes
  answer : Response
  deriving DecidableEq

namespace Attempt

/-- The next write of a queue to a sink. -/
def next (queue : Queue) (sink : Sink) : Attempt :=
  ⟨(sink.offered queue.projectAll.value.2).bytes, sink.answer⟩

/-- What the sink took: all that it was shown, or as many bytes of it as it answered. -/
def taken (attempt : Attempt) : Bytes :=
  match attempt.answer.acceptance with
  | .all => attempt.shown
  | .atMost count | .overclaim count _ => attempt.shown.take count.toNat

/-- The number of bytes that were accepted, no more than were shown. -/
def count (attempt : Attempt) : Nat :=
  match attempt.answer.acceptance with
  | .all => attempt.shown.length
  | .atMost count | .overclaim count _ => min count.toNat attempt.shown.length

theorem length_taken (attempt : Attempt) : attempt.taken.length = attempt.count := by
  unfold taken count
  split
  · rfl
  · exact List.length_take
  · exact List.length_take

theorem length_flatMap_taken (attempts : List Attempt) :
    (attempts.flatMap taken).length = sumOf count attempts := by
  rw [length_flatMap_eq_sumOf]
  exact congrArg (sumOf · attempts) (funext length_taken)

end Attempt

/-- What a sink answers to the next `count` writes. Behind its script it accepts. -/
def Sink.answers (sink : Sink) (count : Nat) : List Response :=
  (List.range count).map fun position => sink.script.getD position .accept

/-- The first answer, and then those of the sink that has given it. -/
theorem Sink.answers_succ {sink written : Sink} (hScript : written.script = sink.script.tail)
    (count : Nat) : sink.answers (count + 1) = sink.answer :: written.answers count := by
  have hFirst : sink.script.getD 0 .accept = sink.answer := by
    rw [Sink.answer, List.getD_eq_getElem?_getD, List.head?_eq_getElem?]
  have hLater (position : Nat) :
      sink.script.getD (position + 1) .accept = written.script.getD position .accept := by
    rw [hScript, List.getD_eq_getElem?_getD, List.getD_eq_getElem?_getD, List.getElem?_tail]
  rw [Sink.answers, List.range_succ_eq_map, List.map_cons, List.map_map, hFirst]
  exact congrArg _ (List.map_congr_left fun position _ => hLater position)

namespace Queue

/-- What an attempt takes is what the sink accepts of the projection. -/
theorem WellFormed.taken_next {queue : Queue} (h : queue.WellFormed) (sink : Sink) :
    (Attempt.next queue sink).taken = (sink.accepted queue.projectAll.value.2).bytes := by
  have hCursor : Cursor (sink.offered queue.projectAll.value.2).offset
      (sink.offered queue.projectAll.value.2).store.toList := sink.cursor_offered h.cursor
  unfold Attempt.taken Attempt.next Sink.accepted
  cases sink.answer.acceptance with
  | all => exact (Projection.bytes_block _).symm
  | atMost count | overclaim count => exact (Projection.bytes_first_of_cursor hCursor _).symm

/-- A queue that holds bytes shows some of them, all at its front. -/
theorem WellFormed.shown_next {queue : Queue} (h : queue.WellFormed)
    (hSome : queue.content ≠ []) {sink : Sink} (hSlices : sink.sliceLimit ≠ some 0) :
    (Attempt.next queue sink).shown ≠ [] ∧ (Attempt.next queue sink).shown <+: queue.content := by
  obtain ⟨hChunks, hLimit⟩ := h.projectAll_shows hSome
  obtain ⟨hPrefix, _⟩ := h.toConsistent.project queue.settings.maxSlices
  exact ⟨Sink.bytes_offered_ne_nil h.cursor hChunks hLimit hSlices,
    (sink.bytes_offered _).trans hPrefix⟩

/-- The loop of writes with no bound on their number, after `total` bytes: its attempts, and how
it ends. -/
inductive Loop : Queue → Sink → UInt64 → List Attempt → Transfer → Prop where
  | empty {queue : Queue} {sink : Sink} {total : UInt64} (hEmpty : queue.isEmpty = true) :
    Loop queue sink total [] ⟨sink, queue, .returned total .success⟩
  | failed {queue after : Queue} {sink written : Sink} {total count : UInt64} {code : Code}
    (hSome : ¬ queue.isEmpty = true)
    (hWrite : (queue.writeSome sink).value = ⟨written, after, .returned count code⟩)
    (hFails : code.isFailure = true) :
    Loop queue sink total [.next queue sink] ⟨written, after, .returned (total + count) code⟩
  | raised {queue after : Queue} {sink written : Sink} {total : UInt64} {code : Code}
    (hSome : ¬ queue.isEmpty = true)
    (hWrite : (queue.writeSome sink).value = ⟨written, after, .raised code⟩) :
    Loop queue sink total [.next queue sink] ⟨written, after, .raised code⟩
  | again {queue after : Queue} {sink written : Sink} {total count : UInt64} {code : Code}
    {attempts : List Attempt} {transfer : Transfer} (hSome : ¬ queue.isEmpty = true)
    (hWrite : (queue.writeSome sink).value = ⟨written, after, .returned count code⟩)
    (hGoesOn : ¬ code.isFailure = true)
    (rest : Loop after written (total + count) attempts transfer) :
    Loop queue sink total (.next queue sink :: attempts) transfer

/-- What some attempts, made one after the other, have to do with the queue and the sink before and
after them. -/
structure Passage (queue : Queue) (sink : Sink) (attempts : List Attempt) (after : Queue)
    (written : Sink) : Prop where
  answers_eq : attempts.map Attempt.answer = sink.answers attempts.length
  script_eq : written.script = sink.script.drop attempts.length
  writes_eq : written.writes = sink.writes + attempts.length
  bytes_eq : written.bytes = sink.bytes ++ attempts.flatMap Attempt.taken
  content_eq : attempts.flatMap Attempt.taken ++ after.content = queue.content
  /-- Each attempt is shown what is at the front by then, and one that fails is the last. -/
  each : ∀ earlier attempt later, attempts = earlier ++ attempt :: later →
    attempt.shown ≠ [] ∧
      attempt.shown <+: queue.content.drop (earlier.flatMap Attempt.taken).length ∧
      (attempt.answer.code.isFailure = true → later = [])

/-- An attempt was made: the sink answered it and took some of what it was shown, which was at the
front of the queue. -/
structure Attempted (queue : Queue) (sink : Sink) (after : Queue) (written : Sink) : Prop where
  script_eq : written.script = sink.script.tail
  writes_eq : written.writes = sink.writes + 1
  bytes_eq : written.bytes = sink.bytes ++ (Attempt.next queue sink).taken
  content_eq : (Attempt.next queue sink).taken ++ after.content = queue.content
  shown_ne_nil : (Attempt.next queue sink).shown ≠ []
  shown_prefix : (Attempt.next queue sink).shown <+: queue.content

theorem Passage.nil (queue : Queue) (sink : Sink) : Passage queue sink [] queue sink where
  answers_eq := rfl
  script_eq := rfl
  writes_eq := rfl
  bytes_eq := (List.append_nil _).symm
  content_eq := rfl
  each := by simp

/-- One attempt more in front, which is the only one if it fails. -/
theorem Attempted.passage {queue between after : Queue} {sink written last : Sink}
    {attempts : List Attempt} (h : Attempted queue sink between written)
    (hStops : sink.answer.code.isFailure = true → attempts = [])
    (rest : Passage between written attempts after last) :
    Passage queue sink (.next queue sink :: attempts) after last where
  answers_eq := by
    rw [List.map_cons, rest.answers_eq, List.length_cons, Sink.answers_succ h.script_eq]
    rfl
  script_eq := by rw [rest.script_eq, h.script_eq, List.length_cons, List.drop_tail]
  writes_eq := by
    rw [rest.writes_eq, h.writes_eq, List.length_cons]
    omega
  bytes_eq := by rw [rest.bytes_eq, h.bytes_eq, List.flatMap_cons, List.append_assoc]
  content_eq := by rw [List.flatMap_cons, List.append_assoc, rest.content_eq, h.content_eq]
  each := by
    intro earlier attempt later hAttempts
    cases earlier with
    | nil =>
      obtain ⟨rfl, rfl⟩ := List.cons.inj hAttempts
      exact ⟨h.shown_ne_nil, h.shown_prefix, hStops⟩
    | cons first earlier =>
      obtain ⟨rfl, rfl⟩ := List.cons.inj hAttempts
      have hAttempt := rest.each _ _ _ rfl
      rwa [← h.content_eq, List.flatMap_cons, List.length_append, ← List.drop_drop,
        List.drop_left]

/-- A loop ends in one way. -/
theorem Loop.unique {queue : Queue} {sink : Sink} {total : UInt64}
    {attempts others : List Attempt} {transfer other : Transfer}
    (h : Loop queue sink total attempts transfer) (hOther : Loop queue sink total others other) :
    others = attempts ∧ other = transfer := by
  induction h generalizing others other with
  | empty hEmpty =>
    cases hOther with
    | empty => exact ⟨rfl, rfl⟩
    | failed hSome | raised hSome | again hSome => exact absurd hEmpty hSome
  | failed hSome hWrite hFails =>
    cases hOther with
    | empty hEmpty => exact absurd hEmpty hSome
    | failed _ hAgain =>
      cases hWrite.symm.trans hAgain
      exact ⟨rfl, rfl⟩
    | raised _ hAgain => cases hWrite.symm.trans hAgain
    | again _ hAgain hGoesOn =>
      cases hWrite.symm.trans hAgain
      exact absurd hFails hGoesOn
  | raised hSome hWrite =>
    cases hOther with
    | empty hEmpty => exact absurd hEmpty hSome
    | raised _ hAgain =>
      cases hWrite.symm.trans hAgain
      exact ⟨rfl, rfl⟩
    | failed _ hAgain | again _ hAgain => cases hWrite.symm.trans hAgain
  | again hSome hWrite hGoesOn rest ih =>
    cases hOther with
    | empty hEmpty => exact absurd hEmpty hSome
    | failed _ hAgain hFails =>
      cases hWrite.symm.trans hAgain
      exact absurd hFails hGoesOn
    | raised _ hAgain => cases hWrite.symm.trans hAgain
    | again _ hAgain _ hRest =>
      cases hWrite.symm.trans hAgain
      obtain ⟨rfl, rfl⟩ := ih hRest
      exact ⟨rfl, rfl⟩

end Queue

namespace Balance

variable {before sink : Sink} {owed earlier : Bytes} {queue : Queue}

/-- One attempt to write a queue that holds bytes. -/
theorem attempted (h : Balance before owed sink queue earlier []) (hSome : queue.content ≠ [])
    (hSlices : before.sliceLimit ≠ some 0) :
    let taken := (Attempt.next queue sink).taken
    ∃ written after, (queue.writeSome sink).value =
        ⟨written, after, .returned taken.size sink.answer.code⟩ ∧
      Attempted queue sink after written ∧
      Balance before owed written after (earlier ++ taken) [] ∧
      written.script.length + after.content.length <
        sink.script.length + queue.content.length := by
  intro taken
  obtain ⟨after, _, hWrite, hAfter⟩ := h.writeSome hSome
  have hLess := h.left_lt hSome hSlices hAfter
  have hShown := h.wellFormed.shown_next hSome (h.sliceLimit_eq ▸ hSlices)
  have hContent := hAfter.conserved.trans h.conserved.symm
  have hBytes := sink.bytes_write queue.projectAll.value.2
  rw [← h.wellFormed.taken_next sink] at hWrite hAfter hContent hBytes
  rw [List.append_assoc] at hContent
  exact ⟨_, after, hWrite, ⟨rfl, rfl, hBytes, List.append_cancel_left hContent, hShown.1,
    hShown.2⟩, hAfter, hLess⟩

/-- The loop ends, and the one with a bound does the same if it may make enough writes: an attempt
uses up an answer of the script or takes a byte. -/
theorem loop_writeUpTo (h : Balance before owed sink queue earlier [])
    (hSlices : before.sliceLimit ≠ some 0) (writes : Nat)
    (hEnough : sink.script.length + queue.content.length ≤ writes) (total : UInt64) :
    ∃ attempts,
      Loop queue sink total attempts (queue.writeUpTo writes sink total).value := by
  induction writes generalizing queue sink earlier total with
  | zero =>
    have hNone : queue.content = [] := List.length_eq_zero_iff.mp (by omega)
    exact ⟨[], .empty (h.wellFormed.isEmpty_iff.mpr hNone)⟩
  | succ writes ih =>
    by_cases hEmpty : queue.isEmpty = true
    · rw [value_writeUpTo_of_empty hEmpty]
      exact ⟨[], .empty hEmpty⟩
    · have hSome : queue.content ≠ [] := mt h.wellFormed.isEmpty_iff.mpr hEmpty
      obtain ⟨written, after, hWrite, _, hAfter, hLess⟩ := h.attempted hSome hSlices
      rw [value_writeUpTo_of_some hEmpty hWrite]
      by_cases hFails : sink.answer.code.isFailure = true
      · rw [if_pos hFails]
        exact ⟨_, .failed hEmpty hWrite hFails⟩
      · rw [if_neg hFails]
        obtain ⟨attempts, rest⟩ := ih hAfter (by omega) _
        exact ⟨_, .again hEmpty hWrite hFails rest⟩

/-- What a loop has done, by induction on its attempts: it returns the number of all bytes taken and
the code of its last attempt, which is the only one that can fail. -/
theorem passage (h : Balance before owed sink queue earlier [])
    (hSlices : before.sliceLimit ≠ some 0) {total : UInt64} {attempts : List Attempt}
    {transfer : Transfer} (loop : Loop queue sink total attempts transfer) :
    Passage queue sink attempts transfer.queue transfer.sink ∧
      transfer.ending = .returned (total + Bytes.size (attempts.flatMap Attempt.taken))
        (firstFailure (attempts.map Attempt.answer)) ∧
      (firstFailure (attempts.map Attempt.answer) = .success → transfer.queue.content = []) := by
  induction loop generalizing earlier with
  | @empty queue sink total hEmpty =>
    exact ⟨.nil queue sink, congrArg (Ending.returned · .success) (UInt64.add_zero total).symm,
      fun _ => h.wellFormed.isEmpty_iff.mp hEmpty⟩
  | @failed queue after sink written total count code hSome hWrite hFails =>
    have hHolds : queue.content ≠ [] := mt h.wellFormed.isEmpty_iff.mpr hSome
    obtain ⟨_, _, hMade, hAttempted, _⟩ := h.attempted hHolds hSlices
    cases hWrite.symm.trans hMade
    have hFirst : firstFailure [sink.answer] = sink.answer.code := if_pos hFails
    refine ⟨hAttempted.passage (fun _ => rfl) (.nil after written), ?_, fun hSuccess => ?_⟩
    · show _ = Ending.returned _ (firstFailure [sink.answer])
      rw [hFirst, List.flatMap_cons, List.flatMap_nil, List.append_nil]
    · rw [hFirst.symm.trans hSuccess] at hFails
      cases hFails
  | raised hSome hWrite =>
    -- the queue refuses no claim of an honest sink
    have hHolds := mt h.wellFormed.isEmpty_iff.mpr hSome
    obtain ⟨_, _, hMade, _⟩ := h.attempted hHolds hSlices
    cases hWrite.symm.trans hMade
  | @again queue after sink written total count code attempts transfer hSome hWrite hGoesOn _ ih =>
    have hHolds : queue.content ≠ [] := mt h.wellFormed.isEmpty_iff.mpr hSome
    obtain ⟨_, _, hMade, hAttempted, hAfter, _⟩ := h.attempted hHolds hSlices
    cases hWrite.symm.trans hMade
    obtain ⟨hPassage, hEnding, hAll⟩ := ih hAfter
    have hFirst : firstFailure (sink.answer :: attempts.map Attempt.answer) =
        firstFailure (attempts.map Attempt.answer) := if_neg hGoesOn
    refine ⟨hAttempted.passage (absurd · hGoesOn) hPassage, ?_,
      fun hSuccess => hAll (hFirst.symm.trans hSuccess)⟩
    show _ = Ending.returned _ (firstFailure (sink.answer :: attempts.map Attempt.answer))
    rw [hEnding, hFirst, List.flatMap_cons, Bytes.size_append, UInt64.add_assoc]

end Balance

namespace Outlet

/-- Writing everything always ends: the loop without a bound on its writes ends as the call does,
and in no other way. Each attempt is one write, answered in the order of the script; it shows the
sink at least one byte, from the front of what is left by then. The attempts stop at the first
answer with an error or, where none has one, as soon as the queue is empty. What is returned is the
number of all bytes that were accepted, and that first error or success. -/
theorem writeAll_stops_at_failure_or_empty {outlet : Outlet}
    (reachable : Queue.Reachable outlet.queue) (honest : outlet.sink.Honest)
    (slices : outlet.sink.sliceLimit ≠ some 0) :
    let transfer := outlet.write .all .report
    ∃ attempts count code,
      (∀ others other, Loop outlet.queue outlet.sink 0 others other ↔
        others = attempts ∧ other = transfer) ∧
      Passage outlet.queue outlet.sink attempts transfer.queue transfer.sink ∧
      transfer.ending = .returned count code ∧
      count.toNat = sumOf Attempt.count attempts ∧
      code = firstFailure (attempts.map Attempt.answer) ∧
      (code = .success → transfer.queue.content = []) := by
  intro transfer
  have h := reachable.wellFormed
  have hStart := Balance.start h honest
  have hTransfer : transfer = (outlet.queue.writeAll outlet.sink).value :=
    Transfer.escalate_report _
  obtain ⟨attempts, loop⟩ := hStart.loop_writeUpTo slices
    (outlet.sink.script.length + outlet.queue.size.toNat) (by rw [h.size_eq]) 0
  rw [show (outlet.queue.writeUpTo ..).value = _ from hTransfer.symm] at loop
  obtain ⟨hPassage, hEnding, hAll⟩ := hStart.passage slices loop
  rw [UInt64.zero_add] at hEnding
  have hPrefix : attempts.flatMap Attempt.taken <+: outlet.queue.content :=
    ⟨_, hPassage.content_eq⟩
  have hCount : (Bytes.size (attempts.flatMap Attempt.taken)).toNat =
      sumOf Attempt.count attempts :=
    (Word.toNat_toUInt64 (h.length_lt hPrefix)).trans (Attempt.length_flatMap_taken attempts)
  refine ⟨attempts, _, _, fun others other => ⟨loop.unique, ?_⟩, hPassage, hEnding, hCount, rfl,
    hAll⟩
  rintro ⟨rfl, rfl⟩
  exact loop

/-- A short write, a write of nothing, a write that is allowed more than it is shown, and then an
error that comes with the last byte. An answer of the script is left. -/
theorem writeAll_stops_at_failure_and_empty :
    let settings : Settings := { initialChunkSize := 4, maxSlices := 1 }
    let queue := (Queue.fresh none 0 settings).run [.append (.ofBytes [1, 2, 3, 4, 5])]
    let answers : List Response := [⟨.atMost 3, 0⟩, ⟨.atMost 0, 0⟩, ⟨.atMost 9, 0⟩, ⟨.all, 7⟩]
    let outlet : Outlet := ⟨queue, { script := answers ++ [⟨.all, 0⟩] }⟩
    let transfer := outlet.write .all .report
    Queue.Reachable queue ∧ outlet.sink.Honest ∧ outlet.sink.sliceLimit ≠ some 0 ∧
      ∃ attempts, Loop queue outlet.sink 0 attempts transfer ∧
        attempts.map Attempt.answer = answers ∧ sumOf Attempt.count attempts = 5 ∧
        transfer.ending = .returned 5 ⟨.stream, 7⟩ ∧ transfer.queue.content = [] ∧
        transfer.sink.script = [⟨.all, 0⟩] := by
  intro settings queue answers outlet transfer
  have hReachable : Queue.Reachable queue :=
    (Queue.Reachable.fresh none 0 settings (by decide)).run (by decide +kernel)
  have hHonest : outlet.sink.Honest := by decide
  have hSlices : outlet.sink.sliceLimit ≠ some 0 := by decide
  obtain ⟨attempts, count, code, hLoop, hPassage, hReturned, hCount, _, _⟩ :=
    writeAll_stops_at_failure_or_empty (show Queue.Reachable outlet.queue from
      hReachable) hHonest hSlices
  have hEnding : transfer.ending = .returned 5 ⟨.stream, 7⟩ := by decide +kernel
  obtain ⟨rfl, rfl⟩ := Ending.returned.inj (hReturned.symm.trans hEnding)
  have hWrites : transfer.sink.writes = 4 := by decide +kernel
  have hLength : attempts.length = 4 :=
    (Nat.zero_add _).symm.trans (hPassage.writes_eq.symm.trans hWrites)
  have hAnswers := hPassage.answers_eq
  rw [hLength] at hAnswers
  exact ⟨hReachable, hHonest, hSlices, attempts, (hLoop _ _).mpr ⟨rfl, rfl⟩, hAnswers,
    hCount.symm, hEnding, by decide +kernel, by decide +kernel⟩

end Outlet

end ByteQueue
