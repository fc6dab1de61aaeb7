import ByteQueue.Proofs.Write.Exchange

/-! A single write at once and in the background. Of a queue that holds bytes both make the same
write, and the completion reports what the call returns. Of an empty queue only the one in the
background reaches the sink: it writes nothing, but uses up an answer and reports its error. -/
namespace ByteQueue

namespace Queue

open Logged

/-- A completed write without a sequel is confirmed and reported. -/
theorem value_complete_report {queue after : Queue} {count : UInt64}
    (hValue : (queue.confirm count).value = .ok after) (sink : Sink) (code : Code) (slices : Nat) :
    (queue.complete sink (.write count code slices .report)).value =
      ⟨sink, after, .returned (.done ⟨.some, code, count⟩) .success⟩ := by
  unfold complete
  rw [value_bind, hValue]
  by_cases hFails : code.isFailure = true
  · simp only [hFails, if_true]
    rfl
  · simp only [hFails]
    rfl

/-- A write in the background, completed: the queue is without what the sink took, which is reported
with the answer of the sink. -/
theorem WellFormed.value_startSome {queue : Queue} (h : queue.WellFormed) {sink : Sink}
    (honest : sink.Honest) :
    let latest := (sink.accepted queue.projectAll.value.2).bytes
    let started := (queue.startSome sink).value
    ∃ after, (queue.projectAll.value.1.confirm latest.size).value = .ok after ∧
      (started.queue.complete started.sink started.completion).value =
        ⟨(sink.write queue.projectAll.value.2).1, after,
          .returned (.done ⟨.some, sink.answer.code, latest.size⟩) .success⟩ := by
  intro latest started
  obtain ⟨hClaimed, hLe, hOffered⟩ := (Balance.start h honest).offer
  obtain ⟨after, hValue, _⟩ := hOffered.confirm hLe
  have hStarted : started = ⟨(sink.write queue.projectAll.value.2).1, queue.projectAll.value.1,
      .write (sink.write queue.projectAll.value.2).2.1 (sink.write queue.projectAll.value.2).2.2
        queue.projectAll.value.2.count .report⟩ := rfl
  rw [hStarted, hClaimed]
  exact ⟨after, hValue, value_complete_report hValue ..⟩

/-- A single write at once, with its failure reported, and one in the background whose completion is
run: both leave the same queue and the same bytes in the sink, and they tell the same number. Of a
queue that holds bytes they also tell the same code and leave the same sink, so that they made the
same write and used up the same answer. Of an empty queue the call makes no write and tells of
success; in the background a write of nothing is made, and the error of its answer reported. -/
theorem startSome_agrees_unless_empty {queue : Queue} (reachable : Reachable queue) {sink : Sink}
    (honest : sink.Honest) :
    let atOnce := (queue.writeSome sink).value.escalate .report
    let started := (queue.startSome sink).value
    let completed := (started.queue.complete started.sink started.completion).value
    ∃ count code later, atOnce.ending = .returned count code ∧
      completed.ending = .returned (.done ⟨.some, later, count⟩) .success ∧
      completed.queue = atOnce.queue ∧ completed.sink.bytes = atOnce.sink.bytes ∧
      (queue.content ≠ [] → later = code ∧ completed.sink = atOnce.sink) ∧
      (queue.content = [] →
        code = .success ∧ later = sink.answer.code ∧ atOnce.sink = sink ∧
          completed.sink.script = sink.script.tail ∧ completed.sink.writes = sink.writes + 1) := by
  intro atOnce started completed
  have h := reachable.wellFormed
  obtain ⟨after, hValue, hCompleted⟩ := h.value_startSome honest
  rw [show completed = _ from hCompleted, show atOnce = _ from Transfer.escalate_report _]
  by_cases hNone : queue.content = []
  · have hShown := h.projected_projectAll.mpr hNone
    have hNothing : (sink.accepted queue.projectAll.value.2).bytes = [] := by
      have hContent := (h.toConsistent.project queue.settings.maxSlices).1
      rw [hNone] at hContent
      exact List.prefix_nil.mp ((sink.bytes_accepted h.cursor).trans hContent)
    have hAfter : queue.projectAll.value.1 = after := by
      rw [hNothing] at hValue
      exact Except.ok.inj ((value_confirm_zero _).symm.trans hValue)
    rw [value_writeSome_of_nothing hShown, hNothing, ← hAfter]
    refine ⟨0, .success, _, rfl, rfl, rfl, ?_, fun hSome => absurd hNone hSome,
      fun _ => ⟨rfl, rfl, rfl, rfl, rfl⟩⟩
    exact (sink.bytes_write _).trans (by rw [hNothing, List.append_nil])
  · obtain ⟨_, hSame, hWrite, _⟩ := (Balance.start h honest).writeSome hNone
    cases hSame.symm.trans hValue
    rw [hWrite]
    exact ⟨_, _, _, rfl, rfl, rfl, rfl, fun _ => ⟨rfl, rfl⟩, fun hEmpty => absurd hEmpty hNone⟩

/-- A short write that comes with an error, of a queue whose head is consumed in part. -/
theorem startSome_agrees_on_failure :
    let settings : Settings := { initialChunkSize := 4, maxSlices := 1 }
    let queue := (Queue.fresh none 0 settings).run
      [.append (.ofBytes [1, 2, 3, 4, 5]), .projectAll, .confirm 1]
    let sink : Sink := { script := [⟨.atMost 2, 7⟩, ⟨.all, 0⟩] }
    let atOnce := (queue.writeSome sink).value.escalate .report
    let started := (queue.startSome sink).value
    let completed := (started.queue.complete started.sink started.completion).value
    Reachable queue ∧ sink.Honest ∧ atOnce.ending = .returned 2 ⟨.stream, 7⟩ ∧
      completed.ending = .returned (.done ⟨.some, ⟨.stream, 7⟩, 2⟩) .success ∧
      completed.queue = atOnce.queue ∧ completed.sink = atOnce.sink := by
  intro settings queue sink atOnce started completed
  have hReachable : Reachable queue :=
    (Reachable.fresh none 0 settings (by decide)).run (by decide +kernel)
  have hHonest : sink.Honest := by decide
  have hSome : queue.content ≠ [] := by decide +kernel
  have hEnding : atOnce.ending = .returned 2 ⟨.stream, 7⟩ := by decide +kernel
  -- the rest follows without another run of the operations
  clear_value queue
  obtain ⟨count, code, later, hReturned, hReported, hQueue, _, hHeld, _⟩ :=
    startSome_agrees_unless_empty hReachable hHonest
  obtain ⟨rfl, hSink⟩ := hHeld hSome
  obtain ⟨rfl, rfl⟩ := Ending.returned.inj (hReturned.symm.trans hEnding)
  exact ⟨hReachable, hHonest, hEnding, hReported, hQueue, hSink⟩

/-- A new queue is written to a sink whose next answer has an error: at once nothing happens, and
that is a success; in the background the error is reported, of a write that was made. -/
theorem error_reported_for_empty_queue :
    let queue := Queue.fresh none 0 {}
    let sink : Sink := { script := [⟨.all, 7⟩] }
    let atOnce := (queue.writeSome sink).value.escalate .report
    let started := (queue.startSome sink).value
    let completed := (started.queue.complete started.sink started.completion).value
    Reachable queue ∧ sink.Honest ∧
      atOnce.ending = .returned 0 .success ∧ atOnce.sink.writes = 0 ∧
      atOnce.sink.script = [⟨.all, 7⟩] ∧
      completed.ending = .returned (.done ⟨.some, ⟨.stream, 7⟩, 0⟩) .success ∧
      completed.sink.writes = 1 ∧ completed.sink.script = [] :=
  ⟨.fresh none 0 {} (by decide), by decide, by decide +kernel, by decide +kernel, by decide +kernel,
    by decide +kernel, by decide +kernel, by decide +kernel⟩

end Queue

end ByteQueue
