import ByteQueue.Proofs.Write.Background

/-! Writing at once. One write confirms just what the sink took, so that after it nothing is in
flight. A loop of writes is an account that is kept from one write to the next; it ends where the
queue is empty or a write fails, as long as the sink takes what it is offered in the end. -/
namespace ByteQueue

open Queue

namespace Queue

open Logged

theorem WellFormed.isEmpty_iff {queue : Queue} (h : queue.WellFormed) :
    queue.isEmpty = true ↔ queue.content = [] := by
  have hSize := h.size_eq
  rw [isEmpty, beq_iff_eq, ← List.length_eq_zero_iff, ← hSize]
  exact ⟨fun h0 => by rw [h0]; rfl, fun h0 => UInt64.toNat_inj.mp h0⟩

theorem WellFormed.projected_projectAll {queue : Queue} (h : queue.WellFormed) :
    queue.projectAll.value.1.projected = 0 ↔ queue.content = [] := by
  obtain ⟨hPrefix, hProjected⟩ := h.toConsistent.project queue.settings.maxSlices
  constructor
  · intro h0
    refine Decidable.byContradiction fun hSome => ?_
    obtain ⟨hChunks, hLimit⟩ := h.projectAll_shows hSome
    have hShown : (queue.project queue.settings.maxSlices).value.2.bytes.length = 0 := by
      rw [← hProjected]
      exact congrArg UInt64.toNat h0
    exact Projection.bytes_ne_nil h.cursor hChunks hLimit (List.length_eq_zero_iff.mp hShown)
  · intro hNone
    rw [hNone, List.prefix_nil] at hPrefix
    rw [hPrefix] at hProjected
    exact UInt64.toNat_inj.mp hProjected

/-- Where a projection shows nothing, no write reaches the sink. -/
theorem value_writeSome_of_nothing {queue : Queue}
    (h0 : queue.projectAll.value.1.projected = 0) (sink : Sink) :
    (queue.writeSome sink).value = ⟨sink, queue.projectAll.value.1, .returned 0 .success⟩ := by
  unfold writeSome
  rw [value_bind]
  generalize queue.projectAll.value = shown at *
  dsimp only
  rw [if_pos h0]
  rfl

theorem value_writeSome {queue after : Queue} {sink : Sink} {count : UInt64} {code : Code}
    (hShown : queue.projectAll.value.1.projected ≠ 0)
    (hClaimed : (sink.write queue.projectAll.value.2).2 = (count, code))
    (hValue : (queue.projectAll.value.1.confirm count).value = .ok after) :
    (queue.writeSome sink).value =
      ⟨(sink.write queue.projectAll.value.2).1, after, .returned count code⟩ := by
  unfold writeSome
  rw [value_bind]
  generalize queue.projectAll.value = shown at *
  obtain ⟨shown, projection⟩ := shown
  dsimp only at *
  generalize sink.write projection = written at *
  obtain ⟨written, claimed⟩ := written
  obtain rfl : claimed = (count, code) := hClaimed
  dsimp only
  rw [if_neg hShown, value_bind, hValue]
  by_cases hFails : code.isFailure = true
  · simp only [hFails, if_true]
    rfl
  · simp only [hFails]
    rfl

theorem value_writeMore_of_empty {queue : Queue} (hEmpty : queue.isEmpty = true) (sink : Sink)
    (total : UInt64) :
    (writeMore (queue, sink, total)).value = .inr ⟨sink, queue, .returned total .success⟩ := by
  unfold writeMore
  dsimp only
  rw [if_pos hEmpty]
  rfl

theorem value_writeMore {queue after : Queue} {sink written : Sink} {count : UInt64} {code : Code}
    (hSome : ¬ queue.isEmpty = true)
    (hWrite : (queue.writeSome sink).value = ⟨written, after, .returned count code⟩)
    (total : UInt64) :
    (writeMore (queue, sink, total)).value =
      if code.isFailure then .inr ⟨written, after, .returned (total + count) code⟩
      else .inl (after, written, total + count) := by
  unfold writeMore
  dsimp only
  rw [if_neg hSome, value_bind, hWrite]
  dsimp only
  split <;> rfl

/-- A loop makes one write and goes on with what that left, unless it ended the loop. -/
theorem value_writeUpTo_succ (queue : Queue) (sink : Sink) (total : UInt64) (writes : Nat) :
    (writeUpTo (writes + 1) queue sink total).value =
      match (writeMore (queue, sink, total)).value with
      | .inl (queue, sink, total) => (writeUpTo writes queue sink total).value
      | .inr transfer => transfer := by
  rw [writeUpTo, value_iterate_succ]
  cases (writeMore (queue, sink, total)).value with
  | inl state => rfl
  | inr transfer => rfl

theorem value_writeUpTo_of_empty {queue : Queue} (hEmpty : queue.isEmpty = true) (sink : Sink)
    (total : UInt64) (writes : Nat) :
    (queue.writeUpTo writes sink total).value = ⟨sink, queue, .returned total .success⟩ := by
  cases writes with
  | zero => rfl
  | succ writes => rw [value_writeUpTo_succ, value_writeMore_of_empty hEmpty]

/-- One write of a loop, which goes on unless that write fails. -/
theorem value_writeUpTo_of_some {queue after : Queue} {sink written : Sink} {count : UInt64}
    {code : Code} (hSome : ¬ queue.isEmpty = true)
    (hWrite : (queue.writeSome sink).value = ⟨written, after, .returned count code⟩)
    (total : UInt64) (writes : Nat) :
    (queue.writeUpTo (writes + 1) sink total).value =
      if code.isFailure then ⟨written, after, .returned (total + count) code⟩
      else (after.writeUpTo writes written (total + count)).value := by
  rw [value_writeUpTo_succ, value_writeMore hSome hWrite]
  by_cases hFails : code.isFailure = true
  · rw [if_pos hFails, if_pos hFails]
  · rw [if_neg hFails, if_neg hFails]

/-- Writing keeps the settings of a queue. -/
theorem settings_writeSome (queue : Queue) (sink : Sink) :
    (queue.writeSome sink).value.queue.settings = queue.settings := by
  have hShown : queue.projectAll.value.1.settings = queue.settings := rfl
  unfold writeSome
  rw [value_bind]
  generalize queue.projectAll.value = shown at *
  obtain ⟨shown, projection⟩ := shown
  dsimp only at *
  split
  · exact hShown
  · rw [value_bind]
    cases hValue : (shown.confirm (sink.write projection).2.1).value with
    | error failure => exact hShown
    | ok after =>
      refine Eq.trans ?_ ((settings_confirm hValue).trans hShown)
      dsimp only
      split <;> rfl

theorem settings_writeMore (queue : Queue) (sink : Sink) (total : UInt64) :
    ((writeMore (queue, sink, total)).value.elim Prod.fst Transfer.queue).settings =
      queue.settings := by
  have hSome := queue.settings_writeSome sink
  by_cases hEmpty : queue.isEmpty = true
  · rw [value_writeMore_of_empty hEmpty]
    rfl
  · unfold writeMore
    dsimp only
    rw [if_neg hEmpty, value_bind]
    generalize (queue.writeSome sink).value = transfer at *
    obtain ⟨written, after, ending⟩ := transfer
    cases ending with
    | raised code => exact hSome
    | returned count code =>
      dsimp only
      split <;> exact hSome

theorem settings_writeUpTo (writes : Nat) (queue : Queue) (sink : Sink) (total : UInt64) :
    (writeUpTo writes queue sink total).value.queue.settings = queue.settings := by
  induction writes generalizing queue sink total with
  | zero => rfl
  | succ writes ih =>
    have hMore := queue.settings_writeMore sink total
    rw [value_writeUpTo_succ]
    cases hNext : (writeMore (queue, sink, total)).value with
    | inl state =>
      rw [hNext] at hMore
      exact (ih ..).trans hMore
    | inr transfer =>
      rw [hNext] at hMore
      exact hMore

end Queue

namespace Balance

variable {before sink : Sink} {owed earlier : Bytes} {queue : Queue}

/-- One write of a queue that holds bytes: just what the sink takes is confirmed. -/
theorem writeSome (h : Balance before owed sink queue earlier []) (hSome : queue.content ≠ []) :
    let latest := (sink.accepted queue.projectAll.value.2).bytes
    ∃ after, (queue.projectAll.value.1.confirm latest.size).value = .ok after ∧
      (queue.writeSome sink).value =
        ⟨(sink.write queue.projectAll.value.2).1, after, .returned latest.size sink.answer.code⟩ ∧
      Balance before owed (sink.write queue.projectAll.value.2).1 after (earlier ++ latest) [] := by
  intro latest
  obtain ⟨hClaimed, hLe, hOffered⟩ := h.offer
  obtain ⟨after, hValue, hAfter⟩ := hOffered.confirm hLe
  have hShown := mt h.wellFormed.projected_projectAll.mp hSome
  exact ⟨after, hValue, value_writeSome hShown hClaimed hValue, hAfter⟩

/-- A write uses up an answer of the script or, behind the script, takes a byte at least. -/
theorem left_lt (h : Balance before owed sink queue earlier []) (hSome : queue.content ≠ [])
    (hSlices : before.sliceLimit ≠ some 0) {after : Queue}
    (hAfter : Balance before owed (sink.write queue.projectAll.value.2).1 after
      (earlier ++ (sink.accepted queue.projectAll.value.2).bytes) []) :
    (sink.write queue.projectAll.value.2).1.script.length + after.content.length <
      sink.script.length + queue.content.length := by
  have hLength := congrArg List.length (hAfter.conserved.trans h.conserved.symm)
  simp only [List.length_append] at hLength
  have hTail : (sink.write queue.projectAll.value.2).1.script.length = sink.script.length - 1 :=
    List.length_tail
  by_cases hScript : sink.script = []
  · rw [← h.sliceLimit_eq] at hSlices
    have hTaken := List.length_pos_iff.mpr (h.wellFormed.accepted_ne_nil hSome hScript hSlices)
    omega
  · have hLeft := List.length_pos_iff.mpr hScript
    omega

/-- A loop of writes keeps the account, and returns the number of all bytes written. It does not
run out of writes before the queue is empty or a write fails, if it may make enough of them and
the sink is ever offered a slice. -/
theorem writeUpTo (h : Balance before owed sink queue earlier [])
    (hCode : firstFailure (before.answersSince sink) = .success) (writes : Nat) :
    let transfer := (queue.writeUpTo writes sink earlier.size).value
    ∃ latest, Balance before owed transfer.sink transfer.queue (earlier ++ latest) [] ∧
      transfer.ending = .returned (earlier ++ latest).size
        (firstFailure (before.answersSince transfer.sink)) ∧
      (before.sliceLimit ≠ some 0 → sink.script.length + queue.content.length ≤ writes →
        (firstFailure (before.answersSince transfer.sink)).isFailure = true ∨
          transfer.queue.content = []) := by
  induction writes generalizing queue sink earlier with
  | zero =>
    refine ⟨[], by rw [List.append_nil]; exact h, ?_, ?_⟩
    · show _ = Ending.returned _ (firstFailure (before.answersSince sink))
      rw [hCode, List.append_nil]
      rfl
    · intro _ hEnough
      have hNone : queue.content = [] := List.length_eq_zero_iff.mp (by omega)
      exact .inr hNone
  | succ writes ih =>
    intro transfer
    by_cases hEmpty : queue.isEmpty = true
    · have hTransfer := value_writeUpTo_of_empty hEmpty sink earlier.size (writes + 1)
      rw [show transfer = _ from hTransfer]
      refine ⟨[], by rw [List.append_nil]; exact h, ?_, ?_⟩
      · rw [hCode, List.append_nil]
      · exact fun _ _ => .inr (h.wellFormed.isEmpty_iff.mp hEmpty)
    · have hSome : queue.content ≠ [] := mt h.wellFormed.isEmpty_iff.mpr hEmpty
      obtain ⟨after, _, hWrite, hAfter⟩ := h.writeSome hSome
      have hAnswer := h.code_write hCode queue.projectAll.value.2
      have hTransfer := value_writeUpTo_of_some hEmpty hWrite earlier.size writes
      rw [← hAnswer, ← Bytes.size_append] at hTransfer
      by_cases hFails : (firstFailure (before.answersSince
          (sink.write queue.projectAll.value.2).1)).isFailure = true
      · rw [if_pos hFails] at hTransfer
        rw [show transfer = _ from hTransfer]
        exact ⟨_, hAfter, rfl, fun _ _ => .inl hFails⟩
      · rw [if_neg hFails] at hTransfer
        rw [show transfer = _ from hTransfer]
        obtain ⟨latest, hEnded, hEnding, hDone⟩ := ih hAfter (firstFailure_eq_success hFails)
        rw [List.append_assoc] at hEnded hEnding
        refine ⟨_, hEnded, hEnding, fun hSlices hEnough => hDone hSlices ?_⟩
        have hLess := h.left_lt hSome hSlices hAfter
        omega

end Balance

namespace Queue

variable {queue : Queue}

/-- A single write, of whatever queue: the bytes that the sink takes have left the queue, and
their number and the code of the sink are returned. -/
theorem WellFormed.writeSome (h : queue.WellFormed) {sink : Sink} (honest : sink.Honest) :
    let transfer := (queue.writeSome sink).value
    ∃ accepted, Balance sink queue.content transfer.sink transfer.queue accepted [] ∧
      transfer.ending =
        .returned accepted.size (firstFailure (sink.answersSince transfer.sink)) := by
  intro transfer
  have hStart := Balance.start h honest
  by_cases hNone : queue.content = []
  · have hTransfer := value_writeSome_of_nothing (h.projected_projectAll.mpr hNone) sink
    rw [show transfer = _ from hTransfer]
    refine ⟨[], hStart.project queue.settings.maxSlices, ?_⟩
    rw [sink.firstFailure_self]
    rfl
  · obtain ⟨after, _, hTransfer, hAfter⟩ := hStart.writeSome hNone
    rw [show transfer = _ from hTransfer]
    refine ⟨_, hAfter, ?_⟩
    rw [hStart.code_write sink.firstFailure_self]
    rfl

/-- Writing everything ends with the queue empty or with the first failure of the sink; in either
case the bytes that the sink took have left the queue, and their number is returned. -/
theorem WellFormed.writeAll (h : queue.WellFormed) {sink : Sink} (honest : sink.Honest) :
    let transfer := (queue.writeAll sink).value
    ∃ accepted, Balance sink queue.content transfer.sink transfer.queue accepted [] ∧
      transfer.ending =
        .returned accepted.size (firstFailure (sink.answersSince transfer.sink)) ∧
      (sink.sliceLimit ≠ some 0 →
        (firstFailure (sink.answersSince transfer.sink)).isFailure = true ∨
          transfer.queue.content = []) := by
  intro transfer
  obtain ⟨accepted, hEnded, hEnding, hDone⟩ :=
    (Balance.start h honest).writeUpTo sink.firstFailure_self
      (sink.script.length + queue.size.toNat)
  refine ⟨accepted, hEnded, hEnding, fun hSlices => hDone hSlices ?_⟩
  rw [h.size_eq]

end Queue

end ByteQueue
