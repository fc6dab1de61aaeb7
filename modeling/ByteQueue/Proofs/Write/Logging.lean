import ByteQueue.Proofs.Queue.Logging
import ByteQueue.Write.Async

/-! Logging by writes, at once and in the background. What the sink is offered and what it answers
does not depend on the logger of the queue, so writes are impartial as well. -/
namespace ByteQueue

/-- The same transfer with another logger. -/
def Transfer.loggingTo (logger : Option Log.Config) (transfer : Transfer) : Transfer :=
  { transfer with queue := transfer.queue.loggingTo logger }

/-- The same completion that has run, with another logger. -/
def Completed.loggingTo (logger : Option Log.Config) (completed : Completed) : Completed :=
  { completed with queue := completed.queue.loggingTo logger }

/-- The same started write with another logger. -/
def Started.loggingTo (logger : Option Log.Config) (started : Started) : Started :=
  { started with queue := started.queue.loggingTo logger }

namespace Queue

theorem impartial_writeSome (queue : Queue) (sink : Sink) :
    Impartial Transfer.loggingTo fun logger => (queue.loggingTo logger).writeSome sink := by
  unfold writeSome
  refine queue.impartial_projectAll.bind fun exposed => ?_
  obtain ⟨shown, projection⟩ := exposed
  simp only [Prod.map, id_eq, projected_loggingTo]
  split
  · exact .pure ⟨sink, shown, .returned 0 .success⟩ fun _ => rfl
  · obtain ⟨written, count, code⟩ := sink.write projection
    refine (shown.impartial_confirm count).bind fun outcome => ?_
    cases outcome with
    | error failure => exact .pure ⟨written, shown, .raised failure.code⟩ fun _ => rfl
    | ok after =>
      have hLast : Impartial Transfer.loggingTo fun logger =>
          (after.loggingTo logger).emit (.wrote count (after.loggingTo logger).summary) >>=
            fun _ => pure ⟨written, after.loggingTo logger, .returned count code⟩ :=
        impartial_emit_bind (fun _ => rfl) (fun _ => rfl)
          (.pure ⟨written, after, .returned count code⟩ fun _ => rfl)
      simp only [Except.map]
      split
      · exact impartial_emit_bind (fun _ => rfl) (fun _ => rfl) hLast
      · exact hLast

/-- A loop of writes is at a queue, the sink, and a number of bytes. -/
def stateLoggingTo (logger : Option Log.Config) (state : Queue × Sink × UInt64) :
    Queue × Sink × UInt64 :=
  state.map (loggingTo logger) id

theorem impartial_writeMore (state : Queue × Sink × UInt64) :
    Impartial (fun logger => Sum.map (stateLoggingTo logger) (Transfer.loggingTo logger))
      fun logger => writeMore (stateLoggingTo logger state) := by
  obtain ⟨queue, sink, total⟩ := state
  simp only [writeMore, stateLoggingTo, Prod.map, id_eq, isEmpty_loggingTo]
  split
  · exact .pure (Sum.inr ⟨sink, queue, .returned total .success⟩) fun _ => rfl
  · refine (queue.impartial_writeSome sink).bind fun transfer => ?_
    obtain ⟨written, after, ending⟩ := transfer
    cases ending with
    | raised code => exact .pure (Sum.inr ⟨written, after, .raised code⟩) fun _ => rfl
    | returned count code =>
      simp only [Transfer.loggingTo]
      split
      · exact .pure (Sum.inr ⟨written, after, .returned (total + count) code⟩) fun _ => rfl
      · exact .pure (Sum.inl (after, written, total + count)) fun _ => rfl

theorem impartial_writeAll (queue : Queue) (sink : Sink) :
    Impartial Transfer.loggingTo fun logger => (queue.loggingTo logger).writeAll sink := by
  unfold writeAll writeUpTo
  exact .iterate (fun state => ⟨state.2.1, state.1, .returned state.2.2 .success⟩)
    impartial_writeMore (fun _ _ => rfl) (sink.script.length + queue.size.toNat) (queue, sink, 0)

theorem impartial_startWrite (queue : Queue) (sink : Sink) (sequel : Sequel) :
    Impartial Started.loggingTo fun logger => (queue.loggingTo logger).startWrite sink sequel := by
  unfold startWrite
  refine queue.impartial_projectAll.bind fun exposed => ?_
  obtain ⟨shown, projection⟩ := exposed
  let answer := sink.write projection
  exact .pure
    ⟨answer.1, shown, .write answer.2.1 answer.2.2 projection.count sequel⟩ fun _ => rfl

theorem impartial_continueAll (queue : Queue) (sink : Sink) (total : UInt64) :
    Impartial Started.loggingTo fun logger => (queue.loggingTo logger).continueAll sink total := by
  unfold continueAll
  simp only [isEmpty_loggingTo]
  split
  · exact .pure ⟨sink, queue, .finished total⟩ fun _ => rfl
  · exact queue.impartial_startWrite sink (.further total)

theorem impartial_complete (queue : Queue) (sink : Sink) (completion : Completion) :
    Impartial Completed.loggingTo
      fun logger => (queue.loggingTo logger).complete sink completion := by
  cases completion with
  | finished total =>
    exact .pure ⟨sink, queue, .returned (.done (.finished total)) .success⟩ fun _ => rfl
  | write count code slices sequel =>
    unfold complete
    refine (queue.impartial_confirm count).bind fun outcome => ?_
    cases outcome with
    | error failure => exact .pure ⟨sink, queue, .raised failure.code⟩ fun _ => rfl
    | ok after =>
      simp only [Except.map]
      cases sequel with
      | report =>
        have hReport : Impartial Completed.loggingTo fun logger =>
            pure ⟨sink, after.loggingTo logger, .returned (.done ⟨.some, code, count⟩) .success⟩ :=
          .pure ⟨sink, after, .returned (.done ⟨.some, code, count⟩) .success⟩ fun _ => rfl
        split
        · exact impartial_emit_bind (fun _ => rfl) (fun _ => rfl) <|
            impartial_emit_bind (fun _ => rfl) (fun _ => rfl) hReport
        · exact impartial_emit_bind (fun _ => rfl) (fun _ => rfl) hReport
      | further total =>
        split
        · exact impartial_emit_bind (fun _ => rfl) (fun _ => rfl) <|
            impartial_emit_bind (fun _ => rfl) (fun _ => rfl) <|
              .pure ⟨sink, after, .returned (.done ⟨.all, code, total + count⟩) .success⟩
                fun _ => rfl
        · exact impartial_emit_bind (fun _ => rfl) (fun _ => rfl) <|
            (after.impartial_continueAll sink (total + count)).bind fun started =>
              .pure ⟨started.sink, started.queue, .returned (.next started.completion) .success⟩
                fun _ => rfl

end Queue

end ByteQueue
