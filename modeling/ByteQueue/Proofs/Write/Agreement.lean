import ByteQueue.Proofs.Write.AtOnce
import ByteQueue.Proofs.Write.Course

/-! Writing everything at once and in the background agree. A completion that goes on with its
course decides what the loop decides between two writes, about the same queue and the same sink.
So the two run in step: whenever a write is pending, the loop is where it was before that write. -/
namespace ByteQueue

open Queue

namespace Queue

theorem value_continueAll_of_empty {queue : Queue} (hEmpty : queue.isEmpty = true) (sink : Sink)
    (total : UInt64) :
    (queue.continueAll sink total).value = ⟨sink, queue, .finished total⟩ := by
  rw [continueAll, if_pos hEmpty]
  rfl

theorem value_continueAll {queue : Queue} (hSome : ¬ queue.isEmpty = true) (sink : Sink)
    (total : UInt64) :
    (queue.continueAll sink total).value =
      ⟨(sink.write queue.projectAll.value.2).1, queue.projectAll.value.1,
        .write (sink.write queue.projectAll.value.2).2.1 (sink.write queue.projectAll.value.2).2.2
          queue.projectAll.value.2.count (.further total)⟩ := by
  rw [continueAll, if_neg hSome]
  rfl

end Queue

namespace Session

open Logged

/-- The session with one of its queues and the sink as some writes have left them. -/
def written (session : Session) (index : Nat) (queue : Queue) (sink : Sink) : Session :=
  { session with sink }.setQueue index queue

/-- The session in which a write has been started and nothing else is pending. -/
def awaiting (session : Session) (index : Nat) (started : Started) : Session :=
  { session.written index started.queue started.sink with
    pending := [(index, started.completion)] }

/-- The session in which the last write has been reported. -/
def reported (session : Session) (index : Nat) (queue : Queue) (sink : Sink) (report : Report) :
    Session :=
  { session.written index queue sink with
    pending := [], reports := session.reports ++ [report] }

variable {session : Session} {index : Nat}

theorem awaiting_awaiting (first second : Started) :
    (session.awaiting index first).awaiting index second = session.awaiting index second := by
  unfold awaiting written setQueue
  dsimp only
  rw [Table.insert_insert]

theorem reported_awaiting (started : Started) (queue : Queue) (sink : Sink) (report : Report) :
    (session.awaiting index started).reported index queue sink report =
      session.reported index queue sink report := by
  unfold reported awaiting written setQueue
  dsimp only
  rw [Table.insert_insert]

/-- A completed write ends the course or is followed by the next write. -/
theorem value_runFirst_write {queue after : Queue} {claimed : UInt64} {code : Code} {slices : Nat}
    {total : UInt64}
    (hPending : session.pending = [(index, .write claimed code slices (.further total))])
    (hQueue : session.queue? index = some queue)
    (hValue : (queue.confirm claimed).value = .ok after) :
    ∃ first, session.runFirst = some first ∧ first.value =
      (if code.isFailure then
          session.reported index after session.sink ⟨.all, code, total + claimed⟩
        else session.awaiting index (after.continueAll session.sink (total + claimed)).value,
        none) := by
  unfold runFirst
  rw [hPending]
  dsimp only
  rw [hQueue, Option.map_some]
  refine ⟨_, rfl, ?_⟩
  rw [value_bind, value_complete_write hValue]
  by_cases hFails : code.isFailure = true
  · rw [if_pos hFails, if_pos hFails]
    rfl
  · rw [if_neg hFails, if_neg hFails]
    rfl

/-- A run goes on with what the first completion leads to. -/
theorem value_runNext {first : Logged Event (Session × Option Code)} {next : Session}
    (hFirst : session.runFirst = some first) (hNext : first.value = (next, none)) (count : Nat) :
    (runNext (session, count)).value = .inl (next, count + 1) := by
  unfold runNext
  dsimp only
  rw [hFirst]
  dsimp only
  rw [value_bind, hNext]
  rfl

/-- All runs of `runUpTo`, after some that ran earlier. -/
def runs (count : Nat) (session : Session) (earlier : Nat) : Session × Nat × Option Code :=
  (iterate runNext (fun (session, count) => (session, count, none)) count (session, earlier)).value

theorem runs_of_idle (hPending : session.pending = []) (count earlier : Nat) :
    session.runs count earlier = (session, earlier, none) := by
  cases count with
  | zero => rfl
  | succ count =>
    have hFirst : session.runFirst = none := by
      unfold runFirst
      rw [hPending]
    have hNext : (runNext (session, earlier)).value = .inr (session, earlier, none) := by
      unfold runNext
      dsimp only
      rw [hFirst]
      rfl
    rw [runs, value_iterate_succ, hNext]

theorem runs_succ {next : Session} (earlier : Nat)
    (hNext : (runNext (session, earlier)).value = .inl (next, earlier + 1)) (count : Nat) :
    session.runs (count + 1) earlier = next.runs count (earlier + 1) := by
  rw [runs, value_iterate_succ, hNext]
  rfl

/-- A course that waits for its end only. -/
theorem runs_finished (queue : Queue) (sink : Sink) (total : UInt64) {count : Nat}
    (hCount : 0 < count) (earlier : Nat) :
    (session.awaiting index ⟨sink, queue, .finished total⟩).runs count earlier =
      (session.reported index queue sink (.finished total), earlier + 1, none) := by
  obtain ⟨count, rfl⟩ := Nat.exists_eq_succ_of_ne_zero hCount.ne'
  rw [runs_succ earlier (value_runNext rfl rfl earlier)]
  exact runs_of_idle rfl _ _

/-- A course that waits for a write. -/
theorem runs_write {queue after : Queue} {claimed : UInt64}
    (hValue : (queue.confirm claimed).value = .ok after) (sink : Sink) (code : Code) (slices : Nat)
    (total : UInt64) (count earlier : Nat) :
    (session.awaiting index ⟨sink, queue, .write claimed code slices (.further total)⟩).runs
        (count + 1) earlier =
      if code.isFailure then
        (session.reported index after sink ⟨.all, code, total + claimed⟩, earlier + 1, none)
      else
        (session.awaiting index (after.continueAll sink (total + claimed)).value).runs count
          (earlier + 1) := by
  generalize hStarted :
    Started.mk sink queue (.write claimed code slices (.further total)) = started
  have hPending : (session.awaiting index started).pending =
      [(index, .write claimed code slices (.further total))] := by rw [← hStarted]; rfl
  have hQueue : (session.awaiting index started).queue? index = some queue := by
    rw [← hStarted]
    exact queue?_setQueue ..
  have hSink : (session.awaiting index started).sink = sink := by rw [← hStarted]; rfl
  obtain ⟨first, hFirst, hNext⟩ := value_runFirst_write hPending hQueue hValue
  rw [runs_succ earlier (value_runNext hFirst hNext earlier), hSink]
  by_cases hFails : code.isFailure = true
  · rw [if_pos hFails, if_pos hFails, reported_awaiting]
    exact runs_of_idle rfl ..
  · rw [if_neg hFails, if_neg hFails, awaiting_awaiting]

end Session

namespace Balance

variable {before sink : Sink} {owed earlier : Bytes} {queue : Queue}

/-- The loop of writes and the course of completions, in step from any write on: both make the
same writes, and in the end the course reports what the loop returns. -/
theorem runs_eq_writeUpTo (h : Balance before owed sink queue earlier [])
    (hSlices : before.sliceLimit ≠ some 0) (session : Session)
    (index : Nat) {writes runs : Nat}
    (hWrites : sink.script.length + queue.content.length ≤ writes)
    (hRuns : sink.script.length + queue.content.length < runs) (total : UInt64) (count : Nat) :
    let transfer := (queue.writeUpTo writes sink total).value
    ∃ last code ran, transfer.ending = .returned last code ∧
      (session.awaiting index (queue.continueAll sink total).value).runs runs count =
        (session.reported index transfer.queue transfer.sink ⟨.all, code, last⟩, ran, none) := by
  induction writes generalizing queue sink earlier runs total count with
  | zero =>
    have hNone : queue.content = [] := List.length_eq_zero_iff.mp (by omega)
    have hEmpty := h.wellFormed.isEmpty_iff.mpr hNone
    rw [value_writeUpTo_of_empty hEmpty, value_continueAll_of_empty hEmpty]
    exact ⟨total, .success, count + 1, rfl,
      Session.runs_finished queue sink total (by omega) count⟩
  | succ writes ih =>
    by_cases hEmpty : queue.isEmpty = true
    · rw [value_writeUpTo_of_empty hEmpty, value_continueAll_of_empty hEmpty]
      exact ⟨total, .success, count + 1, rfl,
        Session.runs_finished queue sink total (by omega) count⟩
    · have hSome : queue.content ≠ [] := mt h.wellFormed.isEmpty_iff.mpr hEmpty
      obtain ⟨after, hValue, hWrite, hAfter⟩ := h.writeSome hSome
      have hLess := h.left_lt hSome hSlices hAfter
      obtain ⟨runs, rfl⟩ := Nat.exists_eq_succ_of_ne_zero (Nat.ne_zero_of_lt hRuns)
      rw [value_writeUpTo_of_some hEmpty hWrite, value_continueAll hEmpty, h.offer.1,
        Session.runs_write hValue]
      by_cases hFails : sink.answer.code.isFailure = true
      · rw [if_pos hFails, if_pos hFails]
        exact ⟨_, _, count + 1, rfl, rfl⟩
      · rw [if_neg hFails, if_neg hFails]
        exact ih hAfter (by omega) (by omega) _ (count + 1)

end Balance

namespace Session

open Logged

variable {session : Session} {index : Nat}

/-- As many completions may run as a course can need. -/
theorem lt_runBound (session : Session) (index : Nat) {queue : Queue} (h : queue.WellFormed)
    (sink : Sink) (total : UInt64) :
    sink.script.length + queue.content.length <
      (session.awaiting index (queue.continueAll sink total).value).runBound := by
  have hSize := h.size_eq
  by_cases hEmpty : queue.isEmpty = true
  · rw [value_continueAll_of_empty hEmpty]
    show _ < 2 * 1 + sink.script.length + (queue.size.toNat + _)
    omega
  · rw [value_continueAll hEmpty]
    show _ < 2 * 1 + sink.script.tail.length + (queue.size.toNat + _)
    rw [List.length_tail]
    omega

/-- Once the report has been told, only the queue and the sink are not as they were. -/
theorem written_of_reported (idle : session.pending = []) (silent : session.reports = [])
    (queue : Queue) (sink : Sink) (report : Report) :
    { session.reported index queue sink report with reports := [] } =
      session.written index queue sink := by
  obtain ⟨_, _, _, _, pending, reports, _, _⟩ := session
  obtain rfl : pending = [] := idle
  obtain rfl : reports = [] := silent
  rfl

theorem value_started (index : Nat) (idle : session.pending = [])
    (silent : session.reports = []) (work : Logged Event Started) :
    (session.started index work).value =
      (session.awaiting index work.value, .returned (.number 0) .success) := by
  show (({ session.written index work.value.queue work.value.sink with
      pending := session.pending ++ [(index, work.value.completion)] } : Session),
    Ending.returned (Answer.number session.reports.length.toUInt64) .success) = _
  rw [idle, silent]
  rfl

theorem value_transferred (session : Session) (index : Nat) {work : Logged Event Transfer}
    {total : UInt64} {code : Code}
    (hEnding : work.value.ending = .returned total code) :
    (session.transferred index .report work).value =
      (session.written index work.value.queue work.value.sink,
        .returned (.number total) code) := by
  unfold transferred
  rw [value_bind, hEnding]
  rfl

/-- A run in which nothing is raised tells of all reports. -/
theorem value_run {limit ran : Nat} {after : Session}
    (hRuns : session.runs limit 0 = (after, ran, none)) :
    (session.run limit).value =
      ({ after with reports := [] }, .returned (.ran ran after.reports) .success) := by
  have hRun : (session.runUpTo limit).value = (after, ran, none) := hRuns
  unfold run
  rw [value_bind, hRun]
  rfl

/-- Writing everything at once, with failures reported, and writing everything in the background
until nothing is pending: from one session both come to the same one, with the same queue and with
a sink that took the same in as many writes; and the report is of the code and the number that the
call returns. The sink answers as it likes for a while, without claiming more than it is given,
and then accepts all that it is offered. -/
theorem writeAll_agrees_with_startAll (session : Session) (index : Nat) (queue : Queue)
    (hQueue : session.queue? index = some queue) (reachable : Queue.Reachable queue)
    (honest : session.sink.Honest) (slices : session.sink.sliceLimit ≠ some 0)
    (idle : session.pending = []) (silent : session.reports = []) :
    ∃ atOnce started ran, session.perform index (.writeAll .report) = some atOnce ∧
      session.perform index .startAll = some started ∧
      started.value.1.perform index .runAll = some ran ∧
      ∃ after code total count, atOnce.value = (after, .returned (.number total) code) ∧
        started.value.2 = .returned (.number 0) .success ∧
        ran.value = (after, .returned (.ran count [⟨.all, code, total⟩]) .success) := by
  have h := reachable.wellFormed
  have hWrites : session.sink.script.length + queue.content.length ≤
      session.sink.script.length + queue.size.toNat := by rw [h.size_eq]
  obtain ⟨total, code, count, hEnding, hRuns⟩ :=
    (Balance.start h honest).runs_eq_writeUpTo slices session index hWrites
      (lt_runBound session index h session.sink 0) 0 0
  have hAtOnce := value_transferred session index hEnding
  have hStarted := value_started index idle silent (queue.startAll session.sink)
  have hRan := value_run hRuns
  rw [written_of_reported idle silent] at hRan
  refine ⟨session.transferred index .report (queue.writeAll session.sink),
    session.started index (queue.startAll session.sink), _, by rw [perform, hQueue]; rfl,
    by rw [perform, hQueue]; rfl, rfl, _, code, total, count, hAtOnce,
    congrArg Prod.snd hStarted, ?_⟩
  rw [hStarted]
  show (run _ (session.awaiting index _).runBound).value = _
  rw [show queue.startAll session.sink = queue.continueAll session.sink 0 from rfl, hRan]
  show (_, Ending.returned (Answer.ran count (session.reports ++ [_])) _) = _
  rw [silent]
  rfl

/-- A short write, a write of nothing, and then an error that comes with one byte and leaves an
answer of the script behind. -/
theorem writeAll_agrees_with_startAll_failed :
    let settings : Settings := { initialChunkSize := 4, maxSlices := 1 }
    let queue := (Queue.fresh none 0 settings).run [.append (.ofBytes [1, 2, 3, 4, 5])]
    let sink : Sink := { script := [⟨.atMost 3, 0⟩, ⟨.atMost 0, 0⟩, ⟨.atMost 1, 7⟩, ⟨.all, 0⟩] }
    let session : Session := { queues := [(0, queue)], sink }
    session.queue? 0 = some queue ∧ Queue.Reachable queue ∧ sink.Honest ∧
      sink.sliceLimit ≠ some 0 ∧
      ∃ atOnce started ran, session.perform 0 (.writeAll .report) = some atOnce ∧
        session.perform 0 .startAll = some started ∧
        started.value.1.perform 0 .runAll = some ran ∧
        ∃ after, atOnce.value = (after, .returned (.number 4) ⟨.stream, 7⟩) ∧
          (∃ count, ran.value =
            (after, .returned (.ran count [⟨.all, ⟨.stream, 7⟩, 4⟩]) .success)) ∧
          after.sink.bytes = [1, 2, 3, 4] ∧ after.sink.writes = 3 ∧
          after.sink.script = [⟨.all, 0⟩] := by
  intro settings queue sink session
  have hReachable : Queue.Reachable queue :=
    (Queue.Reachable.fresh none 0 settings (by decide)).run (by decide +kernel)
  have hHonest : sink.Honest := by decide
  have hSlices : sink.sliceLimit ≠ some 0 := by decide
  obtain ⟨atOnce, started, ran, hAtOnce, hStarted, hRan, after, code, total, count, hWrote, _,
    hReported⟩ :=
      writeAll_agrees_with_startAll session 0 queue rfl hReachable hHonest hSlices rfl rfl
  have hEnding : ((session.perform 0 (.writeAll .report)).map fun work => work.value.2) =
      some (.returned (.number 4) ⟨.stream, 7⟩) := by decide +kernel
  have hSink : ((session.perform 0 (.writeAll .report)).map fun work =>
      (work.value.1.sink.bytes, work.value.1.sink.writes, work.value.1.sink.script)) =
        some ([1, 2, 3, 4], 3, [⟨.all, 0⟩]) := by decide +kernel
  rw [hAtOnce, Option.map_some, hWrote] at hEnding hSink
  obtain ⟨hBytes, hWrites, hScript⟩ : after.sink.bytes = [1, 2, 3, 4] ∧ after.sink.writes = 3 ∧
      after.sink.script = [⟨.all, 0⟩] := by simpa using hSink
  obtain ⟨rfl, rfl⟩ : total = 4 ∧ code = ⟨.stream, 7⟩ := by simpa using hEnding
  exact ⟨rfl, hReachable, hHonest, hSlices, atOnce, started, ran, hAtOnce, hStarted, hRan, after,
    hWrote, ⟨count, hReported⟩, hBytes, hWrites, hScript⟩

end Session

end ByteQueue
