import ByteQueue.Proofs.Write.Background
import ByteQueue.Session.Step

/-! The course of a background write in a session: one call that writes everything, and then
turns of two kinds in any order. Either bytes are added to the queue, or the first pending
completion runs. -/
namespace ByteQueue

/-- What happens next while a course is under way. -/
inductive Turn where
  | change (operation : Operation)
  | complete

/-- The bytes that a turn adds to the queue. -/
def Turn.entering : Turn → Bytes
  | .change operation => operation.entering
  | .complete => []

namespace Session

open Logged

/-- The session after an operation on one of its queues. -/
def change (session : Session) (index : Nat) (operation : Operation) : Session :=
  match session.queue? index with
  | some queue => session.setQueue index (queue.apply operation)
  | none => session

def turn (session : Session) (index : Nat) : Turn → Session
  | .change operation => session.change index operation
  | .complete =>
    match session.runFirst with
    | some first => first.value.1
    | none => session

/-- The session after some turns. -/
def course (session : Session) (index : Nat) (turns : List Turn) : Session :=
  turns.foldl (fun session turn => session.turn index turn) session

/-- The queue is changed at its tail only, and never holds more than it is made for. -/
def Permits (session : Session) (index : Nat) : Turn → Prop
  | .change operation =>
    operation.AtTail ∧ operation.InBounds ∧
      ∀ queue ∈ session.queue? index, (queue.apply operation).content.length ≤ Queue.capacity
  | .complete => True

def Permitted (index : Nat) : Session → List Turn → Prop
  | _, [] => True
  | session, turn :: rest =>
    session.Permits index turn ∧ Permitted index (session.turn index turn) rest

instance (session : Session) (index : Nat) (turn : Turn) :
    Decidable (session.Permits index turn) :=
  match turn with
  | .change operation =>
    inferInstanceAs (Decidable (operation.AtTail ∧ operation.InBounds ∧
      ∀ queue ∈ session.queue? index, (queue.apply operation).content.length ≤ Queue.capacity))
  | .complete => isTrue trivial

instance decidablePermitted (index : Nat) :
    (session : Session) → (turns : List Turn) → Decidable (Permitted index session turns)
  | _, [] => isTrue trivial
  | session, turn :: rest =>
    have := decidablePermitted index (session.turn index turn) rest
    inferInstanceAs (Decidable (_ ∧ _))

/-- A course under way: either one completion is pending and nothing is reported, or the report
has been made and nothing is pending. -/
structure Underway (before : Sink) (owed : Bytes) (index : Nat) (session : Session)
    (queue : Queue) (earlier latest : Bytes) : Prop
    extends Balance before owed session.sink queue earlier latest where
  queue_eq : session.queue? index = some queue
  stage :
    (∃ completion, session.pending = [(index, completion)] ∧ session.reports = [] ∧
      Awaits before session.sink queue earlier latest completion) ∨
    (session.pending = [] ∧ latest = [] ∧
      session.reports = [⟨.all, firstFailure (before.answersSince session.sink), earlier.size⟩])

namespace Underway

variable {before : Sink} {owed earlier latest : Bytes} {index : Nat} {session : Session}
  {queue : Queue}

theorem change (h : Underway before owed index session queue earlier latest)
    {operation : Operation} (hPermits : session.Permits index (.change operation)) :
    Underway before (owed ++ operation.entering) index (session.change index operation)
      (queue.apply operation) earlier latest := by
  obtain ⟨hTail, hBounds, hBound⟩ := hPermits
  have hConsistent := h.wellFormed.toConsistent
  have hGrows := Queue.grows_apply hConsistent hTail hBounds
  have hLength := hGrows.length_lt hConsistent (hBound queue h.queue_eq)
  have hChange : session.change index operation =
      session.setQueue index (queue.apply operation) := by
    rw [Session.change, h.queue_eq]
  rw [hChange]
  refine ⟨h.toBalance.grow hGrows hLength, queue?_setQueue .., ?_⟩
  rcases h.stage with ⟨completion, hPending, hReports, hAwaits⟩ | hEnded
  · refine .inl ⟨completion, hPending, hReports, ?_⟩
    cases hAwaits with
    | write slices hTaken hLe hProgress =>
      exact .write slices hTaken (hGrows.frame.2.2 ▸ hLe) hProgress
    | finished hNothing hCode => exact .finished hNothing hCode
  · exact .inr hEnded

/-- A pending completion can run, and it raises nothing. -/
theorem runFirst (h : Underway before owed index session queue earlier latest)
    (hPending : session.pending ≠ []) :
    ∃ first, session.runFirst = some first ∧ first.value.2 = none ∧
      (first.value.1.pending = [] ∨ (∃ total, first.value.1.pending = [(index, .finished total)]) ∨
        first.value.1.sink.writes = session.sink.writes + 1) ∧
      ∃ after following,
        Underway before owed index first.value.1 after (earlier ++ latest) following := by
  rcases h.stage with ⟨completion, hPending, hReports, hAwaits⟩ | hEnded
  · have hComplete := h.toBalance.complete hAwaits
    cases hAwaits with
    | finished hNothing hCode =>
      subst hNothing
      have hFirst : session.runFirst =
          some (pure ({ session with
            pending := [], reports := session.reports ++ [.finished earlier.size] }, none)) := by
        unfold Session.runFirst
        rw [hPending]
      refine ⟨_, hFirst, rfl, .inl rfl, queue, [], ?_⟩
      rw [List.append_nil]
      refine ⟨h.toBalance, h.queue_eq, .inr ⟨rfl, rfl, ?_⟩⟩
      show session.reports ++ [_] = [⟨_, firstFailure (before.answersSince session.sink), _⟩]
      rw [hReports, hCode]
      rfl
    | write slices hTaken hLe hProgress =>
      unfold Session.runFirst
      rw [hPending]
      dsimp only
      rw [h.queue_eq, Option.map_some]
      refine ⟨_, rfl, ?_⟩
      rcases hComplete with ⟨next, following, hEnding, hBalance, hNext, hWrites⟩ |
          ⟨hEnding, hBalance⟩
      · simp only [value_bind, hEnding]
        refine ⟨rfl, ?_, _, following, hBalance, queue?_setQueue ..,
          .inl ⟨next, rfl, hReports, hNext⟩⟩
        rcases hWrites with ⟨total, rfl⟩ | hWrites
        · exact .inr (.inl ⟨total, rfl⟩)
        · exact .inr (.inr hWrites)
      · simp only [value_bind, hEnding]
        refine ⟨rfl, .inl rfl, _, [], hBalance, queue?_setQueue .., .inr ⟨rfl, rfl, ?_⟩⟩
        show session.reports ++ [_] = _
        rw [hReports]
        rfl
  · exact absurd hEnded.1 hPending

theorem turn_complete (h : Underway before owed index session queue earlier latest)
    (hPending : session.pending ≠ []) :
    ((session.turn index .complete).pending = [] ∨
      (∃ total, (session.turn index .complete).pending = [(index, .finished total)]) ∨
        (session.turn index .complete).sink.writes = session.sink.writes + 1) ∧
      ∃ after following, Underway before owed index (session.turn index .complete) after
        (earlier ++ latest) following := by
  obtain ⟨first, hFirst, _, hNext, hAfter⟩ := h.runFirst hPending
  have hTurn : session.turn index .complete = first.value.1 := by rw [Session.turn, hFirst]
  rw [hTurn]
  exact ⟨hNext, hAfter⟩

theorem turn (h : Underway before owed index session queue earlier latest) {turn : Turn}
    (hPermits : session.Permits index turn) :
    ∃ after confirmed following, Underway before (owed ++ turn.entering) index
      (session.turn index turn) after confirmed following := by
  cases turn with
  | change operation => exact ⟨_, earlier, latest, h.change hPermits⟩
  | complete =>
    rw [Turn.entering, List.append_nil]
    by_cases hPending : session.pending = []
    · have hNone : session.runFirst = none := by
        unfold Session.runFirst
        rw [hPending]
      have hTurn : session.turn index .complete = session := by rw [Session.turn, hNone]
      rw [hTurn]
      exact ⟨queue, earlier, latest, h⟩
    · obtain ⟨_, after, following, hAfter⟩ := h.turn_complete hPending
      exact ⟨after, earlier ++ latest, following, hAfter⟩

/-- Turn by turn, whatever their order. -/
theorem course (h : Underway before owed index session queue earlier latest) {turns : List Turn}
    (permitted : Permitted index session turns) :
    ∃ after confirmed following, Underway before (owed ++ turns.flatMap Turn.entering) index
      (session.course index turns) after confirmed following := by
  induction turns generalizing session owed queue earlier latest with
  | nil => exact ⟨queue, earlier, latest, by rw [List.flatMap_nil, List.append_nil]; exact h⟩
  | cons turn rest ih =>
    obtain ⟨hFirst, hRest⟩ := permitted
    obtain ⟨between, confirmed, following, hBetween⟩ := h.turn hFirst
    have hCourse := ih hBetween hRest
    rwa [List.append_assoc, ← List.flatMap_cons] at hCourse

theorem pending_turn_of_finished {total : UInt64}
    (hPending : session.pending = [(index, .finished total)]) :
    (session.turn index .complete).pending = [] := by
  unfold Session.turn Session.runFirst
  rw [hPending]
  rfl

/-- If no more bytes are added, the course comes to its end: each completed write used up an
answer of the script or made the queue shorter. -/
theorem ends (h : Underway before owed index session queue earlier latest)
    (hSlices : before.sliceLimit ≠ some 0) :
    ∃ count, (session.course index (List.replicate count .complete)).pending = [] := by
  -- The measure: answers left in the script, one more to allow for the write in flight, and the
  -- bytes held. The next write lowers one of them, and neither ever grows.
  generalize hLeft : before.script.length + 1 - (session.sink.writes - before.writes) +
    queue.content.length = left
  induction left using Nat.strongRecOn generalizing session queue earlier latest with
  | ind left ih =>
    rcases h.stage with ⟨completion, hPending, _, hAwaits⟩ | ⟨hPending, _⟩
    · cases hAwaits with
      | finished hNothing hCode => exact ⟨1, pending_turn_of_finished hPending⟩
      | write slices hTaken hLe hProgress =>
        obtain ⟨hNext, after, following, hAfter⟩ := h.turn_complete (by rw [hPending]; exact nofun)
        rcases hNext with hEnded | ⟨total, hFinished⟩ | hWrites
        · exact ⟨1, hEnded⟩
        · exact ⟨2, pending_turn_of_finished hFinished⟩
        · have hLength := congrArg List.length (hAfter.conserved.trans h.conserved.symm)
          have hPrefix := h.latest_prefix.length_le
          have hWritesLe := h.writes_le
          simp only [List.length_append] at hLength
          have hLess : before.script.length + 1 -
              ((session.turn index .complete).sink.writes - before.writes) +
                after.content.length < left := by
            by_cases hNothing : latest = []
            · have hUsed := hProgress hNothing hSlices
              omega
            · have hPositive := List.length_pos_iff.mpr hNothing
              omega
          obtain ⟨count, hCount⟩ := ih _ hLess hAfter rfl
          exact ⟨count + 1, hCount⟩
    · exact ⟨0, hPending⟩

end Underway

/-- The session after a call that writes everything from one of its queues. -/
def writing (session : Session) (index : Nat) : Session :=
  match session.queue? index with
  | some queue => (session.started index (queue.startAll session.sink)).value.1
  | none => session

/-- A write is in flight. -/
def InFlight (session : Session) : Prop :=
  ∃ index count code slices sequel,
    (index, Completion.write count code slices sequel) ∈ session.pending

/-- The call itself reports nothing, even for an empty queue. -/
theorem underway_writing {session : Session} {index : Nat} {queue : Queue}
    (hQueue : session.queue? index = some queue) (h : queue.WellFormed)
    (honest : session.sink.Honest) (hPending : session.pending = [])
    (hReports : session.reports = []) :
    (session.writing index).reports = [] ∧
      ∃ after latest,
        Underway session.sink queue.content index (session.writing index) after [] latest := by
  obtain ⟨latest, hStarted, hAwaits⟩ :=
    (Balance.start h honest).continueAll session.sink.firstFailure_self
  have hWriting : session.writing index =
      (session.started index (queue.startAll session.sink)).value.1 := by rw [writing, hQueue]
  rw [hWriting]
  refine ⟨hReports, _, latest, hStarted, queue?_setQueue .., .inl ⟨_, ?_, hReports, hAwaits⟩⟩
  show session.pending ++ [_] = _
  rw [hPending]
  rfl

namespace Underway

variable {before : Sink} {owed earlier latest : Bytes} {index : Nat} {session : Session}
  {queue : Queue}

theorem latest_of_not_inFlight (h : Underway before owed index session queue earlier latest)
    (hNone : ¬ session.InFlight) : latest = [] := by
  rcases h.stage with ⟨completion, hPending, _, hAwaits⟩ | ⟨_, hNothing, _⟩
  · cases hAwaits with
    | finished hNothing hCode => exact hNothing
    | write slices hTaken hLe hProgress =>
      exact absurd ⟨index, _, _, slices, _, by rw [hPending]; exact List.mem_singleton_self _⟩ hNone
  · exact hNothing

theorem taken_of_inFlight (h : Underway before owed index session queue earlier latest)
    (hSome : session.InFlight) : session.sink.taken.head?.map Block.bytes = some latest := by
  obtain ⟨index, count, code, slices, sequel, hMem⟩ := hSome
  rcases h.stage with ⟨completion, hPending, _, hAwaits⟩ | ⟨hPending, _⟩
  · cases hAwaits with
    | finished hNothing hCode =>
      rw [hPending, List.mem_singleton] at hMem
      cases hMem
    | write slices hTaken hLe hProgress => exact hTaken
  · rw [hPending] at hMem
    cases hMem

theorem reports_of_pending (h : Underway before owed index session queue earlier latest)
    (hPending : session.pending ≠ []) : session.reports = [] := by
  rcases h.stage with ⟨_, _, hReports, _⟩ | ⟨hNone, _⟩
  · exact hReports
  · exact absurd hNone hPending

theorem reports_of_ended (h : Underway before owed index session queue earlier latest)
    (hEnded : session.pending = []) :
    session.reports =
      [⟨.all, firstFailure (before.answersSince session.sink), (earlier ++ latest).size⟩] := by
  rcases h.stage with ⟨_, hPending, _⟩ | ⟨_, hNothing, hReports⟩
  · rw [hEnded] at hPending
    cases hPending
  · rw [hReports, hNothing, List.append_nil]

end Underway

/-- Writing everything in the background, with bytes added in any turns between completions.
What the sink has accepted since the call and what the queue holds are, without a write in
flight, all bytes that were there and that were added, in order; the bytes of a write in flight
are counted twice, since the queue still holds them in front. There is one report, made by the
last completion, of all bytes accepted (as a word) and of the first failure among the answers.
Only a sink that is never offered a slice may keep a course from its end. -/
theorem background_write_conserves (session : Session) (index : Nat) (queue : Queue)
    (hQueue : session.queue? index = some queue) (reachable : Queue.Reachable queue)
    (honest : session.sink.Honest) (idle : session.pending = []) (silent : session.reports = [])
    (turns : List Turn) (permitted : Permitted index (session.writing index) turns) :
    let after := (session.writing index).course index turns
    let owed := queue.content ++ turns.flatMap Turn.entering
    (session.writing index).reports = [] ∧
      ∃ held accepted, after.queue? index = some held ∧
        after.sink.bytes = session.sink.bytes ++ accepted ∧
        (¬ after.InFlight → accepted ++ held.content = owed) ∧
        (after.InFlight → ∃ earlier latest, accepted = earlier ++ latest ∧
          after.sink.taken.head?.map Block.bytes = some latest ∧ latest <+: held.content ∧
          earlier ++ held.content = owed) ∧
        (after.pending ≠ [] → after.reports = [] ∧
          ∃ first, after.runFirst = some first ∧ first.value.2 = none) ∧
        (after.pending = [] → after.reports =
          [⟨.all, firstFailure (session.sink.answersSince after.sink), accepted.size⟩]) ∧
        (session.sink.sliceLimit ≠ some 0 →
          ∃ count, (after.course index (List.replicate count .complete)).pending = []) := by
  intro after owed
  obtain ⟨hSilent, _, _, hStarted⟩ :=
    underway_writing hQueue reachable.wellFormed honest idle silent
  obtain ⟨held, earlier, latest, hAfter⟩ := hStarted.course permitted
  refine ⟨hSilent, held, earlier ++ latest, hAfter.queue_eq, hAfter.bytes_eq, ?_, ?_, ?_,
    hAfter.reports_of_ended, hAfter.ends⟩
  · intro hNone
    rw [hAfter.latest_of_not_inFlight hNone, List.append_nil]
    exact hAfter.conserved
  · intro hSome
    exact ⟨earlier, latest, rfl, hAfter.taken_of_inFlight hSome, hAfter.latest_prefix,
      hAfter.conserved⟩
  · intro hPending
    obtain ⟨first, hFirst, hRaised, _⟩ := hAfter.runFirst hPending
    exact ⟨hAfter.reports_of_pending hPending, first, hFirst, hRaised⟩

/-- A course in which the sink takes 3 bytes, then none, and then all it is offered, slice by
slice; a byte is added to the chunk that is being written. -/
theorem background_write_conserves_filled_tail :
    let settings : Settings := { initialChunkSize := 4, maxSlices := 1 }
    let queue := (Queue.fresh none 0 settings).run [.append (.ofBytes [1, 2, 3, 4, 5])]
    let sink : Sink := { script := [⟨.atMost 3, 0⟩, ⟨.atMost 0, 0⟩] }
    let session : Session := { queues := [(0, queue)], sink }
    let turns : List Turn :=
      [.complete, .complete, .complete, .change (.append (.ofBytes [6])), .complete, .complete,
        .complete]
    let after := (session.writing 0).course 0 turns
    session.queue? 0 = some queue ∧ Queue.Reachable queue ∧ sink.Honest ∧
      Permitted 0 (session.writing 0) turns ∧ after.pending = [] ∧
      after.sink.bytes = [1, 2, 3, 4, 5, 6] ∧ after.reports = [.finished 6] := by
  intro settings queue sink session turns after
  have hReachable : Queue.Reachable queue :=
    (Queue.Reachable.fresh none 0 settings (by decide)).run (by decide +kernel)
  have hHonest : sink.Honest := by decide
  have hPermitted : Permitted 0 (session.writing 0) turns := by decide +kernel
  have hEnded : after.pending = [] := by decide +kernel
  have hCode : firstFailure (sink.answersSince after.sink) = .success := by decide +kernel
  have hBytes : after.sink.bytes = [1, 2, 3, 4, 5, 6] := by decide +kernel
  obtain ⟨_, held, accepted, _, hAccepted, _, _, _, hReports, _⟩ :=
    background_write_conserves session 0 queue rfl hReachable hHonest rfl rfl turns hPermitted
  have hAll : accepted = [1, 2, 3, 4, 5, 6] := by
    rw [hBytes] at hAccepted
    exact hAccepted.symm
  refine ⟨rfl, hReachable, hHonest, hPermitted, hEnded, hBytes, ?_⟩
  rw [hReports hEnded, hCode, hAll]
  rfl

end Session

end ByteQueue
