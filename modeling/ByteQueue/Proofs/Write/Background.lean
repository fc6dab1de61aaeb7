import ByteQueue.Proofs.Queue.Run
import ByteQueue.Proofs.Write.Sink
import ByteQueue.Write.Async

/-! Writing everything in the background, while bytes are added to the queue between any two
completions. The account of such a course has two parts: the bytes of completed writes, which
have left the queue, and those of the write in flight, which the sink has and the queue still
holds in front. Nothing else is ever in flight, so no byte is lost, written twice or overtaken. -/
namespace ByteQueue

open Queue

/-- The first failure among some answers of a sink, or success if there is none. -/
def firstFailure : List Response → Code
  | [] => .success
  | response :: rest => if response.code.isFailure then response.code else firstFailure rest

theorem Response.code_eq_success {response : Response} (h : ¬ response.code.isFailure) :
    response.code = .success := by
  unfold Response.code at h ⊢
  split
  · rfl
  · next hError =>
    rw [if_neg hError] at h
    exact absurd (bne_iff_ne.mpr hError) h

theorem firstFailure_eq_success {responses : List Response}
    (h : ¬ (firstFailure responses).isFailure) : firstFailure responses = .success := by
  induction responses with
  | nil => rfl
  | cons response rest ih =>
    unfold firstFailure at h ⊢
    split
    · next hFails =>
      rw [if_pos hFails] at h
      exact absurd hFails h
    · next hCode =>
      rw [if_neg hCode] at h
      exact ih h

/-- One answer more, after answers without a failure. Behind its script a sink accepts. -/
theorem firstFailure_take_succ (script : List Response) (count : Nat)
    (h : firstFailure (script.take count) = .success) :
    firstFailure (script.take (count + 1)) = ((script.drop count).head?.getD .accept).code := by
  induction script generalizing count with
  | nil => simp [firstFailure, Response.accept, Response.code]
  | cons response rest ih =>
    cases count with
    | zero =>
      by_cases hCode : response.code.isFailure
      · simp [firstFailure, hCode]
      · simp [firstFailure, Response.code_eq_success hCode]
    | succ count =>
      rw [List.take_succ_cons, firstFailure] at h
      split at h
      · next hFails =>
        rw [h] at hFails
        cases hFails
      · next hCode =>
        rw [List.take_succ_cons, firstFailure, if_neg hCode, List.drop_succ_cons]
        exact ih count h

/-- The answers in the script of a sink that it has given since it was as `before`. -/
def Sink.answersSince (before sink : Sink) : List Response :=
  before.script.take (sink.writes - before.writes)

/-- Before the first answer nothing has failed. -/
theorem Sink.firstFailure_self (sink : Sink) :
    firstFailure (sink.answersSince sink) = .success := by
  rw [answersSince, Nat.sub_self, List.take_zero]
  rfl

/-- What was written since the sink was as `before`: the bytes `earlier` were confirmed, and the
bytes `latest` are with the sink but still in the queue. Together with what is in the queue
this is all that is owed. -/
structure Balance (before : Sink) (owed : Bytes) (sink : Sink) (queue : Queue)
    (earlier latest : Bytes) : Prop where
  wellFormed : queue.WellFormed
  honest : sink.Honest
  writes_le : before.writes ≤ sink.writes
  script_eq : sink.script = before.script.drop (sink.writes - before.writes)
  sliceLimit_eq : sink.sliceLimit = before.sliceLimit
  bytes_eq : sink.bytes = before.bytes ++ (earlier ++ latest)
  conserved : earlier ++ queue.content = owed
  latest_prefix : latest <+: queue.content

/-- What a course waits for: the write of `latest` to complete, or, where nothing is left to
write, its own end. A write that took nothing used up an answer of the script, unless the sink
is never offered anything. -/
inductive Awaits (before sink : Sink) (queue : Queue) (earlier latest : Bytes) :
    Completion → Prop where
  | write (slices : Nat) (hTaken : sink.taken.head?.map Block.bytes = some latest)
    (hLe : latest.length ≤ queue.projected.toNat)
    (hProgress : latest = [] → before.sliceLimit ≠ some 0 →
      sink.writes - before.writes ≤ before.script.length) :
    Awaits before sink queue earlier latest
      (.write latest.size (firstFailure (before.answersSince sink)) slices (.further earlier.size))
  | finished (hNothing : latest = []) (hCode : firstFailure (before.answersSince sink) = .success) :
    Awaits before sink queue earlier latest (.finished earlier.size)

namespace Queue

open Logged

theorem WellFormed.length_lt {queue : Queue} (h : queue.WellFormed) {data : Bytes}
    (hPrefix : data <+: queue.content) : data.length < 2 ^ 64 :=
  Nat.lt_of_le_of_lt hPrefix.length_le h.length_content_lt

/-- A course writes again unless it ends. -/
theorem writes_continueAll (queue : Queue) (sink : Sink) (total : UInt64) :
    (∃ last, (queue.continueAll sink total).value.completion = .finished last) ∨
      (queue.continueAll sink total).value.sink.writes = sink.writes + 1 := by
  unfold continueAll
  split
  · exact .inl ⟨total, rfl⟩
  · exact .inr rfl

/-- A projection of a queue that holds bytes shows at least one. -/
theorem WellFormed.projectAll_shows {queue : Queue} (h : queue.WellFormed)
    (hSome : queue.content ≠ []) :
    queue.projectAll.value.2.store.toList ≠ [] ∧ queue.projectAll.value.2.limit ≠ 0 := by
  constructor
  · intro hn
    have hContent : queue.content = [] := by
      rw [content, stored, show queue.chunks = [] from hn]
      exact List.drop_nil
    exact hSome hContent
  · have hMax := (queue.settings.valid_iff.mp h.valid).2.1
    intro hn
    have hSlots : (min queue.settings.maxSlices queue.settings.maxSlices).toNat = 0 := hn
    rw [Word.toNat_min, Nat.min_self] at hSlots
    exact hMax (UInt64.toNat_inj.mp hSlots)

/-- Behind its script a sink takes all that it is offered, and so at least one byte. -/
theorem WellFormed.accepted_ne_nil {queue : Queue} (h : queue.WellFormed)
    (hSome : queue.content ≠ []) {sink : Sink} (hScript : sink.script = [])
    (hSlices : sink.sliceLimit ≠ some 0) :
    (sink.accepted queue.projectAll.value.2).bytes ≠ [] := by
  obtain ⟨hChunks, hLimit⟩ := h.projectAll_shows hSome
  have hAnswer : sink.answer = .accept := by rw [Sink.answer, hScript]; rfl
  rw [Sink.accepted, hAnswer]
  show (sink.offered queue.projectAll.value.2).block.bytes ≠ []
  rw [Projection.bytes_block]
  exact Sink.bytes_offered_ne_nil h.cursor hChunks hLimit hSlices

/-- A completed write is confirmed; then the course ends with a failure or goes on. -/
theorem value_complete_write {queue after : Queue} {count : UInt64}
    (hValue : (queue.confirm count).value = .ok after) (sink : Sink) (code : Code) (slices : Nat)
    (total : UInt64) :
    (queue.complete sink (.write count code slices (.further total))).value =
      if code.isFailure then ⟨sink, after, .returned (.done ⟨.all, code, total + count⟩) .success⟩
      else
        let started := (after.continueAll sink (total + count)).value
        ⟨started.sink, started.queue, .returned (.next started.completion) .success⟩ := by
  unfold complete
  rw [value_bind, hValue]
  by_cases hFails : code.isFailure = true
  · simp only [hFails, if_true]
    rfl
  · simp only [hFails]
    rfl

end Queue

namespace Balance

variable {before sink : Sink} {owed earlier latest : Bytes} {queue : Queue}

/-- Before anything is written, what is owed is what the queue holds. -/
theorem start {queue : Queue} {sink : Sink} (h : queue.WellFormed) (honest : sink.Honest) :
    Balance sink queue.content sink queue [] [] := by
  refine ⟨h, honest, Nat.le_refl _, ?_, rfl, ?_, rfl, List.nil_prefix⟩
  · rw [Nat.sub_self, List.drop_zero]
  · rw [List.append_nil, List.append_nil]

/-- Bytes that are added while a course is under way are owed in addition. -/
theorem grow (h : Balance before owed sink queue earlier latest) {after : Queue} {data : Bytes}
    (hGrows : Grows queue data after) (hBound : queue.content.length + data.length < 2 ^ 64) :
    Balance before (owed ++ data) sink after earlier latest := by
  have hContent := hGrows.content_eq h.wellFormed.toConsistent
  refine ⟨hGrows.wellFormed h.wellFormed hBound, h.honest, h.writes_le, h.script_eq,
    h.sliceLimit_eq, h.bytes_eq, ?_, ?_⟩
  · rw [hContent, ← List.append_assoc, h.conserved]
  · rw [hContent]
    exact h.latest_prefix.trans (List.prefix_append ..)

theorem project (h : Balance before owed sink queue earlier latest) (limit : UInt64) :
    Balance before owed sink (queue.project limit).value.1 earlier latest :=
  { h with wellFormed := h.wellFormed.project limit }

theorem writes_succ_sub (h : Balance before owed sink queue earlier latest) :
    sink.writes + 1 - before.writes = sink.writes - before.writes + 1 := by
  have hLe := h.writes_le
  omega

/-- A write puts the bytes that it takes behind those that were confirmed. -/
theorem write (h : Balance before owed sink queue earlier []) {projection : Projection}
    (hTaken : (sink.accepted projection).bytes <+: queue.content) :
    Balance before owed (sink.write projection).1 queue earlier
      (sink.accepted projection).bytes := by
  have hBytes := h.bytes_eq
  rw [List.append_nil] at hBytes
  refine ⟨h.wellFormed, (h.honest.write projection).1, ?_, ?_, h.sliceLimit_eq, ?_, h.conserved,
    hTaken⟩
  · exact Nat.le_succ_of_le h.writes_le
  · show sink.script.tail = before.script.drop (sink.writes + 1 - before.writes)
    rw [h.writes_succ_sub, h.script_eq, List.tail_drop]
  · rw [sink.bytes_write, hBytes, List.append_assoc]

theorem code_write (h : Balance before owed sink queue earlier latest)
    (hCode : firstFailure (before.answersSince sink) = .success) (projection : Projection) :
    firstFailure (before.answersSince (sink.write projection).1) = sink.answer.code := by
  show firstFailure (before.script.take (sink.writes + 1 - before.writes)) = _
  rw [h.writes_succ_sub, firstFailure_take_succ _ _ hCode, ← h.script_eq]
  rfl

/-- A write that takes nothing has its answer from the script. -/
theorem writes_le_of_nothing (h : Balance before owed sink queue earlier latest)
    (hSome : queue.content ≠ []) (hNothing : (sink.accepted queue.projectAll.value.2).bytes = [])
    (hSlices : before.sliceLimit ≠ some 0) :
    sink.writes + 1 - before.writes ≤ before.script.length := by
  refine Decidable.byContradiction fun hLong => ?_
  have hScript : sink.script = [] := by
    rw [h.script_eq]
    exact List.drop_eq_nil_of_le (by omega)
  rw [← h.sliceLimit_eq] at hSlices
  exact h.wellFormed.accepted_ne_nil hSome hScript hSlices hNothing

/-- A sink that is offered what a projection shows takes some leading bytes, no more than were
shown, and claims just these. -/
theorem offer (h : Balance before owed sink queue earlier []) :
    let latest := (sink.accepted queue.projectAll.value.2).bytes
    (sink.write queue.projectAll.value.2).2 = (latest.size, sink.answer.code) ∧
      latest.length ≤ queue.projectAll.value.1.projected.toNat ∧
      Balance before owed (sink.write queue.projectAll.value.2).1 queue.projectAll.value.1
        earlier latest := by
  intro latest
  obtain ⟨hShown, hProjected⟩ := h.wellFormed.toConsistent.project queue.settings.maxSlices
  have hTaken : latest <+: queue.projectAll.value.2.bytes :=
    sink.bytes_accepted h.wellFormed.cursor
  have hClaimed : (sink.write queue.projectAll.value.2).2.1 = latest.size := by
    rw [(h.honest.write queue.projectAll.value.2).2, Block.size_eq]
  exact ⟨Prod.ext hClaimed rfl, Nat.le_trans hTaken.length_le (Nat.le_of_eq hProjected.symm),
    (h.project queue.settings.maxSlices).write (hTaken.trans hShown)⟩

/-- The next write: the sink takes some leading bytes, no more than the projection showed. -/
theorem startWrite (h : Balance before owed sink queue earlier []) (hSome : queue.content ≠ [])
    (hCode : firstFailure (before.answersSince sink) = .success) :
    let started := (queue.startWrite sink (.further earlier.size)).value
    ∃ latest, Balance before owed started.sink started.queue earlier latest ∧
      Awaits before started.sink started.queue earlier latest started.completion := by
  intro started
  obtain ⟨hClaimed, hLe, hOffered⟩ := h.offer
  have hStarted : started.completion =
      .write (sink.write queue.projectAll.value.2).2.1 (sink.write queue.projectAll.value.2).2.2
        queue.projectAll.value.2.count (.further earlier.size) := rfl
  refine ⟨(sink.accepted queue.projectAll.value.2).bytes, hOffered, ?_⟩
  rw [hStarted, hClaimed, ← h.code_write hCode queue.projectAll.value.2]
  exact .write _ rfl hLe (h.writes_le_of_nothing hSome)

/-- A course goes on with the next write, or with its end. -/
theorem continueAll (h : Balance before owed sink queue earlier [])
    (hCode : firstFailure (before.answersSince sink) = .success) :
    let started := (queue.continueAll sink earlier.size).value
    ∃ latest, Balance before owed started.sink started.queue earlier latest ∧
      Awaits before started.sink started.queue earlier latest started.completion := by
  intro started
  by_cases hEmpty : queue.isEmpty = true
  · have hStarted : started = ⟨sink, queue, .finished earlier.size⟩ := by
      show (queue.continueAll sink earlier.size).value = _
      rw [Queue.continueAll, if_pos hEmpty]
      rfl
    rw [hStarted]
    exact ⟨[], h, .finished rfl hCode⟩
  · have hStarted : started = (queue.startWrite sink (.further earlier.size)).value := by
      show (queue.continueAll sink earlier.size).value = _
      rw [Queue.continueAll, if_neg hEmpty]
    have hSome : queue.content ≠ [] := by
      intro hNone
      have hSize := h.wellFormed.size_eq
      rw [hNone] at hSize
      exact hEmpty (beq_iff_eq.mpr (UInt64.toNat_inj.mp hSize))
    rw [hStarted]
    exact h.startWrite hSome hCode

/-- The bytes of a completed write leave the queue. -/
theorem confirm (h : Balance before owed sink queue earlier latest)
    (hLe : latest.length ≤ queue.projected.toNat) :
    ∃ after, (queue.confirm latest.size).value = .ok after ∧
      Balance before owed sink after (earlier ++ latest) [] := by
  have hSize : latest.size.toNat = latest.length :=
    Word.toNat_toUInt64 (h.wellFormed.length_lt h.latest_prefix)
  have hAccepted : latest.size ≤ queue.projected := by
    rw [UInt64.le_iff_toNat_le, hSize]
    exact hLe
  obtain ⟨after, hValue⟩ := exists_value_confirm hAccepted
  obtain ⟨hAfter, hContent, _, _⟩ := h.wellFormed.confirm hValue
  refine ⟨after, hValue, hAfter, h.honest, h.writes_le, h.script_eq, h.sliceLimit_eq, ?_, ?_,
    List.nil_prefix⟩
  · rw [List.append_nil]
    exact h.bytes_eq
  · obtain ⟨rest, hRest⟩ := h.latest_prefix
    rw [hContent, hSize, ← hRest, List.drop_left, List.append_assoc, hRest]
    exact h.conserved

/-- A completion is followed by another one or by the report, and nothing is raised. -/
theorem complete (h : Balance before owed sink queue earlier latest) {completion : Completion}
    (hAwaits : Awaits before sink queue earlier latest completion) :
    let completed := (queue.complete sink completion).value
    (∃ next following, completed.ending = .returned (.next next) .success ∧
      Balance before owed completed.sink completed.queue (earlier ++ latest) following ∧
      Awaits before completed.sink completed.queue (earlier ++ latest) following next ∧
      ((∃ total, next = .finished total) ∨ completed.sink.writes = sink.writes + 1)) ∨
    (completed.ending = .returned (.done ⟨.all,
        firstFailure (before.answersSince completed.sink), (earlier ++ latest).size⟩) .success ∧
      Balance before owed completed.sink completed.queue (earlier ++ latest) []) := by
  intro completed
  cases hAwaits with
  | finished hNothing hCode =>
    subst hNothing
    right
    rw [List.append_nil]
    refine ⟨?_, h⟩
    show _ = Ending.returned (Consequence.done ⟨.all, firstFailure (before.answersSince sink), _⟩) _
    rw [hCode]
    rfl
  | write slices hTaken hLe hProgress =>
    obtain ⟨after, hValue, hAfter⟩ := h.confirm hLe
    have hCompleted := value_complete_write hValue sink
      (firstFailure (before.answersSince sink)) slices earlier.size
    rw [← Bytes.size_append] at hCompleted
    by_cases hFails : (firstFailure (before.answersSince sink)).isFailure = true
    · right
      rw [if_pos hFails] at hCompleted
      rw [show completed = _ from hCompleted]
      exact ⟨rfl, hAfter⟩
    · left
      rw [if_neg hFails] at hCompleted
      rw [show completed = _ from hCompleted]
      obtain ⟨following, hNext, hAwaits⟩ :=
        hAfter.continueAll (firstFailure_eq_success hFails)
      exact ⟨_, following, rfl, hNext, hAwaits, after.writes_continueAll sink _⟩

end Balance

end ByteQueue
