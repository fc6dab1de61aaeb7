import ByteQueue.Proofs.Queue.Run

/-! A queue in chunks is a queue of bytes: first in, first out. The reference is a plain string
of bytes, to which each operation does what its name says; a queue is compared with it by its
content, and by the bytes that leave it. -/
namespace ByteQueue

namespace Operation

/-- What a plain queue that holds `held` does: the bytes that leave it in front, and those that
it holds afterwards. -/
def onPlain (held : Bytes) : Operation → Bytes × Bytes
  | .append data => ([], held ++ data.bytes)
  | .appendAll pieces => ([], held ++ pieces.flatMap Block.bytes)
  | .absorb handle => ([], held ++ handle.bytes)
  | .project _ | .projectAll | .sealTail => ([], held)
  | .confirm count | .take count => (held.take count.toNat, held.drop count.toNat)
  | .drain | .clear => (held, [])

/-- The bytes that an operation removes without handing them out. -/
def removing (held : Bytes) : Operation → Bytes
  | .confirm count => held.take count.toNat
  | .clear => held
  | .append _ | .appendAll _ | .absorb _ | .project _ | .projectAll | .sealTail | .take _
  | .drain => []

theorem onPlain_conserves (held : Bytes) (operation : Operation) :
    (operation.onPlain held).1 ++ (operation.onPlain held).2 = held ++ operation.entering := by
  cases operation with
  | append _ | appendAll _ | absorb _ => rfl
  | project _ | projectAll | sealTail => exact (List.append_nil held).symm
  | confirm _ | take _ => exact (List.take_append_drop ..).trans (List.append_nil held).symm
  | drain | clear => rfl

end Operation

namespace Queue

/-- The bytes that leave a queue: those in the handles that it hands out, and those that are
confirmed or cleared away. -/
def leaving (queue : Queue) (operation : Operation) : Bytes :=
  match queue.outcome operation with
  | .taken handle => handle.bytes
  | .drained handles => handles.flatMap Handle.bytes
  | .done => operation.removing queue.content
  | .shown .. | .refused _ => []

/-- All bytes that leave a queue in a run, in order. -/
def consumed : Queue → List Operation → Bytes
  | _, [] => []
  | queue, operation :: rest => queue.leaving operation ++ (queue.apply operation).consumed rest

/-- The only operations that are refused: to confirm more than was shown, to take more than
there is. -/
def MustRefuse (queue : Queue) : Operation → Prop
  | .confirm count => queue.projected < count
  | .take count => queue.content.length < count.toNat
  | .append _ | .appendAll _ | .absorb _ | .project _ | .projectAll | .sealTail | .drain
  | .clear => False

/-- On this operation a queue does what a plain queue does with its content. -/
structure ActsAsPlain (queue : Queue) (operation : Operation) : Prop where
  refuses_iff : queue.Refuses operation ↔ queue.MustRefuse operation
  unchanged : queue.Refuses operation → queue.apply operation = queue
  leaving_eq : ¬ queue.Refuses operation →
    queue.leaving operation = (operation.onPlain queue.content).1
  content_eq : ¬ queue.Refuses operation →
    (queue.apply operation).content = (operation.onPlain queue.content).2

theorem ActsAsPlain.of_accepted {queue : Queue} {operation : Operation}
    (hAccepts : ¬ queue.Refuses operation) (hMust : ¬ queue.MustRefuse operation)
    (hLeaving : queue.leaving operation = (operation.onPlain queue.content).1)
    (hContent : (queue.apply operation).content = (operation.onPlain queue.content).2) :
    queue.ActsAsPlain operation where
  refuses_iff := ⟨fun hr => (hAccepts hr).elim, fun hm => (hMust hm).elim⟩
  unchanged := fun hr => (hAccepts hr).elim
  leaving_eq := fun _ => hLeaving
  content_eq := fun _ => hContent

theorem ActsAsPlain.of_refused {queue : Queue} {operation : Operation}
    (hRefuses : queue.Refuses operation) (hMust : queue.MustRefuse operation) :
    queue.ActsAsPlain operation where
  refuses_iff := ⟨fun _ => hMust, fun _ => hRefuses⟩
  unchanged := apply_of_refuses
  leaving_eq := fun hAccepts => (hAccepts hRefuses).elim
  content_eq := fun hAccepts => (hAccepts hRefuses).elim

theorem leaving_of_refuses {queue : Queue} {operation : Operation}
    (hRefuses : queue.Refuses operation) : queue.leaving operation = [] := by
  obtain ⟨failure, hOutcome⟩ := hRefuses
  rw [leaving, hOutcome]

theorem leaving_confirm_of_le {queue : Queue} {count : UInt64} (h : count ≤ queue.projected) :
    queue.leaving (.confirm count) = queue.content.take count.toNat := by
  rw [leaving, outcome_confirm_of_le h]
  rfl

theorem WellFormed.actsAsPlain_confirm {queue : Queue} (h : queue.WellFormed) (count : UInt64) :
    queue.ActsAsPlain (.confirm count) := by
  have hIff := queue.refuses_confirm_iff count
  by_cases hr : queue.Refuses (.confirm count)
  · exact .of_refused hr (hIff.mp hr)
  · have hLe : count ≤ queue.projected := UInt64.not_lt.mp fun hlt => hr (hIff.mpr hlt)
    exact .of_accepted hr (fun hm => hr (hIff.mpr hm)) (leaving_confirm_of_le hLe)
      (h.apply_confirm hLe).2.1

theorem WellFormed.actsAsPlain_take {queue : Queue} (h : queue.WellFormed) (count : UInt64) :
    queue.ActsAsPlain (.take count) := by
  have hIff := h.refuses_take_iff count
  have hMustIff : queue.MustRefuse (.take count) ↔ queue.size < count := by
    rw [UInt64.lt_iff_toNat_lt, h.size_eq]
    rfl
  by_cases hr : queue.Refuses (.take count)
  · exact .of_refused hr (hMustIff.mpr (hIff.mp hr))
  · have hLe : count ≤ queue.size := UInt64.not_lt.mp fun hlt => hr (hIff.mpr hlt)
    have hMust : ¬ queue.MustRefuse (.take count) := fun hm => hr (hIff.mpr (hMustIff.mp hm))
    by_cases h0 : count = 0
    · subst h0
      have hTaken : queue.outcome (.take 0) = .taken .empty := by rw [outcome, value_take_zero]
      refine .of_accepted hr hMust ?_ ?_
      · rw [leaving, hTaken]
        rfl
      · rw [apply_take_zero]
        rfl
    · obtain ⟨_, _, hContent, _, handle, hTaken, hBytes⟩ := h.apply_take hLe h0
      refine .of_accepted hr hMust ?_ hContent
      rw [leaving, hTaken]
      exact hBytes

theorem WellFormed.actsAsPlain {queue : Queue} (h : queue.WellFormed) {operation : Operation}
    (hBounds : operation.InBounds) : queue.ActsAsPlain operation := by
  have hGrown (hTail : operation.AtTail) :
      (queue.apply operation).content = queue.content ++ operation.entering :=
    (grows_apply h.toConsistent hTail hBounds).content_eq h.toConsistent
  cases operation with
  | append data => exact .of_accepted nofun id rfl (hGrown trivial)
  | appendAll pieces => exact .of_accepted nofun id rfl (hGrown trivial)
  | absorb handle => exact .of_accepted nofun id rfl (hGrown trivial)
  | sealTail => exact .of_accepted nofun id rfl ((hGrown trivial).trans (List.append_nil _))
  | project limit => exact .of_accepted nofun id rfl rfl
  | projectAll => exact .of_accepted nofun id rfl rfl
  | confirm count => exact h.actsAsPlain_confirm count
  | take count => exact h.actsAsPlain_take count
  | drain =>
    have hRelease := (release_spec h.chunks_wellFormed h.cursor).1
    exact .of_accepted nofun id hRelease rfl
  | clear => exact .of_accepted nofun id rfl rfl

/-- One operation takes from the front what leaves, and puts behind the rest what enters. -/
theorem WellFormed.leaving_append_content {queue : Queue} (h : queue.WellFormed)
    {operation : Operation} (hBounds : operation.InBounds) :
    queue.leaving operation ++ (queue.apply operation).content =
      queue.content ++ operation.entering := by
  have hPlain := h.actsAsPlain hBounds
  by_cases hr : queue.Refuses operation
  · have hEntering : operation.entering = [] := by
      have hMust := hPlain.refuses_iff.mp hr
      cases operation with
      | confirm _ | take _ => rfl
      | append _ | appendAll _ | absorb _ | project _ | projectAll | sealTail | drain | clear =>
        exact hMust.elim
    rw [hPlain.unchanged hr, leaving_of_refuses hr, hEntering, List.nil_append, List.append_nil]
  · rw [hPlain.leaving_eq hr, hPlain.content_eq hr]
    exact operation.onPlain_conserves queue.content

/-- Whatever left in a run, followed by what is still there, is what was there before, followed
by whatever entered. -/
theorem WellFormed.consumed_append_content {queue : Queue} (h : queue.WellFormed)
    {operations : List Operation} (admissible : queue.Admissible operations) :
    queue.consumed operations ++ (queue.run operations).content =
      queue.content ++ operations.flatMap Operation.entering := by
  induction operations generalizing queue with
  | nil => simp [consumed]
  | cons operation rest ih =>
    obtain ⟨hBounds, hBound, hRest⟩ := admissible
    have hStep := h.leaving_append_content hBounds
    have hRun := ih (h.apply hBounds hBound) hRest
    rw [consumed, run_cons, List.append_assoc, hRun, ← List.append_assoc, hStep,
      List.append_assoc, List.flatMap_cons]

/-- What is shown in front is a beginning of the content. -/
theorem Consistent.front_spec {queue : Queue} (h : queue.Consistent) :
    queue.front.bytes <+: queue.content ∧ (queue.content ≠ [] → queue.front.bytes ≠ []) := by
  have hFront := queue.front_eq
  have hContent := h.content_eq
  cases hq : queue.chunks with
  | nil =>
    rw [hq] at hFront hContent
    rw [hFront, hContent]
    exact ⟨List.nil_prefix, fun hn => absurd rfl hn⟩
  | cons head rest =>
    have hLt : queue.headOffset.toNat < head.length := by
      have hCursor := h.cursor
      rwa [hq] at hCursor
    rw [hq] at hFront hContent
    rw [hFront, hContent]
    refine ⟨List.prefix_append .., fun _ hn => ?_⟩
    have hLength := congrArg List.length hn
    rw [remainders, List.head?_cons, Option.getD_some, bytes_remainder, List.length_drop,
      Chunk.length_bytes, List.length_nil] at hLength
    omega

/-- In every run from a new queue, each operation does to the content what it does to a plain
queue, and the bytes come out as they went in. -/
theorem run_acts_as_plain_queue (logger : Option Log.Config) (owner : Nat) (settings : Settings)
    (valid : settings.Valid) (operations : List Operation)
    (admissible : (fresh logger owner settings).Admissible operations) :
    let queue := (fresh logger owner settings).run operations
    (fresh logger owner settings).consumed operations ++ queue.content =
        operations.flatMap Operation.entering ∧
      queue.size.toNat = queue.content.length ∧
      queue.front.bytes <+: queue.content ∧
      (queue.content ≠ [] → queue.front.bytes ≠ []) ∧
      ∀ operation, operation.InBounds → queue.ActsAsPlain operation := by
  have hFresh := wellFormed_fresh logger owner valid
  have hQueue := hFresh.run admissible
  have hConserved := hFresh.consumed_append_content admissible
  obtain ⟨hPrefix, hNonempty⟩ := hQueue.toConsistent.front_spec
  rw [content_fresh, List.nil_append] at hConserved
  exact ⟨hConserved, hQueue.size_eq, hPrefix, hNonempty,
    fun operation hBounds => hQueue.actsAsPlain hBounds⟩

/-- A run through chunks of 4 bytes, with a handle that is split, a confirmation that is refused,
and bytes that leave in each of the possible ways. -/
theorem run_acts_as_plain_queue_in_small_chunks :
    let settings : Settings := { initialChunkSize := 4, smallHandleThreshold := 3, maxSlices := 2 }
    let handle : Handle := .adopt (some ⟨⟨1, 0⟩, .ofBytes [6, 7, 8, 9, 10]⟩) 5
    let operations : List Operation :=
      [.append (.ofBytes [1, 2, 3, 4, 5]), .projectAll, .confirm 2, .absorb handle, .take 4,
        .project 1, .confirm 9, .confirm 1, .appendAll [.ofBytes [11], .ofBytes [12, 13]],
        .sealTail, .drain, .append (.ofBytes [14, 15]), .clear, .append (.ofBytes [16, 17])]
    let queue := (fresh none 0 settings).run operations
    settings.Valid ∧ (fresh none 0 settings).Admissible operations ∧
      (fresh none 0 settings).consumed operations ++ queue.content =
        [1, 2, 3, 4, 5, 6, 7, 8, 9, 10, 11, 12, 13, 14, 15, 16, 17] ∧
      queue.content = [16, 17] ∧ queue.size.toNat = 2 ∧ queue.ActsAsPlain (.take 1) := by
  intro settings handle operations queue
  have hValid : settings.Valid := by decide
  have hAdmissible : (fresh none 0 settings).Admissible operations := by decide +kernel
  obtain ⟨hConserved, hSize, _, _, hActs⟩ :=
    run_acts_as_plain_queue none 0 settings hValid operations hAdmissible
  have hContent : queue.content = [16, 17] := by decide +kernel
  refine ⟨hValid, hAdmissible, ?_, hContent, ?_, hActs (.take 1) trivial⟩
  · rw [hConserved]
    decide +kernel
  · rw [hSize, hContent]
    rfl

end Queue

end ByteQueue
