import ByteQueue.Proofs.Queue.Consumption
import ByteQueue.Proofs.Queue.Growth
import ByteQueue.Proofs.Queue.Projection
import ByteQueue.Queue.Operation

/-! One operation on a queue: what it tells, which bytes enter and leave, and that it keeps the
invariant. Runs of operations are treated by going from one operation to the next. -/
namespace ByteQueue

/-- What an operation tells its caller. -/
inductive Outcome where
  | done
  | shown (exposed : UInt64) (slices : List Block)
  | taken (handle : Handle)
  | drained (handles : List Handle)
  | refused (failure : Failure)
  deriving DecidableEq

namespace Operation

/-- The bytes that an operation adds. -/
def entering : Operation → Bytes
  | .append data => data.bytes
  | .appendAll pieces => pieces.flatMap Block.bytes
  | .absorb handle => handle.bytes
  | .project _ | .projectAll | .confirm _ | .sealTail | .take _ | .drain | .clear => []

/-- The operations that work at the tail alone. -/
def AtTail : Operation → Prop
  | .append _ | .appendAll _ | .absorb _ | .sealTail => True
  | .project _ | .projectAll | .confirm _ | .take _ | .drain | .clear => False

instance (operation : Operation) : Decidable operation.AtTail :=
  match operation with
  | .append _ | .appendAll _ | .absorb _ | .sealTail => isTrue trivial
  | .project _ | .projectAll | .confirm _ | .take _ | .drain | .clear => isFalse id

end Operation

namespace Queue

open Logged

/-- What is told about an operation. -/
def outcome (queue : Queue) : Operation → Outcome
  | .project limit =>
    .shown (queue.project limit).value.1.projected (queue.project limit).value.2.slices
  | .projectAll => .shown queue.projectAll.value.1.projected queue.projectAll.value.2.slices
  | .confirm count =>
    match (queue.confirm count).value with
    | .ok _ => .done
    | .error failure => .refused failure
  | .take count =>
    match (queue.take count).value with
    | .ok (_, handle) => .taken handle
    | .error failure => .refused failure
  | .drain => .drained queue.drain.value.2
  | .append _ | .appendAll _ | .absorb _ | .sealTail | .clear => .done

/-- A refused operation is one that fails. -/
def Refuses (queue : Queue) (operation : Operation) : Prop :=
  ∃ failure, queue.outcome operation = .refused failure

theorem grows_apply {queue : Queue} (h : queue.Consistent) {operation : Operation}
    (hTail : operation.AtTail) (hBounds : operation.InBounds) :
    Grows queue operation.entering (queue.apply operation) := by
  cases operation with
  | append data => exact grows_append queue data
  | appendAll pieces => exact grows_appendAll queue pieces
  | absorb handle => exact grows_absorb queue hBounds
  | sealTail => exact grows_sealTail h
  | project _ | projectAll | confirm _ | take _ | drain | clear => exact hTail.elim

/-- A queue that holds no more than it is made for can count its bytes by a word. -/
theorem Grows.length_lt {before after : Queue} {data : Bytes} (h : Grows before data after)
    (hBefore : before.Consistent) (hBound : after.content.length ≤ capacity) :
    before.content.length + data.length < 2 ^ 64 := by
  have hCapacity : capacity < 2 ^ 64 := by decide
  rw [h.content_eq hBefore, List.length_append] at hBound
  omega

theorem refuses_confirm_iff (queue : Queue) (count : UInt64) :
    queue.Refuses (.confirm count) ↔ queue.projected < count := by
  rw [← confirm_eq_error_iff, Refuses, outcome]
  cases (queue.confirm count).value with
  | ok after => simp
  | error failure => simp

theorem outcome_confirm_of_le {queue : Queue} {count : UInt64} (h : count ≤ queue.projected) :
    queue.outcome (.confirm count) = .done := by
  obtain ⟨after, hValue⟩ := exists_value_confirm h
  rw [outcome, hValue]

theorem WellFormed.refuses_take_iff {queue : Queue} (h : queue.WellFormed) (count : UInt64) :
    queue.Refuses (.take count) ↔ queue.size < count := by
  rw [Refuses, outcome]
  constructor
  · rintro ⟨failure, hn⟩
    refine Decidable.byContradiction fun hLe => ?_
    by_cases h0 : count = 0
    · simp [h0, value_take_zero] at hn
    · obtain ⟨after, handle, hValue, _⟩ := h.take (UInt64.not_lt.mp hLe) h0
      simp [hValue] at hn
  · intro hLt
    exact ⟨.overTaken, by rw [value_take_of_lt hLt]⟩

/-- A refused operation changes nothing. -/
theorem apply_of_refuses {queue : Queue} {operation : Operation}
    (h : queue.Refuses operation) : queue.apply operation = queue := by
  obtain ⟨failure, h⟩ := h
  cases operation with
  | confirm count =>
    cases hValue : (queue.confirm count).value with
    | ok after =>
      rw [outcome, hValue] at h
      cases h
    | error failure => rw [apply, hValue]
  | take count =>
    cases hValue : (queue.take count).value with
    | ok result =>
      rw [outcome, hValue] at h
      cases h
    | error failure => rw [apply, hValue]
  | append _ | appendAll _ | absorb _ | project _ | projectAll | sealTail | drain | clear => cases h

/-- The queue after a confirmation that is not refused. -/
theorem WellFormed.apply_confirm {queue : Queue} (h : queue.WellFormed) {count : UInt64}
    (hLe : count ≤ queue.projected) :
    (queue.apply (.confirm count)).WellFormed ∧
      (queue.apply (.confirm count)).content = queue.content.drop count.toNat ∧
      (queue.apply (.confirm count)).projected.toNat = queue.projected.toNat - count.toNat := by
  obtain ⟨after, hValue⟩ := exists_value_confirm hLe
  obtain ⟨hAfter, hContent, _, hProjected⟩ := h.confirm hValue
  rw [apply, hValue]
  exact ⟨hAfter, hContent, hProjected⟩

/-- The queue after bytes were taken from it, and the handle to them. -/
theorem WellFormed.apply_take {queue : Queue} (h : queue.WellFormed) {count : UInt64}
    (hLe : count ≤ queue.size) (h0 : count ≠ 0) :
    (queue.apply (.take count)).WellFormed ∧
      (queue.apply (.take count)).settings = queue.settings ∧
      (queue.apply (.take count)).content = queue.content.drop count.toNat ∧
      (queue.apply (.take count)).projected = 0 ∧
      ∃ handle, queue.outcome (.take count) = .taken handle ∧
        handle.bytes = queue.content.take count.toNat := by
  obtain ⟨after, handle, hValue, hAfter, hSettings, hProjected, hContent, hBytes, _⟩ :=
    h.take hLe h0
  rw [apply, outcome, hValue]
  exact ⟨hAfter, hSettings, hContent, hProjected, handle, rfl, hBytes⟩

theorem apply_take_zero (queue : Queue) : queue.apply (.take 0) = queue := by
  rw [apply, value_take_zero]

/-- Every operation keeps the invariant, refused ones included. -/
theorem WellFormed.apply {queue : Queue} (h : queue.WellFormed) {operation : Operation}
    (hBounds : operation.InBounds)
    (hBound : (queue.apply operation).content.length ≤ capacity) :
    (queue.apply operation).WellFormed := by
  have hTail : operation.AtTail → (queue.apply operation).WellFormed := by
    intro hTail
    have hGrows := grows_apply h.toConsistent hTail hBounds
    exact hGrows.wellFormed h (hGrows.length_lt h.toConsistent hBound)
  cases operation with
  | append _ | appendAll _ | absorb _ | sealTail => exact hTail trivial
  | project limit => exact h.project limit
  | projectAll => exact h.project queue.settings.maxSlices
  | confirm count =>
    by_cases hr : queue.Refuses (.confirm count)
    · rw [apply_of_refuses hr]
      exact h
    · rw [refuses_confirm_iff] at hr
      exact (h.apply_confirm (UInt64.not_lt.mp hr)).1
  | take count =>
    by_cases hr : queue.Refuses (.take count)
    · rw [apply_of_refuses hr]
      exact h
    · rw [h.refuses_take_iff] at hr
      by_cases h0 : count = 0
      · rw [h0, apply_take_zero]
        exact h
      · exact (h.apply_take (UInt64.not_lt.mp hr) h0).1
  | drain => exact wellFormed_clear h.valid
  | clear => exact wellFormed_clear h.valid

theorem settings_confirm {queue after : Queue} {count : UInt64}
    (hValue : (queue.confirm count).value = .ok after) : after.settings = queue.settings := by
  rw [value_confirm] at hValue
  split at hValue
  · cases hValue
  · cases hValue
    rfl

/-- A queue keeps the settings that it was created with. -/
theorem WellFormed.settings_apply {queue : Queue} (h : queue.WellFormed) {operation : Operation}
    (hBounds : operation.InBounds) : (queue.apply operation).settings = queue.settings := by
  have hTail : operation.AtTail → (queue.apply operation).settings = queue.settings :=
    fun hTail => (grows_apply h.toConsistent hTail hBounds).frame.1
  cases operation with
  | append _ | appendAll _ | absorb _ | sealTail => exact hTail trivial
  | project _ | projectAll | drain | clear => rfl
  | confirm count =>
    cases hValue : (queue.confirm count).value with
    | ok after =>
      rw [Queue.apply, hValue]
      exact settings_confirm hValue
    | error failure => rw [Queue.apply, hValue]
  | take count =>
    by_cases hr : queue.Refuses (.take count)
    · rw [apply_of_refuses hr]
    · rw [h.refuses_take_iff] at hr
      by_cases h0 : count = 0
      · rw [h0, apply_take_zero]
      · exact (h.apply_take (UInt64.not_lt.mp hr) h0).2.1

theorem Reachable.wellFormed {queue : Queue} (h : Reachable queue) : queue.WellFormed := by
  induction h with
  | fresh logger owner settings valid => exact wellFormed_fresh logger owner valid
  | step before operation inBounds bound ih => exact ih.apply inBounds bound

end Queue

end ByteQueue
