import ByteQueue.Proofs.Queue.Fifo

/-! Retirement: what every operation that removes bytes does to the chunks. Whole chunks go away
in front, and the cursor stands in the first one that stays. With `Grows` this is all that can
happen to chunks at all. -/
namespace ByteQueue.Queue

open Logged

/-- What is left of `before` without its first `count` bytes. -/
structure Retires (before : Queue) (count : Nat) (after : Queue) : Prop where
  chunks_eq : ∃ retired, before.chunks = retired ++ after.chunks ∧
    (retired.flatMap Chunk.bytes).length + after.headOffset.toNat =
      before.headOffset.toNat + count
  owner_eq : after.nextArray.owner = before.nextArray.owner

/-- The first bytes are handed out without a change to any chunk. -/
theorem firstBytes_frame {queue after : Queue} {count : UInt64} {handle : Handle}
    (h : (queue.firstBytes count).value = .ok (after, handle)) :
    after.store = queue.store ∧ after.headOffset = queue.headOffset ∧
      after.nextArray.owner = queue.nextArray.owner ∧ after.logger = queue.logger := by
  unfold firstBytes at h
  split at h
  · split at h
    · split at h
      · cases h
        exact ⟨rfl, rfl, rfl, rfl⟩
      · cases h
    · cases h
      exact ⟨rfl, rfl, rfl, rfl⟩
  · cases h
    exact ⟨rfl, rfl, rfl, rfl⟩

theorem WellFormed.suffix_take {queue : Queue} (h : queue.WellFormed) {count : UInt64}
    (hLe : count ≤ queue.size) (h0 : count ≠ 0) :
    (queue.apply (.take count)).chunks <:+ queue.chunks ∧
      (queue.apply (.take count)).nextArray.owner = queue.nextArray.owner := by
  have hCount : count.toNat ≤ queue.content.length := h.size_eq ▸ UInt64.le_iff_toNat_le.mp hLe
  have hConsume := h.toConsistent.content_consume hCount
  rw [Queue.apply, value_take hLe h0]
  cases hFirst : (firstBytes { queue with projected := 0 } count).value with
  | error failure => exact ⟨List.suffix_refl _, rfl⟩
  | ok result =>
    obtain ⟨after, handle⟩ := result
    obtain ⟨hStore, hOffset, hOwner, hLogger⟩ := firstBytes_frame hFirst
    have hChunks : (after.consume count).value.chunks = (queue.consume count).value.chunks := by
      show (retireFrom after.logger after.store after.headOffset count).value.1.toList = _
      rw [hLogger, hStore, hOffset]
      rfl
    exact ⟨hChunks ▸ hConsume.2.1, hOwner⟩

/-- Chunks stay or go as a whole, the first ones first. -/
theorem WellFormed.suffix_apply {queue : Queue} (h : queue.WellFormed) {operation : Operation}
    (hTail : ¬ operation.AtTail) :
    (queue.apply operation).chunks <:+ queue.chunks ∧
      (queue.apply operation).nextArray.owner = queue.nextArray.owner := by
  have hProjected := UInt64.le_iff_toNat_le.mp h.projected_le
  have hSize := h.size_eq
  cases operation with
  | append _ | appendAll _ | absorb _ | sealTail => exact absurd trivial hTail
  | project _ | projectAll => exact ⟨List.suffix_refl _, rfl⟩
  | drain | clear => exact ⟨List.nil_suffix, rfl⟩
  | confirm count =>
    by_cases hr : queue.Refuses (.confirm count)
    · rw [apply_of_refuses hr]
      exact ⟨List.suffix_refl _, rfl⟩
    · rw [refuses_confirm_iff, UInt64.lt_iff_toNat_lt] at hr
      have hCount : count.toNat ≤ queue.content.length := by omega
      have hConsume := h.toConsistent.content_consume hCount
      rw [Queue.apply, value_confirm, if_neg (mt UInt64.lt_iff_toNat_lt.mp hr)]
      exact ⟨hConsume.2.1, rfl⟩
  | take count =>
    by_cases hr : queue.Refuses (.take count)
    · rw [apply_of_refuses hr]
      exact ⟨List.suffix_refl _, rfl⟩
    · rw [h.refuses_take_iff] at hr
      by_cases h0 : count = 0
      · rw [h0, apply_take_zero]
        exact ⟨List.suffix_refl _, rfl⟩
      · exact h.suffix_take (UInt64.not_lt.mp hr) h0

theorem entering_of_not_atTail {operation : Operation} (hTail : ¬ operation.AtTail) :
    operation.entering = [] := by
  cases operation with
  | append _ | appendAll _ | absorb _ | sealTail => exact absurd trivial hTail
  | project _ | projectAll | drain | clear | confirm _ | take _ => rfl

theorem leaving_of_atTail (queue : Queue) {operation : Operation} (hTail : operation.AtTail) :
    queue.leaving operation = [] := by
  cases operation with
  | append _ | appendAll _ | absorb _ | sealTail => rfl
  | project _ | projectAll | confirm _ | take _ | drain | clear => exact hTail.elim

theorem WellFormed.retires {queue : Queue} (h : queue.WellFormed) {operation : Operation}
    (hBounds : operation.InBounds) (hTail : ¬ operation.AtTail)
    (hAfter : (queue.apply operation).WellFormed) :
    Retires queue (queue.leaving operation).length (queue.apply operation) := by
  obtain ⟨⟨retired, hChunks⟩, hOwner⟩ := h.suffix_apply hTail
  have hConserved := congrArg List.length (h.leaving_append_content hBounds)
  have hBefore := h.length_content
  have hLength := hAfter.length_content
  rw [entering_of_not_atTail hTail, List.append_nil, List.length_append] at hConserved
  rw [stored, ← hChunks, List.flatMap_append, List.length_append] at hBefore
  rw [stored] at hLength
  exact ⟨⟨retired, hChunks.symm, by omega⟩, hOwner⟩

end ByteQueue.Queue
