import ByteQueue.Proofs.Queue.Ledger

/-! Consumption adds up. To confirm some bytes and then some more is to confirm all of them at once,
wherever the cut is, down to the last bit of the queue that is left. To take bytes that might be
confirmed leaves the same chunks and hands out just the bytes that the projection in force showed
and nobody has confirmed. -/
namespace ByteQueue.Queue

open Logged

/-- Retiring in two goes ends where retiring at once ends. The induction is on the chunks, with the
cursor at any place in the first of them; the first go may stop in that chunk, at its end, or far
behind it. -/
theorem retireFrom_add (logger : Option Log.Config) {chunks : List Chunk}
    (hChunks : ∀ chunk ∈ chunks, chunk.WellFormed) {store : ChunkStore}
    (hStore : store.toList = chunks) {offset first second : UInt64}
    (hCursor : Cursor offset chunks) (hSum : first.toNat + second.toNat < 2 ^ 64) :
    (retireFrom logger (retireFrom logger store offset first).value.1
        (retireFrom logger store offset first).value.2 second).value =
      (retireFrom logger store offset (first + second)).value := by
  induction chunks generalizing store offset first with
  | nil =>
    simp only [value_retireFrom_nil logger hStore]
  | cons head rest ih =>
    obtain ⟨hHead, hRest⟩ := List.forall_mem_cons.mp hChunks
    have hLt : offset.toNat < head.length := hCursor
    have hSize := hHead.toNat_size
    have hLeft := hHead.toNat_left hLt.le
    have hTail : store.tail.toList = rest := by rw [ChunkStore.toList_tail, hStore, List.tail_cons]
    have hBoth : (first + second).toNat = first.toNat + second.toNat := Word.toNat_add_of_lt hSum
    have hCons := value_retireFrom_cons logger hStore offset
    by_cases h0 : first = 0
    · rw [h0, hCons 0, if_pos rfl, UInt64.zero_add]
    have hPos := Word.toNat_pos h0
    have hBoth0 : first + second ≠ 0 := by
      intro hn
      rw [hn, UInt64.toNat_zero] at hBoth
      omega
    by_cases hFits : first < head.size - offset
    · -- the first go stops in the head chunk
      have hFits' := UInt64.lt_iff_toNat_lt.mp hFits
      have hLength := hHead.length_lt
      have hOffset : (offset + first).toNat = offset.toNat + first.toNat :=
        Word.toNat_add_of_lt (by omega)
      have hInside : (offset + first).toNat ≤ head.length := by omega
      have hLeft' := hHead.toNat_left hInside
      rw [hCons first, if_neg h0, if_pos hFits, value_retireFrom_cons logger hStore,
        hCons (first + second), if_neg hBoth0, UInt64.add_assoc]
      by_cases hs0 : second = 0
      · rw [if_pos hs0, hs0, UInt64.add_zero, if_pos hFits]
      rw [if_neg hs0]
      by_cases hBothFit : first + second < head.size - offset
      · have hSecond : second < head.size - (offset + first) := by
          rw [UInt64.lt_iff_toNat_lt] at hBothFit ⊢
          omega
        rw [if_pos hBothFit, if_pos hSecond]
      · have hSecond : ¬ second < head.size - (offset + first) := by
          rw [UInt64.lt_iff_toNat_lt] at hBothFit ⊢
          omega
        have hSame : second - (head.size - (offset + first)) =
            first + second - (head.size - offset) := by grind
        rw [if_neg hBothFit, if_neg hSecond, hSame]
    · -- the first go retires the head chunk, and so do both together
      have hLe := UInt64.le_iff_toNat_le.mp (UInt64.not_lt.mp hFits)
      have hBothFit : ¬ first + second < head.size - offset := by
        rw [UInt64.lt_iff_toNat_lt]
        omega
      have hBehind : (first - (head.size - offset)).toNat + second.toNat < 2 ^ 64 := by
        rw [Word.toNat_sub_of_le hLe]
        omega
      have hSame : first - (head.size - offset) + second =
          first + second - (head.size - offset) := by grind
      rw [hCons first, if_neg h0, if_neg hFits, ih hRest hTail (Cursor.zero hRest) hBehind, hSame,
        hCons (first + second), if_neg hBoth0, if_neg hBothFit]

theorem Consistent.consume_add {queue : Queue} (h : queue.Consistent) {first second : UInt64}
    (hSum : first.toNat + second.toNat < 2 ^ 64) :
    ((queue.consume first).value.consume second).value =
      (queue.consume (first + second)).value := by
  have hRetired := retireFrom_add queue.logger h.chunks_wellFormed rfl h.cursor hSum
  have hSize : queue.size - first - second = queue.size - (first + second) := by grind
  unfold Queue.consume
  simp only [value_bind, value_pure, hRetired, hSize]

/-- Confirming in two goes leaves the very queue that confirming at once leaves. -/
theorem Consistent.confirm_add {queue : Queue} (h : queue.Consistent) {first second : UInt64}
    (hSum : first.toNat + second.toNat ≤ queue.projected.toNat) :
    ∃ between after, (queue.confirm first).value = .ok between ∧
      (between.confirm second).value = .ok after ∧
      (queue.confirm (first + second)).value = .ok after := by
  have hShort := queue.projected.toNat_lt
  have hBoth : (first + second).toNat = first.toNat + second.toNat :=
    Word.toNat_add_of_lt (by omega)
  have hFirst : ¬ queue.projected < first := by
    rw [UInt64.lt_iff_toNat_lt]
    omega
  have hSecond : ¬ queue.projected - first < second := by
    rw [UInt64.lt_iff_toNat_lt, Word.toNat_sub_of_le (by omega)]
    omega
  have hAll : ¬ queue.projected < first + second := by
    rw [UInt64.lt_iff_toNat_lt]
    omega
  have hProjected : queue.projected - first - second = queue.projected - (first + second) := by
    grind
  refine ⟨_, _, by rw [value_confirm, if_neg hFirst], by rw [value_confirm, if_neg hSecond], ?_⟩
  rw [value_confirm, if_neg hAll, ← h.consume_add (by omega), hProjected]
  rfl

/-- To take bytes that may be confirmed leaves the chunks and the cursor that confirming them
leaves, and hands these bytes out. -/
theorem WellFormed.take_of_le_projected {queue : Queue} (h : queue.WellFormed) {count : UInt64}
    (hLe : count ≤ queue.projected) :
    ∃ confirmed taken handle, (queue.confirm count).value = .ok confirmed ∧
      (queue.take count).value = .ok (taken, handle) ∧ taken.store = confirmed.store ∧
      taken.headOffset = confirmed.headOffset ∧ taken.size = confirmed.size ∧
      handle.bytes = queue.content.take count.toNat := by
  have hConfirmed := value_confirm queue count
  rw [if_neg (UInt64.not_lt.mpr hLe)] at hConfirmed
  by_cases h0 : count = 0
  · subst h0
    exact ⟨_, _, _, value_confirm_zero queue, value_take_zero queue, rfl, rfl, rfl, rfl⟩
  · have hSize : count ≤ queue.size := UInt64.le_trans hLe h.projected_le
    have hCount : count.toNat ≤ queue.content.length :=
      h.size_eq ▸ UInt64.le_iff_toNat_le.mp hSize
    have hBefore : Consistent { queue with projected := 0 } :=
      ⟨h.valid, h.chunks_wellFormed, h.cursor, h.size_eq⟩
    obtain ⟨next, handle, hValue, hBytes, _⟩ := hBefore.firstBytes hCount h0
    exact ⟨_, (Queue.consume { queue with projected := 0, nextArray := next } count).value, handle,
      hConfirmed, by rw [value_take hSize h0, hValue], rfl, rfl, rfl, hBytes⟩

/-! What the projection in force showed and nobody has confirmed, as the operations of a run tell
it. -/

/-- What is left of the bytes `held`, those that were shown last and are not confirmed, after one
more operation. To confirm more than these and to take more than there is changes nothing. -/
def unconfirmedAfter (queue : Queue) (held : Bytes) : Operation → Bytes
  | .append _ | .appendAll _ | .absorb _ | .sealTail => held
  | .project limit => queue.shown (.project limit)
  | .projectAll => queue.shown .projectAll
  | .confirm count => if held.length < count.toNat then held else held.drop count.toNat
  | .take count => if count = 0 ∨ queue.content.length < count.toNat then held else []
  | .drain | .clear => []

/-- The bytes that were shown last and have not been confirmed since, at the end of a run that
begins with `held`. -/
def unconfirmed : Queue → Bytes → List Operation → Bytes
  | _, held, [] => held
  | queue, held, operation :: rest =>
    (queue.apply operation).unconfirmed (queue.unconfirmedAfter held operation) rest

namespace Ledger

variable {queue : Queue} {held : Bytes}

/-- A ledger may be opened anew with the bytes that are left. -/
theorem reopen {shown : Bytes} {confirmed : Nat} (hLedger : Ledger shown confirmed queue) :
    Ledger (shown.drop confirmed) 0 queue where
  confirmed_le := Nat.zero_le _
  projected_eq := by rw [List.length_drop, hLedger.projected_eq, Nat.sub_zero]
  content_eq := hLedger.content_eq

/-- After each operation the queue begins with what the latest projection showed and nobody has
confirmed, and that is what may be confirmed. -/
theorem unconfirmedAfter (hLedger : Ledger held 0 queue) (h : queue.WellFormed)
    {operation : Operation} (hBounds : operation.InBounds) :
    Ledger (queue.unconfirmedAfter held operation) 0 (queue.apply operation) := by
  cases operation with
  | append _ | appendAll _ | absorb _ | sealTail =>
    exact hLedger.grow h (grows_apply h.toConsistent trivial hBounds)
  | project limit => exact (@WellFormed.ledger_of_projects _ h (.project limit) trivial).2
  | projectAll => exact (@WellFormed.ledger_of_projects _ h .projectAll trivial).2
  | confirm count =>
    have hProjected := hLedger.projected_eq
    have hRefuses := queue.refuses_confirm_iff count
    rw [UInt64.lt_iff_toNat_lt, hProjected, Nat.sub_zero] at hRefuses
    rw [Queue.unconfirmedAfter]
    split
    · next hMore =>
      rw [apply_of_refuses (hRefuses.mpr hMore)]
      exact hLedger
    · next hMore =>
      have hLe : count ≤ queue.projected := by
        rw [UInt64.le_iff_toNat_le]
        omega
      have hConfirmed := (hLedger.confirm h hLe).1.reopen
      rwa [Nat.zero_add] at hConfirmed
  | take count =>
    have hRefuses := h.refuses_take_iff count
    rw [UInt64.lt_iff_toNat_lt, h.size_eq] at hRefuses
    rw [Queue.unconfirmedAfter]
    split
    · next hNothing =>
      rcases hNothing with rfl | hMore
      · rw [apply_take_zero]
        exact hLedger
      · rw [apply_of_refuses (hRefuses.mpr hMore)]
        exact hLedger
    · next hSome =>
      rw [not_or] at hSome
      have hLe : count ≤ queue.size := by
        rw [UInt64.le_iff_toNat_le, h.size_eq]
        omega
      have hProjected := (h.apply_take hLe hSome.1).2.2.2.1
      exact ⟨Nat.le_refl 0, by rw [hProjected]; rfl, by rw [hProjected]; rfl⟩
  | drain | clear => exact ⟨Nat.le_refl 0, rfl, rfl⟩

theorem unconfirmed (hLedger : Ledger held 0 queue) (h : queue.WellFormed)
    {operations : List Operation} (admissible : queue.Admissible operations) :
    Ledger (queue.unconfirmed held operations) 0 (queue.run operations) := by
  induction operations generalizing queue held with
  | nil => exact hLedger
  | cons operation rest ih =>
    obtain ⟨hBounds, hBound, hRest⟩ := admissible
    exact ih (hLedger.unconfirmedAfter h hBounds) (h.apply hBounds hBound) hRest

end Ledger

/-- After every run from a new queue: bytes that may be confirmed can be confirmed in one go or in
two, and the queue is the same then. They can be taken, too, which leaves the same chunks, cursor
and size; what is handed out are the first of the bytes that were shown last and are not confirmed,
whether they are a slice of the head chunk or a copy across chunks. -/
theorem consumption_adds_up (logger : Option Log.Config) (owner : Nat) (settings : Settings)
    (valid : settings.Valid) (operations : List Operation)
    (admissible : (fresh logger owner settings).Admissible operations) :
    let queue := (fresh logger owner settings).run operations
    let unconfirmed := (fresh logger owner settings).unconfirmed [] operations
    unconfirmed.length = queue.projected.toNat ∧
      (∀ first second : UInt64, first.toNat + second.toNat ≤ queue.projected.toNat →
        ∃ between after, (queue.confirm first).value = .ok between ∧
          (between.confirm second).value = .ok after ∧
          (queue.confirm (first + second)).value = .ok after) ∧
      ∀ count ≤ queue.projected, ∃ confirmed taken handle,
        (queue.confirm count).value = .ok confirmed ∧
          (queue.take count).value = .ok (taken, handle) ∧ taken.store = confirmed.store ∧
          taken.headOffset = confirmed.headOffset ∧ taken.size = confirmed.size ∧
          handle.bytes = unconfirmed.take count.toNat := by
  intro queue unconfirmed
  have hFresh := wellFormed_fresh logger owner valid
  have hQueue : queue.WellFormed := hFresh.run admissible
  have hOpened : Ledger [] 0 (fresh logger owner settings) := ⟨Nat.le_refl 0, rfl, rfl⟩
  have hLedger : Ledger unconfirmed 0 queue := hOpened.unconfirmed hFresh admissible
  refine ⟨hLedger.projected_eq.symm, fun first second hSum => hQueue.confirm_add hSum, ?_⟩
  intro count hLe
  obtain ⟨confirmed, taken, handle, hConfirmed, hTaken, hStore, hOffset, hSize, hBytes⟩ :=
    hQueue.take_of_le_projected hLe
  refine ⟨confirmed, taken, handle, hConfirmed, hTaken, hStore, hOffset, hSize, ?_⟩
  have hFront : unconfirmed = queue.content.take queue.projected.toNat := hLedger.content_eq.symm
  rw [hBytes, hFront, List.take_take, Nat.min_eq_left (UInt64.le_iff_toNat_le.mp hLe)]

/-- Five bytes may be confirmed, in a sealed head that is consumed in part and in the chunk behind
it. A confirmation is cut where the head ends; two bytes are taken as a slice of the head, and all
five as a copy across both chunks. -/
theorem consumption_adds_up_across_chunks :
    let settings : Settings := { initialChunkSize := 4, smallHandleThreshold := 3 }
    let handle : Handle := .adopt (some ⟨⟨1, 0⟩, .ofBytes [4, 5, 6, 7, 8, 9]⟩) 6
    let operations : List Operation :=
      [.append (.ofBytes [1, 2, 3]), .absorb handle, .projectAll, .confirm 4]
    let queue := (fresh none 0 settings).run operations
    settings.Valid ∧ (fresh none 0 settings).Admissible operations ∧
      (fresh none 0 settings).unconfirmed [] operations = [5, 6, 7, 8, 9] ∧
      (∃ between after, (queue.confirm 3).value = .ok between ∧
        (between.confirm 1).value = .ok after ∧ (queue.confirm 4).value = .ok after) ∧
      (∃ confirmed taken slice, (queue.confirm 2).value = .ok confirmed ∧
        (queue.take 2).value = .ok (taken, slice) ∧ taken.store = confirmed.store ∧
        slice.bytes = [5, 6]) ∧
      ∃ confirmed taken copy, (queue.confirm 5).value = .ok confirmed ∧
        (queue.take 5).value = .ok (taken, copy) ∧ taken.store = confirmed.store ∧
        copy.bytes = [5, 6, 7, 8, 9] := by
  intro settings handle operations queue
  have hValid : settings.Valid := by decide
  have hAdmissible : (fresh none 0 settings).Admissible operations := by decide +kernel
  have hHeld : (fresh none 0 settings).unconfirmed [] operations = [5, 6, 7, 8, 9] := by
    decide +kernel
  obtain ⟨hProjected, hAdds, hTakes⟩ :=
    consumption_adds_up none 0 settings hValid operations hAdmissible
  rw [hHeld] at hProjected hTakes
  have hFive : queue.projected = 5 := UInt64.toNat_inj.mp hProjected.symm
  obtain ⟨_, _, slice, hTwo, hSlice, hSliceStore, _, _, hSliceBytes⟩ :=
    hTakes 2 (hFive ▸ by decide)
  obtain ⟨_, _, copy, hAll, hCopy, hCopyStore, _, _, hCopyBytes⟩ := hTakes 5 (hFive ▸ by decide)
  exact ⟨hValid, hAdmissible, hHeld, hAdds 3 1 (hFive ▸ by decide),
    ⟨_, _, slice, hTwo, hSlice, hSliceStore, hSliceBytes⟩,
    ⟨_, _, copy, hAll, hCopy, hCopyStore, hCopyBytes⟩⟩

end ByteQueue.Queue
