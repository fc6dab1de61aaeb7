import ByteQueue.Proofs.Call
import ByteQueue.Proofs.Queue.Run

/-! Refusals: the calls that can fail, step by step in the order in which each of them checks its
arguments, sets the code, and changes its object. They honour the convention for failures, and what
they refuse is said in exact numbers. -/
namespace ByteQueue

open Body

/-! Handles. -/

namespace Handle

/-- Takes a slice of a handle, which stays as it is. -/
def sliceBody (offset count : UInt64) : Body Handle Handle := do
  let handle ← object
  if offset > handle.size ∨ count > handle.size - offset then
    report Failure.sliceOutOfRange.code
    return .empty
  report .success
  if count = 0 then return .empty
  return ⟨handle.array, handle.start + offset, count⟩

theorem sliceBody_honours (handle : Handle) (offset count : UInt64) :
    (sliceBody offset count).Honours handle ((handle.slice offset count).map (handle, ·))
      (handle.size.toNat < offset.toNat + count.toNat) .sliceOutOfRange .empty := by
  rw [← handle.out_of_range_iff]
  refine .of_callWith (fun hRefused => ?_) (fun hAccepted => ?_)
  · refine ⟨by rw [slice, if_pos hRefused]; rfl, fun earlier => ?_⟩
    rw [sliceBody, callWith_object_bind, if_pos hRefused]
    rfl
  · by_cases h0 : count = 0
    · refine ⟨handle, .empty, by rw [slice, if_neg hAccepted, if_pos h0]; rfl, fun earlier => ?_⟩
      rw [sliceBody, callWith_object_bind, if_neg hAccepted, callWith_report_bind, if_pos h0]
      rfl
    · refine ⟨handle, _, by rw [slice, if_neg hAccepted, if_neg h0]; rfl, fun earlier => ?_⟩
      rw [sliceBody, callWith_object_bind, if_neg hAccepted, callWith_report_bind, if_neg h0]
      rfl

end Handle

/-! Settings. -/

namespace Settings

/-- Stops at the first check that fails. -/
def checkBody : List Check → Body Settings Unit
  | [] => pure ()
  | check :: rest => do
    let settings ← object
    if check.holds settings then checkBody rest
    else report Failure.badSettings.code

def validateBody : Body Settings Unit := do
  report .success
  checkBody Check.all

/-- What makes settings unfit for a queue. -/
def Unfit (settings : Settings) : Prop :=
  settings.initialChunkSize = 0 ∨ settings.maxSlices = 0 ∨
    settings.rule = .doubling ∧ settings.maxChunkSize < settings.initialChunkSize

theorem unfit_iff (settings : Settings) : settings.Unfit ↔ ¬ settings.Valid := by
  rw [valid_iff, Unfit, ← UInt64.not_le]
  tauto

/-- The code in the place tells whether some check failed; a later one is not made. -/
theorem callWith_checkBody (checks : List Check) (earlier : Code) (settings : Settings) :
    (checkBody checks).callWith earlier settings =
      (settings, .returned ()
        (if (checks.find? fun check => !check.holds settings) = none then earlier
        else Failure.badSettings.code)) := by
  induction checks with
  | nil => rfl
  | cons check rest ih =>
    rw [checkBody, callWith_object_bind]
    cases hHolds : check.holds settings with
    | true => simp [hHolds, ih]
    | false => simp [hHolds]

theorem validateBody_honours (logger : Option Log.Config) (settings : Settings) :
    validateBody.Honours settings ((settings.validate logger).value.map (settings, ·))
      settings.Unfit .badSettings () := by
  have hCall (earlier : Code) : validateBody.callWith earlier settings =
      (settings, .returned () (if settings.Valid then .success else Failure.badSettings.code)) :=
    callWith_checkBody Check.all .success settings
  rw [unfit_iff, validate_value]
  refine .of_callWith (fun hRefused => ?_) (fun hAccepted => ?_)
  · exact ⟨by rw [if_neg hRefused]; rfl, fun earlier => by rw [hCall, if_neg hRefused]⟩
  · have hValid := Decidable.not_not.mp hAccepted
    exact ⟨settings, (), by rw [if_pos hValid]; rfl, fun earlier => by rw [hCall, if_pos hValid]⟩

end Settings

namespace Queue

/-- Makes a queue of its settings. They are validated without a place for the code. -/
def createBody (logger : Option Log.Config) (owner : Nat) : Body Settings Queue := do
  let settings ← object
  raising Settings.validateBody settings
  return fresh logger owner settings

/-- Confirms bytes that were shown. -/
def confirmBody (count : UInt64) : Body Queue Unit := do
  let queue ← object
  if count > queue.projected then report Failure.overConfirmed.code
  else
    report .success
    setObject (queue.consume count).value
    let queue ← object
    setObject { queue with projected := queue.projected - count }

/-- A copy of the first bytes, in a new array of the queue. -/
def copyBody (count : UInt64) : Body Queue Handle := do
  let queue ← object
  let (queue, handle) := (queue.copyFirst count).value
  setObject queue
  return handle

/-- The first bytes, as a slice of the head chunk if possible. The slice is taken without a place
for the code. -/
def leadingBody (count : UInt64) : Body Queue Handle := do
  let queue ← object
  match queue.store.head? with
  | some (.sealed head) =>
    if count ≤ head.size - queue.headOffset then
      raising (Handle.sliceBody queue.headOffset count) head
    else copyBody count
  | _ => copyBody count

/-- Takes bytes out of a queue. The projection ends before the handle to them is there. -/
def takeBody (count : UInt64) : Body Queue Handle := do
  let queue ← object
  if count > queue.size then
    report Failure.overTaken.code
    return .empty
  report .success
  if count = 0 then return .empty
  setObject { queue with projected := 0 }
  let handle ← leadingBody count
  let queue ← object
  setObject (queue.consume count).value
  return handle

theorem confirmBody_honours (queue : Queue) (count : UInt64) :
    (confirmBody count).Honours queue ((queue.confirm count).value.map (·, ()))
      (queue.projected < count) .overConfirmed () := by
  rw [value_confirm]
  refine .of_callWith (fun hRefused => ?_) (fun hAccepted => ?_)
  · refine ⟨by rw [if_pos hRefused]; rfl, fun earlier => ?_⟩
    rw [confirmBody, callWith_object_bind, if_pos hRefused]
    rfl
  · refine ⟨_, (), by rw [if_neg hAccepted]; rfl, fun earlier => ?_⟩
    rw [confirmBody, callWith_object_bind, if_neg hAccepted]
    rfl

/-- Behind the check the slice of the head chunk is never refused, so nothing is raised here. -/
theorem callWith_leadingBody {queue : Queue} (h : queue.Consistent) {count : UInt64}
    (h0 : count ≠ 0) (earlier : Code) :
    ∃ after handle, (queue.firstBytes count).value = .ok (after, handle) ∧
      (leadingBody count).callWith earlier queue = (after, .returned handle earlier) := by
  rw [leadingBody, callWith_object_bind, firstBytes]
  rcases hHead : queue.store.head? with _ | tail | head
  · exact ⟨_, _, rfl, rfl⟩
  · exact ⟨_, _, rfl, rfl⟩
  · dsimp only
    by_cases hFits : count ≤ head.size - queue.headOffset
    · rw [ChunkStore.head?_eq] at hHead
      obtain ⟨rest, hChunks⟩ := List.head?_eq_some_iff.mp hHead
      obtain ⟨part, hSlice, _⟩ := h.slice_head hChunks hFits h0
      have hAccepted : ¬ head.size.toNat < queue.headOffset.toNat + count.toNat := by
        rw [← Handle.out_of_range_iff]
        intro hn
        rw [Handle.slice, if_pos hn] at hSlice
        cases hSlice
      obtain ⟨after, value, hOperation, hCall⟩ :=
        (head.sliceBody_honours queue.headOffset count).succeeds hAccepted
      rw [hSlice] at hOperation
      cases hOperation
      refine ⟨queue, part, by rw [if_pos hFits, hSlice]; rfl, ?_⟩
      rw [if_pos hFits, callWith_raising, hCall]
    · refine ⟨_, _, by rw [if_neg hFits]; rfl, ?_⟩
      rw [if_neg hFits]
      rfl

theorem takeBody_honours {queue : Queue} (h : queue.WellFormed) (count : UInt64) :
    (takeBody count).Honours queue (queue.take count).value (queue.size < count) .overTaken
      .empty := by
  refine .of_callWith (fun hRefused => ?_) (fun hAccepted => ?_)
  · refine ⟨value_take_of_lt hRefused, fun earlier => ?_⟩
    rw [takeBody, callWith_object_bind, if_pos hRefused]
    rfl
  · by_cases h0 : count = 0
    · refine ⟨queue, .empty, by rw [h0, value_take_zero], fun earlier => ?_⟩
      rw [takeBody, callWith_object_bind, if_neg hAccepted, callWith_report_bind, if_pos h0]
      rfl
    · have hBefore : Consistent { queue with projected := 0 } :=
        ⟨h.valid, h.chunks_wellFormed, h.cursor, h.size_eq⟩
      obtain ⟨after, handle, hFirst, hLeading⟩ := callWith_leadingBody hBefore h0 .success
      refine ⟨(after.consume count).value, handle,
        by rw [value_take (UInt64.not_lt.mp hAccepted) h0, hFirst], fun earlier => ?_⟩
      rw [takeBody, callWith_object_bind, if_neg hAccepted, callWith_report_bind, if_neg h0,
        callWith_setObject_bind, callWith_bind hLeading]
      rfl

/-- A failed validation is raised where the queue is made, so unfit settings make none. -/
theorem call_createBody (logger : Option Log.Config) (owner : Nat) (settings : Settings) :
    (settings.Unfit → (create logger owner settings).value = .error .badSettings ∧
        (createBody logger owner).call none settings =
          (settings, .raised Failure.badSettings.code)) ∧
      (¬ settings.Unfit →
        (create logger owner settings).value = .ok (fresh logger owner settings) ∧
        (createBody logger owner).call none settings =
          (settings, .returned (fresh logger owner settings) .success)) := by
  have hHonours := settings.validateBody_honours logger
  rw [create_value]
  refine ⟨fun hUnfit => ⟨if_neg (settings.unfit_iff.mp hUnfit), ?_⟩, fun hFit =>
    ⟨if_pos (Decidable.not_not.mp (mt settings.unfit_iff.mpr hFit)), ?_⟩⟩
  · have hRaised := callWith_raising Settings.validateBody settings .success settings
    rw [(hHonours.fails hUnfit).2.2] at hRaised
    rw [call, createBody, callWith_object_bind, callWith_bind_of_raised hRaised]
    rfl
  · obtain ⟨after, value, _, hCall⟩ := hHonours.succeeds hFit
    have hReturned := callWith_raising Settings.validateBody settings .success settings
    rw [hCall] at hReturned
    rw [call, createBody, callWith_object_bind, callWith_bind hReturned]
    rfl

/-- For every queue that a run leads to, every handle and all settings: the calls that can fail do
so for exactly the arguments that they are documented to refuse, a refused call changes nothing and
tells the same code to callers with and without a place for it, and any other call has the same
effect and the same value for both. Unfit settings do not make a queue. -/
theorem calls_honour_convention {queue : Queue} (reachable : Reachable queue) (count : UInt64)
    (handle : Handle) (offset size : UInt64) (settings : Settings)
    (logger : Option Log.Config) (owner : Nat) :
    (confirmBody count).Honours queue ((queue.confirm count).value.map (·, ()))
        (queue.projected < count) .overConfirmed () ∧
      (takeBody count).Honours queue (queue.take count).value
        (queue.size < count) .overTaken .empty ∧
      (Handle.sliceBody offset size).Honours handle ((handle.slice offset size).map (handle, ·))
        (handle.size.toNat < offset.toNat + size.toNat) .sliceOutOfRange .empty ∧
      Settings.validateBody.Honours settings ((settings.validate logger).value.map (settings, ·))
        settings.Unfit .badSettings () ∧
      (settings.Unfit → (create logger owner settings).value = .error .badSettings ∧
        (createBody logger owner).call none settings =
          (settings, .raised Failure.badSettings.code)) ∧
      (¬ settings.Unfit →
        (create logger owner settings).value = .ok (fresh logger owner settings) ∧
        (createBody logger owner).call none settings =
          (settings, .returned (fresh logger owner settings) .success)) :=
  ⟨queue.confirmBody_honours count, takeBody_honours reachable.wellFormed count,
    handle.sliceBody_honours offset size, settings.validateBody_honours logger,
    call_createBody logger owner settings⟩

/-- A queue with a head chunk that is consumed in part, at arguments that are refused and at ones
that are not. The sum of the offset and the size for the slice is no word. -/
theorem calls_honour_convention_at_consumed_head :
    let settings : Settings := { initialChunkSize := 4 }
    let operations : List Operation :=
      [.append (.ofBytes [1, 2, 3, 4, 5, 6]), .sealTail, .project 1, .confirm 3]
    let queue := (fresh none 0 settings).run operations
    let handle : Handle := .adopt (some ⟨⟨1, 0⟩, .ofBytes [7, 8, 9]⟩) 3
    let unfit : Settings := { rule := .doubling, initialChunkSize := 9, maxChunkSize := 8 }
    let stale : Code := ⟨.stream, 5⟩
    queue.projected = 1 ∧ queue.size = 3 ∧
      (confirmBody 2).call (some stale) queue =
        (queue, .returned () Failure.overConfirmed.code) ∧
      (confirmBody 2).call none queue = (queue, .raised Failure.overConfirmed.code) ∧
      (takeBody 4).call (some stale) queue = (queue, .returned .empty Failure.overTaken.code) ∧
      (∃ after taken, (queue.take 3).value = .ok (after, taken) ∧
        ∀ place, (takeBody 3).call place queue = (after, .returned taken .success)) ∧
      (Handle.sliceBody 2 (-1)).call none handle =
        (handle, .raised Failure.sliceOutOfRange.code) ∧
      Settings.validateBody.call (some stale) unfit =
        (unfit, .returned () Failure.badSettings.code) ∧
      (createBody none 0).call none unfit = (unfit, .raised Failure.badSettings.code) := by
  intro settings operations queue handle unfit stale
  have hAdmissible : (fresh none 0 settings).Admissible operations := by decide +kernel
  have reachable : Reachable queue :=
    (Reachable.fresh none 0 settings (by decide)).run hAdmissible
  have hProjected : queue.projected = 1 := by decide +kernel
  have hSize : queue.size = 3 := by decide +kernel
  have hUnfit : unfit.Unfit := .inr (.inr ⟨rfl, by decide⟩)
  obtain ⟨hConfirm, hTake, hSlice, hValidate, hCreate, _⟩ :=
    calls_honour_convention reachable 2 handle 2 (-1) unfit none 0
  obtain ⟨_, hOver, hRaised⟩ := hConfirm.fails (by rw [hProjected]; decide)
  have hMore := (calls_honour_convention reachable 4 handle 0 0 settings none 0).2.1
  have hAll := (calls_honour_convention reachable 3 handle 0 0 settings none 0).2.1
  exact ⟨hProjected, hSize, hOver stale, hRaised, (hMore.fails (by rw [hSize]; decide)).2.1 stale,
    hAll.succeeds (by rw [hSize]; decide), (hSlice.fails (by decide)).2.2,
    (hValidate.fails hUnfit).2.1 stale, (hCreate hUnfit).2⟩

end Queue

end ByteQueue
