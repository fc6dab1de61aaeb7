import ByteQueue.Proofs.Handle
import ByteQueue.Session.Transcript

/-! Handles that come from handles. Whatever is copied, taken over, shared and sliced in a session,
in any order and whether or not a slice is refused, every handle shows a window inside its array.
Slices of such handles can be taken in one step or in several. -/
namespace ByteQueue

/-- The actions that make handles, pass them on and drop them. An array that is taken over is no
shorter than what is shown of it. -/
def Action.OnHandles : Action → Prop
  | .setEmpty _ | .setCopy _ _ | .setShared _ _ | .setSlice _ _ _ _ _ | .drop _ => True
  | .setAdopted _ data count => count.toNat ≤ data.length
  | _ => False

namespace Session

/-- Every named handle is a window inside its array. -/
def HandlesInBounds (session : Session) : Prop :=
  ∀ name handle, session.handle? name = some handle → handle.InBounds

theorem handlesInBounds_empty : HandlesInBounds {} := by
  intro name handle hHandle
  simp [handle?, NamedHandles.get?, NamedHandles.empty] at hHandle

theorem exists_perform_of_step {session after : Session} {step : Step} {reply : Reply}
    (h : session.step step = some (after, reply)) :
    ∃ work, session.perform step.queue step.action = some work ∧ work.value.1 = after := by
  obtain ⟨work, hWork, hTold⟩ := Option.map_eq_some_iff.mp h
  exact ⟨work, hWork, congrArg Prod.fst hTold⟩

namespace HandlesInBounds

variable {session : Session}

theorem setHandle (h : session.HandlesInBounds) (name : String) {handle : Handle}
    (hb : handle.InBounds) : (session.setHandle name handle).HandlesInBounds := by
  intro key other hOther
  rw [handle?, Session.setHandle, NamedHandles.get?_insert] at hOther
  split at hOther
  · exact Option.some.inj hOther ▸ hb
  · exact h key other hOther

/-- A slice that is granted is set, and so is the empty handle if a refusal is reported. -/
theorem setSlice (h : session.HandlesInBounds) (name : String) {source : Handle}
    (hb : source.InBounds) (offset count : UInt64) (mode : Mode) :
    (session.setSlice name source offset count mode).1.HandlesInBounds := by
  unfold Session.setSlice
  cases hSlice : source.slice offset count with
  | ok part => exact h.setHandle name (hb.slice hSlice)
  | error failure =>
    cases mode with
    | report =>
      rw [Mode.settle_report_error]
      exact h.setHandle name Handle.inBounds_empty
    | raise =>
      rw [Mode.settle_raise_error]
      exact h

theorem step (h : session.HandlesInBounds) {after : Session} {step : Step} {reply : Reply}
    (hAction : step.action.OnHandles) (hStep : session.step step = some (after, reply)) :
    after.HandlesInBounds := by
  obtain ⟨index, action⟩ := step
  obtain ⟨work, hWork, rfl⟩ := exists_perform_of_step hStep
  cases action with
  | setEmpty name =>
    cases hWork
    exact h.setHandle name Handle.inBounds_empty
  | setCopy name data =>
    cases hWork
    exact @setHandle session.allocate.1 h name _ (Handle.inBounds_ofBlock _ data)
  | setAdopted name data count =>
    cases hWork
    refine @setHandle session.allocate.1 h name _ (Handle.inBounds_adopt ?_)
    split
    · next hEmpty =>
      rw [Block.isEmpty, beq_iff_eq] at hEmpty
      exact hEmpty ▸ hAction
    · exact hAction
  | setShared name source =>
    obtain ⟨handle, hHandle, hDone⟩ := Option.bind_eq_some_iff.mp hWork
    cases hDone
    exact h.setHandle name (h source handle hHandle)
  | setSlice name source offset count mode =>
    obtain ⟨handle, hHandle, hDone⟩ := Option.bind_eq_some_iff.mp hWork
    cases hDone
    exact h.setSlice name (h source handle hHandle) offset count mode
  | drop name =>
    obtain ⟨handle, hHandle, hDone⟩ := Option.bind_eq_some_iff.mp hWork
    cases hDone
    intro key other hOther
    have hOther : (session.handles.erase name).get? key = some other := hOther
    rw [NamedHandles.get?_erase] at hOther
    split at hOther
    · cases hOther
    · exact h key other hOther
  | _ => exact hAction.elim

theorem steps (h : session.HandlesInBounds) {after : Session} {steps : List Step}
    {replies : List Reply} (onHandles : ∀ step ∈ steps, step.action.OnHandles)
    (hSteps : session.steps steps = some (after, replies)) : after.HandlesInBounds := by
  induction steps generalizing session replies with
  | nil =>
    cases hSteps
    exact h
  | cons first rest ih =>
    obtain ⟨hFirst, hRest⟩ := List.forall_mem_cons.mp onHandles
    cases hStep : session.step first with
    | none =>
      rw [Session.steps, hStep] at hSteps
      cases hSteps
    | some told =>
      rw [steps_cons_of_step hStep] at hSteps
      obtain ⟨_, hLater, hDone⟩ := Option.map_eq_some_iff.mp hSteps
      cases hDone
      exact ih (h.step hFirst hStep) hRest hLater

end HandlesInBounds

/-- Of every handle in a session that makes handles from bytes, from arrays and from one another:
its window lies inside its array. A slice of a slice of it is the slice at the sum of the offsets,
which never wraps around; it is granted just if both fit, and shows the same place of the same
array, or is empty and shows nothing. Slices that follow one another, of sizes that add up to the
size of the handle, divide its bytes among them. -/
theorem slices_compose {steps : List Step} (onHandles : ∀ step ∈ steps, step.action.OnHandles)
    {session : Session} {replies : List Reply}
    (hSteps : Session.steps {} steps = some (session, replies)) {name : String} {handle : Handle}
    (hHandle : session.handle? name = some handle) :
    handle.InBounds ∧
      (∀ offset count within wanted part inner, handle.slice offset count = .ok part →
        part.slice within wanted = .ok inner →
        handle.slice (offset + within) wanted = .ok inner ∧
          (offset + within).toNat = offset.toNat + within.toNat ∧
          handle.PartAt (offset.toNat + within.toNat) wanted.toNat inner) ∧
      (∀ offset count within wanted part, handle.slice offset count = .ok part →
        within.toNat + wanted.toNat ≤ count.toNat →
        ∃ inner, part.slice within wanted = .ok inner ∧
          (offset + within).toNat = offset.toNat + within.toNat) ∧
      ∀ sizes, sumOf UInt64.toNat sizes = handle.size.toNat →
        ∃ parts, handle.slicesFrom 0 sizes = .ok parts ∧ parts.map Handle.size = sizes ∧
          (∀ part ∈ parts, part.InBounds) ∧ parts.flatMap Handle.bytes = handle.bytes := by
  have hBounds : handle.InBounds :=
    handlesInBounds_empty.steps onHandles hSteps name handle hHandle
  refine ⟨hBounds, ?_, ?_, ?_⟩
  · intro offset count within wanted part inner hPart hInner
    obtain ⟨hWhole, hSum⟩ := Handle.slice_slice hPart hInner
    exact ⟨hWhole, hSum, hSum ▸ hBounds.partAt hWhole⟩
  · intro offset count within wanted part hPart hInside
    obtain ⟨inner, hInner⟩ := Handle.exists_slice_slice hPart hInside
    exact ⟨inner, hInner, (Handle.slice_slice hPart hInner).2⟩
  · intro sizes hSizes
    have hAll : (0 : UInt64).toNat + sumOf UInt64.toNat sizes = handle.size.toNat := by
      rw [UInt64.toNat_zero, Nat.zero_add, hSizes]
    exact hBounds.slicesFrom hAll

/-- A shared slice of an array that is shown in part. What lies behind the slice stays out of
reach, also in several steps. -/
theorem slices_compose_of_shared_slice :
    let steps : List Step :=
      [⟨0, .setAdopted "whole" (.ofBytes [0, 1, 2, 3, 4, 5, 6, 7, 8, 9]) 8⟩,
        ⟨0, .setSlice "part" "whole" 1 6 .raise⟩, ⟨0, .setShared "other" "part"⟩]
    (∀ step ∈ steps, step.action.OnHandles) ∧
      ∃ session replies handle, Session.steps {} steps = some (session, replies) ∧
        session.handle? "other" = some handle ∧ handle.bytes = [1, 2, 3, 4, 5, 6] ∧
        (∃ part inner, handle.slice 1 5 = .ok part ∧ part.slice 2 3 = .ok inner ∧
          handle.slice 3 3 = .ok inner ∧ inner.bytes = [4, 5, 6]) ∧
        ∃ parts, handle.slicesFrom 0 [2, 0, 4] = .ok parts ∧ parts.map Handle.size = [2, 0, 4] ∧
          parts.flatMap Handle.bytes = [1, 2, 3, 4, 5, 6] := by
  intro steps
  have onHandles : ∀ step ∈ steps, step.action.OnHandles := by
    simp [steps, Action.OnHandles, Block.ofBytes, Block.length]
  let handle : Handle := ⟨some ⟨⟨0, 0⟩, .ofBytes [0, 1, 2, 3, 4, 5, 6, 7, 8, 9]⟩, 1, 6⟩
  have hBytes : handle.bytes = [1, 2, 3, 4, 5, 6] := by decide +kernel
  have hComputed :
      ((Session.steps {} steps).bind fun told => told.1.handle? "other") = some handle := by
    decide +kernel
  obtain ⟨⟨session, replies⟩, hSteps, hHandle⟩ := Option.bind_eq_some_iff.mp hComputed
  obtain ⟨hBounds, hNested, hGranted, hCut⟩ := slices_compose onHandles hSteps hHandle
  obtain ⟨part, hPart⟩ : ∃ part, handle.slice 1 5 = .ok part :=
    ⟨_, Handle.slice_eq_ok_iff.mpr ⟨by decide, rfl⟩⟩
  obtain ⟨inner, hInner, _⟩ := hGranted 1 5 2 3 part hPart (by decide)
  obtain ⟨hWhole, _, hAt⟩ := hNested 1 5 2 3 part inner hPart hInner
  obtain ⟨parts, hParts, hSizes, _, hAll⟩ := hCut [2, 0, 4] rfl
  refine ⟨onHandles, session, replies, handle, hSteps, hHandle, hBytes, ?_, ?_⟩
  · exact ⟨part, inner, hPart, hInner, hWhole, hAt.bytes_eq.trans (by rw [hBytes]; rfl)⟩
  · exact ⟨parts, hParts, hSizes, hAll.trans hBytes⟩

end Session

end ByteQueue
