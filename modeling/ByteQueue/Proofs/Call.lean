import ByteQueue.Failure

/-! The convention for failures, as calls follow it step by step. What an operation does is written
once, for a caller who has a place for the code; the place holds some code already. A caller without
one has the same done with a place that is made for the call, and what is left there is raised. -/
namespace ByteQueue

variable {σ τ α β : Type}

/-- What is done with an object and with the place for the code. A code may also be raised on the
way, by a call without a place. -/
abbrev Body (σ α : Type) := ExceptT Code (StateM (σ × Code)) α

namespace Body

/-- The code in the place. -/
def place : Body σ Code := do return (← get).2

/-- The object as it is. -/
def object : Body σ σ := do return (← get).1

def setObject (object : σ) : Body σ Unit := modify fun (_, code) => (object, code)

/-- Puts a code into the place. -/
def report (code : Code) : Body σ Unit := modify fun (object, _) => (object, code)

/-- How a call ends whose caller has a place with an earlier code in it. -/
def callWith (body : Body σ α) (earlier : Code) (object : σ) : σ × Ending α :=
  match body.run (object, earlier) with
  | (.ok value, object, code) => (object, .returned value code)
  | (.error code, object, _) => (object, .raised code)

/-! What the steps come to, one by one. -/

@[simp] theorem callWith_object_bind (next : σ → Body σ α) (earlier : Code) (start : σ) :
    (object >>= next).callWith earlier start = (next start).callWith earlier start := rfl

@[simp] theorem callWith_place_bind (next : Code → Body σ α) (earlier : Code) (start : σ) :
    (place >>= next).callWith earlier start = (next earlier).callWith earlier start := rfl

@[simp] theorem callWith_setObject_bind (after : σ) (next : Unit → Body σ α) (earlier : Code)
    (start : σ) :
    (setObject after >>= next).callWith earlier start = (next ()).callWith earlier after := rfl

@[simp] theorem callWith_report_bind (code : Code) (next : Unit → Body σ α) (earlier : Code)
    (start : σ) :
    (report code >>= next).callWith earlier start = (next ()).callWith code start := rfl

@[simp] theorem callWith_report (code earlier : Code) (start : σ) :
    (report code).callWith earlier start = (start, .returned () code) := rfl

/-- After a part that returns, the rest goes on with the code that is in the place by then. -/
theorem callWith_bind {body : Body σ α} {next : α → Body σ β} {earlier code : Code}
    {start after : σ} {value : α}
    (h : body.callWith earlier start = (after, .returned value code)) :
    (body >>= next).callWith earlier start = (next value).callWith code after := by
  unfold callWith at h
  rcases hRun : body.run (start, earlier) with ⟨_ | value, state⟩ <;> rw [hRun] at h <;> cases h
  have hBind : (body >>= next).run (start, earlier) = (next value).run state := by
    rw [ExceptT.run_bind]
    show (body.run >>= _) (start, earlier) = _
    simp only [bind, StateT.bind, hRun]
  rw [callWith, hBind]
  rfl

/-- Nothing follows a code that is raised. -/
theorem callWith_bind_of_raised {body : Body σ α} {earlier code : Code} {start after : σ}
    (h : body.callWith earlier start = (after, .raised code)) (next : α → Body σ β) :
    (body >>= next).callWith earlier start = (after, .raised code) := by
  unfold callWith at h
  rcases hRun : body.run (start, earlier) with ⟨_ | value, state⟩ <;> rw [hRun] at h <;> cases h
  have hBind : (body >>= next).run (start, earlier) = (.error code, state) := by
    rw [ExceptT.run_bind]
    show (body.run >>= _) (start, earlier) = _
    simp only [bind, StateT.bind, hRun]
    rfl
  rw [callWith, hBind]

/-- How a call ends, for callers with and without a place. -/
def call (body : Body σ α) (place : Option Code) (object : σ) : σ × Ending α :=
  match place with
  | some earlier => body.callWith earlier object
  | none =>
    let (object, ending) := body.callWith .success object
    (object, Mode.raise.escalate ending)

/-- A call without a place inside another one, on a part of the object. -/
def raisingOn (part : σ → τ) (put : τ → σ → σ) (inner : Body τ β) : Body σ β := do
  let whole ← object
  let (changed, ending) := inner.call none (part whole)
  setObject (put changed whole)
  match ending with
  | .returned value _ => return value
  | .raised code => throw code

/-- A call without a place inside another one, on an object that it does not change. -/
def raising (inner : Body τ β) (object : τ) : Body σ β :=
  raisingOn (fun _ => object) (fun _ whole => whole) inner

theorem callWith_raisingOn (part : σ → τ) (put : τ → σ → σ) (inner : Body τ β) (earlier : Code)
    (whole : σ) :
    (raisingOn part put inner).callWith earlier whole =
      (put (inner.call none (part whole)).1 whole,
        match (inner.call none (part whole)).2 with
        | .returned value _ => .returned value earlier
        | .raised code => .raised code) := by
  rw [raisingOn, callWith_object_bind]
  rcases inner.call none (part whole) with ⟨changed, value | code⟩ <;> rfl

theorem callWith_raising (inner : Body τ β) (object : τ) (earlier : Code) (start : σ) :
    (raising inner object : Body σ β).callWith earlier start =
      (start,
        match (inner.call none object).2 with
        | .returned value _ => .returned value earlier
        | .raised code => .raised code) :=
  callWith_raisingOn ..

/-- A call fails just when it is to be refused. A refused call leaves the object as it was, whoever
made it: either the code is in the place, whatever was there before, and the caller gets a fallback
value, or the same code is raised. The effect and the value of any other call are those of the
operation without the convention, whoever made it, and the code in the place is success. -/
structure Honours (body : Body σ α) (object : σ) (operation : Except Failure (σ × α))
    (refused : Prop) (failure : Failure) (fallback : α) : Prop where
  fails : refused → operation = .error failure ∧
    (∀ earlier, body.call (some earlier) object = (object, .returned fallback failure.code)) ∧
    body.call none object = (object, .raised failure.code)
  succeeds : ¬ refused → ∃ after value, operation = .ok (after, value) ∧
    ∀ place, body.call place object = (after, .returned value .success)

/-- It is enough to look at callers with a place, since the others differ from them in what the
code is used for. -/
theorem Honours.of_callWith {body : Body σ α} {object : σ} {operation : Except Failure (σ × α)}
    {refused : Prop} {failure : Failure} {fallback : α}
    (fails : refused → operation = .error failure ∧
      ∀ earlier, body.callWith earlier object = (object, .returned fallback failure.code))
    (succeeds : ¬ refused → ∃ after value, operation = .ok (after, value) ∧
      ∀ earlier, body.callWith earlier object = (after, .returned value .success)) :
    Honours body object operation refused failure fallback where
  fails hRefused := by
    obtain ⟨hOperation, hCall⟩ := fails hRefused
    refine ⟨hOperation, hCall, ?_⟩
    rw [call, hCall]
    simp [Mode.escalate, Code.isFailure_code]
  succeeds hAccepted := by
    obtain ⟨after, value, hOperation, hCall⟩ := succeeds hAccepted
    refine ⟨after, value, hOperation, fun place => ?_⟩
    cases place with
    | some earlier => exact hCall earlier
    | none =>
      rw [call, hCall]
      simp [Mode.escalate, Code.isFailure_success]

end Body

end ByteQueue
