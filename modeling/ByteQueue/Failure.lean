import ByteQueue.Text.Basic

/-!
Failures and how callers learn of them. A queue fails for one of four causes; a stream fails
with a number of its own. Both are reported as a `Code`. A caller either passes a place for the
code and gets a value in any case, or passes none and has the code raised: `Mode.settle` turns
the result of an operation into the way the call ends.
-/
namespace ByteQueue

/-- Why an operation of this library refuses its arguments. -/
inductive Failure where
  /-- More bytes were confirmed as written than the latest projection exposed. -/
  | overConfirmed
  /-- More bytes were to be taken than the queue holds. -/
  | overTaken
  /-- A slice of a handle was to reach past its end. -/
  | sliceOutOfRange
  /-- A setting violates a condition on it. -/
  | badSettings
  deriving DecidableEq, Repr

/-- Who assigns the numbers of codes. -/
inductive Category where
  | queue | stream
  deriving DecidableEq, Repr

def Category.name : Category → String
  | .queue => "chunked_buf"
  | .stream => "test"

/-- A reported error, or success if the number is 0. -/
structure Code where
  category : Category
  value : Int32
  deriving DecidableEq, Repr

def Failure.number : Failure → Int32
  | .overConfirmed => 1
  | .overTaken => 2
  | .sliceOutOfRange => 3
  | .badSettings => 4

def Failure.message : Failure → String
  | .overConfirmed => "Confirmed-written byte count exceeds what the last projection exposed; " ++
      "the caller violated the write contract."
  | .overTaken => "Requested to consume more bytes than are buffered."
  | .sliceOutOfRange => "Requested a Handle slice extending past the end of the Handle."
  | .badSettings => "At least one option's value violates a required condition on that option."

def Failure.code (failure : Failure) : Code := ⟨.queue, failure.number⟩

/-- The failure with a given number. -/
def Failure.ofNumber? : Int32 → Option Failure
  | 1 => some .overConfirmed
  | 2 => some .overTaken
  | 3 => some .sliceOutOfRange
  | 4 => some .badSettings
  | _ => none

namespace Code

def success : Code := ⟨.queue, 0⟩

/-- The number 0 is success in every category. -/
def isFailure (code : Code) : Bool := code.value != 0

/-- The code as `category:number`. -/
def name (code : Code) : String := s!"{code.category.name}:{code.value.toInt}"

def message (code : Code) : String :=
  match code.category with
  | .stream => s!"Test error {code.value.toInt}."
  | .queue =>
    match Failure.ofNumber? code.value with
    | some failure => failure.message
    | none => "Unknown chunked_buf error."

theorem isFailure_code (failure : Failure) : failure.code.isFailure = true := by
  cases failure <;> rfl

theorem isFailure_success : success.isFailure = false := rfl

end Code

/-- An exception: a code with the circumstances, or the circumstances alone. -/
structure Exception where
  code : Code
  context : Text
  deriving DecidableEq, Repr

namespace Exception

def ofContext (context : Text) : Exception := ⟨.success, context⟩

/-- The description, if it does not depend on a code: without one it is the context alone. A
description is NUL-terminated, so it shows the context up to the first NUL. -/
def plainDescription? (exception : Exception) : Option Text :=
  if exception.code.isFailure then none else some exception.context.terminated

end Exception

/-- How a caller learns of a failure. -/
inductive Mode where
  /-- Through a code that every call sets. -/
  | report
  /-- By an exception. -/
  | raise
  deriving DecidableEq, Repr

/-- How a call ends. -/
inductive Ending (α : Type) where
  /-- With a value, and the code that the caller is left with. -/
  | returned (value : α) (code : Code)
  | raised (code : Code)
  deriving DecidableEq, Repr

namespace Mode

/-- Raises a reported failure if the caller passed no place for it. -/
def escalate {α : Type} (mode : Mode) : Ending α → Ending α
  | .returned value code =>
    if mode = .raise ∧ code.isFailure then .raised code else .returned value code
  | .raised code => .raised code

/-- How a call ends whose operation yields a value or fails; `fallback` is what a caller gets
who has the failure reported. -/
def settle {α : Type} (mode : Mode) (fallback : α) : Except Failure α → Ending α
  | .ok value => .returned value .success
  | .error failure => mode.escalate (.returned fallback failure.code)

theorem settle_report_error {α : Type} (fallback : α) (failure : Failure) :
    Mode.report.settle fallback (.error failure) = .returned fallback failure.code := by
  simp [settle, escalate]

theorem settle_raise_error {α : Type} (fallback : α) (failure : Failure) :
    Mode.raise.settle fallback (.error failure) = .raised failure.code := by
  simp [settle, escalate, Code.isFailure_code]

end Mode

end ByteQueue
