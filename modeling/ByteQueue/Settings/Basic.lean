import ByteQueue.Failure
import ByteQueue.Sizing

/-!
The settings of a queue and the conditions on them. `Settings.failedCheck?` is the first
condition that does not hold, in a fixed order; settings are valid if there is none.
-/
namespace ByteQueue

/-- What a queue can be tuned by. -/
structure Settings where
  rule : Rule := .fixed
  /-- The size of every chunk under the fixed rule, of the first one under the doubling rule. -/
  initialChunkSize : UInt64 := 4096
  /-- Where doubling ends. The fixed rule ignores it. -/
  maxChunkSize : UInt64 := 65536
  /-- Handles shorter than this are copied if the tail chunk has room for them. -/
  smallHandleThreshold : UInt64 := 256
  /-- The most slices that one projection exposes. -/
  maxSlices : UInt64 := 1024
  deriving DecidableEq, Repr

/-- A condition on settings. -/
inductive Check where
  | initialPositive | slicesPositive | capNotBelowInitial
  deriving DecidableEq, Repr

namespace Check

/-- In the order in which they are made. -/
def all : List Check := [.initialPositive, .slicesPositive, .capNotBelowInitial]

def holds (settings : Settings) : Check → Bool
  | .initialPositive => settings.initialChunkSize != 0
  | .slicesPositive => settings.maxSlices != 0
  | .capNotBelowInitial =>
    settings.rule != .doubling || settings.initialChunkSize ≤ settings.maxChunkSize

/-- The condition as messages quote it. -/
def condition : Check → String
  | .initialPositive => "m_st_initial_chunk_size != 0"
  | .slicesPositive => "m_st_max_vectored_slices != 0"
  | .capNotBelowInitial =>
    "(m_st_growth_rule != Chunk_sizing_selector::Strategy_choice::S_DOUBLING) " ++
      "|| (m_st_max_chunk_size >= m_st_initial_chunk_size)"

end Check

namespace Settings

/-- The first check that fails. -/
def failedCheck? (settings : Settings) : Option Check :=
  Check.all.find? fun check => !check.holds settings

/-- All checks hold. -/
def Valid (settings : Settings) : Prop := settings.failedCheck? = none

instance (settings : Settings) : Decidable settings.Valid :=
  inferInstanceAs (Decidable (_ = _))

theorem valid_iff (settings : Settings) :
    settings.Valid ↔ settings.initialChunkSize ≠ 0 ∧ settings.maxSlices ≠ 0 ∧
      (settings.rule = .doubling → settings.initialChunkSize ≤ settings.maxChunkSize) := by
  cases hr : settings.rule <;>
    simp [Valid, failedCheck?, Check.all, Check.holds, hr]

/-- The sizing rule that the settings choose; an unlisted rule acts as the fixed one. -/
def sizing (settings : Settings) : Sizing :=
  match settings.rule with
  | .doubling => .doubling ⟨settings.initialChunkSize, settings.maxChunkSize⟩
  | .fixed | .unlisted => .fixed settings.initialChunkSize

end Settings

end ByteQueue
