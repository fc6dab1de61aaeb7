import ByteQueue.Event

/-! Validation of settings and choice of the sizing rule, as a queue does both when it is
created. Validation stops at the first condition that does not hold. -/
namespace ByteQueue.Settings

/-- Accepts valid settings. Of others it reports the first failed check. -/
def validate (logger : Option Log.Config) (settings : Settings) :
    Logged Event (Except Failure Unit) := do
  match settings.failedCheck? with
  | none => return .ok ()
  | some check =>
    Event.emit logger (.checkFailed check)
    Event.emit logger (.errorEmitted .badSettings)
    return .error .badSettings

/-- The sizing rule of the settings, which need not be valid. -/
def chooseSizing (logger : Option Log.Config) (settings : Settings) : Logged Event Sizing := do
  Event.emit logger (.sizingChosen settings.sizing)
  return settings.sizing

theorem validate_value (logger : Option Log.Config) (settings : Settings) :
    (settings.validate logger).value =
      if settings.Valid then .ok () else .error .badSettings := by
  unfold validate Valid
  split <;> simp_all

end ByteQueue.Settings
