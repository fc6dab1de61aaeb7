import ByteQueue.Log.Config

/-!
The history of a configuration: the calls that were made on it, latest first. What a component's
verbosity is, and what a name stands for, can be read off the history without the tables that a
configuration keeps.
-/
namespace ByteQueue.Log

/-- A call on a configuration. -/
inductive Call where
  | registerAll (family : String) (names : List (Int × String)) (label : Text)
  | setGeneral (verbosity : Severity) (reset : Bool)
  | setVerbosity (component : Component) (verbosity : Severity)
  | setVerbosityByName (name : Text) (verbosity : Severity)
  deriving DecidableEq

/-- The configuration after a call. -/
def Config.call (config : Config) : Call → Config
  | .registerAll family names label => config.registerAll family names label
  | .setGeneral verbosity reset => config.setGeneral verbosity reset
  | .setVerbosity component verbosity => config.setVerbosity component verbosity
  | .setVerbosityByName name verbosity => (config.setVerbosityByName name verbosity).1

/-- The pairs of component and name that a call registers, in order. -/
def Call.registrations : Call → List (Component × Text)
  | .registerAll family names label =>
    names.map fun (value, name) =>
      (.ofEnumerator family value, (if label = [] then [] else Config.normalize label ++ ['_'])
        ++ Config.normalize name.toList)
  | _ => []

namespace History

/-- The configuration at the end of a history that began with the given general verbosity. -/
def config (general : Severity) : List Call → Config
  | [] => { general }
  | latest :: earlier => (config general earlier).call latest

/-- What a name stands for: the component of its most recent registration. -/
def component? (name : Text) : List Call → Option Component
  | [] => none
  | latest :: earlier =>
    match latest.registrations.reverse.find? (·.2 = Config.normalize name) with
    | some (component, _) => some component
    | none => component? name earlier

/-- The verbosity set last for a component since the last reset, directly or by a name that
stood for it. -/
def own? (component : Component) : List Call → Option Severity
  | [] => none
  | .setGeneral _ true :: _ => none
  | .setVerbosity target verbosity :: earlier =>
    if target = component then some verbosity else own? component earlier
  | .setVerbosityByName name verbosity :: earlier =>
    if component? name earlier = some component then some verbosity else own? component earlier
  | _ :: earlier => own? component earlier

/-- The component that a call sets the verbosity of, after the given earlier calls, and that
verbosity. -/
def setting? (earlier : List Call) : Call → Option (Component × Severity)
  | .setVerbosity component verbosity => some (component, verbosity)
  | .setVerbosityByName name verbosity => (component? name earlier).map (·, verbosity)
  | .registerAll _ _ _ | .setGeneral _ _ => none

/-- A verbosity is the one set last for a component: no call after it has set another one for this
component, or reset all of them. -/
def LastSet (component : Component) (verbosity : Severity) (calls : List Call) : Prop :=
  ∃ later call earlier, calls = later ++ call :: earlier ∧
    setting? earlier call = some (component, verbosity) ∧
    ∀ newer other older, later = newer ++ other :: older →
      (∀ general, other ≠ .setGeneral general true) ∧
        ∀ another, setting? (older ++ call :: earlier) other ≠ some (component, another)

/-- The general verbosity set last. -/
def general (start : Severity) : List Call → Severity
  | [] => start
  | .setGeneral verbosity _ :: _ => verbosity
  | _ :: earlier => general start earlier

end History

end ByteQueue.Log
