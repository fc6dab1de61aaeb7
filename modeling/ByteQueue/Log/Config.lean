import ByteQueue.Log.Component
import ByteQueue.Log.Severity
import ByteQueue.Table
import ByteQueue.Text.Stream

/-!
The configuration of logging: how verbose each component may be, and what components are
called. A component without a verbosity of its own has the general one. Names are upper case;
the name of a component and the component of a name are kept in two tables, and registering a
pair writes both without taking an older entry back.
-/
namespace ByteQueue

namespace Log

/-- Verbosities and names of components. -/
structure Config where
  general : Severity := .info
  verbosities : Table Component Severity := []
  names : Table Component Text := []
  components : Table Text Component := []
  deriving DecidableEq

namespace Config

/-- Names are compared and printed in upper case (ASCII letters only). -/
def normalize (name : Text) : Text := name.map Char.toUpper

/-- The verbosity that counts for a component, or for messages without one. -/
def verbosity (config : Config) (component : Option Component) : Severity :=
  match component.bind config.verbosities.get? with
  | some own => own
  | none => config.general

def shouldLog (config : Config) (severity : Severity) (component : Option Component) : Bool :=
  severity.passes (config.verbosity component)

/-- Sets the general verbosity; a reset also forgets the verbosities of components. -/
def setGeneral (config : Config) (verbosity : Severity) (reset : Bool) : Config :=
  { config with
    general := verbosity
    verbosities := if reset then [] else config.verbosities }

def setVerbosity (config : Config) (component : Component) (verbosity : Severity) : Config :=
  { config with verbosities := config.verbosities.insert component verbosity }

/-- Sets the verbosity of the component with a registered name; `false` if there is none. -/
def setVerbosityByName (config : Config) (name : Text) (verbosity : Severity) : Config × Bool :=
  match config.components.get? (normalize name) with
  | some component => (config.setVerbosity component verbosity, true)
  | none => (config, false)

def register (config : Config) (component : Component) (name : Text) : Config :=
  { config with
    names := config.names.insert component name
    components := config.components.insert name component }

/-- Registers the names of an enumeration. Names that share a program with others can be set
apart by a label in front of each. -/
def registerAll (config : Config) (family : String) (names : List (Int × String))
    (label : Text) : Config :=
  let front := if label = [] then [] else normalize label ++ ['_']
  names.foldl
    (fun config (value, name) =>
      config.register (.ofEnumerator family value) (front ++ normalize name.toList))
    config

/-- How a component is printed: its name if it has one, else its enumeration and number. -/
def componentItems (config : Config) (component : Component) : List Item :=
  match config.names.get? component with
  | some name => [.text name]
  | none => [.text (s!"<{component.family}>").toList, .char '#',
      .unsigned component.value.toUInt64]

/-- Prints a component, if there is one, and says whether there was. -/
def printComponent (config : Config) (component : Option Component) (stream : TextStream) :
    TextStream × Bool :=
  match component with
  | none => (stream, false)
  | some component => (stream.print (config.componentItems component), true)

end Config

end Log

end ByteQueue
