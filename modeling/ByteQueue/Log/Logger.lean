import ByteQueue.Log.Context
import ByteQueue.Text.Location

/-!
Loggers. A logger writes each record as one line to a text stream, or, if it has a second
stream for alarms, to that one when the severity is a warning or worse. Filtering is up to the
caller: a logger answers what it should log, and writes whatever it is given.
-/
namespace ByteQueue.Log

/-- One message and the circumstances of its logging. -/
structure Record where
  severity : Severity
  component : Option Component
  file : Text
  function : Text
  line : UInt32
  message : Text
  deriving DecidableEq

/-- When and by whom a record was logged, as text. -/
structure Stamp where
  time : Text
  thread : Text

/-- The line of a record:
`time [severity]: Tthread: component: file:function(line): message`, without the part on the
component if there is none. -/
def Record.items (config : Config) (stamp : Stamp) (record : Record) : List Item :=
  [.text stamp.time, .char '[', .text record.severity.shortName, .text "]: T".toList,
    .text stamp.thread, .text ": ".toList]
  ++ (match record.component with
    | none => []
    | some component => config.componentItems component ++ [.text ": ".toList])
  ++ [.text record.file, .char ':', .text record.function, .char '(',
    .unsigned record.line.toUInt64, .text "): ".toList, .text record.message, .char '\n',
    .change .flush]

/-- A logger with its configuration and the streams it writes to. -/
structure Logger where
  config : Config := {}
  main : TextStream := {}
  /-- The stream for warnings and worse, if they have one of their own. -/
  alarms : Option TextStream := none

namespace Logger

def shouldLog (logger : Logger) (severity : Severity) (component : Option Component) : Bool :=
  logger.config.shouldLog severity component

/-- Writes a record, whatever the verbosities say. -/
def write (logger : Logger) (stamp : Stamp) (record : Record) : Logger :=
  let items := record.items logger.config stamp
  match logger.alarms with
  | some alarms =>
    if record.severity.level ≤ Severity.warning.level then
      { logger with alarms := some (alarms.print items) }
    else { logger with main := logger.main.print items }
  | none => { logger with main := logger.main.print items }

/-- Writes a record if its severity passes for its component. -/
def log (logger : Logger) (stamp : Stamp) (record : Record) : Logger :=
  if logger.shouldLog record.severity record.component then logger.write stamp record else logger

/-- Forgets the text of all streams. -/
def clear (logger : Logger) : Logger :=
  { logger with main := logger.main.clear, alarms := logger.alarms.map TextStream.clear }

end Logger

/-- Logs a message from a call site, with the logger of its context; the file is named without its
directory. What the site reports is written. -/
def Context.log (context : Context) (logger : Logger) (stamp : Stamp) (severity : Severity)
    (path function : Text) (line : UInt32) (message : Text) : Logger :=
  let record : Record :=
    ⟨severity, context.component, Location.lastSegment path, function, line, message⟩
  (context.emit severity record).events.foldl (fun logger record => logger.write stamp record)
    logger

end ByteQueue.Log
