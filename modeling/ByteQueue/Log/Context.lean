import ByteQueue.Log.Config
import ByteQueue.Logged

/-!
Contexts: what a call site logs with. Each site asks for itself whether its message is to be
logged, and works the message out only then: it needs a logger, and the logger must let the
severity pass for the component of the site.
-/
namespace ByteQueue.Log

/-- The configuration of the logger of a call site, if it has a logger, and the component that the
site speaks for. -/
structure Context where
  logger : Option Config
  component : Option Component
  deriving DecidableEq

namespace Context

/-- The check that every call site makes. -/
def shouldLog (context : Context) (severity : Severity) : Bool :=
  context.logger.any fun config => config.shouldLog severity context.component

/-- A call site: reports an event if the check says so, and does nothing otherwise. -/
def emit {ε : Type} (context : Context) (severity : Severity) (event : ε) : Logged ε Unit :=
  if context.shouldLog severity then Logged.note event else pure ()

theorem events_emit {ε : Type} (context : Context) (severity : Severity) (event : ε) :
    (context.emit severity event).events = [event].filter fun _ => context.shouldLog severity := by
  unfold emit
  split <;> simp [*]

end Context

end ByteQueue.Log
