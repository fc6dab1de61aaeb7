import ByteQueue.Session.Step

/-!
Whole sessions. A transcript holds all that a session tells from its beginning to its end, so that
two sessions can be compared.
-/
namespace ByteQueue

namespace Session

/-- Makes steps one after the other, as long as each has a meaning. -/
def steps (session : Session) : List Step → Option (Session × List Reply)
  | [] => some (session, [])
  | first :: rest => do
    let (session, reply) ← session.step first
    let (session, replies) ← session.steps rest
    return (session, reply :: replies)

theorem steps_cons_of_step {session after : Session} {first : Step} {reply : Reply}
    (h : session.step first = some (after, reply)) (rest : List Step) :
    session.steps (first :: rest) =
      (after.steps rest).map fun told => (told.1, reply :: told.2) := by
  rw [steps, h]
  show (after.steps rest >>= _) = _
  cases after.steps rest <;> rfl

/-- All that a session tells: a reply to each step, and what its end logged. -/
structure Transcript where
  replies : List Reply
  last : Option (List Event)
  deriving DecidableEq

/-- A whole session, from nothing, with a logger that is configured as given or without one. -/
def transcript (logger : Option Log.Config) (program : List Step) : Option Transcript := do
  let (session, replies) ← steps { logger } program
  return ⟨replies, session.logger.map fun _ => session.finish.events⟩

end Session

end ByteQueue
