import ByteQueue.Queue.Project

/-!
Sinks: what queues are written to. A sink answers each write as its script says, and takes
everything without an error once the script has run out. It takes leading bytes of what it is
offered and answers how many; a script may also have it claim a byte more than it was given,
which no sound sink does.
-/
namespace ByteQueue

/-- How much of a write a sink takes. -/
inductive Acceptance where
  | all
  | atMost (count : UInt64)
  /-- At most `count` bytes, with a claim of `excess` more than are taken. As numbers of bytes have
  64 bits, a large excess is a claim of less. -/
  | overclaim (count excess : UInt64)
  deriving DecidableEq, Repr

/-- What is claimed in addition to what is taken. -/
def Acceptance.excess : Acceptance → UInt64
  | .all | .atMost _ => 0
  | .overclaim _ excess => excess

/-- The answer to one write: what is taken, and the number of an error, or 0. -/
structure Response where
  acceptance : Acceptance
  error : Int32
  deriving DecidableEq, Repr

namespace Response

/-- Takes everything, without an error. -/
def accept : Response := ⟨.all, 0⟩

/-- Claims just what is taken. -/
def Honest (response : Response) : Prop := response.acceptance.excess = 0

instance (response : Response) : Decidable response.Honest :=
  inferInstanceAs (Decidable (_ = _))

/-- The code that is reported; the number 0 is success. -/
def code (response : Response) : Code :=
  if response.error = 0 then .success else ⟨.stream, response.error⟩

end Response

/-- A stream to write to, with the answers that it has left to give. -/
structure Sink where
  script : List Response := []
  /-- The most slices that one write hands over, if that is bounded. -/
  sliceLimit : Option Nat := none
  /-- The number of writes so far. -/
  writes : Nat := 0
  /-- What each write took, the latest first. -/
  taken : List Block := []
  deriving DecidableEq

namespace Sink

/-- All that was taken, in order. -/
def block (sink : Sink) : Block := .join sink.taken.reverse

/-- All bytes taken, in order. -/
def bytes (sink : Sink) : Bytes := sink.block.bytes

/-- No answer in the script claims another number than that of the bytes taken. -/
def Honest (sink : Sink) : Prop := ∀ response ∈ sink.script, response.Honest

/-- What is handed over when a projection is written. -/
def offered (sink : Sink) (projection : Projection) : Projection :=
  match sink.sliceLimit with
  | none => projection
  | some limit => projection.atMost limit

/-- Writes what a projection shows: the sink afterwards, the number of bytes it claims to have
taken, and the code it reports. -/
def write (sink : Sink) (projection : Projection) : Sink × UInt64 × Code :=
  let response := sink.script.head?.getD .accept
  let offered := sink.offered projection
  let taken :=
    match response.acceptance with
    | .all => offered.block
    | .atMost count | .overclaim count _ => offered.first count.toNat
  ({ sink with
      script := sink.script.tail
      writes := sink.writes + 1
      taken := taken :: sink.taken },
    taken.size + response.acceptance.excess, response.code)

/-- Forgets the writes so far. -/
def reset (sink : Sink) : Sink := { sink with writes := 0, taken := [] }

end Sink

end ByteQueue
