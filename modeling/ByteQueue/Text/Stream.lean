import ByteQueue.Text.Format

/-!
A text stream: what has been printed so far together with the format of what comes next.
Clearing a stream forgets the text and keeps the format.
-/
namespace ByteQueue

/-- A stream that collects text. -/
structure TextStream where
  text : Text := []
  format : Format := {}
  deriving DecidableEq

namespace TextStream

def print (stream : TextStream) (items : List Item) : TextStream :=
  let (added, format) := stream.format.printAll items
  ⟨stream.text ++ added, format⟩

def clear (stream : TextStream) : TextStream := { stream with text := [] }

end TextStream

/-- Appends the text of each item to `target`, every item on a fresh stream of its own. -/
def Text.appendEach (target : Text) (items : List Item) : Text :=
  target ++ items.flatMap fun item => Text.ofItems [item]

end ByteQueue
