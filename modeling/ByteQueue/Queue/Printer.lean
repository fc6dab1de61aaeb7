import ByteQueue.Block
import ByteQueue.Text.Format

/-!
A text stream on top of a queue. Characters collect in the printer, and a flush passes all of them
on together; each such passage is one append to the queue. The format lasts as long as the printer.

What lies between the stream and the queue is a stream buffer, and this is what is assumed of it:
it passes nothing on before it is flushed, a flush is one write of all that is pending, and to close
it is to flush it. It behaves so as long as it has room, that is with fewer than 4096 characters
pending at any time.
-/
namespace ByteQueue

/-- Text on its way into a queue. -/
structure Printer where
  pending : Text := []
  format : Format := {}
  deriving DecidableEq

namespace Printer

/-- What a flush passes on. -/
def collected (printer : Printer) : Block := .ofBytes (Text.bytes printer.pending)

/-- Prints items one after the other: what the flushes among them pass on, and the printer
afterwards. -/
def print (printer : Printer) : List Item → List Block × Printer
  | [] => ([], printer)
  | .change .flush :: rest =>
    let (passed, after) := print { printer with pending := [] } rest
    (printer.collected :: passed, after)
  | item :: rest =>
    let (text, format) := printer.format.print item
    print ⟨printer.pending ++ text, format⟩ rest

end Printer

end ByteQueue
