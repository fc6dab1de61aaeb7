import ByteQueue.Text.Stream

/-! Where a message comes from: file names without their directory, and call sites. -/
namespace ByteQueue.Location

/-- What follows the last slash of a path; the whole path if there is none. -/
def lastSegment (path : Text) : Text :=
  (path.reverse.takeWhile (· ≠ '/')).reverse

/-- A call site as file, function and line. -/
def describe (file function : Text) (line : UInt32) : Text :=
  Text.ofItems [.text file, .char ':', .text function, .char '(', .unsigned line.toUInt64,
    .char ')']

end ByteQueue.Location
