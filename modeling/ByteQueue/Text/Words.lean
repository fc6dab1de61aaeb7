import ByteQueue.Text.Basic

/-! Words: what blank characters separate. -/
namespace ByteQueue.Text

/-- The blank characters are the space and the five control characters from tabulator to
carriage return. -/
def isBlank (char : Char) : Bool := char == ' ' || ('\t' ≤ char && char ≤ '\r')

/-- The next word of a text and what follows it; where no word is left, it is empty. -/
def nextWord (text : Text) : Text × Text :=
  let rest := text.dropWhile isBlank
  (rest.takeWhile (!isBlank ·), rest.dropWhile (!isBlank ·))

end ByteQueue.Text
