import ByteQueue.Bytes
import ByteQueue.Sum

/-!
Text as a list of characters, with the two ways in which it is measured and sent: a text
counts as wide as its UTF-8 encoding is long, and it travels as those bytes.
-/
namespace ByteQueue

/-- A text, one character after the other. -/
abbrev Text := List Char

namespace Text

/-- The UTF-8 encoding. -/
def bytes (text : Text) : Bytes := text.flatMap String.utf8EncodeChar

/-- The width in bytes of the UTF-8 encoding. Padding counts in this unit. -/
def width (text : Text) : Nat := sumOf Char.utf8Size text

theorem length_bytes (text : Text) : (bytes text).length = width text := by
  induction text with
  | nil => rfl
  | cons c rest ih =>
    have hc : (String.utf8EncodeChar c).length = c.utf8Size := String.length_utf8EncodeChar c
    simp_all [bytes, width]

/-- What a NUL-terminated copy of a text holds: the part before its first NUL. -/
def terminated (text : Text) : Text := text.takeWhile (· ≠ '\x00')

theorem terminated_eq_self_iff {text : Text} : terminated text = text ↔ '\x00' ∉ text := by
  induction text with
  | nil => simp [terminated]
  | cons c rest ih => by_cases h : c = '\x00' <;> simp_all [terminated, eq_comm]

/-- The decimal digits of a number, without leading zeros. -/
def decimal (n : Nat) : Text := Nat.toDigits 10 n

end Text

end ByteQueue
