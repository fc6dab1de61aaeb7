import ByteQueue.Text.Basic

/-!
The wire format of messages. A message is a magic word, its number, its position in the stream,
a text and a blob; numbers are big-endian, and text and blob follow their lengths in 32 bits.
-/
namespace ByteQueue

/-- The last `width` bytes of a number, the most significant one first. -/
def Bytes.bigEndian : Nat → Nat → Bytes
  | 0, _ => []
  | width + 1, n => bigEndian width (n / 256) ++ [n.toUInt8]

theorem Bytes.length_bigEndian (width n : Nat) : (Bytes.bigEndian width n).length = width := by
  induction width generalizing n with
  | zero => rfl
  | succ width ih => simp [Bytes.bigEndian, ih]

namespace Frame

/-- What every message begins with. -/
def magic : Bytes := Text.bytes "mess".toList

/-- The text of a message. -/
def text (index : UInt32) : Bytes :=
  Text.bytes ("message #".toList ++ Text.decimal index.toNat)

/-- The fields in front of the blob, each as it is appended. -/
def fields (index : UInt32) (offset : UInt64) (blobSize : UInt64) : List Bytes :=
  [magic, Bytes.bigEndian 4 index.toNat, Bytes.bigEndian 8 offset.toNat,
    Bytes.bigEndian 4 (text index).length, text index, Bytes.bigEndian 4 blobSize.toNat]

/-- The bytes of a message. -/
def bytes (index : UInt32) (offset : UInt64) (blob : Bytes) : Bytes :=
  (fields index offset blob.size).flatten ++ blob

end Frame

end ByteQueue
