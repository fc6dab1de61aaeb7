import ByteQueue.Encoder.Frame

/-!
Reading messages back. The reader knows the wire format and nothing of how messages are written:
it takes the fields one after the other, and each text and blob is as long as the length before
it says.
-/
namespace ByteQueue

/-- The number whose big-endian digits are the given bytes. -/
def Bytes.ofBigEndian (data : Bytes) : Nat :=
  data.foldl (fun value byte => 256 * value + byte.toNat) 0

/-- A message as it was read. -/
structure Message where
  index : Nat
  offset : Nat
  text : Bytes
  blob : Bytes
  deriving DecidableEq, Repr

namespace Message

/-- The next `count` bytes and what follows them. -/
def field? (count : Nat) (data : Bytes) : Option (Bytes × Bytes) :=
  if data.length < count then none else some (data.take count, data.drop count)

/-- The number in the next `count` bytes. -/
def number? (count : Nat) (data : Bytes) : Option (Nat × Bytes) :=
  (field? count data).map fun (digits, rest) => (digits.ofBigEndian, rest)

/-- A field that follows its own length in 32 bits. -/
def sized? (data : Bytes) : Option (Bytes × Bytes) :=
  (number? 4 data).bind fun (length, rest) => field? length rest

/-- The message at the front of the data, and what follows it. -/
def read? (data : Bytes) : Option (Message × Bytes) := do
  let (magic, rest) ← field? Frame.magic.length data
  guard (magic = Frame.magic)
  let (index, rest) ← number? 4 rest
  let (offset, rest) ← number? 8 rest
  let (text, rest) ← sized? rest
  let (blob, rest) ← sized? rest
  return (⟨index, offset, text, blob⟩, rest)

/-- `count` messages that make up all of the data. -/
def readAll? : Nat → Bytes → Option (List Message)
  | 0, data => if data = [] then some [] else none
  | count + 1, data => do
    let (message, rest) ← read? data
    let others ← readAll? count rest
    return message :: others

theorem readAll?_succ {data rest : Bytes} {message : Message}
    (h : read? data = some (message, rest)) (count : Nat) :
    readAll? (count + 1) data = (readAll? count rest).map (message :: ·) := by
  rw [readAll?, h]
  show (readAll? count rest >>= _) = _
  cases readAll? count rest <;> rfl

end Message

end ByteQueue
