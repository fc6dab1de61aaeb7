import ByteQueue.ByteIterator
import ByteQueue.Text.Stream

/-!
Hexadecimal dumps. A line shows its bytes twice: as two-digit numbers, filled up with blanks
to the full line length, and as characters, where everything outside printable ASCII is a dot.

A dump is printed item by item under the format of the stream that receives it. Base,
alignment and fill are set for the dump; the remaining switches and a pending width act on it
as on any other output. Afterwards the stream has the format it had before.

The bytes of several blocks are dumped with an iterator, which goes over each line twice.
-/
namespace ByteQueue

/-- How many bytes share a line. -/
inductive LineLength where
  | bytes (count : Nat)
  /-- All of them, on a line without a line break. -/
  | whole
  deriving DecidableEq, Repr

/-- The word 0 stands for the usual 16 bytes a line, the greatest word for a single line. -/
def LineLength.ofWord (word : UInt64) : LineLength :=
  if word = 0 then .bytes 16 else if word = -1 then .whole else .bytes word.toNat

/-- The number of bytes on a full line, where there are `size` of them altogether. -/
def LineLength.full (size : Nat) : LineLength → Nat
  | .bytes count => count
  | .whole => size

namespace Dump

/-- A byte as itself if it is a printable ASCII character, as a dot otherwise. -/
def glyph (byte : UInt8) : Char :=
  if 0x20 ≤ byte ∧ byte ≤ 0x7e then Char.ofUInt8 byte else '.'

/-- A number of at least two places. -/
def byteItems (byte : UInt8) : List Item := [.change (.width 2), .signed32 byte.toUInt32.toInt32]

/-- The numbers of a line, with one blank between neighbours. -/
def numberItems : Bytes → List Item
  | [] => []
  | first :: rest => byteItems first ++ rest.flatMap fun byte => .char ' ' :: byteItems byte

/-- One line of at most `full` bytes, up to the closing bracket. -/
def lineItems (indentation : Text) (full : Nat) (line : Bytes) : List Item :=
  .text indentation :: .char '[' :: numberItems line
    ++ List.replicate (full - line.length) (.text "   ".toList)
    ++ .char '|' :: line.map (fun byte => .char (glyph byte))
    ++ [.char ']']

/-- All lines of a dump. -/
def items (data : Bytes) (indentation : Text) : LineLength → List Item
  | .whole => (Bytes.pieces 0 data).flatMap (lineItems indentation data.length)
  | .bytes count => (Bytes.pieces count data).flatMap fun line =>
      lineItems indentation count line ++ [.char '\n']

/-- The format in which a stream that prints under `f` shows a dump. -/
def format (f : Format) : Format :=
  { f with base := .hexadecimal, align := .right, fill := '0' }

/-- The text that a stream printing under `f` receives. -/
def print (f : Format) (data : Bytes) (indentation : Text) (lines : LineLength) : Text :=
  ((format f).printAll (items data indentation lines)).1

/-- The dump as a text of its own. -/
def text (data : Bytes) (indentation : Text) (lines : LineLength) : Text :=
  print {} data indentation lines

/-- The dump on one line, as messages quote it. -/
def quote (data : Bytes) : Text := text data [] .whole

/-! The layout of a dump, without a stream: what a text looks like that nobody's format
disturbs. -/

/-- A byte as two lower-case hexadecimal digits. -/
def digits (byte : UInt8) : Text :=
  [Nat.digitChar (byte.toNat / 16), Nat.digitChar (byte.toNat % 16)]

/-- One line, up to the closing bracket. -/
def lineLayout (indentation : Text) (full : Nat) (line : Bytes) : Text :=
  indentation ++ '[' :: [' '].intercalate (line.map digits)
    ++ List.replicate (3 * (full - line.length)) ' '
    ++ '|' :: line.map glyph ++ [']']

/-- All lines. -/
def layout (data : Bytes) (indentation : Text) : LineLength → Text
  | .whole => if data = [] then [] else lineLayout indentation data.length data
  | .bytes count => (Bytes.pieces count data).flatMap fun line =>
      lineLayout indentation count line ++ ['\n']

end Dump

/-- Prints a dump; the format of the stream stays as it is. -/
def TextStream.dump (stream : TextStream) (data : Bytes) (indentation : Text)
    (lines : LineLength) : TextStream :=
  { stream with text := stream.text ++ Dump.print stream.format data indentation lines }

namespace Dump

/-! Dumps of several blocks. The loops go from byte to byte wherever the blocks begin and end. -/

/-- What ends a line. -/
def ending : LineLength → List Item
  | .bytes _ => [.char '\n']
  | .whole => []

variable (iterator : ByteIterator)

/-- The numbers after the first one of a line, as long as there are bytes and `room` for them, with
how many there are and the place after them. -/
def moreNumbers : Nat → iterator.Place → List Item × Nat × iterator.Place
  | 0, place => ([], 0, place)
  | room + 1, place =>
    match iterator.byte? place with
    | none => ([], 0, place)
    | some byte =>
      let (items, count, last) := moreNumbers room (iterator.next place)
      (.char ' ' :: byteItems byte ++ items, count + 1, last)

/-- So many bytes as characters, and the place after them. -/
def glyphs : Nat → iterator.Place → List Item × iterator.Place
  | 0, place => ([], place)
  | count + 1, place =>
    match iterator.byte? place with
    | none => ([], place)
    | some byte =>
      let (items, last) := glyphs count (iterator.next place)
      (.char (glyph byte) :: items, last)

/-- A line that begins with the given byte: its numbers, then back, and the same bytes as
characters. -/
def line (indentation : Text) (full : Nat) (byte : UInt8) (place : iterator.Place) :
    List Item × iterator.Place :=
  let (numbers, count, last) := moreNumbers iterator (full - 1) (iterator.next place)
  let (characters, after) := glyphs iterator (count + 1) (iterator.back (count + 1) last)
  (.text indentation :: .char '[' :: (byteItems byte ++ numbers)
    ++ List.replicate (full - (count + 1)) (.text "   ".toList)
    ++ .char '|' :: characters
    ++ [.char ']'], after)

variable {iterator}

theorem moreNumbers_eq (room : Nat) {place : iterator.Place} {before after : Bytes}
    (h : iterator.split place = (before, after)) :
    ∃ last, moreNumbers iterator room place =
        ((after.take room).flatMap fun byte => .char ' ' :: byteItems byte,
          (after.take room).length, last) ∧
      iterator.split last = (before ++ after.take room, after.drop room) := by
  induction room generalizing place before after with
  | zero => exact ⟨place, rfl, by simpa using h⟩
  | succ room ih =>
    have hByte := iterator.byte?_eq place
    rw [h] at hByte
    cases after with
    | nil => exact ⟨place, by rw [moreNumbers, hByte]; rfl, by simpa using h⟩
    | cons byte after =>
      obtain ⟨last, hItems, hLast⟩ := ih (iterator.split_next h)
      refine ⟨last, ?_, ?_⟩
      · rw [moreNumbers, hByte]
        simp [hItems]
      · simpa using hLast

theorem glyphs_eq {place : iterator.Place} {before data after : Bytes}
    (h : iterator.split place = (before, data ++ after)) :
    ∃ last, glyphs iterator data.length place = (data.map fun byte => .char (glyph byte), last) ∧
      iterator.split last = (before ++ data, after) := by
  induction data generalizing place before with
  | nil => exact ⟨place, rfl, by simpa using h⟩
  | cons byte data ih =>
    have hByte := iterator.byte?_eq place
    rw [h] at hByte
    obtain ⟨last, hItems, hLast⟩ := ih (iterator.split_next h)
    refine ⟨last, ?_, by simpa using hLast⟩
    rw [List.length_cons, glyphs, hByte]
    simp [hItems]

/-- A line shows its first byte and as many of those after it as fit. -/
theorem line_eq (indentation : Text) (full : Nat) {place : iterator.Place} {before after : Bytes}
    {byte : UInt8} (h : iterator.split place = (before, byte :: after)) :
    ∃ last, line iterator indentation full byte place =
        (lineItems indentation full (byte :: after.take (full - 1)), last) ∧
      iterator.split last = (before ++ byte :: after.take (full - 1), after.drop (full - 1)) := by
  obtain ⟨last, hNumbers, hLast⟩ := moreNumbers_eq (full - 1) (iterator.split_next h)
  rw [List.append_assoc] at hLast
  obtain ⟨after, hGlyphs, hAfter⟩ := glyphs_eq (iterator.split_back hLast)
  refine ⟨after, ?_, hAfter⟩
  simp only [List.singleton_append, List.length_cons] at hGlyphs
  simp only [line, hNumbers, hGlyphs, lineItems, numberItems, List.length_cons]

variable (iterator)

/-- All that is inserted from a place on, line after line. -/
def insertions (indentation : Text) (full : Nat) (ending : List Item) (place : iterator.Place) :
    List Item :=
  match _ : iterator.byte? place with
  | none => []
  | some byte =>
    (line iterator indentation full byte place).1 ++ ending ++
      insertions indentation full ending (line iterator indentation full byte place).2
termination_by (iterator.split place).2.length
decreasing_by
  next hByte =>
  obtain ⟨after, hAfter⟩ := iterator.split_of_byte? hByte
  obtain ⟨last, hLine, hLast⟩ := line_eq indentation full hAfter
  rw [hLine, hLast, hAfter, List.length_drop, List.length_cons]
  omega

/-- All that is inserted for the bytes of some blocks. -/
def blockItems (blocks : List Block) (indentation : Text) (lines : LineLength) : List Item :=
  insertions iterator indentation (lines.full (sumOf Block.length blocks)) (ending lines)
    (iterator.start blocks)

end Dump

/-- Prints a dump of the bytes of some blocks. The flags, the fill and the width that the stream had
are restored at the end. -/
def TextStream.dumpBlocks (stream : TextStream) (iterator : ByteIterator) (blocks : List Block)
    (indentation : Text) (lines : LineLength) : TextStream :=
  let printed := stream.print
    ([.change (.align .right), .change (.base .hexadecimal), .change (.fill '0')]
      ++ Dump.blockItems iterator blocks indentation lines)
  let restored := { printed.format.withFlags stream.format with
    fill := stream.format.fill, width := stream.format.width }
  { printed with format := restored }

/-- The dump of the bytes of some blocks as a text of its own. -/
def Dump.ofBlocks (iterator : ByteIterator) (blocks : List Block) (indentation : Text)
    (lines : LineLength) : Text :=
  (({} : TextStream).dumpBlocks iterator blocks indentation lines).text

end ByteQueue
