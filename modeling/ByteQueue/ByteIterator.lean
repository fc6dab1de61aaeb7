import ByteQueue.Block

/-!
Iterators over the bytes of several blocks. An iterator goes from byte to byte as if the blocks
were one, and back over bytes that it has passed. What a place stands for are the bytes before it
and those from it on; nothing else is known of an iterator.

A zipper is such an iterator. It keeps the blocks that it has left behind, nearest first, and
always stands at a byte or at the end.
-/
namespace ByteQueue

/-- A way to go through the bytes of a sequence of blocks. -/
structure ByteIterator where
  Place : Type
  /-- The first byte, or the end if there is none. -/
  start : List Block → Place
  /-- The byte at a place; there is none at the end. -/
  byte? : Place → Option UInt8
  next : Place → Place
  /-- So many bytes back. -/
  back : Nat → Place → Place
  /-- The bytes before a place, and those from it on. -/
  split : Place → Bytes × Bytes
  split_start (blocks : List Block) : split (start blocks) = ([], blocks.flatMap Block.bytes)
  byte?_eq (place : Place) : byte? place = (split place).2.head?
  split_next {place : Place} {before after : Bytes} {byte : UInt8}
    (h : split place = (before, byte :: after)) : split (next place) = (before ++ [byte], after)
  split_back {place : Place} {before data after : Bytes}
    (h : split place = (before ++ data, after)) :
    split (back data.length place) = (before, data ++ after)

theorem ByteIterator.split_of_byte? (iterator : ByteIterator) {place : iterator.Place}
    {byte : UInt8} (h : iterator.byte? place = some byte) :
    ∃ after, iterator.split place = ((iterator.split place).1, byte :: after) := by
  rw [iterator.byte?_eq] at h
  obtain ⟨after, hAfter⟩ := List.head?_eq_some_iff.mp h
  exact ⟨after, Prod.ext rfl hAfter⟩

namespace Zipper

/-- A position in the first of some blocks is that of a byte. If there is no block, it is 0. -/
def AtByte (position : Nat) : List Block → Prop
  | [] => position = 0
  | block :: _ => position < block.length

theorem atByte_nil : AtByte 0 [] := rfl

theorem AtByte.sub {position : Nat} {blocks : List Block} (h : AtByte position blocks)
    (count : Nat) : AtByte (position - count) blocks := by
  cases blocks with
  | nil => exact Nat.sub_eq_zero_of_le (Nat.le_trans (Nat.le_of_eq h) (Nat.zero_le count))
  | cons block rest => exact Nat.lt_of_le_of_lt (Nat.sub_le position count) h

theorem AtByte.le_length {position : Nat} {blocks : List Block} (h : AtByte position blocks) :
    position ≤ (blocks.flatMap Block.bytes).length := by
  cases blocks with
  | nil => exact Nat.le_of_eq h
  | cons block rest =>
    have hInside : position < block.length := h
    rw [List.flatMap_cons, List.length_append, Block.length_bytes]
    omega

end Zipper

/-- A place in a sequence of blocks: those left behind, nearest first, those ahead, and a position
in the first of the latter. -/
structure Zipper where
  behind : List Block
  ahead : List Block
  position : Nat
  atByte : Zipper.AtByte position ahead

namespace Zipper

/-- The first byte of some blocks, past all empty ones. -/
def enter (behind : List Block) : List Block → Zipper
  | [] => ⟨behind, [], 0, atByte_nil⟩
  | block :: rest =>
    if h : 0 < block.length then ⟨behind, block :: rest, 0, h⟩ else enter (block :: behind) rest

def byte? : Zipper → Option UInt8
  | ⟨_, [], _, _⟩ => none
  | ⟨_, block :: _, position, atByte⟩ => some (block.byte position atByte)

def next : Zipper → Zipper
  | ⟨behind, [], position, atByte⟩ => ⟨behind, [], position, atByte⟩
  | ⟨behind, block :: rest, position, _⟩ =>
    if h : position + 1 < block.length then ⟨behind, block :: rest, position + 1, h⟩
    else enter (block :: behind) rest

/-- From the beginning of the blocks ahead, one byte back and `further` ones. -/
def retreat (further : Nat) : List Block → List Block → Zipper
  | [], ahead => enter [] ahead
  | block :: behind, ahead =>
    if h : further < block.length then
      ⟨behind, block :: ahead, block.length - (further + 1),
        Nat.sub_lt_of_pos_le (Nat.succ_pos further) h⟩
    else retreat (further - block.length) behind (block :: ahead)

def back (count : Nat) (zipper : Zipper) : Zipper :=
  if count ≤ zipper.position then
    ⟨zipper.behind, zipper.ahead, zipper.position - count, zipper.atByte.sub count⟩
  else retreat (count - zipper.position - 1) zipper.behind zipper.ahead

/-- The bytes of the blocks behind. -/
def passed (behind : List Block) : Bytes := behind.reverse.flatMap Block.bytes

/-- The bytes before a place, and those from it on. -/
def split (zipper : Zipper) : Bytes × Bytes :=
  let data := zipper.ahead.flatMap Block.bytes
  (passed zipper.behind ++ data.take zipper.position,
    data.drop zipper.position)

theorem passed_cons (block : Block) (behind : List Block) :
    passed (block :: behind) = passed behind ++ block.bytes := by
  simp [passed]

theorem split_enter (behind blocks : List Block) :
    split (enter behind blocks) = (passed behind, blocks.flatMap Block.bytes) := by
  induction blocks generalizing behind with
  | nil => simp [enter, split]
  | cons block rest ih =>
    rw [enter]
    split
    · simp [Zipper.split]
    · next hEmpty =>
      have hNone : block.bytes = [] := by
        rw [← List.length_eq_zero_iff, Block.length_bytes]
        exact Nat.eq_zero_of_not_pos hEmpty
      rw [ih, passed_cons, List.flatMap_cons, hNone, List.append_nil, List.nil_append]

theorem byte?_eq (zipper : Zipper) : zipper.byte? = zipper.split.2.head? := by
  obtain ⟨behind, _ | ⟨block, rest⟩, position, atByte⟩ := zipper
  · simp [byte?, split]
  · have hInside : position < block.bytes.length := by
      rw [Block.length_bytes]
      exact atByte
    rw [byte?, split, List.head?_drop, List.flatMap_cons, List.getElem?_append_left hInside,
      block.getElem?_bytes atByte]

theorem split_next {zipper : Zipper} {before after : Bytes} {byte : UInt8}
    (h : zipper.split = (before, byte :: after)) :
    zipper.next.split = (before ++ [byte], after) := by
  obtain ⟨behind, _ | ⟨block, rest⟩, position, atByte⟩ := zipper
  · simp [split] at h
  · obtain ⟨hBefore, hAfter⟩ := Prod.ext_iff.mp h
    simp only [split] at hBefore hAfter
    have hTake : ((block :: rest).flatMap Block.bytes).take (position + 1) =
        ((block :: rest).flatMap Block.bytes).take position ++ [byte] := by
      rw [List.take_add_one, ← List.head?_drop, hAfter]
      rfl
    have hDrop : ((block :: rest).flatMap Block.bytes).drop (position + 1) = after := by
      rw [← List.drop_drop, hAfter, List.drop_one, List.tail_cons]
    rw [← hBefore, List.append_assoc, ← hTake, ← hDrop, next]
    split
    · rfl
    · next hLast =>
      have hEnd : position + 1 = block.bytes.length := by
        have : position < block.length := atByte
        rw [Block.length_bytes]
        omega
      rw [split_enter, passed_cons, hEnd, List.flatMap_cons, List.take_left, List.drop_left]

theorem split_retreat {further : Nat} {behind : List Block} (ahead : List Block)
    (h : further < (passed behind).length) :
    (retreat further behind ahead).split =
      ((passed behind).take ((passed behind).length - (further + 1)),
        (passed behind).drop ((passed behind).length - (further + 1)) ++
          ahead.flatMap Block.bytes) := by
  induction behind generalizing further ahead with
  | nil => cases h
  | cons block behind ih =>
    rw [passed_cons, List.length_append, Block.length_bytes] at h
    rw [retreat, passed_cons, List.length_append, Block.length_bytes]
    split
    · next hHere =>
      have hPlace : (passed behind).length + block.length - (further + 1) =
          (passed behind).length + (block.length - (further + 1)) := by omega
      have hInside : block.length - (further + 1) ≤ block.bytes.length := by
        rw [Block.length_bytes]
        exact Nat.sub_le ..
      rw [hPlace, List.take_length_add_append, List.drop_length_add_append]
      simp only [Zipper.split]
      rw [List.flatMap_cons, List.take_append_of_le_length hInside,
        List.drop_append_of_le_length hInside]
    · next hFurther =>
      have hPlace : (passed behind).length + block.length - (further + 1) =
          (passed behind).length - (further - block.length + 1) := by omega
      rw [ih (block :: ahead) (by omega), hPlace, List.flatMap_cons,
        List.take_append_of_le_length (Nat.sub_le ..),
        List.drop_append_of_le_length (Nat.sub_le ..), List.append_assoc]

theorem split_back_of_le {zipper : Zipper} {count : Nat} (h : count ≤ zipper.split.1.length) :
    (zipper.back count).split =
      (zipper.split.1.take (zipper.split.1.length - count),
        zipper.split.1.drop (zipper.split.1.length - count) ++ zipper.split.2) := by
  obtain ⟨behind, ahead, position, atByte⟩ := zipper
  have hLength : ((ahead.flatMap Block.bytes).take position).length = position :=
    List.length_take_of_le atByte.le_length
  simp only [split, List.length_append, hLength] at h
  unfold back
  simp only [Zipper.split, List.length_append, hLength]
  split
  · next hHere =>
    -- All of what is gone back over lies in the blocks ahead.
    have hRest := List.take_append_drop count
      ((ahead.flatMap Block.bytes).drop (position - count))
    rw [List.drop_drop, Nat.sub_add_cancel hHere] at hRest
    rw [Nat.add_sub_assoc hHere, List.take_length_add_append, List.drop_length_add_append,
      List.take_take, Nat.min_eq_left (Nat.sub_le ..), List.drop_take, Nat.sub_sub_self hHere,
      hRest]
  · next hFurther =>
    -- All that has been passed of the blocks ahead is gone back over, and more behind them.
    have hEnough : count - position - 1 < (passed behind).length := by omega
    have hPlace : (passed behind).length + position - count =
        (passed behind).length - (count - position - 1 + 1) := by omega
    have hBack := split_retreat ahead hEnough
    simp only [Zipper.split] at hBack
    rw [hBack, hPlace, List.take_append_of_le_length (Nat.sub_le ..),
      List.drop_append_of_le_length (Nat.sub_le ..), List.append_assoc, List.take_append_drop]

theorem split_back {zipper : Zipper} {before data after : Bytes}
    (h : zipper.split = (before ++ data, after)) :
    (zipper.back data.length).split = (before, data ++ after) := by
  rw [split_back_of_le (by rw [h, List.length_append]; exact Nat.le_add_left ..), h,
    List.length_append, Nat.add_sub_cancel, List.take_left, List.drop_left]

end Zipper

/-- Goes through blocks by means of a zipper. -/
def ByteIterator.zipper : ByteIterator where
  Place := Zipper
  start := Zipper.enter []
  byte? := Zipper.byte?
  next := Zipper.next
  back := Zipper.back
  split := Zipper.split
  split_start := Zipper.split_enter []
  byte?_eq := Zipper.byte?_eq
  split_next := Zipper.split_next
  split_back := Zipper.split_back

end ByteQueue
