import ByteQueue.ArrayId
import ByteQueue.Block
import ByteQueue.Failure
import ByteQueue.Text.Dump
import ByteQueue.Word

/-!
Handles: shared windows onto arrays. An array has an identity, so that two handles can be told
to share it, and handles to it can be counted. Taking a slice copies nothing: the slice is a
narrower window onto the same array, except that an empty slice lets go of the array.
-/
namespace ByteQueue

/-- An allocated array whose bytes no longer change. -/
structure SharedArray where
  id : ArrayId
  block : Block
  deriving DecidableEq

/-- A window of `size` bytes onto a shared array, or onto nothing. -/
structure Handle where
  array : Option SharedArray
  start : UInt64
  size : UInt64
  deriving DecidableEq

namespace Handle

/-- The handle without an array. -/
def empty : Handle := ⟨none, 0, 0⟩

/-- All of an array of its own; nothing is allocated for no bytes. -/
def ofBlock (id : ArrayId) (block : Block) : Handle :=
  if block.isEmpty then empty else ⟨some ⟨id, block⟩, 0, block.size⟩

/-- Takes over an array and shows its first `count` bytes. -/
def adopt (array : Option SharedArray) (count : UInt64) : Handle := ⟨array, 0, count⟩

/-- The `count` bytes at `offset` in the window, or those of them that exist. -/
def window (handle : Handle) (offset count : Nat) : Block :=
  match handle.array with
  | some array =>
    array.block.window (handle.start.toNat + offset) (min count (handle.size.toNat - offset))
  | none => .empty

/-- What the window shows. -/
def block (handle : Handle) : Block := handle.window 0 handle.size.toNat

/-- The bytes in the window. -/
def bytes (handle : Handle) : Bytes := handle.block.bytes

/-- The number of bytes in the window. -/
def length (handle : Handle) : Nat :=
  match handle.array with
  | some array => min handle.size.toNat (array.block.length - handle.start.toNat)
  | none => 0

theorem bytes_eq (handle : Handle) :
    handle.bytes = match handle.array with
      | some array => array.block.bytes.window handle.start.toNat handle.size.toNat
      | none => [] := by
  unfold bytes block window
  split <;> simp

@[simp] theorem length_bytes (handle : Handle) : handle.bytes.length = handle.length := by
  rw [bytes_eq, length]
  split <;> simp [Bytes.window]

@[simp] theorem bytes_window (handle : Handle) (offset count : Nat) :
    (handle.window offset count).bytes = handle.bytes.window offset count := by
  rw [bytes_eq]
  unfold window
  split
  · rw [Block.bytes_window, Bytes.window_window]
  · simp [Bytes.window]

def isEmpty (handle : Handle) : Bool := handle.size == 0

/-- The window of `count` bytes at `offset` in this one. The check is made by subtraction, so
that no sum can wrap around. -/
def slice (handle : Handle) (offset count : UInt64) : Except Failure Handle :=
  if offset > handle.size ∨ count > handle.size - offset then .error .sliceOutOfRange
  else if count = 0 then .ok empty
  else .ok ⟨handle.array, handle.start + offset, count⟩

/-- The consecutive slices of `limit` bytes, the last one possibly shorter. -/
def pieces (limit : UInt64) (handle : Handle) : List Handle :=
  (List.range ((handle.size.toNat + limit.toNat - 1) / limit.toNat)).map fun position =>
    let offset := position.toUInt64 * limit
    (handle.slice offset (min limit (handle.size - offset))).toOption.getD empty

/-- The identity of the array, if there is one. -/
def arrayId? (handle : Handle) : Option ArrayId := handle.array.map SharedArray.id

/-- Whether two handles are windows onto one array. -/
def sharing (first second : Handle) : Bool :=
  first.arrayId?.isSome && first.arrayId? == second.arrayId?

/-- Handles are equal in content if they show the same bytes. -/
def sameBytes (first second : Handle) : Bool :=
  first.size == second.size && first.block == second.block

/-- The window lies inside the array, and all positions in it are 64-bit words. A handle without
an array has an empty window. -/
def InBounds (handle : Handle) : Prop :=
  match handle.array with
  | some array =>
    handle.start.toNat + handle.size.toNat ≤ array.block.length ∧
      handle.start.toNat + handle.size.toNat < UInt64.size
  | none => handle.size = 0

theorem InBounds.length_eq {handle : Handle} (h : handle.InBounds) :
    handle.length = handle.size.toNat := by
  unfold InBounds at h
  unfold length
  split <;> simp_all
  omega

theorem bytes_slice {handle part : Handle} (hb : handle.InBounds) {offset count : UInt64}
    (h : handle.slice offset count = .ok part) :
    part.bytes = handle.bytes.window offset.toNat count.toNat := by
  unfold slice at h
  split at h
  · cases h
  · next hr =>
    split at h
    · next hc =>
      cases h
      simp [bytes_eq, empty, Bytes.window, hc]
    · cases h
      rw [not_or] at hr
      have ho : offset.toNat ≤ handle.size.toNat :=
        UInt64.le_iff_toNat_le.mp (UInt64.not_lt.mp hr.1)
      have hc := UInt64.le_iff_toNat_le.mp (UInt64.not_lt.mp hr.2)
      rw [UInt64.toNat_sub_of_le _ _ (UInt64.not_lt.mp hr.1)] at hc
      unfold InBounds at hb
      simp only [bytes_eq]
      split
      · next array ha =>
        simp only [ha] at hb
        rw [Bytes.window_window, UInt64.toNat_add, Nat.mod_eq_of_lt (by
          have := hb.2
          simp only [UInt64.size] at this
          omega), Nat.min_eq_left hc]
      · simp [Bytes.window]

/-- Slicing at consecutive offsets cuts the bytes into pieces. -/
theorem map_bytes_pieces {handle : Handle} (h : handle.InBounds) {limit : UInt64}
    (hl : limit ≠ 0) : (handle.pieces limit).map bytes = handle.bytes.pieces limit.toNat := by
  have hn : limit.toNat ≠ 0 := fun hn => hl (UInt64.toNat_inj.mp hn)
  rw [Bytes.pieces_eq_map_range hn, length_bytes, h.length_eq, pieces, List.map_map]
  refine List.map_congr_left fun position hp => ?_
  have hs := handle.size.toNat_lt
  have hp : position * limit.toNat < handle.size.toNat := by
    have := (Nat.le_div_iff_mul_le (Nat.pos_of_ne_zero hn)).mp (List.mem_range.mp hp)
    rw [Nat.succ_mul] at this
    omega
  have ho : (position.toUInt64 * limit).toNat = position * limit.toNat := by
    have : position ≤ position * limit.toNat := Nat.le_mul_of_pos_right _ (Nat.pos_of_ne_zero hn)
    rw [UInt64.toNat_mul, Nat.toUInt64, UInt64.toNat_ofNat',
      Nat.mod_eq_of_lt (a := position) (by omega), Nat.mod_eq_of_lt (by omega)]
  have hl : (handle.size - position.toUInt64 * limit).toNat =
      handle.size.toNat - position * limit.toNat := by
    rw [UInt64.toNat_sub_of_le _ _ (UInt64.le_iff_toNat_le.mpr (by omega)), ho]
  cases hr : handle.slice (position.toUInt64 * limit)
      (min limit (handle.size - position.toUInt64 * limit)) with
  | error failure =>
    unfold slice at hr
    split at hr
    · next hn =>
      simp only [gt_iff_lt, UInt64.lt_iff_toNat_lt, Word.toNat_min, ho, hl] at hn
      omega
    · split at hr <;> cases hr
  | ok part =>
    simp only [Function.comp_apply, hr, Except.toOption, Option.getD_some, bytes_slice h hr, ho,
      Word.toNat_min, hl, Bytes.window]
    rw [← h.length_eq, ← length_bytes, ← List.length_drop, ← List.take_eq_take_min]

/-- How many bytes `describe` shows. -/
def shownBytes : Nat := 32

/-- The handle as text, with the number of references to its array and its first bytes. -/
def describe (handle : Handle) (uses : Nat) : String :=
  let facts := s!"Handle [sz={handle.size}; use_count={uses}]"
  if handle.isEmpty then facts
  else
    let shown := String.ofList (Dump.quote (handle.window 0 shownBytes).bytes)
    let rest := if handle.size.toNat > shownBytes then "..." else ""
    s!"{facts} {shown}{rest}"

end Handle

end ByteQueue
