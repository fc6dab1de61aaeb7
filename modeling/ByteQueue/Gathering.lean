import ByteQueue.Chain
import ByteQueue.Chunk

/-!
Gathering: the bytes in some range of a sequence of chunks, taken together. The chunks are passed
one after the other, and as soon as nothing more is wanted the rest of them need not be looked at.
-/
namespace ByteQueue

/-- Bytes that are being gathered. -/
structure Gathering where
  /-- How many more chunks may be looked at. -/
  chunks : Nat
  /-- How many bytes are still to be passed over. -/
  skip : Nat
  /-- How many bytes are still to be taken. -/
  wanted : Nat
  /-- What was taken so far, the latest first. -/
  found : List Block

namespace Gathering

/-- Whether another chunk is needed. -/
def goes (gathering : Gathering) : Bool := gathering.wanted != 0 && gathering.chunks != 0

/-- Takes what is wanted of a chunk. -/
def add (gathering : Gathering) (chunk : Chunk) : Gathering :=
  let chunks := gathering.chunks - 1
  if chunk.length ≤ gathering.skip then
    { gathering with chunks, skip := gathering.skip - chunk.length }
  else
    let part := chunk.window gathering.skip gathering.wanted
    ⟨chunks, 0, gathering.wanted - part.length, part :: gathering.found⟩

/-- All that was taken. -/
def block (gathering : Gathering) : Block := .join gathering.found.reverse

/-- What is taken of some chunks is the range that is wanted of their bytes. -/
theorem bytes_foldWhile (gathering : Gathering) (chunks : List Chunk) :
    (foldWhile goes add gathering chunks).block.bytes =
      gathering.block.bytes ++ Bytes.window ((chunks.take gathering.chunks).flatMap Chunk.bytes)
        gathering.skip gathering.wanted := by
  induction chunks generalizing gathering with
  | nil => simp [foldWhile, Bytes.window]
  | cons chunk rest ih =>
    obtain ⟨limit, skip, wanted, found⟩ := gathering
    cases limit with
    | zero => simp [foldWhile, goes, Bytes.window]
    | succ limit =>
      cases wanted with
      | zero => simp [foldWhile, goes, Bytes.window]
      | succ wanted =>
        have hg : goes ⟨limit + 1, skip, wanted + 1, found⟩ = true := by simp [goes]
        rw [foldWhile, if_pos hg, ih]
        unfold add
        have hl := chunk.length_bytes
        by_cases h : chunk.length ≤ skip
        · have hd : chunk.bytes.drop skip = [] := List.drop_eq_nil_of_le (by omega)
          simp [h, block, Bytes.window, List.drop_append, hd]
        · have hw : wanted + 1 - (chunk.window skip (wanted + 1)).length =
              wanted + 1 - (chunk.length - skip) := by
            rw [Chunk.length_window]
            omega
          have hs : skip - chunk.length = 0 := by omega
          simp [h, hw, hs, block, Bytes.window, List.drop_append, List.take_append]

end Gathering

end ByteQueue
