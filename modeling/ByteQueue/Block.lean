import ByteQueue.Bytes

/-!
Blocks: byte strings packed into memory. A block holds what its `bytes` say and nothing more, and
every operation here is described by what it does to them. Queues and handles keep their data in
blocks; a list of bytes is for stating what that data is.
-/
namespace ByteQueue

/-- A packed string of bytes. -/
structure Block where
  array : ByteArray

instance : DecidableEq Block := fun first second =>
  match ByteArray.decEq first.array second.array with
  | isTrue h => isTrue (congrArg Block.mk h)
  | isFalse h => isFalse fun hn => h (congrArg Block.array hn)

namespace Block

/-- The bytes in the block. -/
def bytes (block : Block) : Bytes := block.array.data.toList

/-- The number of bytes. -/
def length (block : Block) : Nat := block.array.size

/-- The number of bytes, as a 64-bit word. -/
def size (block : Block) : UInt64 := block.length.toUInt64

/-- The byte at a position. -/
def byte (block : Block) (position : Nat) (h : position < block.length) : UInt8 :=
  block.array[position]

def isEmpty (block : Block) : Bool := block.length == 0

def empty : Block := ⟨.empty⟩

def ofBytes (data : Bytes) : Block := ⟨data.toByteArray⟩

def append (first second : Block) : Block := ⟨first.array ++ second.array⟩

instance : Append Block := ⟨append⟩

/-- `count` copies of a block, one after the other. -/
def times (block : Block) (count : Nat) : Block :=
  if count = 0 then empty
  else
    let half := block.times (count / 2)
    if count % 2 = 0 then half ++ half else half ++ half ++ block
termination_by count

/-- Several blocks, one after the other. -/
def join : List Block → Block
  | [block] => block
  | blocks => blocks.foldl append empty

/-- The `count` bytes that begin at position `start`, or those of them that exist. All of a
block is the block itself. -/
def window (block : Block) (start count : Nat) : Block :=
  if start = 0 ∧ block.length ≤ count then block
  else ⟨block.array.extract start (start + min count (block.length - start))⟩

/-- Consecutive pieces of `limit` bytes, the last one possibly shorter. The limit 0 stands
for no limit: all of the data is one piece. There is no empty piece. -/
def pieces (limit : Nat) (block : Block) : List Block :=
  if limit = 0 then
    if block.isEmpty then [] else [block]
  else
    (List.range ((block.length + limit - 1) / limit)).map fun position =>
      block.window (position * limit) limit

@[simp] theorem length_bytes (block : Block) : block.bytes.length = block.length := by
  simp [bytes, length]

theorem getElem?_bytes (block : Block) {position : Nat} (h : position < block.length) :
    block.bytes[position]? = some (block.byte position h) := by
  have hInside : position < block.bytes.length := by rwa [length_bytes]
  rw [List.getElem?_eq_getElem hInside]
  rfl

theorem size_eq (block : Block) : block.size = block.bytes.size := by
  simp [size, Bytes.size]

/-- A block is determined by its bytes. -/
theorem bytes_inj {first second : Block} : first.bytes = second.bytes ↔ first = second := by
  obtain ⟨⟨first⟩⟩ := first
  obtain ⟨⟨second⟩⟩ := second
  simp [bytes]

@[simp] theorem bytes_empty : empty.bytes = [] := rfl

@[simp] theorem bytes_ofBytes (data : Bytes) : (ofBytes data).bytes = data := by
  simp [ofBytes, bytes]

@[simp] theorem ofBytes_bytes (block : Block) : ofBytes block.bytes = block :=
  bytes_inj.mp (bytes_ofBytes block.bytes)

@[simp] theorem bytes_append (first second : Block) :
    (first ++ second).bytes = first.bytes ++ second.bytes := by
  show (first.array ++ second.array).data.toList = _
  simp [bytes]

theorem isEmpty_iff {block : Block} : block.isEmpty = true ↔ block.bytes = [] := by
  rw [isEmpty, ← length_bytes, beq_iff_eq, List.length_eq_zero_iff]

@[simp] theorem bytes_times (block : Block) (count : Nat) :
    (block.times count).bytes = (List.replicate count block.bytes).flatten := by
  fun_induction times block count with
  | case1 => simp
  | case2 count h half hm ih =>
    have : count = count / 2 + count / 2 := by omega
    rw [bytes_append, ih, ← List.flatten_append, List.replicate_append_replicate, ← this]
  | case3 count h half hm ih =>
    have : count = count / 2 + count / 2 + 1 := by omega
    rw [bytes_append, bytes_append, ih, ← List.flatten_append, List.replicate_append_replicate,
      ← List.flatten_concat, ← List.replicate_succ', ← this]

@[simp] theorem bytes_join (blocks : List Block) :
    (join blocks).bytes = blocks.flatMap bytes := by
  have h (blocks : List Block) (start : Block) :
      (blocks.foldl append start).bytes = start.bytes ++ blocks.flatMap bytes := by
    induction blocks generalizing start with
    | nil => simp
    | cons block rest ih =>
      rw [List.foldl_cons, ih, show append start block = start ++ block from rfl]
      simp
  unfold join
  split
  · simp
  · simp [h]

@[simp] theorem bytes_window (block : Block) (start count : Nat) :
    (block.window start count).bytes = block.bytes.window start count := by
  unfold window
  split
  · next h =>
    rw [h.1, Bytes.window, List.drop_zero, List.take_of_length_le (by rw [length_bytes]; exact h.2)]
  · have hl : (block.bytes.drop start).length = block.length - start := by simp
    have hw : bytes ⟨block.array.extract start (start + min count (block.length - start))⟩ =
        (block.bytes.drop start).take (min count (block.length - start)) := by
      simp [bytes, List.extract_eq_take_drop]
    rw [hw, Bytes.window, ← hl, ← List.take_eq_take_min]

/-- The pieces of a block are the pieces of its bytes. -/
theorem map_bytes_pieces (limit : Nat) (block : Block) :
    (block.pieces limit).map bytes = block.bytes.pieces limit := by
  by_cases hl : limit = 0
  · subst hl
    cases hb : block.bytes with
    | nil => simp [pieces, isEmpty_iff.mpr hb, Bytes.pieces]
    | cons first rest =>
      have : block.isEmpty = false := Bool.eq_false_iff.mpr fun h => by simp_all [isEmpty_iff]
      simp [pieces, this, hb, Bytes.pieces]
  · simp [pieces, hl, Bytes.pieces_eq_map_range hl, Function.comp_def]

theorem flatMap_bytes_pieces (limit : Nat) (block : Block) :
    (block.pieces limit).flatMap bytes = block.bytes := by
  rw [List.flatMap_def, map_bytes_pieces, Bytes.flatten_pieces]

theorem bytes_mem_pieces {limit : Nat} {block piece : Block} (h : piece ∈ block.pieces limit) :
    piece.bytes ∈ block.bytes.pieces limit := by
  rw [← map_bytes_pieces]
  exact List.mem_map_of_mem h

/-- Conversely a block is cut as its bytes are. -/
theorem pieces_eq (limit : Nat) (block : Block) :
    block.pieces limit = (block.bytes.pieces limit).map ofBytes := by
  rw [← map_bytes_pieces, List.map_map]
  exact (List.map_id'' (fun piece => piece.ofBytes_bytes) _).symm

end Block

end ByteQueue
