import ByteQueue.Proofs.Queue.Step

/-! The slices of a projection: one for each of the first chunks, with all that is left of it. They
are put into a vector that may hold other slices, from an earlier projection or of anything else.
When all bytes in them are confirmed, just the chunks that they show are gone. -/
namespace ByteQueue.Queue

/-- Puts what is left of each chunk behind the slices in a vector, until it has `limit` of them. The
number of bytes in the new ones is told. -/
def gatherSlices (limit : Nat) : List Chunk → UInt64 → StateM (List Block) UInt64
  | [], _ => return 0
  | chunk :: rest, offset => do
    if (← get).length = limit then return 0
    let count := chunk.size - offset
    modify (· ++ [chunk.window offset.toNat count.toNat])
    return count + (← gatherSlices limit rest 0)

/-- Projects a queue into a vector, whose former slices are dropped. -/
def projectInto (queue : Queue) (limit : UInt64) : StateM (List Block) UInt64 := do
  set ([] : List Block)
  gatherSlices (queue.sliceLimit limit) queue.chunks queue.headOffset

theorem remainders_zero (chunks : List Chunk) : remainders 0 chunks = chunks.map Chunk.block := by
  cases chunks with
  | nil => rfl
  | cons head rest =>
    have hHead : remainder 0 head = head.block :=
      Block.bytes_inj.mp (by rw [bytes_remainder]; rfl)
    rw [remainders, hHead, List.map_cons]

theorem length_remainders (offset : UInt64) (chunks : List Chunk) :
    (remainders offset chunks).length = chunks.length := by
  cases chunks with
  | nil => rfl
  | cons head rest => rw [remainders, List.length_cons, List.length_map, List.length_cons]

theorem getElem?_remainders (offset : UInt64) (chunks : List Chunk) (position : Nat) :
    (remainders offset chunks)[position]? = chunks[position]?.map fun chunk =>
      if position = 0 then remainder offset chunk else chunk.block := by
  cases chunks with
  | nil => rfl
  | cons head rest =>
    cases position with
    | zero => rfl
    | succ position => simp [remainders]

/-- What is left of a chunk is shown from the cursor to its end. -/
theorem window_eq_remainder {chunk : Chunk} (h : chunk.WellFormed) {offset : UInt64}
    (hOffset : offset.toNat < chunk.length) :
    chunk.window offset.toNat (chunk.size - offset).toNat = remainder offset chunk ∧
      chunk.size - offset = (remainder offset chunk).size := by
  have hLeft := h.toNat_left hOffset.le
  have hLength : (remainder offset chunk).length = chunk.length - offset.toNat := by
    rw [← Block.length_bytes, bytes_remainder, List.length_drop, Chunk.length_bytes]
  have hShort := h.length_lt
  exact ⟨window_left hLeft,
    UInt64.toNat_inj.mp (by rw [hLeft, Block.toNat_size (by omega), hLength])⟩

theorem run_gatherSlices_cons (limit : Nat) (chunk : Chunk) (rest : List Chunk) (offset : UInt64)
    (slices : List Block) :
    (gatherSlices limit (chunk :: rest) offset).run slices =
      if slices.length = limit then (0, slices)
      else
        let count := chunk.size - offset
        let later := (gatherSlices limit rest 0).run
          (slices ++ [chunk.window offset.toNat count.toNat])
        (count + later.1, later.2) := by
  rw [gatherSlices]
  by_cases hFull : slices.length = limit
  · simp only [hFull, StateT.run_bind, StateT.run_get, pure_bind, if_true]
    rfl
  · simp only [hFull, StateT.run_bind, StateT.run_get, pure_bind, if_false]
    rfl

/-- The loop adds the slices of as many chunks as there is room for, and tells the sum of their
sizes. The cursor is general in the induction: behind the head chunk it is at 0. -/
theorem run_gatherSlices {limit : Nat} {chunks : List Chunk}
    (hChunks : ∀ chunk ∈ chunks, chunk.WellFormed) {offset : UInt64}
    (hCursor : Cursor offset chunks) {slices : List Block} (hRoom : slices.length ≤ limit) :
    (gatherSlices limit chunks offset).run slices =
      (Bytes.size ((remainders offset (chunks.take (limit - slices.length))).flatMap Block.bytes),
        slices ++ remainders offset (chunks.take (limit - slices.length))) := by
  induction chunks generalizing offset slices with
  | nil =>
    rw [List.take_nil, remainders, List.append_nil]
    rfl
  | cons head rest ih =>
    obtain ⟨hHead, hRest⟩ := List.forall_mem_cons.mp hChunks
    rw [run_gatherSlices_cons]
    by_cases hFull : slices.length = limit
    · rw [if_pos hFull, hFull, Nat.sub_self, List.take_zero, remainders, List.append_nil]
      rfl
    · obtain ⟨hWindow, hSize⟩ :=
        window_eq_remainder hHead (show offset.toNat < _ from hCursor)
      obtain ⟨more, hMore⟩ :=
        Nat.exists_eq_succ_of_ne_zero (show limit - slices.length ≠ 0 by omega)
      have hLonger : (slices ++ [remainder offset head]).length = slices.length + 1 :=
        List.length_append
      have hRoomLeft : (slices ++ [remainder offset head]).length ≤ limit := by omega
      have hLater := ih hRest (Cursor.zero hRest) hRoomLeft
      rw [show limit - (slices ++ [remainder offset head]).length = more by omega,
        remainders_zero] at hLater
      rw [if_neg hFull, hMore, List.take_succ_cons, remainders, List.flatMap_cons,
        Bytes.size_append, ← Block.size_eq, ← hSize]
      dsimp only
      rw [hWindow, hLater, List.append_assoc]
      rfl

/-- Whatever a vector held, it holds the slices of the projection afterwards; and what is told is
what the queue remembers. -/
theorem Consistent.run_projectInto {queue : Queue} (h : queue.Consistent) (limit : UInt64)
    (target : List Block) :
    (queue.projectInto limit).run target =
      ((queue.project limit).value.1.projected, (queue.project limit).value.2.slices) := by
  obtain ⟨hPrefix, hProjected⟩ := h.project limit
  have hShort : (queue.project limit).value.2.bytes.length < 2 ^ 64 :=
    Nat.lt_of_le_of_lt hPrefix.length_le h.length_content_lt
  have hSize : Bytes.size (queue.project limit).value.2.bytes =
      (queue.project limit).value.1.projected :=
    UInt64.toNat_inj.mp ((Word.toNat_toUInt64 hShort).trans hProjected.symm)
  have hRoom : ([] : List Block).length ≤ queue.sliceLimit limit := Nat.zero_le _
  have hRun := run_gatherSlices h.chunks_wellFormed h.cursor hRoom
  rw [List.length_nil, Nat.sub_zero, List.nil_append, ← slices_project] at hRun
  rw [← hSize]
  exact hRun

/-- What slices show of a queue, if no more than `limit` of them are made: the first chunks, one in
each slice, with all bytes that are not consumed. Only the head chunk can be consumed in part. -/
structure Shows (queue : Queue) (limit : Nat) (slices : List Block) : Prop where
  length_eq : slices.length = min queue.chunks.length limit
  slice_eq : ∀ position chunk, queue.chunks[position]? = some chunk → position < limit →
    slices[position]? =
      some (if position = 0 then remainder queue.headOffset chunk else chunk.block)
  ne_nil : ∀ slice ∈ slices, slice.bytes ≠ []
  bytes_prefix : slices.flatMap Block.bytes <+: queue.content
  all_iff : slices.flatMap Block.bytes = queue.content ↔ queue.chunks.length ≤ limit

theorem Consistent.shows_take {queue : Queue} (h : queue.Consistent) (limit : Nat) :
    queue.Shows limit (remainders queue.headOffset (queue.chunks.take limit)) where
  length_eq := by rw [length_remainders, List.length_take, Nat.min_comm]
  slice_eq := by
    intro position chunk hChunk hLimit
    rw [getElem?_remainders, List.getElem?_take_of_lt hLimit, hChunk, Option.map_some]
  ne_nil := by
    intro slice hm
    rw [remainders_take] at hm
    exact h.cursor.ne_nil_of_mem_remainders h.chunks_wellFormed (List.mem_of_mem_take hm)
  bytes_prefix := h.remainders_take_prefix limit
  all_iff := by
    have hSplit := congrArg (List.flatMap Block.bytes)
      (List.take_append_drop limit (remainders queue.headOffset queue.chunks))
    rw [List.flatMap_append] at hSplit
    rw [h.content_eq, remainders_take]
    constructor
    · intro hAll
      -- the slices of chunks that were left out would not be empty
      rw [hAll, List.append_right_eq_self, List.flatMap_eq_nil_iff] at hSplit
      have hNone : (remainders queue.headOffset queue.chunks).drop limit = [] :=
        List.eq_nil_iff_forall_not_mem.mpr fun slice hm =>
          h.cursor.ne_nil_of_mem_remainders h.chunks_wellFormed (List.mem_of_mem_drop hm)
            (hSplit slice hm)
      rwa [List.drop_eq_nil_iff, length_remainders] at hNone
    · intro hFew
      rw [List.take_of_length_le (by rwa [length_remainders])]

/-- To consume what is left of the first chunks is to retire just these. -/
theorem retire_take (logger : Option Log.Config) {chunks : List Chunk}
    (hChunks : ∀ chunk ∈ chunks, chunk.WellFormed) {offset count : UInt64}
    (hCursor : Cursor offset chunks) {number : Nat}
    (hCount : offset.toNat + count.toNat = ((chunks.take number).flatMap Chunk.bytes).length) :
    (retire logger chunks offset count).value = (chunks.drop number, 0) := by
  induction chunks generalizing offset count number with
  | nil =>
    have h0 : offset = 0 := hCursor
    rw [h0, List.drop_nil]
    rfl
  | cons head rest ih =>
    obtain ⟨hHead, hRest⟩ := List.forall_mem_cons.mp hChunks
    have hLt : offset.toNat < head.length := hCursor
    rw [value_retire_cons]
    cases number with
    | zero =>
      have hNone : offset.toNat + count.toNat = 0 := hCount
      have h0 : offset = 0 := UInt64.toNat_inj.mp (by rw [UInt64.toNat_zero]; omega)
      have hCount0 : count = 0 := UInt64.toNat_inj.mp (by rw [UInt64.toNat_zero]; omega)
      rw [if_pos hCount0, h0, List.drop_zero]
    | succ number =>
      have hLeft := hHead.toNat_left hLt.le
      rw [List.take_succ_cons, List.flatMap_cons, List.length_append, Chunk.length_bytes] at hCount
      have hSome : count ≠ 0 := by
        rintro rfl
        rw [UInt64.toNat_zero] at hCount
        omega
      have hAll : (head.size - offset).toNat ≤ count.toNat := by omega
      rw [if_neg hSome, if_neg (UInt64.not_lt.mpr (UInt64.le_iff_toNat_le.mpr hAll)),
        List.drop_succ_cons]
      refine ih hRest (Cursor.zero hRest) ?_
      rw [Word.toNat_sub_of_le hAll, hLeft, UInt64.toNat_zero]
      omega

end ByteQueue.Queue
