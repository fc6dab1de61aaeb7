/-!
Byte strings, and the two ways in which a queue cuts them: a `window` of an allocation, and
the consecutive `pieces` of a long write. Sizes are 64-bit words throughout the library, so
`size` is one; the list itself is as long as it is.
-/
namespace ByteQueue

/-- A string of bytes. -/
abbrev Bytes := List UInt8

namespace Bytes

/-- The number of bytes, as a 64-bit word. -/
def size (data : Bytes) : UInt64 := data.length.toUInt64

theorem size_append (first second : Bytes) :
    size (first ++ second) = size first + size second := by
  simp [size, Nat.toUInt64]

/-- The `count` bytes that begin at position `start`, or those of them that exist. -/
def window (data : Bytes) (start count : Nat) : Bytes := (data.drop start).take count

@[simp] theorem length_window (data : Bytes) (start count : Nat) :
    (data.window start count).length = min count (data.length - start) := by
  simp [window]

/-- A window of a window is a window. -/
theorem window_window (data : Bytes) (start count inner wanted : Nat) :
    (data.window start count).window inner wanted =
      data.window (start + inner) (min wanted (count - inner)) := by
  simp [window, List.drop_take, List.take_take]

/-- Consecutive pieces of `limit` bytes, the last one possibly shorter. The limit 0 stands
for no limit: all of the data is one piece. There is no empty piece. -/
def pieces (limit : Nat) : Bytes → List Bytes
  | [] => []
  | first :: rest =>
    if limit = 0 then [first :: rest]
    else (first :: rest).take limit :: pieces limit ((first :: rest).drop limit)
termination_by data => data.length
decreasing_by simp only [List.length_drop, List.length_cons]; omega

/-- Nothing is lost or reordered by cutting. -/
theorem flatten_pieces (limit : Nat) (data : Bytes) : (pieces limit data).flatten = data := by
  fun_induction pieces limit data with
  | case1 => rfl
  | case2 first rest => simp
  | case3 first rest _ ih => rw [List.flatten_cons, ih, List.take_append_drop]

/-- The first piece and the pieces of what follows it. -/
theorem pieces_of_ne_nil {data : Bytes} (h : data ≠ []) (limit : Nat) :
    data.pieces limit =
      data.take (if limit = 0 then data.length else min data.length limit) ::
        pieces limit
          (data.drop (if limit = 0 then data.length else min data.length limit)) := by
  obtain ⟨first, rest, rfl⟩ := List.exists_cons_of_ne_nil h
  rw [pieces]
  split
  · rw [List.take_length, List.drop_length, pieces]
  · rw [Nat.min_comm, ← List.take_eq_take_min, ← List.drop_eq_drop_min]

/-- What is no longer than the limit, or has none, is one piece. -/
theorem pieces_of_le {limit : Nat} {data : Bytes} (h : data ≠ [])
    (hl : limit = 0 ∨ data.length ≤ limit) : data.pieces limit = [data] := by
  have hn : (if limit = 0 then data.length else min data.length limit) = data.length := by
    split <;> omega
  rw [pieces_of_ne_nil h, hn, List.take_length, List.drop_length, pieces]

/-- The pieces are the windows at the multiples of the limit. -/
theorem pieces_eq_map_range {limit : Nat} (hl : limit ≠ 0) (data : Bytes) :
    pieces limit data = (List.range ((data.length + limit - 1) / limit)).map
      fun position => data.window (position * limit) limit := by
  fun_induction pieces limit data with
  | case1 => rw [Nat.div_eq_of_lt (by simp; omega)]; rfl
  | case2 => contradiction
  | case3 first rest _ ih =>
    have hn : ((first :: rest).length + limit - 1) / limit =
        (((first :: rest).drop limit).length + limit - 1) / limit + 1 := by
      rw [List.length_drop, ← Nat.add_div_right _ (by omega)]
      by_cases hs : limit ≤ (first :: rest).length
      · congr 1; omega
      · rw [show (first :: rest).length - limit = 0 by omega]
        rw [Nat.div_eq_of_lt_le (k := 1), Nat.div_eq_of_lt_le (k := 1)] <;>
          simp only [List.length_cons] at * <;> omega
    rw [hn, List.range_succ_eq_map, List.map_cons, List.map_map, ih]
    simp [window, Function.comp_def, Nat.add_mul, Nat.add_comm]

/-- Every piece holds at least one byte. -/
theorem ne_nil_of_mem_pieces {limit : Nat} {data piece : Bytes}
    (h : piece ∈ pieces limit data) : piece ≠ [] := by
  fun_induction pieces limit data with
  | case1 => cases h
  | case2 first rest => simp_all
  | case3 first rest hl ih =>
    rcases List.mem_cons.mp h with rfl | h
    · obtain ⟨k, rfl⟩ := Nat.exists_eq_succ_of_ne_zero hl
      simp
    · exact ih h

/-- With a limit no piece is longer than it. -/
theorem length_le_of_mem_pieces {limit : Nat} {data piece : Bytes} (hl : limit ≠ 0)
    (h : piece ∈ pieces limit data) : piece.length ≤ limit := by
  fun_induction pieces limit data with
  | case1 => cases h
  | case2 first rest => contradiction
  | case3 first rest _ ih =>
    rcases List.mem_cons.mp h with rfl | h
    · exact List.length_take_le ..
    · exact ih h

end Bytes

end ByteQueue
