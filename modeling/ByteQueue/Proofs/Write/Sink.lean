import ByteQueue.Proofs.Queue.Projection
import ByteQueue.Write.Sink

/-! What a sink does with what it is shown. A sound sink takes a beginning of it and claims no
more; the code that it reports is the one in its script. -/
namespace ByteQueue

open Queue

theorem flatMap_prefix {first second : List Block} (h : first <+: second) :
    first.flatMap Block.bytes <+: second.flatMap Block.bytes := by
  obtain ⟨rest, rfl⟩ := h
  rw [List.flatMap_append]
  exact List.prefix_append ..

namespace Projection

theorem bytes_block (projection : Projection) : projection.block.bytes = projection.bytes :=
  Block.bytes_join _

theorem bytes_atMost (limit : Nat) (projection : Projection) :
    (projection.atMost limit).bytes <+: projection.bytes := by
  rw [bytes, slices_atMost]
  exact flatMap_prefix (List.take_prefix limit _)

/-- The first bytes are looked for behind the cursor of the projection. -/
theorem bytes_first_of_cursor {projection : Projection}
    (hCursor : Cursor projection.offset projection.store.toList) (wanted : Nat) :
    (projection.first wanted).bytes = projection.bytes.take wanted := by
  rw [bytes_first, Bytes.window, bytes, slices, ChunkStore.take_eq]
  by_cases h0 : projection.limit = 0
  · simp [h0, remainders]
  · rw [(hCursor.take h0).flatMap_remainders]

theorem bytes_first_prefix {projection : Projection}
    (hCursor : Cursor projection.offset projection.store.toList) (wanted : Nat) :
    (projection.first wanted).bytes <+: projection.bytes := by
  rw [bytes_first_of_cursor hCursor]
  exact List.take_prefix ..

/-- A projection of at least one chunk shows at least one byte. -/
theorem bytes_ne_nil {projection : Projection}
    (hCursor : Cursor projection.offset projection.store.toList)
    (hChunks : projection.store.toList ≠ []) (hLimit : projection.limit ≠ 0) :
    projection.bytes ≠ [] := by
  intro hn
  obtain ⟨head, rest, hc⟩ := List.exists_cons_of_ne_nil hChunks
  obtain ⟨limit, hl⟩ := Nat.exists_eq_succ_of_ne_zero hLimit
  rw [hc] at hCursor
  have hLt : projection.offset.toNat < head.length := hCursor
  have hLength := congrArg List.length hn
  rw [bytes, slices, ChunkStore.take_eq, hc, hl, List.take_succ_cons, remainders,
    List.flatMap_cons, List.length_append, bytes_remainder, List.length_drop,
    Chunk.length_bytes, List.length_nil] at hLength
  omega

end Projection

namespace Sink

instance (sink : Sink) : Decidable sink.Honest :=
  inferInstanceAs (Decidable (∀ response ∈ sink.script, response.Honest))

/-- The answer to the next write. -/
def answer (sink : Sink) : Response := sink.script.head?.getD .accept

theorem Honest.answer {sink : Sink} (h : sink.Honest) : sink.answer.Honest := by
  unfold Sink.answer
  cases hs : sink.script with
  | nil => exact rfl
  | cons response rest => exact h response (by rw [hs]; exact List.mem_cons_self)

theorem bytes_offered (sink : Sink) (projection : Projection) :
    (sink.offered projection).bytes <+: projection.bytes := by
  unfold offered
  split
  · exact List.prefix_refl _
  · exact projection.bytes_atMost _

theorem cursor_offered (sink : Sink) {projection : Projection}
    (hCursor : Cursor projection.offset projection.store.toList) :
    Cursor (sink.offered projection).offset (sink.offered projection).store.toList := by
  unfold offered
  split
  · exact hCursor
  · exact hCursor

theorem bytes_offered_ne_nil {sink : Sink} {projection : Projection}
    (hCursor : Cursor projection.offset projection.store.toList)
    (hChunks : projection.store.toList ≠ []) (hLimit : projection.limit ≠ 0)
    (hSlices : sink.sliceLimit ≠ some 0) : (sink.offered projection).bytes ≠ [] := by
  unfold offered
  split
  · exact Projection.bytes_ne_nil hCursor hChunks hLimit
  · next limit hSome =>
    have hPositive : limit ≠ 0 := by
      rintro rfl
      exact hSlices hSome
    have hLeast : min limit projection.limit ≠ 0 := by omega
    exact Projection.bytes_ne_nil (by exact hCursor) (by exact hChunks) (by exact hLeast)

/-- What the next write takes. -/
def accepted (sink : Sink) (projection : Projection) : Block :=
  match sink.answer.acceptance with
  | .all => (sink.offered projection).block
  | .atMost count | .overclaim count _ => (sink.offered projection).first count.toNat

theorem bytes_accepted (sink : Sink) {projection : Projection}
    (hCursor : Cursor projection.offset projection.store.toList) :
    (sink.accepted projection).bytes <+: projection.bytes := by
  have hOffered := sink.bytes_offered projection
  unfold accepted
  split
  · rw [Projection.bytes_block]
    exact hOffered
  · exact (Projection.bytes_first_prefix (sink.cursor_offered hCursor) _).trans hOffered
  · exact (Projection.bytes_first_prefix (sink.cursor_offered hCursor) _).trans hOffered

theorem write_eq (sink : Sink) (projection : Projection) :
    sink.write projection =
      ({ sink with
          script := sink.script.tail
          writes := sink.writes + 1
          taken := sink.accepted projection :: sink.taken },
        (sink.accepted projection).size + sink.answer.acceptance.excess, sink.answer.code) :=
  rfl

theorem bytes_write (sink : Sink) (projection : Projection) :
    (sink.write projection).1.bytes = sink.bytes ++ (sink.accepted projection).bytes := by
  rw [write_eq]
  simp [Sink.bytes, Sink.block]

/-- A sink with an honest script claims what it takes, now and later. -/
theorem Honest.write {sink : Sink} (h : sink.Honest) (projection : Projection) :
    (sink.write projection).1.Honest ∧
      (sink.write projection).2.1 = (sink.accepted projection).size := by
  rw [write_eq]
  constructor
  · intro response hm
    exact h response (List.mem_of_mem_tail hm)
  · rw [show sink.answer.acceptance.excess = 0 from h.answer, UInt64.add_zero]

end Sink

end ByteQueue
