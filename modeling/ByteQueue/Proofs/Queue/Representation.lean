import ByteQueue.Proofs.Queue.Logging
import ByteQueue.Proofs.Queue.Run

/-! The invariants that a queue documents for its own members, in their own terms: sizes and
offsets as the queue stores them. They hold after every run, and they leave one representation
only of a queue without bytes. -/
namespace ByteQueue.Queue

/-- What a queue promises about its members. The sum of the chunk sizes is a number here: a head
chunk that is consumed in part may lift it over any word. -/
structure Represents (queue : Queue) : Prop where
  size_ne_zero : ∀ chunk ∈ queue.chunks, chunk.size ≠ 0
  length_eq : ∀ chunk ∈ queue.chunks, chunk.bytes.length = chunk.size.toNat
  cursor_of_nil : queue.chunks = [] → queue.headOffset = 0
  cursor_lt : ∀ head, queue.chunks.head? = some head → queue.headOffset < head.size
  size_eq : queue.size.toNat + queue.headOffset.toNat =
    sumOf (fun chunk => chunk.size.toNat) queue.chunks
  size_le_capacity : ∀ tail, .filling tail ∈ queue.chunks → tail.size ≤ tail.capacity
  projected_le : queue.projected ≤ queue.size

theorem WellFormed.represents {queue : Queue} (h : queue.WellFormed) : queue.Represents where
  size_ne_zero := by
    intro chunk hm hn
    have hChunk := h.chunks_wellFormed chunk hm
    have hPos := hChunk.length_pos
    rw [← hChunk.toNat_size, hn] at hPos
    exact Nat.lt_irrefl 0 hPos
  length_eq := by
    intro chunk hm
    rw [Chunk.length_bytes, (h.chunks_wellFormed chunk hm).toNat_size]
  cursor_of_nil := by
    intro hn
    have hCursor := h.cursor
    rwa [hn] at hCursor
  cursor_lt := by
    intro head hHead
    obtain ⟨rest, hc⟩ := List.head?_eq_some_iff.mp hHead
    have hCursor := h.cursor
    rw [hc] at hCursor
    have hSize := (h.chunks_wellFormed head (by rw [hc]; exact List.mem_cons_self)).toNat_size
    rw [UInt64.lt_iff_toNat_lt, hSize]
    exact hCursor
  size_eq := by
    have hLength := h.length_content
    rw [sum_toNat_size h.chunks_wellFormed, h.size_eq]
    exact hLength
  size_le_capacity := by
    intro tail hm
    have hTail := h.chunks_wellFormed _ hm
    have hSize : tail.size.toNat = tail.length := hTail.toNat_size
    rw [UInt64.le_iff_toNat_le, hSize]
    exact hTail.2
  projected_le := h.projected_le

theorem WellFormed.chunks_eq_nil_of_size {queue : Queue} (h : queue.WellFormed)
    (h0 : queue.size = 0) : queue.chunks = [] := by
  have hLength := h.size_eq
  rw [h0] at hLength
  exact h.chunks_eq_nil (List.length_eq_zero_iff.mp hLength.symm)

theorem WellFormed.size_eq_zero_iff {queue : Queue} (h : queue.WellFormed) :
    queue.size = 0 ↔ queue.chunkCount = 0 := by
  rw [chunkCount_eq, List.length_eq_zero_iff]
  constructor
  · exact h.chunks_eq_nil_of_size
  · intro hn
    have hLength := h.size_eq
    rw [content, stored, hn] at hLength
    exact UInt64.toNat_inj.mp (by simpa using hLength)

/-- A queue without bytes differs from a new one in nothing but the arrays it has allocated. -/
theorem WellFormed.eq_fresh {queue : Queue} (h : queue.WellFormed) (h0 : queue.size = 0)
    (owner : Nat) :
    queue =
      { fresh queue.logger owner queue.settings with nextArray := queue.nextArray } := by
  have hNil := h.chunks_eq_nil_of_size h0
  have hStore : queue.store = .empty := ChunkStore.toList_eq_nil_iff.mp hNil
  have hOffset := h.represents.cursor_of_nil hNil
  have hProjected : queue.projected = 0 := by
    have hLe := UInt64.le_iff_toNat_le.mp h.projected_le
    rw [h0] at hLe
    exact UInt64.toNat_inj.mp (Nat.le_zero.mp hLe)
  cases queue with
  | mk logger settings store headOffset size projected nextArray =>
    subst hStore hOffset hProjected h0
    rfl

theorem logger_run (queue : Queue) (operations : List Operation) :
    (queue.run operations).logger = queue.logger := by
  induction operations generalizing queue with
  | nil => rfl
  | cons operation rest ih => rw [run_cons, ih, logger_apply]

/-- After every run from a new queue the members are as they are documented, and a queue that
is empty again, by whatever operation, is as good as new. -/
theorem run_represents (logger : Option Log.Config) (owner : Nat) (settings : Settings)
    (valid : settings.Valid) (operations : List Operation)
    (admissible : (fresh logger owner settings).Admissible operations) :
    let queue := (fresh logger owner settings).run operations
    queue.Represents ∧ (queue.size = 0 ↔ queue.chunkCount = 0) ∧
      (queue.size = 0 →
        queue = { fresh logger owner settings with nextArray := queue.nextArray }) := by
  have hFresh := wellFormed_fresh logger owner valid
  have hQueue := hFresh.run admissible
  have hSettings := hFresh.settings_run admissible
  refine ⟨hQueue.represents, hQueue.size_eq_zero_iff, fun h0 => ?_⟩
  have hEq := hQueue.eq_fresh h0 owner
  rw [logger_run, hSettings] at hEq
  exact hEq

/-- A run that splits a handle, consumes a head chunk in part, and ends with an empty queue. -/
theorem run_represents_taken_empty :
    let settings : Settings := { initialChunkSize := 4, smallHandleThreshold := 3 }
    let handle : Handle := .adopt (some ⟨⟨1, 0⟩, .ofBytes [4, 5, 6, 7, 8, 9]⟩) 6
    let operations : List Operation :=
      [.append (.ofBytes [1, 2, 3]), .absorb handle, .projectAll, .confirm 5]
    let queue := (fresh none 0 settings).run operations
    let emptied := (fresh none 0 settings).run (operations ++ [.take 4])
    settings.Valid ∧ (fresh none 0 settings).Admissible (operations ++ [.take 4]) ∧
      queue.Represents ∧ queue.headOffset = 2 ∧ queue.size = 4 ∧ queue.chunkCount = 2 ∧
      emptied.size = 0 ∧
      emptied = { fresh none 0 settings with nextArray := emptied.nextArray } := by
  intro settings handle operations queue emptied
  have hValid : settings.Valid := by decide
  have hAdmissible : (fresh none 0 settings).Admissible (operations ++ [.take 4]) := by
    decide +kernel
  have hFirst : (fresh none 0 settings).Admissible operations :=
    (admissible_append.mp hAdmissible).1
  have hEmptied : emptied.size = 0 := by decide +kernel
  have hQueue := run_represents none 0 settings hValid operations hFirst
  have hAfter := run_represents none 0 settings hValid (operations ++ [.take 4]) hAdmissible
  exact ⟨hValid, hAdmissible, hQueue.1, by decide +kernel, by decide +kernel, by decide +kernel,
    hEmptied, hAfter.2.2 hEmptied⟩

end ByteQueue.Queue
