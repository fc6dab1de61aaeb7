import ByteQueue.Proofs.Encoder.Output

/-!
What an encoder writes, read back. The reader cuts the stream by the lengths in it, so it finds
every message if these are the true lengths. They have 32 bits: a longer blob is announced as a
shorter one, and the reader goes on in the midst of it.

The queue of an encoder is written out whenever it holds a first chunk's worth of bytes. So a
stream may be longer than anything that is in memory at a time, and longer than its own offsets,
which have 64 bits.
-/
namespace ByteQueue

namespace Message

theorem field?_append (field rest : Bytes) :
    field? field.length (field ++ rest) = some (field, rest) := by
  simp [field?]

theorem number?_bigEndian (width n : Nat) (rest : Bytes) :
    number? width (Bytes.bigEndian width n ++ rest) = some (n % 256 ^ width, rest) := by
  have hField := field?_append (Bytes.bigEndian width n) rest
  rw [Bytes.length_bigEndian] at hField
  rw [number?, hField, Option.map_some]
  exact congrArg (fun value => some (value, rest)) (Bytes.ofBigEndian_bigEndian width n)

/-- A field behind its length is read up to what is left of the length in 32 bits. -/
theorem sized?_append (field rest : Bytes) :
    sized? (Bytes.bigEndian 4 field.length ++ (field ++ rest)) =
      some (field.take (field.length % 2 ^ 32), field.drop (field.length % 2 ^ 32) ++ rest) := by
  have hLe : field.length % 2 ^ 32 ≤ field.length := Nat.mod_le ..
  rw [sized?, number?_bigEndian, show 256 ^ 4 = 2 ^ 32 by decide]
  show field? (field.length % 2 ^ 32) (field ++ rest) = _
  have hField := field?_append (field.take (field.length % 2 ^ 32))
    (field.drop (field.length % 2 ^ 32) ++ rest)
  rwa [List.length_take_of_le hLe, ← List.append_assoc, List.take_append_drop] at hField

theorem sized?_append_of_lt {field : Bytes} (h : field.length < 2 ^ 32) (rest : Bytes) :
    sized? (Bytes.bigEndian 4 field.length ++ (field ++ rest)) = some (field, rest) := by
  rw [sized?_append, Nat.mod_eq_of_lt h, List.take_length, List.drop_length, List.nil_append]

/-- Nothing is read from data that does not begin as a message does. -/
theorem read?_eq_none {first : UInt8} (h : first ≠ 109) (rest : Bytes) :
    read? (first :: rest) = none := by
  have hMagic : Frame.magic = [109, 101, 115, 115] := by decide
  have hFront : (first :: rest).take 4 ≠ Frame.magic := by simp [hMagic, h]
  rw [read?, show Frame.magic.length = 4 by decide, field?]
  split
  · rfl
  · show (guard _ >>= _) = none
    rw [guard, if_neg hFront]
    rfl

theorem readAll?_eq_none {data : Bytes} (hData : data ≠ []) (hRead : read? data = none)
    (count : Nat) : readAll? count data = none := by
  cases count with
  | zero => exact if_neg hData
  | succ count =>
    rw [readAll?, hRead]
    rfl

/-- Messages that can each be read from the front of the data can be read one after the other. -/
theorem readAll?_flatMap {sent : Nat → Message} {encoded : Nat → Bytes} (indices : List Nat)
    (h : ∀ index ∈ indices, ∀ rest, read? (encoded index ++ rest) = some (sent index, rest)) :
    readAll? indices.length (indices.flatMap encoded) = some (indices.map sent) := by
  induction indices with
  | nil => rfl
  | cons index others ih =>
    rw [List.length_cons, List.flatMap_cons, readAll?_succ (h index List.mem_cons_self _),
      ih fun index hm => h index (List.mem_cons_of_mem _ hm)]
    rfl

end Message

namespace Frame

open Message

/-- A message at the front of data is read as it is, apart from a blob whose length does not fit
into 32 bits: there the reader stops early. -/
theorem read?_message {index : Nat} (hIndex : index < 2 ^ 32) (position : Nat)
    (blob rest : Bytes) :
    read? (message index position blob ++ rest) =
      some (⟨index, position % 2 ^ 64, label index, blob.take (blob.length % 2 ^ 32)⟩,
        blob.drop (blob.length % 2 ^ 32) ++ rest) := by
  have hLabel : (label index).length < 2 ^ 32 :=
    Nat.lt_of_le_of_lt (length_label_le hIndex) (by decide)
  have hNumber := number?_bigEndian 4 index
  have hOffset := number?_bigEndian 8 position
  rw [show 256 ^ 4 = 2 ^ 32 by decide, Nat.mod_eq_of_lt hIndex] at hNumber
  rw [show 256 ^ 8 = 2 ^ 64 by decide] at hOffset
  simp only [read?, message_eq, List.append_assoc, field?_append, guard, if_true,
    sized?_append_of_lt hLabel, sized?_append, hNumber, hOffset, Option.bind_eq_bind,
    Option.bind_some, pure]

/-- Message number `index` of a stream, as it is to be read: its offset is the number of bytes
before it, in 64 bits. -/
def sent (blob : Bytes) (index : Nat) : Message :=
  ⟨index, (stream blob index).length % 2 ^ 64, label index, blob⟩

/-- A stream whose blob has a length of 32 bits is read back completely. -/
theorem readAll?_stream {blob : Bytes} {count : Nat} (hBlob : count = 0 ∨ blob.length < 2 ^ 32)
    (hCount : count ≤ 2 ^ 32) :
    readAll? count (stream blob count) = some ((List.range count).map (sent blob)) := by
  have hRead : ∀ index ∈ List.range count, ∀ rest,
      read? (message index (stream blob index).length blob ++ rest) =
        some (sent blob index, rest) := by
    intro index hm rest
    have hIndex : index < count := List.mem_range.mp hm
    have hLength : blob.length < 2 ^ 32 := hBlob.resolve_left (by omega)
    rw [read?_message (Nat.lt_of_lt_of_le hIndex hCount), Nat.mod_eq_of_lt hLength,
      List.take_length, List.drop_length]
    rfl
  have hAll := readAll?_flatMap (List.range count) hRead
  rwa [← stream_eq_flatMap, List.length_range] at hAll

/-- A longer blob breaks off, and nothing can be read behind it. -/
theorem readAll?_stream_eq_none {size : Nat} (hSize : 2 ^ 32 ≤ size) {byte : UInt8}
    (hByte : byte ≠ 109) {count : Nat} (hCount : 0 < count) :
    readAll? count (stream (List.replicate size byte) count) = none := by
  obtain ⟨count, rfl⟩ := Nat.exists_eq_add_one_of_ne_zero (Nat.pos_iff_ne_zero.mp hCount)
  obtain ⟨later, hLater⟩ :=
    stream_prefix_stream (List.replicate size byte) (Nat.succ_le_of_lt hCount)
  obtain ⟨left, hLeft⟩ : ∃ left, size - size % 2 ^ 32 = left + 1 :=
    ⟨size - size % 2 ^ 32 - 1, by omega⟩
  have hFirst := read?_message (by decide : 0 < 2 ^ 32) 0 (List.replicate size byte) later
  rw [List.length_replicate, List.drop_replicate, hLeft, List.replicate_succ,
    List.cons_append] at hFirst
  have hBroken := readAll?_eq_none (List.cons_ne_nil byte (List.replicate left byte ++ later))
    (read?_eq_none hByte _) count
  rw [← hLater]
  exact (readAll?_succ hFirst count).trans (congrArg (Option.map _) hBroken)

end Frame

namespace Encoder

open Queue

/-- What an encoder writes to the standard output, read back by the wire format. If the length of
the blob fits into 32 bits, or no message is asked for, all messages are there and nothing else:
their numbers from 0 on, their texts, the whole blob, and as their offsets the positions of their
magic words, in 64 bits; the first messages end where the next one begins. A longer blob cannot be
read back, although the encoder ends as if it could. A blob that there is no memory for is an error,
and nothing is written. What is not covered are queues that would have to hold `2 ^ 64` bytes. -/
theorem output_reads_back {platform : Platform} {arguments : List String} {plan : Plan}
    (parsed : Plan.parse platform arguments = .ok plan) (wanted : plan.help = false)
    (valid : plan.settings.Valid) :
    let blob := List.replicate plan.blobSize.toNat 98
    let count := plan.count.toNat
    let output := (execute platform arguments).output.bytes
    (platform.refusal? plan.blobSize = none → plan.Bounded →
      (execute platform arguments).status = 0 ∧
      (count = 0 ∨ blob.length < 2 ^ 32 →
        Message.readAll? count output = some ((List.range count).map (Frame.sent blob)) ∧
        ∀ index < count,
          let position := (Frame.stream blob index).length
          Frame.magic <+: output.drop position ∧
            Message.readAll? index (output.take position) =
              some ((List.range index).map (Frame.sent blob))) ∧
      (count ≠ 0 → 2 ^ 32 ≤ blob.length → Message.readAll? count output = none)) ∧
    (platform.refusal? plan.blobSize ≠ none →
      (execute platform arguments).status = 1 ∧ output = []) := by
  intro blob count output
  have hCount : count ≤ 2 ^ 32 := Nat.le_of_lt plan.count.toNat_lt
  refine ⟨fun granted bounded => ?_, fun refused => ?_⟩
  · obtain ⟨hStatus, hWritten⟩ := execute_writes parsed wanted valid granted bounded
    have hOutput : output = Frame.stream blob count := hWritten
    rw [hOutput]
    refine ⟨hStatus, fun hBlob => ⟨Frame.readAll?_stream hBlob hCount, fun index hIndex => ?_⟩,
      fun hSome hBlob => ?_⟩
    · have hLength : blob.length < 2 ^ 32 := hBlob.resolve_left (by omega)
      refine ⟨Frame.magic_prefix_drop blob hIndex, ?_⟩
      rw [Frame.take_stream blob (Nat.le_of_lt hIndex)]
      exact Frame.readAll?_stream (.inr hLength) (by omega)
    · rw [List.length_replicate] at hBlob
      exact Frame.readAll?_stream_eq_none hBlob (by decide) (Nat.pos_of_ne_zero hSome)
  · obtain ⟨reason, hReason⟩ := Option.ne_none_iff_exists'.mp refused
    obtain ⟨hStatus, hOutput⟩ := execute_eq parsed wanted
    rw [value_run_of_refused valid hReason] at hStatus hOutput
    exact ⟨hStatus, hOutput⟩

/-- Three messages with a blob of 5 bytes; the last one begins at position 78. -/
theorem output_reads_back_of_three :
    let platform := Platform.bounded 0x800000000000
    let arguments := ["--count", "3", "--blob-size=5"]
    let plan : Plan := { count := 3, blobSize := 5 }
    let blob : Bytes := [98, 98, 98, 98, 98]
    Plan.parse platform arguments = .ok plan ∧ plan.help = false ∧ plan.settings.Valid ∧
      platform.refusal? plan.blobSize = none ∧ plan.Bounded ∧
      (execute platform arguments).status = 0 ∧
      Message.readAll? 3 (execute platform arguments).output.bytes =
        some [⟨0, 0, Text.bytes "message #0".toList, blob⟩,
          ⟨1, 39, Text.bytes "message #1".toList, blob⟩,
          ⟨2, 78, Text.bytes "message #2".toList, blob⟩] := by
  intro platform arguments plan blob
  have hParsed : Plan.parse platform arguments = .ok plan := by rfl
  have hValid : plan.settings.Valid := by decide
  have hGranted : platform.refusal? plan.blobSize = none := by decide
  have hBounded : plan.Bounded := .inl (by decide)
  obtain ⟨hWritten, _⟩ := output_reads_back hParsed rfl hValid
  obtain ⟨hStatus, hRead, _⟩ := hWritten hGranted hBounded
  have hMessages := (hRead (.inr (by decide))).1
  exact ⟨hParsed, rfl, hValid, hGranted, hBounded, hStatus, hMessages.trans (by decide +kernel)⟩

/-- A blob of 4 GiB is told to be empty, so what is read after it is not the next message. -/
theorem four_gibibytes_do_not_read_back :
    let platform := Platform.bounded 0x800000000000
    let arguments := ["--count", "1", "--blob-size", "4294967296"]
    (execute platform arguments).status = 0 ∧
      Message.readAll? 1 (execute platform arguments).output.bytes = none := by
  intro platform arguments
  have hParsed : Plan.parse platform arguments = .ok { count := 1, blobSize := 4294967296 } := by
    rfl
  obtain ⟨hStatus, hOutput⟩ :=
    execute_writes hParsed rfl (by decide) (by decide) (.inl (by decide))
  refine ⟨hStatus, ?_⟩
  rw [hOutput]
  exact Frame.readAll?_stream_eq_none (by decide) (by decide) (by decide)

end Encoder

end ByteQueue
