import ByteQueue.Encoder.Basic
import ByteQueue.Proofs.Encoder.Stream
import ByteQueue.Proofs.Handle
import ByteQueue.Proofs.Write.AtOnce

/-! What an encoder writes. How its queue cuts the messages into chunks and when they are written
out is up to the settings; what has been written and what is still in the queue make up the same
stream under all of them. -/
namespace ByteQueue

open Queue

namespace Encoder

open Logged

/-- An encoder after `count` messages: some of their stream is written, and the rest is in the
queue. -/
structure Encoded (blob : Handle) (count : Nat) (state : State) : Prop where
  wellFormed : state.queue.WellFormed
  script_eq : state.sink.script = []
  offered : state.sink.sliceLimit ≠ some 0
  bytes_eq : state.sink.bytes ++ state.queue.content = Frame.stream blob.bytes count
  index_eq : state.index = count.toUInt32
  offset_eq : state.offset = (Frame.stream blob.bytes count).size
  total_eq : state.total = state.sink.bytes.size
  failure_eq : state.failure = none

/-- What one message keeps, any number of messages keep. -/
theorem encodeMany_of_step {Holds : Nat → State → Prop} (config : Log.Config) (blob : Handle)
    {count added : Nat}
    (hStep : ∀ index state, index < count + added → Holds index state →
      ∃ after, (encodeNext config blob state).value = .inl after ∧ Holds (index + 1) after)
    {state : State} (h : Holds count state) :
    Holds (count + added) (encodeMany config blob added state).value := by
  induction added generalizing count state with
  | zero => exact h
  | succ added ih =>
    obtain ⟨after, hNext, hAfter⟩ := hStep count state (by omega) h
    rw [← Nat.add_assoc, Nat.add_right_comm] at hStep ⊢
    rw [encodeMany, value_iterate_succ, hNext]
    exact ih hStep hAfter

namespace Encoded

variable {blob : Handle} {count : Nat} {state : State}

theorem length_content_le (h : Encoded blob count state) :
    state.queue.content.length ≤ (Frame.stream blob.bytes count).length := by
  rw [← h.bytes_eq, List.length_append]
  exact Nat.le_add_left ..

/-- What is appended for the next message is that message: its number has not wrapped around, and
its position may have. -/
theorem fields_eq (h : Encoded blob count state) (hBlob : blob.InBounds) (hCount : count < 2 ^ 32) :
    (Frame.fields state.index state.offset blob.size).flatten ++ blob.bytes =
      Frame.message count (Frame.stream blob.bytes count).length blob.bytes := by
  have hLength : blob.bytes.length = blob.size.toNat := by
    rw [Handle.length_bytes, hBlob.length_eq]
  have hSize : blob.size = blob.bytes.size := by
    rw [Bytes.size, hLength, Nat.toUInt64, UInt64.ofNat_toNat]
  have hIndex : state.index.toNat = count := by
    rw [h.index_eq, Nat.toUInt32, UInt32.toNat_ofNat', Nat.mod_eq_of_lt hCount]
  have hOffset : state.offset.toNat = (Frame.stream blob.bytes count).length % 2 ^ 64 := by
    rw [h.offset_eq]
    exact UInt64.toNat_ofNat'
  rw [hSize, ← Frame.message_mod, ← hOffset, ← hIndex]
  exact Frame.bytes_eq_message (hLength ▸ blob.size.toNat_lt)

/-- The queue grows by the next message. -/
theorem grows_encode (h : Encoded blob count state) (hBlob : blob.InBounds)
    (hCount : count < 2 ^ 32) :
    Grows state.queue (Frame.message count (Frame.stream blob.bytes count).length blob.bytes)
      (Encoder.encode blob state).value.queue := by
  let fields := Frame.fields state.index state.offset blob.size
  have hBlocks : (fields.map Block.ofBytes).flatMap Block.bytes = fields.flatten := by
    simp [List.flatMap_map]
  rw [← h.fields_eq hBlob hCount, ← hBlocks]
  exact (grows_appendAll state.queue (fields.map Block.ofBytes)).trans (grows_absorb _ hBlob)

/-- The next message is put behind those before it. -/
theorem encode (h : Encoded blob count state) (hBlob : blob.InBounds) (hCount : count < 2 ^ 32)
    (hBound : state.queue.content.length +
      (Frame.message count (Frame.stream blob.bytes count).length blob.bytes).length < 2 ^ 64) :
    Encoded blob (count + 1) (Encoder.encode blob state).value := by
  have hConsistent := h.wellFormed.toConsistent
  have hGrows := h.grows_encode hBlob hCount
  have hAfter := hGrows.wellFormed h.wellFormed hBound
  have hContent := hGrows.content_eq hConsistent
  refine ⟨hAfter, h.script_eq, h.offered, ?_, ?_, ?_, h.total_eq, h.failure_eq⟩
  · show state.sink.bytes ++ (Encoder.encode blob state).value.queue.content = _
    rw [hContent, ← List.append_assoc, h.bytes_eq]
    rfl
  · show state.index + 1 = _
    rw [h.index_eq]
    exact (UInt32.ofNat_add count 1).symm
  · show state.offset + ((Encoder.encode blob state).value.queue.size - state.queue.size) = _
    rw [hAfter.toConsistent.size_eq_size, hContent, hConsistent.size_eq_size, Bytes.size_append,
      UInt64.add_comm state.queue.content.size, UInt64.add_sub_cancel, h.offset_eq, Frame.stream,
      Bytes.size_append]

/-- Writing out moves what the queue holds to the sink. -/
theorem flush (h : Encoded blob count state) :
    Encoded blob count (Encoder.flush state).value ∧
      (Encoder.flush state).value.queue.content = [] := by
  have hHonest : state.sink.Honest := by
    intro response hm
    rw [h.script_eq] at hm
    cases hm
  obtain ⟨accepted, hBalance, hEnding, hDone⟩ := h.wellFormed.writeAll hHonest
  generalize hTransfer : (state.queue.writeAll state.sink).value = transfer at *
  have hCode : firstFailure (state.sink.answersSince transfer.sink) = .success := by
    rw [Sink.answersSince, h.script_eq, List.take_nil]
    rfl
  rw [hCode] at hEnding hDone
  have hBytes := hBalance.bytes_eq
  rw [List.append_nil] at hBytes
  have hFlush : (Encoder.flush state).value = { state with
      queue := transfer.queue, sink := transfer.sink, total := state.total + accepted.size
      flushes := state.flushes + 1 } := by
    unfold Encoder.flush
    rw [value_bind, hTransfer, hEnding]
    rfl
  rw [hFlush]
  refine ⟨⟨hBalance.wellFormed, ?_, ?_, ?_, h.index_eq, h.offset_eq, ?_, h.failure_eq⟩, ?_⟩
  · show transfer.sink.script = []
    rw [hBalance.script_eq, h.script_eq, List.drop_nil]
  · show transfer.sink.sliceLimit ≠ some 0
    rw [hBalance.sliceLimit_eq]
    exact h.offered
  · show transfer.sink.bytes ++ transfer.queue.content = _
    rw [hBytes, List.append_assoc, hBalance.conserved, h.bytes_eq]
  · show state.total + accepted.size = transfer.sink.bytes.size
    rw [h.total_eq, hBytes, Bytes.size_append]
  · exact (hDone h.offered).resolve_left (by decide)

/-- A message is encoded, and may be written out, without a failure. -/
theorem encodeNext (h : Encoded blob count state) (config : Log.Config) (hBlob : blob.InBounds)
    (hCount : count < 2 ^ 32)
    (hBound : state.queue.content.length +
      (Frame.message count (Frame.stream blob.bytes count).length blob.bytes).length < 2 ^ 64) :
    ∃ after, (Encoder.encodeNext config blob state).value = .inl after ∧
      Encoded blob (count + 1) after := by
  have hEncoded := h.encode hBlob hCount hBound
  have hFlushed := hEncoded.flush.1
  unfold Encoder.encodeNext
  rw [value_bind, value_bind, value_mapEvents]
  by_cases hSmall : (Encoder.encode blob state).value.queue.size <
      (Encoder.encode blob state).value.queue.settings.initialChunkSize
  · rw [if_pos hSmall]
    exact ⟨_, rfl, hEncoded⟩
  · rw [if_neg hSmall, value_bind, value_mapEvents, hFlushed.failure_eq]
    exact ⟨_, rfl, hFlushed⟩

theorem encodeMany (h : Encoded blob count state) (config : Log.Config) (hBlob : blob.InBounds)
    {added : Nat} (hCount : count + added < 2 ^ 32)
    (hBound : (Frame.stream blob.bytes (count + added)).length ≤ capacity) :
    Encoded blob (count + added) (Encoder.encodeMany config blob added state).value := by
  have hCapacity : capacity < 2 ^ 64 := by decide
  refine encodeMany_of_step config blob (fun index state hIndex hState => ?_) h
  have hHeld := hState.length_content_le
  have hNext := Frame.length_stream_le blob.bytes (Nat.succ_le_of_lt hIndex)
  rw [Frame.stream, List.length_append] at hNext
  exact hState.encodeNext config hBlob (by omega) (by omega)

end Encoded

theorem value_encodeAll {plan : Plan} {blob : Handle} {queue : Queue} {sink : Sink} {many : State}
    (hMany : (encodeMany plan.config blob plan.count.toNat { queue, sink }).value = many)
    (hFailure : many.failure = none) :
    (encodeAll plan blob queue sink).value = (flush many).value := by
  unfold encodeAll
  rw [value_bind, value_bind, hMany, hFailure]
  dsimp only
  rw [if_neg (by decide), value_bind, value_mapEvents]
  split
  · rfl
  · rfl

/-- What a run comes to whose settings are valid and whose blob can be had. -/
theorem value_run {platform : Platform} {plan : Plan} (valid : plan.settings.Valid)
    (granted : platform.refusal? plan.blobSize = none) {sink : Sink} {state : State}
    (hState : (encodeAll plan (blobOf plan) (queueOf plan) sink).value = state)
    (hFailure : state.failure = none) : (run platform plan sink).value = (state.sink, none) := by
  unfold queueOf at hState
  unfold run
  rw [value_bind, value_mapEvents, create_value, if_pos valid]
  dsimp only
  rw [granted]
  dsimp only
  rw [value_bind, value_bind, hState, hFailure]
  rfl

/-- A run without memory for the blob writes nothing. -/
theorem value_run_of_refused {platform : Platform} {plan : Plan} (valid : plan.settings.Valid)
    {reason : String} (refused : platform.refusal? plan.blobSize = some reason) (sink : Sink) :
    (run platform plan sink).value = (sink, some (.noMemory reason)) := by
  unfold run
  rw [value_bind, value_mapEvents, create_value, if_pos valid]
  dsimp only
  rw [refused]
  rfl

/-- At first there is no message. -/
theorem encoded_start {plan : Plan} (valid : plan.settings.Valid) {limit : Option Nat}
    (offered : limit ≠ some 0) (blob : Handle) :
    Encoded blob 0 { queue := queueOf plan, sink := { sliceLimit := limit } } :=
  ⟨wellFormed_fresh _ queueOwner valid, rfl, offered, rfl, rfl, rfl, rfl, rfl⟩

/-- Once all messages are encoded, the last of them are written out. -/
theorem encoded_encodeAll_of_many {plan : Plan} {blob : Handle} {queue : Queue} {sink : Sink}
    (hMany : Encoded blob plan.count.toNat
      (encodeMany plan.config blob plan.count.toNat { queue, sink }).value) :
    let state := (encodeAll plan blob queue sink).value
    Encoded blob plan.count.toNat state ∧ state.queue.content = [] := by
  intro state
  rw [show state = _ from value_encodeAll rfl hMany.failure_eq]
  exact hMany.flush

/-- All messages of a plan, encoded and written out. -/
theorem encoded_encodeAll {plan : Plan} (valid : plan.settings.Valid) {limit : Option Nat}
    (offered : limit ≠ some 0) {blob : Handle} (hBlob : blob.InBounds)
    (hBound : (Frame.stream blob.bytes plan.count.toNat).length ≤ capacity) :
    let state := (encodeAll plan blob (queueOf plan) { sliceLimit := limit }).value
    Encoded blob plan.count.toNat state ∧ state.queue.content = [] := by
  have hCount : 0 + plan.count.toNat < 2 ^ 32 := by
    rw [Nat.zero_add]
    exact plan.count.toNat_lt
  rw [← Nat.zero_add plan.count.toNat] at hBound
  have hMany := (encoded_start valid offered blob).encodeMany plan.config hBlob hCount hBound
  rw [Nat.zero_add] at hMany
  exact encoded_encodeAll_of_many hMany

theorem blobOf_spec (plan : Plan) :
    (blobOf plan).InBounds ∧ (blobOf plan).bytes = List.replicate plan.blobSize.toNat 98 := by
  have hBytes : ((Block.ofBytes [98]).times plan.blobSize.toNat).bytes =
      List.replicate plan.blobSize.toNat 98 := by simp
  have hLength : ((Block.ofBytes [98]).times plan.blobSize.toNat).length < 2 ^ 64 := by
    rw [← Block.length_bytes, hBytes, List.length_replicate]
    exact plan.blobSize.toNat_lt
  exact ⟨Handle.inBounds_ofBlock .., (Handle.bytes_ofBlock _ hLength).trans hBytes⟩

/-- The output of an encoder is the stream of its messages, under any settings. In the end its
queue is empty, and so refers to the blob no more. -/
theorem encodeAll_writes_stream (plan : Plan) (valid : plan.settings.Valid)
    (limit : Option Nat) (offered : limit ≠ some 0)
    (bounded : (Frame.stream (List.replicate plan.blobSize.toNat 98) plan.count.toNat).length ≤
      capacity) :
    let stream := Frame.stream (List.replicate plan.blobSize.toNat 98) plan.count.toNat
    let sink : Sink := { sliceLimit := limit }
    let state := (encodeAll plan (blobOf plan) (queueOf plan) sink).value
    state.failure = none ∧ state.sink.bytes = stream ∧ state.queue.content = [] ∧
      state.queue.chunks = [] ∧ state.total = state.offset ∧ state.offset.toNat = stream.length ∧
      (∀ id ∈ (blobOf plan).arrayId?, state.queue.uses id = 0) ∧
      (∀ platform : Platform, platform.refusal? plan.blobSize = none →
        (run platform plan sink).value = (state.sink, none)) := by
  intro stream sink state
  obtain ⟨hBlob, hBytes⟩ := blobOf_spec plan
  rw [← hBytes] at bounded
  obtain ⟨hEncoded, hEmpty⟩ := encoded_encodeAll valid offered hBlob bounded
  have hChunks := hEncoded.wellFormed.toConsistent.chunks_eq_nil hEmpty
  have hStream := hEncoded.bytes_eq
  have hOffset := hEncoded.offset_eq
  rw [hEmpty, List.append_nil] at hStream
  rw [hBytes] at hStream hOffset bounded
  have hLength : stream.length < 2 ^ 64 := Nat.lt_of_le_of_lt bounded (by decide)
  refine ⟨hEncoded.failure_eq, hStream, hEmpty, hChunks, ?_, ?_, ?_, ?_⟩
  · rw [hEncoded.total_eq, hStream, hOffset]
  · rw [hOffset]
    exact Word.toNat_toUInt64 hLength
  · intro id _
    rw [uses_eq, hChunks]
    rfl
  · exact fun platform granted => value_run valid granted rfl hEncoded.failure_eq

/-- Three messages with a blob of 5 bytes that is referred to, written out slice by slice after
two of them and at the end. The third message begins at position 78. -/
theorem encodeAll_writes_stream_of_three :
    let plan : Plan := { count := 3, blobSize := 5, settings :=
      { initialChunkSize := 64, smallHandleThreshold := 2, maxSlices := 3 } }
    let stream := Frame.stream (List.replicate plan.blobSize.toNat 98) plan.count.toNat
    let state := (encodeAll plan (blobOf plan) (queueOf plan) { sliceLimit := some 1 }).value
    plan.settings.Valid ∧ stream.length ≤ capacity ∧
      state.sink.bytes = stream ∧ stream.length = 117 ∧
      (stream.drop 78).take 16 = [109, 101, 115, 115, 0, 0, 0, 2, 0, 0, 0, 0, 0, 0, 0, 78] ∧
      state.total = 117 ∧ state.queue.uses ⟨blobOwner, 0⟩ = 0 ∧
      (run (.bounded 6) plan { sliceLimit := some 1 }).value = (state.sink, none) := by
  intro plan stream state
  have hValid : plan.settings.Valid := by decide
  have hLength : stream.length = 117 := by decide +kernel
  have hBound : stream.length ≤ capacity := by
    rw [hLength]
    decide
  obtain ⟨_, hStream, _, _, hTotal, hOffset, hUses, hRun⟩ :=
    encodeAll_writes_stream plan hValid (some 1) (by decide) hBound
  refine ⟨hValid, hBound, hStream, hLength, by decide +kernel, ?_, hUses _ (by decide +kernel),
    hRun (.bounded 6) (by decide)⟩
  rw [hTotal]
  exact UInt64.toNat_inj.mp (by rw [hOffset, hLength]; rfl)

/-- A command line that is understood, and does not ask for help, is followed. -/
theorem execute_eq {platform : Platform} {arguments : List String} {plan : Plan}
    (parsed : Plan.parse platform arguments = .ok plan) (wanted : plan.help = false) :
    (execute platform arguments).status =
        (if (run platform plan { sliceLimit := some outputSlices }).value.2 = none then 0 else 1) ∧
      (execute platform arguments).output.bytes =
        (run platform plan { sliceLimit := some outputSlices }).value.1.bytes := by
  unfold execute
  rw [parsed]
  dsimp only
  rw [if_neg (by rw [wanted]; decide)]
  exact ⟨rfl, rfl⟩

/-- An encoder whose queue never holds more than a first chunk's worth of bytes between two
messages, however long the stream becomes. -/
structure Flowing (settings : Settings) (blob : Handle) (count : Nat) (state : State) : Prop
    extends Encoded blob count state where
  settings_eq : state.queue.settings = settings
  held_le : state.queue.content.length ≤ settings.initialChunkSize.toNat

theorem settings_flush (state : State) :
    (flush state).value.queue.settings = state.queue.settings := by
  have hWritten : (state.queue.writeAll state.sink).value.queue.settings =
      state.queue.settings := settings_writeUpTo ..
  unfold Encoder.flush
  rw [value_bind]
  cases Mode.raise.escalate (state.queue.writeAll state.sink).value.ending with
  | returned count code => exact hWritten
  | raised code => exact hWritten

/-- Either the queue stays small, or it is written out. -/
theorem Flowing.encodeNext {settings : Settings} {blob : Handle} {count : Nat} {state : State}
    (h : Flowing settings blob count state) (config : Log.Config) (hBlob : blob.InBounds)
    (hCount : count < 2 ^ 32)
    (hBound : settings.initialChunkSize.toNat +
      (Frame.message count (Frame.stream blob.bytes count).length blob.bytes).length < 2 ^ 64) :
    ∃ after, (Encoder.encodeNext config blob state).value = .inl after ∧
      Flowing settings blob (count + 1) after := by
  have hHeld := h.held_le
  have hEncoded := h.toEncoded.encode hBlob hCount (by omega)
  have hSettings : (encode blob state).value.queue.settings = settings :=
    (h.toEncoded.grows_encode hBlob hCount).frame.1.trans h.settings_eq
  obtain ⟨hFlushed, hEmpty⟩ := hEncoded.flush
  have hKept := (settings_flush (encode blob state).value).trans hSettings
  unfold Encoder.encodeNext
  rw [value_bind, value_bind, value_mapEvents]
  by_cases hSmall : (encode blob state).value.queue.size <
      (encode blob state).value.queue.settings.initialChunkSize
  · rw [if_pos hSmall]
    refine ⟨_, rfl, hEncoded, hSettings, ?_⟩
    rw [hSettings, UInt64.lt_iff_toNat_lt, hEncoded.wellFormed.size_eq] at hSmall
    exact Nat.le_of_lt hSmall
  · rw [if_neg hSmall, value_bind, value_mapEvents, hFlushed.failure_eq]
    refine ⟨_, rfl, hFlushed, hKept, ?_⟩
    rw [hEmpty]
    exact Nat.zero_le _

/-- A plan whose queue never has to hold `2 ^ 64` bytes. It is written out once a first chunk's
worth of bytes has gathered, and beside its blob a message has fewer than 128 bytes; or all that
there is to write is half of the address space at most. -/
def Plan.Bounded (plan : Plan) : Prop :=
  plan.settings.initialChunkSize.toNat + plan.blobSize.toNat + 128 ≤ 2 ^ 64 ∨
    (Frame.stream (List.replicate plan.blobSize.toNat 98) plan.count.toNat).length ≤ capacity

theorem length_message_lt {plan : Plan}
    (bounded : plan.settings.initialChunkSize.toNat + plan.blobSize.toNat + 128 ≤ 2 ^ 64)
    {index : Nat} (hIndex : index < 2 ^ 32) (position : Nat) :
    plan.settings.initialChunkSize.toNat +
      (Frame.message index position (blobOf plan).bytes).length < 2 ^ 64 := by
  have hLabel := Frame.length_label_le hIndex
  rw [Frame.length_message, (blobOf_spec plan).2, List.length_replicate]
  omega

/-- All messages of a plan are encoded: the queue is written out early enough, or there is no more
to write. -/
theorem encoded_encodeMany {plan : Plan} (valid : plan.settings.Valid) (bounded : plan.Bounded)
    {limit : Option Nat} (offered : limit ≠ some 0) :
    Encoded (blobOf plan) plan.count.toNat
      (encodeMany plan.config (blobOf plan) plan.count.toNat
        { queue := queueOf plan, sink := { sliceLimit := limit } }).value := by
  have hStart := encoded_start valid offered (blobOf plan)
  have hCount : 0 + plan.count.toNat < 2 ^ 32 := by
    rw [Nat.zero_add]
    exact plan.count.toNat_lt
  rcases bounded with bounded | bounded
  · have hFlowing : Flowing plan.settings (blobOf plan) 0
        { queue := queueOf plan, sink := { sliceLimit := limit } } :=
      ⟨hStart, rfl, Nat.zero_le _⟩
    have hMany := encodeMany_of_step plan.config (blobOf plan) (fun index state hIndex hState =>
      have hNext : index < 2 ^ 32 := Nat.lt_trans hIndex hCount
      hState.encodeNext plan.config (blobOf_spec plan).1 hNext
        (length_message_lt bounded hNext _)) hFlowing
    rw [Nat.zero_add] at hMany
    exact hMany.toEncoded
  · rw [← (blobOf_spec plan).2, ← Nat.zero_add plan.count.toNat] at bounded
    have hMany := hStart.encodeMany plan.config (blobOf_spec plan).1 hCount bounded
    rwa [Nat.zero_add] at hMany

/-- The program as a whole: its standard output is the stream, unless its options are wrong, ask
for help, or ask for a blob that there is no memory for. -/
theorem execute_writes {platform : Platform} {arguments : List String} {plan : Plan}
    (parsed : Plan.parse platform arguments = .ok plan) (wanted : plan.help = false)
    (valid : plan.settings.Valid) (granted : platform.refusal? plan.blobSize = none)
    (bounded : plan.Bounded) :
    (execute platform arguments).status = 0 ∧ (execute platform arguments).output.bytes =
      Frame.stream (List.replicate plan.blobSize.toNat 98) plan.count.toNat := by
  have offered : some outputSlices ≠ some 0 := by decide
  obtain ⟨hEncoded, hEmpty⟩ :=
    encoded_encodeAll_of_many (encoded_encodeMany valid bounded offered)
  have hStream := hEncoded.bytes_eq
  rw [hEmpty, List.append_nil, (blobOf_spec plan).2] at hStream
  obtain ⟨hStatus, hOutput⟩ := execute_eq parsed wanted
  rw [value_run valid granted rfl hEncoded.failure_eq] at hStatus hOutput
  exact ⟨hStatus, hOutput.trans hStream⟩

end Encoder

end ByteQueue
