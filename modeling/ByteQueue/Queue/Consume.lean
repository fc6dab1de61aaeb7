import ByteQueue.Queue.Basic

/-!
How bytes leave a queue: confirmed as written, taken as one handle, or drained as the handles
of all chunks. The first two consume leading bytes alike: chunks that are used up are retired,
and the cursor advances in the one that is not. A refused call changes nothing.

Confirming works against what the latest projection showed. Taking and draining put an end to
that projection.
-/
namespace ByteQueue.Queue

open Logged

/-- Consumes `count` bytes from the head of `chunks`, of which `offset` bytes of the first are
consumed already: the chunks that remain, and the cursor into the first of them. -/
def retire (logger : Option Log.Config) :
    List Chunk → UInt64 → UInt64 → Logged Event (List Chunk × UInt64)
  | [], offset, _ => pure ([], offset)
  | head :: rest, offset, count => do
    if count = 0 then return (head :: rest, offset)
    let left := head.size - offset
    if count < left then return (head :: rest, offset + count)
    Event.emit logger (.retired head.size)
    retire logger rest 0 (count - left)

/-- Retires the head chunk if all that is left of it is among the `count` bytes to be consumed,
and is done otherwise. -/
def retireHead (logger : Option Log.Config) : ChunkStore × UInt64 × UInt64 →
    Logged Event ((ChunkStore × UInt64 × UInt64) ⊕ (ChunkStore × UInt64))
  | (store, offset, count) => do
    match store.head? with
    | none => return .inr (store, offset)
    | some head =>
      if count = 0 then return .inr (store, offset)
      let left := head.size - offset
      if count < left then return .inr (store, offset + count)
      Event.emit logger (.retired head.size)
      return .inl (store.tail, 0, count - left)

/-- Consumes `count` bytes from the head of a store. -/
def retireFrom (logger : Option Log.Config) (store : ChunkStore) (offset count : UInt64) :
    Logged Event (ChunkStore × UInt64) :=
  iterate (retireHead logger) (fun (store, offset, _) => (store, offset)) store.length
    (store, offset, count)

/-- Retiring from a store retires from the list of its chunks. -/
theorem retireFrom_eq (logger : Option Log.Config) (store : ChunkStore) (offset count : UInt64) :
    (fun (store, offset) => (store.toList, offset)) <$> retireFrom logger store offset count =
      retire logger store.toList offset count := by
  unfold retireFrom
  generalize hn : store.length = n
  induction n generalizing store offset count with
  | zero =>
    rw [← ChunkStore.length_toList, List.length_eq_zero_iff] at hn
    simp [retire, hn]
  | succ n ih =>
    obtain ⟨head, rest, hc⟩ := List.exists_cons_of_length_eq_add_one (store.length_toList.trans hn)
    have hr : store.tail.toList = rest := by rw [ChunkStore.toList_tail, hc, List.tail_cons]
    have hl : store.tail.length = n := by rw [ChunkStore.length_tail, hn, Nat.add_sub_cancel]
    rw [iterate_succ, hc]
    by_cases h0 : count = 0
    · simp [retireHead, retire, hc, h0]
    · by_cases hs : count < head.size - offset
      · simp [retireHead, retire, hc, h0, hs]
      · simp [retireHead, retire, hc, h0, hs, ih _ _ _ hl, hr]

/-- Consumes the first `count` bytes. -/
def consume (queue : Queue) (count : UInt64) : Logged Event Queue := do
  let (store, headOffset) ← retireFrom queue.logger queue.store queue.headOffset count
  return { queue with store, headOffset, size := queue.size - count }

/-- Consumes `count` bytes that the latest projection showed. -/
def confirm (queue : Queue) (count : UInt64) : Logged Event (Except Failure Queue) := do
  if count > queue.projected then
    queue.emit (.confirmRefused count queue.projected)
    queue.emit (.errorEmitted .overConfirmed)
    return .error .overConfirmed
  let queue ← queue.consume count
  let queue := { queue with projected := queue.projected - count }
  queue.emit (.confirmed count queue.size queue.chunkCount queue.headOffset queue.projected)
  return .ok queue

/-- The first `count` bytes. -/
def first (queue : Queue) (count : UInt64) : Block :=
  queue.store.gather queue.chunkCount queue.headOffset.toNat count.toNat

theorem bytes_first (queue : Queue) (count : UInt64) :
    (queue.first count).bytes = queue.content.take count.toNat := by
  rw [first, ChunkStore.bytes_gather, List.take_of_length_le (by simp [chunkCount])]
  rfl

/-- A handle to a copy of the first `count` bytes, in a new array. -/
def copyFirst (queue : Queue) (count : UInt64) : Logged Event (Queue × Handle) := do
  queue.emit (.takenAsCopy count)
  return ({ queue with nextArray := queue.nextArray.next },
    .adopt (some ⟨queue.nextArray, queue.first count⟩) count)

/-- A handle to the first `count` bytes, of which there are that many: a slice of the head
chunk if that is sealed and holds them all, and a copy otherwise. -/
def firstBytes (queue : Queue) (count : UInt64) :
    Logged Event (Except Failure (Queue × Handle)) := do
  match queue.store.head? with
  | some (.sealed head) =>
    if count ≤ head.size - queue.headOffset then
      match head.slice queue.headOffset count with
      | .ok slice =>
        queue.emit (.takenAsSlice count)
        return .ok (queue, slice)
      | .error failure => return .error failure
    else return .ok (← queue.copyFirst count)
  | _ => return .ok (← queue.copyFirst count)

/-- Consumes the first `count` bytes and yields them as a handle. -/
def take (queue : Queue) (count : UInt64) : Logged Event (Except Failure (Queue × Handle)) := do
  if count > queue.size then
    queue.emit (.takeRefused count queue.size)
    queue.emit (.errorEmitted .overTaken)
    return .error .overTaken
  if count = 0 then return .ok (queue, .empty)
  match ← firstBytes { queue with projected := 0 } count with
  | .error failure => return .error failure
  | .ok (queue, handle) =>
    let queue ← queue.consume count
    return .ok (queue, handle)

/-- Handles to what is left of each chunk. Only the head chunk may be consumed in part. -/
def release : List Chunk → UInt64 → List Handle
  | [], _ => []
  | head :: rest, offset =>
    let first := head.release
    let left :=
      if offset = 0 then first
      else (first.slice offset (first.size - offset)).toOption.getD .empty
    left :: rest.map Chunk.release

/-- Empties the queue, and yields its content as handles. -/
def drain (queue : Queue) : Logged Event (Queue × List Handle) := do
  queue.emit (.draining queue.size queue.chunkCount)
  return (queue.clear, release queue.chunks queue.headOffset)

end ByteQueue.Queue
