import ByteQueue.Gathering
import ByteQueue.Tally

/-!
Stores of chunks. A store is a chain of chunks that knows how many bytes they hold and how often
they refer to each array. Its chunks are `toList`; what it knows beside them is tied to that list
by its type, so nothing else need be said about it.
-/
namespace ByteQueue

/-- Chunks, head first. -/
structure ChunkStore where
  chain : Chain Chunk
  /-- The size of all chunks together. -/
  total : UInt64
  /-- The references that the chunks hold to arrays. -/
  tally : Tally
  total_eq : total = wordSum Chunk.size chain.toList
  count_tally : ∀ id, tally.count id = chain.toList.countP (Chunk.refersTo id)
  tally_eq_empty : chain.toList = [] → tally = .empty

namespace ChunkStore

/-- The chunks, head first. -/
def toList (store : ChunkStore) : List Chunk := store.chain.toList

/-- The number of chunks. -/
def length (store : ChunkStore) : Nat := store.chain.length

/-- The number of chunks that refer to an array. -/
def uses (store : ChunkStore) (id : ArrayId) : Nat := store.tally.count id

def empty : ChunkStore := ⟨.empty, 0, .empty, rfl, by simp, fun _ => rfl⟩

def head? (store : ChunkStore) : Option Chunk := store.chain.head?

def last? (store : ChunkStore) : Option Chunk := store.chain.last?

/-- Adds a chunk at the end. -/
def push (store : ChunkStore) (last : Chunk) : ChunkStore where
  chain := store.chain.push last
  total := store.total + last.size
  tally := store.tally.add last.sharedArrayId?
  total_eq := by simp [store.total_eq]
  count_tally id := by
    simp [Tally.count_add, store.count_tally, Chunk.refersTo, List.countP_append,
      List.countP_cons]
  tally_eq_empty h := by simp at h

/-- Puts a chunk in place of the last one; nothing happens to an empty store. -/
def setLast (store : ChunkStore) (last : Chunk) : ChunkStore :=
  match h : store.chain.last? with
  | none => store
  | some replaced =>
    { chain := store.chain.setLast last
      total := store.total - replaced.size + last.size
      tally := (store.tally.remove replaced.sharedArrayId?).add last.sharedArrayId?
      total_eq := by
        obtain ⟨earlier, he, hs⟩ := Chain.toList_of_last?_eq_some h
        simp [store.total_eq, he, hs]
      count_tally := fun id => by
        obtain ⟨earlier, he, hs⟩ := Chain.toList_of_last?_eq_some h
        rw [Tally.count_add, Tally.count_remove, store.count_tally, he, hs]
        simp [Chunk.refersTo, List.countP_cons]
      tally_eq_empty := fun hn => by
        obtain ⟨earlier, he, hs⟩ := Chain.toList_of_last?_eq_some h
        simp [hs] at hn }

/-- All but the first chunk. -/
def tail (store : ChunkStore) : ChunkStore :=
  match h : store.chain.head? with
  | none => empty
  | some head =>
    if hl : store.chain.length ≤ 1 then empty
    else
      { chain := store.chain.tail
        total := store.total - head.size
        tally := store.tally.remove head.sharedArrayId?
        total_eq := by
          obtain ⟨rest, hr⟩ := List.head?_eq_some_iff.mp (store.chain.head?_eq ▸ h)
          rw [store.total_eq, Chain.toList_tail, hr, wordSum_cons,
            UInt64.add_comm, UInt64.add_sub_cancel, List.tail_cons]
        count_tally := fun id => by
          obtain ⟨rest, hr⟩ := List.head?_eq_some_iff.mp (store.chain.head?_eq ▸ h)
          rw [Tally.count_remove, store.count_tally, Chain.toList_tail, hr]
          simp [Chunk.refersTo, List.countP_cons]
        tally_eq_empty := fun hn => by
          have := congrArg List.length hn
          simp only [Chain.toList_tail, List.length_tail, Chain.length_toList,
            List.length_nil] at this
          omega }

/-- The first `count` chunks, or as many as there are. -/
def take (store : ChunkStore) (count : Nat) : List Chunk := store.chain.take count

/-- The size of the first `count` chunks together. -/
def sizeOfFirst (store : ChunkStore) (count : Nat) : UInt64 :=
  if store.length ≤ count then store.total
  else store.chain.sumFirst Chunk.size store.total count

/-- Of the bytes of the first `count` chunks, the `wanted` ones that begin at position `start`, or
those of them that exist. -/
def gather (store : ChunkStore) (count start wanted : Nat) : Block :=
  (store.chain.foldWhile Gathering.goes Gathering.add ⟨count, start, wanted, []⟩).block

@[simp] theorem toList_empty : empty.toList = [] := rfl

@[simp] theorem length_toList (store : ChunkStore) : store.toList.length = store.length :=
  store.chain.length_toList

/-- A store knows nothing but its chunks when there are none. -/
theorem toList_eq_nil_iff {store : ChunkStore} : store.toList = [] ↔ store = empty := by
  constructor
  · intro h
    obtain ⟨chain, total, tally, ht, hc, he⟩ := store
    have h : chain.toList = [] := h
    obtain rfl := Chain.toList_eq_nil_iff.mp h
    obtain rfl := he h
    obtain rfl := ht
    rfl
  · rintro rfl
    rfl

/-- A store counts as many references to an array as its chunks hold. -/
theorem uses_eq (store : ChunkStore) (id : ArrayId) :
    store.uses id = store.toList.countP (Chunk.refersTo id) :=
  store.count_tally id

@[simp] theorem head?_eq (store : ChunkStore) : store.head? = store.toList.head? :=
  store.chain.head?_eq

@[simp] theorem last?_eq (store : ChunkStore) : store.last? = store.toList.getLast? :=
  store.chain.last?_eq

@[simp] theorem toList_push (store : ChunkStore) (last : Chunk) :
    (store.push last).toList = store.toList ++ [last] :=
  store.chain.toList_push last

@[simp] theorem toList_setLast (store : ChunkStore) (last : Chunk) :
    (store.setLast last).toList =
      if store.toList = [] then [] else store.toList.dropLast ++ [last] := by
  unfold setLast
  split
  · next h => simp_all [toList]
  · exact store.chain.toList_setLast last

@[simp] theorem toList_tail (store : ChunkStore) : store.tail.toList = store.toList.tail := by
  unfold tail
  split
  · next h =>
    rw [Chain.head?_eq, List.head?_eq_none_iff] at h
    rw [show store.toList = [] from h]
    rfl
  · split
    · next hl =>
      rw [toList_empty, eq_comm, ← List.length_eq_zero_iff, List.length_tail, length_toList]
      exact Nat.sub_eq_zero_of_le hl
    · exact store.chain.toList_tail

/-- Without its first chunk a store is shorter by one. -/
theorem length_tail (store : ChunkStore) : store.tail.length = store.length - 1 := by
  rw [← length_toList, toList_tail, List.length_tail, length_toList]

@[simp] theorem take_eq (store : ChunkStore) (count : Nat) :
    store.take count = store.toList.take count :=
  store.chain.take_eq count

theorem sizeOfFirst_eq (store : ChunkStore) (count : Nat) :
    store.sizeOfFirst count = wordSum Chunk.size (store.toList.take count) := by
  unfold sizeOfFirst
  split
  · next h => rw [List.take_of_length_le (by simpa using h), store.total_eq, toList]
  · rw [store.total_eq]
    exact store.chain.sumFirst_eq Chunk.size count

@[simp] theorem bytes_gather (store : ChunkStore) (count start wanted : Nat) :
    (store.gather count start wanted).bytes =
      Bytes.window ((store.toList.take count).flatMap Chunk.bytes) start wanted := by
  rw [gather, Chain.foldWhile_eq, Gathering.bytes_foldWhile]
  simp [Gathering.block, toList]

end ChunkStore

end ByteQueue
