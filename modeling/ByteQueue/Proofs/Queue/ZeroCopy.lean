import ByteQueue.Proofs.Queue.Home

/-! Zero copy: a queue copies the bytes of a handle only where that is cheaper than a chunk of
their own, shares the array of the handle otherwise, and lets go of the array with the last of
its bytes. -/
namespace ByteQueue.Queue

/-- How many chunks are still filling an array. The reference that such a chunk holds is the only
one. -/
def fillers (queue : Queue) (id : ArrayId) : Nat :=
  queue.chunks.countP fun
    | .filling tail => tail.id == id
    | .sealed _ => false

/-- How many chunks have bytes in an array that are not consumed. -/
def holders (queue : Queue) (id : ArrayId) : Nat :=
  (queue.chunks.zip (remainders queue.headOffset queue.chunks)).countP fun (chunk, left) =>
    chunk.home? == some id && !left.isEmpty

/-- What a handle is to a queue that has absorbed it, as long as some of its bytes are left:
`before` bytes were ahead of them then, and `done` bytes have been consumed since. -/
structure Shares (queue : Queue) (handle : Handle) (before done : Nat) : Prop where
  refers : queue.Refers handle before done
  drained : ∃ ahead parts behind, queue.outcome .drain = .drained (ahead ++ (parts ++ behind)) ∧
    (ahead.flatMap Handle.bytes).length = before - done ∧ handle.Tiles (done - before) parts ∧
    ∀ part ∈ parts, handle.sharing part = true
  taken : before ≤ done → ∃ head rest, queue.chunks = .sealed head :: rest ∧
    ∀ count, count ≠ 0 → count ≤ head.size - queue.headOffset →
      ∃ part, queue.outcome (.take count) = .taken part ∧ handle.sharing part = true ∧
        part.start.toNat = handle.start.toNat + (done - before) ∧ part.size = count

/-- Where the bytes arrive that an operation adds to a queue of `owner`. -/
structure Arrives (queue : Queue) (owner : Nat) (operation : Operation) : Prop where
  length_eq : (queue.arriving operation).length = operation.entering.length
  referred : ∀ handle, operation = .absorb handle → ¬ queue.Copies handle →
    queue.arriving operation = List.replicate handle.length handle.arrayId?
  copied : (∀ handle, operation = .absorb handle → queue.Copies handle) →
    ∀ home ∈ queue.arriving operation, ∃ id, home = some id ∧ id.owner = owner

variable {queue : Queue} {handle : Handle} {before done : Nat}

theorem sharing_of_array_eq {part : Handle} (hb : handle.InBounds) (h0 : handle.size ≠ 0)
    (hArray : part.array = handle.array) : handle.sharing part = true := by
  have hIds : handle.arrayId? = part.arrayId? := congrArg (Option.map SharedArray.id) hArray.symm
  have hSome : handle.arrayId?.isSome = true := by
    unfold Handle.InBounds at hb
    unfold Handle.arrayId?
    split at hb
    · next array hSome => rw [hSome]; rfl
    · exact absurd hb h0
  rw [Handle.sharing, hSome, hIds, Bool.true_and]
  exact beq_self_eq_true _

/-- References stay, and whatever is handed out of them is shared. -/
theorem Refers.shares (h : queue.Refers handle before done) (hQueue : queue.WellFormed)
    (hb : handle.InBounds) (h0 : handle.size ≠ 0) (hLeft : done - before < handle.size.toNat) :
    queue.Shares handle before done where
  refers := h
  drained := by
    obtain ⟨ahead, parts, behind, hOutcome, hTiles, hAhead⟩ := h.drain hQueue hLeft
    exact ⟨ahead, parts, behind, hOutcome, hAhead, hTiles, fun part hm =>
      sharing_of_array_eq hb h0 (hTiles.array_eq hm)⟩
  taken := by
    intro hFront
    obtain ⟨head, rest, hChunks, hTake⟩ := h.take hQueue hFront hLeft
    refine ⟨head, rest, hChunks, fun count hCount hFits => ?_⟩
    obtain ⟨part, hOutcome, hArray, hStart, hSize⟩ := hTake count hCount hFits
    exact ⟨part, hOutcome, sharing_of_array_eq hb h0 hArray, hStart, hSize⟩

theorem WellFormed.arrives (h : queue.WellFormed) {owner : Nat} (owns : queue.Owns owner)
    {operation : Operation} (hBounds : operation.InBounds)
    (hAfter : (queue.apply operation).WellFormed) : queue.Arrives owner operation where
  length_eq := (h.homes_apply hBounds hAfter).2
  referred := by
    rintro handle rfl hReferred
    exact h.arriving_absorb hBounds hReferred hAfter
  copied := h.arriving_owned owns hBounds hAfter

/-- The references to an array are those of the chunks with bytes in it. -/
theorem uses_add_fillers (queue : Queue) (id : ArrayId) :
    queue.uses id + queue.fillers id =
      queue.chunks.countP fun chunk => chunk.home? == some id := by
  rw [uses_eq, fillers]
  induction queue.chunks with
  | nil => rfl
  | cons head rest ih =>
    rw [List.countP_cons, List.countP_cons, List.countP_cons, ← ih]
    cases head with
    | filling tail =>
      have hIds : ((Chunk.filling tail).home? == some id) = (tail.id == id) := rfl
      have hNone : Chunk.refersTo id (.filling tail) = false := rfl
      rw [hIds, hNone, if_neg Bool.false_ne_true]
      dsimp only
      omega
    | sealed handle =>
      have hIds : ((Chunk.sealed handle).home? == some id) = Chunk.refersTo id (.sealed handle) :=
        rfl
      dsimp only
      rw [hIds, if_neg Bool.false_ne_true]
      omega

/-- A chunk without bytes that are not consumed would hold a reference for nothing: there is
none. -/
theorem WellFormed.uses_add_fillers_eq_holders (h : queue.WellFormed) (id : ArrayId) :
    queue.uses id + queue.fillers id = queue.holders id := by
  have hLength : (remainders queue.headOffset queue.chunks).length = queue.chunks.length := by
    cases queue.chunks with
    | nil => rfl
    | cons head rest => rw [remainders, List.length_cons, List.length_map, List.length_cons]
  have hFirst : (queue.chunks.zip (remainders queue.headOffset queue.chunks)).map Prod.fst =
      queue.chunks := List.map_fst_zip (Nat.le_of_eq hLength.symm)
  have hHolders : queue.holders id =
      ((queue.chunks.zip (remainders queue.headOffset queue.chunks)).map Prod.fst).countP
        fun chunk => chunk.home? == some id := by
    rw [holders, List.countP_map]
    refine List.countP_congr ?_
    rintro ⟨chunk, left⟩ hm
    have hLeft : left.isEmpty = false := by
      rw [← Bool.not_eq_true, Block.isEmpty_iff]
      exact h.cursor.ne_nil_of_mem_remainders h.chunks_wellFormed (List.of_mem_zip hm).2
    dsimp only [Function.comp_apply]
    rw [hLeft, Bool.not_false, Bool.and_true]
  rw [hHolders, hFirst, uses_add_fillers]

/-- A handle that is not copied stays shared in every run, until its bytes are consumed. -/
theorem WellFormed.shares_run (h : queue.WellFormed) (hb : handle.InBounds) (h0 : handle.size ≠ 0)
    (hReferred : ¬ queue.Copies handle) (hAfter : (queue.apply (.absorb handle)).WellFormed)
    {later : List Operation} (admissible : (queue.apply (.absorb handle)).Admissible later)
    (hLeft : ((queue.apply (.absorb handle)).consumed later).length - queue.content.length <
      handle.size.toNat) :
    ((queue.apply (.absorb handle)).run later).Shares handle queue.content.length
      ((queue.apply (.absorb handle)).consumed later).length := by
  have hAbsorbed : (queue.apply (.absorb handle)).Refers handle queue.content.length 0 :=
    refers_absorb h hb h0 hReferred
  have hRefers := hAbsorbed.run hAfter admissible (by rwa [Nat.zero_add])
  rw [Nat.zero_add] at hRefers
  exact hRefers.shares (hAfter.run admissible) hb h0 hLeft

/-- In every run the bytes of a handle are copied just if they are few and there is room for them
in the tail chunk. Otherwise they stay in their own array until they are consumed, and whatever is
handed out of them is shared. No chunk outlives its bytes, and so a queue does not refer to an
array once all bytes that arrived in it are consumed. -/
theorem run_shares_and_releases (logger : Option Log.Config) (owner : Nat) (settings : Settings)
    (valid : settings.Valid) (operations : List Operation)
    (admissible : (fresh logger owner settings).Admissible operations) :
    let queue := (fresh logger owner settings).run operations
    (∀ left ∈ remainders queue.headOffset queue.chunks, left.bytes ≠ []) ∧
      (∀ id, queue.uses id + queue.fillers id = queue.holders id) ∧
      (∀ id, some id ∉ ((fresh logger owner settings).arrived operations).drop
        ((fresh logger owner settings).consumed operations).length → queue.uses id = 0) ∧
      (∀ operation, operation.InBounds → (queue.apply operation).content.length ≤ capacity →
        queue.Arrives owner operation) ∧
      (∀ handle, handle.size = 0 → queue.apply (.absorb handle) = queue) ∧
      ∀ handle, handle.InBounds → handle.size ≠ 0 →
        (queue.apply (.absorb handle)).content.length ≤ capacity →
        (queue.Copies handle ↔ queue.Coalesced handle (queue.apply (.absorb handle))) ∧
          (¬ queue.Copies handle → ∀ later, (queue.apply (.absorb handle)).Admissible later →
            ((queue.apply (.absorb handle)).consumed later).length - queue.content.length <
              handle.size.toNat →
            ((queue.apply (.absorb handle)).run later).Shares handle queue.content.length
              ((queue.apply (.absorb handle)).consumed later).length) := by
  intro queue
  have hFresh := wellFormed_fresh logger owner valid
  have hQueue : queue.WellFormed := hFresh.run admissible
  have hOwns : queue.Owns owner := hFresh.owns_run (owns_fresh logger owner settings) admissible
  have hHomes := hFresh.homes_run admissible
  refine ⟨fun left hm => hQueue.cursor.ne_nil_of_mem_remainders hQueue.chunks_wellFormed hm,
    hQueue.uses_add_fillers_eq_holders,
    fun id hNone => ?_, fun operation hBounds hBound => ?_,
    fun handle h0 => queue.absorb_of_size_eq_zero h0, fun handle hb h0 hBound => ?_⟩
  · exact hQueue.uses_eq_zero (hHomes ▸ hNone)
  · exact hQueue.arrives hOwns hBounds (hQueue.apply hBounds hBound)
  · have hBounds : (Operation.absorb handle).InBounds := hb
    have hAfter := hQueue.apply hBounds hBound
    exact ⟨queue.copies_iff_coalesced hb h0, fun hReferred later hLater hLeft =>
      hQueue.shares_run hb h0 hReferred hAfter hLater hLeft⟩

/-- A short handle is copied, one that leaves again is let go of, a third is split in two and stays;
another window onto its array is then absorbed, and is in part consumed. -/
theorem run_shares_and_releases_in_small_chunks :
    let settings : Settings := { initialChunkSize := 4, smallHandleThreshold := 3, maxSlices := 2 }
    let array : SharedArray := ⟨⟨1, 2⟩, .ofBytes [11, 12, 13, 14, 15, 16]⟩
    let operations : List Operation :=
      [.append (.ofBytes [1, 2]), .absorb (.adopt (some ⟨⟨1, 0⟩, .ofBytes [3, 4]⟩) 2),
        .absorb (.adopt (some ⟨⟨1, 1⟩, .ofBytes [5, 6, 7, 8, 9]⟩) 5), .take 7, .projectAll,
        .confirm 2, .append (.ofBytes [10]), .absorb (.adopt (some array) 6)]
    let queue := (fresh none 0 settings).run operations
    let handle : Handle := ⟨some array, 1, 5⟩
    settings.Valid ∧ (fresh none 0 settings).Admissible operations ∧
      queue.content = [10, 11, 12, 13, 14, 15, 16] ∧ queue.uses ⟨1, 0⟩ = 0 ∧
      queue.uses ⟨1, 1⟩ = 0 ∧ queue.uses ⟨1, 2⟩ + queue.fillers ⟨1, 2⟩ = 2 ∧
      queue.Arrives 0 (.absorb handle) ∧ ¬ queue.Copies handle ∧
      ¬ queue.Coalesced handle (queue.apply (.absorb handle)) ∧
      ((queue.apply (.absorb handle)).run [.take 8]).Shares handle 7 8 := by
  intro settings array operations queue handle
  have hValid : settings.Valid := by decide
  have hAdmissible : (fresh none 0 settings).Admissible operations := by decide +kernel
  obtain ⟨_, hHolders, hReleased, hArrives, _, hAbsorb⟩ :=
    run_shares_and_releases none 0 settings hValid operations hAdmissible
  have hContent : queue.content = [10, 11, 12, 13, 14, 15, 16] := by decide +kernel
  have hBound : (queue.apply (.absorb handle)).content.length ≤ capacity := by decide +kernel
  have hLater : (queue.apply (.absorb handle)).Admissible [.take 8] := by decide +kernel
  have hDone : ((queue.apply (.absorb handle)).consumed [.take 8]).length = 8 := by decide +kernel
  have hNotCopied : ¬ queue.Copies handle := fun h => absurd h.1 (by decide)
  obtain ⟨hIff, hShares⟩ := hAbsorb handle (by decide) (by decide) hBound
  have hAt := hShares hNotCopied [.take 8] hLater
  rw [hDone, hContent] at hAt
  refine ⟨hValid, hAdmissible, hContent, hReleased _ (by decide +kernel),
    hReleased _ (by decide +kernel), ?_, hArrives (.absorb handle) (by decide) hBound, hNotCopied,
    fun h => hNotCopied (hIff.mpr h), hAt (by decide)⟩
  rw [hHolders]
  decide +kernel

end ByteQueue.Queue
