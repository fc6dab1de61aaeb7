import ByteQueue.Proofs.Chunk

/-! Slices of slices. Where a slice lies is told by its offset in the handle that it was taken from;
offsets add up, so a slice of a slice is a slice. All sums here are sums of numbers: what a slice is
granted lies inside the window, and no position in it wraps around. -/
namespace ByteQueue.Handle

/-- A slice is granted just if it lies inside the window, and an empty one lets go of the array. -/
theorem slice_eq_ok_iff {handle part : Handle} {offset count : UInt64} :
    handle.slice offset count = .ok part ↔
      offset.toNat + count.toNat ≤ handle.size.toNat ∧
        part = if count = 0 then empty else ⟨handle.array, handle.start + offset, count⟩ := by
  rw [← Nat.not_lt, ← handle.out_of_range_iff, slice]
  split
  · next hRefused =>
    constructor
    · intro h
      cases h
    · intro h
      exact absurd hRefused h.1
  · next hAccepted =>
    rw [and_iff_right hAccepted]
    split
    · exact ⟨fun h => (Except.ok.inj h).symm, fun h => congrArg Except.ok h.symm⟩
    · exact ⟨fun h => (Except.ok.inj h).symm, fun h => congrArg Except.ok h.symm⟩

theorem size_slice {handle part : Handle} {offset count : UInt64}
    (h : handle.slice offset count = .ok part) : part.size = count := by
  obtain ⟨_, rfl⟩ := slice_eq_ok_iff.mp h
  split
  · next h0 => exact h0.symm
  · rfl

theorem inBounds_empty : empty.InBounds := rfl

/-- A copy is shown whole, from the beginning of an array of its own. -/
theorem inBounds_ofBlock (id : ArrayId) (block : Block) : (ofBlock id block).InBounds := by
  unfold ofBlock
  split
  · exact inBounds_empty
  · have hLe : block.size.toNat ≤ block.length := by
      rw [Block.size, Nat.toUInt64, UInt64.toNat_ofNat']
      exact Nat.mod_le ..
    show 0 + block.size.toNat ≤ block.length ∧ 0 + block.size.toNat < UInt64.size
    rw [Nat.zero_add]
    exact ⟨hLe, block.size.toNat_lt⟩

theorem bytes_ofBlock (id : ArrayId) {block : Block} (h : block.length < 2 ^ 64) :
    (ofBlock id block).bytes = block.bytes := by
  unfold ofBlock
  split
  · next hEmpty =>
    rw [Block.isEmpty_iff.mp hEmpty]
    rfl
  · rw [bytes_eq]
    show block.bytes.window 0 block.size.toNat = _
    rw [Block.toNat_size h, Bytes.window, List.drop_zero, ← Block.length_bytes, List.take_length]

theorem inBounds_adopt {array : Option SharedArray} {count : UInt64}
    (hFits : count.toNat ≤ array.elim 0 fun array => array.block.length) :
    (adopt array count).InBounds := by
  cases array with
  | none => exact UInt64.toNat_inj.mp (Nat.le_zero.mp hFits)
  | some array =>
    show 0 + count.toNat ≤ array.block.length ∧ 0 + count.toNat < UInt64.size
    rw [Nat.zero_add]
    exact ⟨hFits, count.toNat_lt⟩

/-- Positions in a window are words. -/
theorem InBounds.window_lt {handle : Handle} (hb : handle.InBounds) :
    handle.start.toNat + handle.size.toNat < 2 ^ 64 := by
  unfold InBounds at hb
  split at hb
  · exact hb.2
  · rw [hb]
    exact handle.start.toNat_lt

theorem InBounds.slice {handle part : Handle} (hb : handle.InBounds) {offset count : UInt64}
    (h : handle.slice offset count = .ok part) : part.InBounds := by
  obtain ⟨hFits, rfl⟩ := slice_eq_ok_iff.mp h
  split
  · exact inBounds_empty
  · next h0 => exact (wellFormed_slice hb hFits h0).2

/-- What a part of a handle is, in exact numbers: `count` bytes at `offset` in the window, at the
corresponding place in the same array, or nothing at all. -/
structure PartAt (handle : Handle) (offset count : Nat) (part : Handle) : Prop where
  inside : offset + count ≤ handle.size.toNat
  inBounds : part.InBounds
  size_eq : part.size.toNat = count
  bytes_eq : part.bytes = handle.bytes.window offset count
  eq_empty : count = 0 → part = empty
  place_eq : count ≠ 0 →
    part.array = handle.array ∧ part.start.toNat = handle.start.toNat + offset

theorem InBounds.partAt {handle part : Handle} (hb : handle.InBounds) {offset count : UInt64}
    (h : handle.slice offset count = .ok part) :
    handle.PartAt offset.toNat count.toNat part where
  inside := (slice_eq_ok_iff.mp h).1
  inBounds := hb.slice h
  size_eq := congrArg UInt64.toNat (size_slice h)
  bytes_eq := bytes_slice hb h
  eq_empty := by
    intro h0
    rw [(slice_eq_ok_iff.mp h).2, if_pos (UInt64.toNat_inj.mp h0)]
  place_eq := by
    intro h0
    obtain ⟨hFits, rfl⟩ := slice_eq_ok_iff.mp h
    have hWindow := hb.window_lt
    rw [if_neg fun hn => h0 (congrArg UInt64.toNat hn)]
    exact ⟨rfl, Word.toNat_add_of_lt (by omega)⟩

/-- A slice of a slice is the slice at the sum of the offsets, which is a word. -/
theorem slice_slice {handle part inner : Handle} {offset count within wanted : UInt64}
    (hPart : handle.slice offset count = .ok part) (hInner : part.slice within wanted = .ok inner) :
    handle.slice (offset + within) wanted = .ok inner ∧
      (offset + within).toNat = offset.toNat + within.toNat := by
  have hSize := size_slice hPart
  obtain ⟨hFits, rfl⟩ := slice_eq_ok_iff.mp hPart
  obtain ⟨hInside, rfl⟩ := slice_eq_ok_iff.mp hInner
  rw [hSize] at hInside
  have hShort := handle.size.toNat_lt
  have hSum : (offset + within).toNat = offset.toNat + within.toNat :=
    Word.toNat_add_of_lt (by omega)
  refine ⟨slice_eq_ok_iff.mpr ⟨by omega, ?_⟩, hSum⟩
  by_cases h0 : wanted = 0
  · rw [if_pos h0, if_pos h0]
  · have hWanted := Word.toNat_pos h0
    have hCount : count ≠ 0 := by
      rintro rfl
      rw [UInt64.toNat_zero] at hInside
      omega
    rw [if_neg h0, if_neg h0, if_neg hCount, UInt64.add_assoc]

/-- Conversely, what lies inside a slice can be had from it. -/
theorem exists_slice_slice {handle part : Handle} {offset count within wanted : UInt64}
    (hPart : handle.slice offset count = .ok part)
    (hInside : within.toNat + wanted.toNat ≤ count.toNat) :
    ∃ inner, part.slice within wanted = .ok inner := by
  have hSize := size_slice hPart
  exact ⟨_, slice_eq_ok_iff.mpr ⟨by rw [hSize]; exact hInside, rfl⟩⟩

/-- Slices of the given sizes, the first one at `offset` and each other one where the one before it
ends. -/
def slicesFrom (handle : Handle) (offset : UInt64) : List UInt64 → Except Failure (List Handle)
  | [] => return []
  | count :: rest => do
    let part ← handle.slice offset count
    let parts ← handle.slicesFrom (offset + count) rest
    return part :: parts

/-- Slices that follow one another up to the end of the window are all granted, and they show what
the window shows from the first of them on. -/
theorem InBounds.slicesFrom {handle : Handle} (hb : handle.InBounds) {offset : UInt64}
    {sizes : List UInt64}
    (hAll : offset.toNat + sumOf UInt64.toNat sizes = handle.size.toNat) :
    ∃ parts, handle.slicesFrom offset sizes = .ok parts ∧ parts.map Handle.size = sizes ∧
      (∀ part ∈ parts, part.InBounds) ∧
      parts.flatMap Handle.bytes = handle.bytes.drop offset.toNat := by
  induction sizes generalizing offset with
  | nil =>
    have hEnd : handle.bytes.length ≤ offset.toNat := by
      rw [length_bytes, hb.length_eq]
      exact Nat.le_of_eq hAll.symm
    exact ⟨[], rfl, rfl, nofun, (List.drop_eq_nil_of_le hEnd).symm⟩
  | cons count rest ih =>
    rw [sumOf_cons] at hAll
    have hShort := handle.size.toNat_lt
    have hNext : (offset + count).toNat = offset.toNat + count.toNat :=
      Word.toNat_add_of_lt (by omega)
    have hBehind : (offset + count).toNat + sumOf UInt64.toNat rest = handle.size.toNat := by omega
    obtain ⟨parts, hParts, hSizes, hBounds, hBytes⟩ := ih hBehind
    obtain ⟨part, hPart⟩ : ∃ part, handle.slice offset count = .ok part :=
      ⟨_, slice_eq_ok_iff.mpr ⟨by omega, rfl⟩⟩
    refine ⟨part :: parts, ?_, ?_, ?_, ?_⟩
    · rw [Handle.slicesFrom, hPart, hParts]
      rfl
    · rw [List.map_cons, size_slice hPart, hSizes]
    · exact List.forall_mem_cons.mpr ⟨hb.slice hPart, hBounds⟩
    · rw [List.flatMap_cons, bytes_slice hb hPart, hBytes, hNext, Bytes.window, ← List.drop_drop,
        List.take_append_drop]

end ByteQueue.Handle
