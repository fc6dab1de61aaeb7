import ByteQueue.Encoder.Reader
import ByteQueue.Proofs.Word

/-! The stream of messages, without queues and sinks: one message after the other, each with its
number and with its own position. Nothing here knows how a stream comes about. -/
namespace ByteQueue

theorem Bytes.ofBigEndian_append_singleton (data : Bytes) (last : UInt8) :
    ofBigEndian (data ++ [last]) = 256 * ofBigEndian data + last.toNat := by
  rw [ofBigEndian, List.foldl_append]
  rfl

/-- The digits stand for the number up to multiples of what no longer fits. -/
theorem Bytes.ofBigEndian_bigEndian (width n : Nat) :
    ofBigEndian (bigEndian width n) = n % 256 ^ width := by
  induction width generalizing n with
  | zero => rw [pow_zero, Nat.mod_one]; rfl
  | succ width ih =>
    have hLast : n.toUInt8.toNat = n % 256 := UInt8.toNat_ofNat'
    rw [bigEndian, ofBigEndian_append_singleton, ih, hLast, Nat.pow_succ', Nat.mod_mul,
      Nat.add_comm]

/-- Only what fits into the digits has an influence on them. -/
theorem Bytes.bigEndian_mod (width n : Nat) :
    bigEndian width (n % 256 ^ width) = bigEndian width n := by
  induction width generalizing n with
  | zero => rfl
  | succ width ih =>
    have hRest : n % 256 ^ (width + 1) / 256 = n / 256 % 256 ^ width := by
      rw [Nat.pow_succ', Nat.mod_mul_right_div_self]
    have hLast : (n % 256 ^ (width + 1)).toUInt8 = n.toUInt8 := by
      apply UInt8.toNat_inj.mp
      show (n % 256 ^ (width + 1)) % 256 = n % 256
      rw [Nat.pow_succ', Nat.mod_mul_right_mod]
    rw [bigEndian, bigEndian, hRest, hLast, ih]

theorem Text.length_bytes_le (text : Text) : (bytes text).length ≤ 4 * text.length := by
  rw [length_bytes]
  induction text with
  | nil => exact Nat.le_refl _
  | cons char rest ih =>
    have hChar := char.utf8Size_le_four
    simp only [width, sumOf_cons, List.length_cons] at ih ⊢
    omega

namespace Frame

/-- Message number `index`, with so many bytes of the stream before it. Lengths have 32 bits, and
a longer one is cut down to them. -/
def message (index position : Nat) (blob : Bytes) : Bytes :=
  let text := Text.bytes ("message #".toList ++ Text.decimal index)
  Text.bytes "mess".toList ++ Bytes.bigEndian 4 index ++ Bytes.bigEndian 8 position ++
    Bytes.bigEndian 4 text.length ++ text ++ Bytes.bigEndian 4 blob.length ++ blob

/-- The first `count` messages, all with the same blob. -/
def stream (blob : Bytes) : Nat → Bytes
  | 0 => []
  | count + 1 => stream blob count ++ message count (stream blob count).length blob

/-- What an encoder appends for a message. -/
theorem bytes_eq_message {index : UInt32} {offset : UInt64} {blob : Bytes}
    (hBlob : blob.length < 2 ^ 64) :
    bytes index offset blob = message index.toNat offset.toNat blob := by
  have hSize : blob.size.toNat = blob.length := Word.toNat_toUInt64 hBlob
  simp [bytes, fields, message, magic, text, hSize]

/-- Positions are told up to multiples of `2 ^ 64`. -/
theorem message_mod (index position : Nat) (blob : Bytes) :
    message index (position % 2 ^ 64) blob = message index position blob := by
  have h := Bytes.bigEndian_mod 8 position
  rw [show 256 ^ 8 = 2 ^ 64 by decide] at h
  rw [message, message, h]

/-- The text of message number `index`. -/
def label (index : Nat) : Bytes := Text.bytes ("message #".toList ++ Text.decimal index)

theorem length_label_le {index : Nat} (h : index < 2 ^ 32) : (label index).length ≤ 76 := by
  have hDigits : (Text.decimal index).length ≤ 10 :=
    Nat.toDigits_length 10 index 10 (by decide) (Nat.lt_of_lt_of_le h (by decide))
  have hBytes := Text.length_bytes_le ("message #".toList ++ Text.decimal index)
  have hFront : "message #".toList.length = 9 := by decide
  rw [List.length_append, hFront] at hBytes
  exact Nat.le_trans hBytes (by omega)

theorem message_eq (index position : Nat) (blob : Bytes) :
    message index position blob = magic ++ (Bytes.bigEndian 4 index ++
      (Bytes.bigEndian 8 position ++ (Bytes.bigEndian 4 (label index).length ++ (label index ++
        (Bytes.bigEndian 4 blob.length ++ blob))))) := by
  simp [message, magic, label]

theorem length_message (index position : Nat) (blob : Bytes) :
    (message index position blob).length = 24 + (label index).length + blob.length := by
  have hMagic : magic.length = 4 := by decide
  simp only [message_eq, List.length_append, Bytes.length_bigEndian, hMagic]
  omega

theorem stream_prefix_stream (blob : Bytes) {first second : Nat} (h : first ≤ second) :
    stream blob first <+: stream blob second := by
  induction second, h using Nat.le_induction with
  | base => exact List.prefix_refl _
  | succ second _ ih => exact ih.trans (List.prefix_append ..)

theorem length_stream_le (blob : Bytes) {first second : Nat} (h : first ≤ second) :
    (stream blob first).length ≤ (stream blob second).length :=
  have hPrefix := stream_prefix_stream blob h
  hPrefix.length_le

/-- The stream as its messages, the first one in front. -/
theorem stream_eq_flatMap (blob : Bytes) (count : Nat) :
    stream blob count = (List.range count).flatMap fun index =>
      message index (stream blob index).length blob := by
  induction count with
  | zero => rfl
  | succ count ih =>
    rw [List.range_succ, List.flatMap_append, ← ih, List.flatMap_singleton]
    rfl

theorem magic_prefix_drop (blob : Bytes) {index count : Nat} (h : index < count) :
    magic <+: (stream blob count).drop (stream blob index).length := by
  obtain ⟨later, hLater⟩ := stream_prefix_stream blob (Nat.succ_le_of_lt h)
  rw [← hLater, stream, List.append_assoc, List.drop_left, message_eq, List.append_assoc]
  exact List.prefix_append ..

theorem take_stream (blob : Bytes) {index count : Nat} (h : index ≤ count) :
    (stream blob count).take (stream blob index).length = stream blob index :=
  (List.prefix_iff_eq_take.mp (stream_prefix_stream blob h)).symm

end Frame

end ByteQueue
