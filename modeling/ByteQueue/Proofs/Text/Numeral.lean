import ByteQueue.Text.Dump
import Mathlib.Logic.Function.Basic

/-! Bytes as the numbers of a dump. Their letter case and the mark of their base are left to the
stream that the dump goes to; whatever it says, a number is a word without blanks and bars, of at
least two characters. -/
namespace ByteQueue.Dump

theorem length_digits (byte : UInt8) : (digits byte).length = 2 := rfl

/-- The letters of a number are hexadecimal digits. -/
theorem exists_digitChar_of_mem_digits {byte : UInt8} {c : Char} (h : c ∈ digits byte) :
    ∃ n < 16, c = Nat.digitChar n := by
  have hByte := byte.toNat_lt
  rw [digits, List.mem_cons, List.mem_singleton] at h
  rcases h with rfl | rfl
  · exact ⟨byte.toNat / 16, by omega, rfl⟩
  · exact ⟨byte.toNat % 16, by omega, rfl⟩

theorem digitChar_inj : ∀ m < 16, ∀ n < 16, Nat.digitChar m = Nat.digitChar n → m = n := by
  decide

theorem digits_injective : Function.Injective digits := by
  intro first second h
  have hFirst := first.toNat_lt
  have hSecond := second.toNat_lt
  obtain ⟨hHigh, hRest⟩ := List.cons.inj h
  obtain ⟨hLow, _⟩ := List.cons.inj hRest
  have hHigh := digitChar_inj _ (by omega) _ (by omega) hHigh
  have hLow := digitChar_inj _ (by omega) _ (by omega) hLow
  exact UInt8.toNat_inj.mp (by omega)

/-- Without leading zeros a byte has two digits, or its lower one only. -/
theorem toDigits_byte (byte : UInt8) :
    Nat.toDigits 16 byte.toNat =
      if byte.toNat < 16 then [Nat.digitChar (byte.toNat % 16)] else digits byte := by
  have hByte := byte.toNat_lt
  split
  · next hSmall => rw [Nat.toDigits_of_lt_base hSmall, Nat.mod_eq_of_lt hSmall]
  · next hLarge =>
    rw [Nat.toDigits_of_base_le (by decide) (by omega), Nat.toDigits_of_lt_base (by omega)]
    rfl

theorem toDigits_subset (byte : UInt8) : Nat.toDigits 16 byte.toNat ⊆ digits byte := by
  rw [toDigits_byte]
  split <;> simp [digits]

/-- Digits in the letter case of a format. -/
def cased (f : Format) (text : Text) : Text := if f.upperCase then text.map Char.toUpper else text

/-- A byte as a number in a dump on a stream with the format `f`. A number that shows its base has
no leading zero. -/
def numeral (f : Format) (byte : UInt8) : Text :=
  if f.showBase ∧ byte ≠ 0 then
    ['0', if f.upperCase then 'X' else 'x'] ++ cased f (Nat.toDigits 16 byte.toNat)
  else cased f (digits byte)

theorem numeral_default (byte : UInt8) : numeral {} byte = digits byte := rfl

@[simp] theorem length_cased (f : Format) (text : Text) : (cased f text).length = text.length := by
  unfold cased
  split <;> simp

theorem toUpper_digitChar_eq_iff :
    ∀ n < 16, (Nat.digitChar n).toUpper = Nat.digitChar n ↔ n < 10 := by
  decide

theorem cased_digits_eq_iff (f : Format) (byte : UInt8) :
    cased f (digits byte) = digits byte ↔
      (f.upperCase → byte.toNat / 16 < 10 ∧ byte.toNat % 16 < 10) := by
  have hByte := byte.toNat_lt
  unfold cased
  split
  · next hUpper =>
    have hHigh := toUpper_digitChar_eq_iff (byte.toNat / 16) (by omega)
    have hLow := toUpper_digitChar_eq_iff (byte.toNat % 16) (by omega)
    simp [digits, hUpper, hHigh, hLow]
  · next hLower => simp [hLower]

/-- The numbers of a dump are the plain ones unless the format shows bases, of bytes other than 0,
or changes letters, of digits above 9. -/
theorem numeral_eq_digits_iff (f : Format) (byte : UInt8) :
    numeral f byte = digits byte ↔
      (f.showBase → byte = 0) ∧
        (f.upperCase → byte.toNat / 16 < 10 ∧ byte.toNat % 16 < 10) := by
  unfold numeral
  split
  · next hMarked =>
    refine ⟨fun h => ?_, fun h => absurd (h.1 hMarked.1) hMarked.2⟩
    have hLength := congrArg List.length h
    have hSome : (Nat.toDigits 16 byte.toNat).length ≠ 0 := by
      rw [toDigits_byte]
      split <;> simp [digits]
    rw [List.length_append, length_cased, length_digits, List.length_cons, List.length_cons,
      List.length_nil] at hLength
    omega
  · next hPlain =>
    rw [cased_digits_eq_iff]
    have hZero : f.showBase → byte = 0 := fun hShown => by_contra fun h0 => hPlain ⟨hShown, h0⟩
    exact (and_iff_right hZero).symm

theorem two_le_length_numeral (f : Format) (byte : UInt8) : 2 ≤ (numeral f byte).length := by
  unfold numeral
  split
  · rw [List.length_append]
    exact Nat.le_add_right ..
  · rw [length_cased]
    exact Nat.le_refl 2

/-- A text that ends where a blank or a bar follows. -/
structure IsWord (text : Text) : Prop where
  ne_nil : text ≠ []
  blank_notMem : ' ' ∉ text
  bar_notMem : '|' ∉ text

theorem digitChar_separates : ∀ n < 16,
    (Nat.digitChar n ≠ ' ' ∧ Nat.digitChar n ≠ '|') ∧
      (Nat.digitChar n).toUpper ≠ ' ' ∧ (Nat.digitChar n).toUpper ≠ '|' := by
  decide

theorem separates_of_mem_cased {f : Format} {text : Text} {byte : UInt8}
    (hDigits : text ⊆ digits byte) {c : Char} (h : c ∈ cased f text) : c ≠ ' ' ∧ c ≠ '|' := by
  unfold cased at h
  split at h
  · obtain ⟨digit, hDigit, rfl⟩ := List.mem_map.mp h
    obtain ⟨n, hn, rfl⟩ := exists_digitChar_of_mem_digits (hDigits hDigit)
    exact (digitChar_separates n hn).2
  · obtain ⟨n, hn, rfl⟩ := exists_digitChar_of_mem_digits (hDigits h)
    exact (digitChar_separates n hn).1

theorem separates_of_mem_numeral {f : Format} {byte : UInt8} {c : Char}
    (hc : c ∈ numeral f byte) : c ≠ ' ' ∧ c ≠ '|' := by
  unfold numeral at hc
  split at hc
  · rcases List.mem_append.mp hc with hMark | hDigit
    · rw [List.mem_cons, List.mem_singleton] at hMark
      rcases hMark with rfl | rfl
      · exact ⟨by decide, by decide⟩
      · split <;> exact ⟨by decide, by decide⟩
    · exact separates_of_mem_cased (toDigits_subset byte) hDigit
  · exact separates_of_mem_cased (List.Subset.refl _) hc

theorem isWord_numeral (f : Format) (byte : UInt8) : IsWord (numeral f byte) where
  ne_nil :=
    List.ne_nil_of_length_pos (Nat.lt_of_lt_of_le Nat.two_pos (two_le_length_numeral f byte))
  blank_notMem h := (separates_of_mem_numeral h).1 rfl
  bar_notMem h := (separates_of_mem_numeral h).2 rfl

/-- The format of a dump while no width is pending. -/
def steady (f : Format) : Format := { format f with width := 0 }

theorem padded_of_le (f : Format) {lead body : Text}
    (h : f.width ≤ Text.width lead + Text.width body) : f.padded lead body = lead ++ body := by
  unfold Format.padded
  rw [Nat.sub_eq_zero_of_le h]
  cases f.align <;> simp

theorem padded_steady (f : Format) (text : Text) : (steady f).padded [] text = text :=
  padded_of_le (steady f) (Nat.zero_le _)

theorem width_cased (f : Format) {text : Text} {byte : UInt8} (hDigits : text ⊆ digits byte) :
    Text.width (cased f text) = text.length := by
  have hSize : ∀ n < 16,
      (Nat.digitChar n).utf8Size = 1 ∧ (Nat.digitChar n).toUpper.utf8Size = 1 := by decide
  induction text with
  | nil =>
    unfold cased
    split <;> rfl
  | cons c text ih =>
    obtain ⟨hFirst, hRest⟩ := List.cons_subset.mp hDigits
    obtain ⟨n, hn, rfl⟩ := exists_digitChar_of_mem_digits hFirst
    have hWidth := ih hRest
    unfold cased Text.width at hWidth ⊢
    split at hWidth
    · next hUpper =>
      rw [if_pos hUpper, List.map_cons, sumOf_cons, hWidth, (hSize n hn).2, List.length_cons,
        Nat.add_comm]
    · next hLower =>
      rw [if_neg hLower, sumOf_cons, hWidth, (hSize n hn).1, List.length_cons, Nat.add_comm]

/-- With a width of two places a byte is printed in two digits. -/
theorem padded_toDigits (f : Format) (byte : UInt8) :
    ({ format f with width := 2 } : Format).padded [] (cased f (Nat.toDigits 16 byte.toNat)) =
      cased f (digits byte) := by
  have hWidth := width_cased f (toDigits_subset byte)
  rw [toDigits_byte] at hWidth ⊢
  split at hWidth
  · next hSmall =>
    rw [if_pos hSmall]
    have hHigh : byte.toNat / 16 = 0 := Nat.div_eq_of_lt hSmall
    have hZero : cased f (digits byte) = '0' :: cased f [Nat.digitChar (byte.toNat % 16)] := by
      unfold cased digits
      rw [hHigh]
      split <;> rfl
    unfold Format.padded
    rw [hWidth, hZero]
    rfl
  · next hLarge =>
    rw [if_neg hLarge]
    exact padded_of_le _ (by rw [hWidth]; exact Nat.le_refl 2)

/-- A byte is inserted as its number, and leaves the format as it was. -/
theorem printAll_byteItems (f : Format) (byte : UInt8) :
    (steady f).printAll (byteItems byte) = (numeral f byte, steady f) := by
  let pending : Format := { format f with width := 2 }
  have hSigned (value : Int) :
      pending.signed value byte.toUInt32.toUInt64 = pending.unsigned byte.toUInt64 := rfl
  have hPrinted : (steady f).printAll (byteItems byte) =
      (pending.unsigned byte.toUInt64, steady f) := by
    show (pending.signed _ byte.toUInt32.toUInt64 ++ [], steady f) = _
    rw [hSigned, List.append_nil]
  have hDigits : pending.digits byte.toUInt64.toNat = cased f (Nat.toDigits 16 byte.toNat) := rfl
  have hZero : byte.toUInt64 = 0 ↔ byte = 0 := by
    rw [← UInt64.toNat_inj, ← UInt8.toNat_inj]
    rfl
  rw [hPrinted, Format.unsigned, hDigits, numeral]
  by_cases hMarked : f.showBase ∧ byte ≠ 0
  · have hShown : (pending.showBase && byte.toUInt64 != 0) = true := by
      rw [Bool.and_eq_true, bne_iff_ne, ne_eq, hZero]
      exact hMarked
    rw [if_pos hShown, if_pos hMarked]
    refine congrArg (·, steady f) (padded_of_le pending (Nat.le_trans ?_ (Nat.le_add_right ..)))
    show 2 ≤ Text.width ['0', if f.upperCase then 'X' else 'x']
    split <;> exact Nat.le_refl 2
  · have hPlain : ¬(pending.showBase && byte.toUInt64 != 0) = true := by
      rw [Bool.and_eq_true, bne_iff_ne, ne_eq, hZero]
      exact hMarked
    rw [if_neg hPlain, if_neg hMarked]
    exact congrArg (·, steady f) (padded_toDigits f byte)

end ByteQueue.Dump
