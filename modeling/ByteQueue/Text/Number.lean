import ByteQueue.Text.Basic

/-!
Numbers and their texts. A type of numbers has so many bits, with a sign or without one; the last
number is followed by the first one. A numeral writes a number in decimal digits, and zeros may
lead.
-/
namespace ByteQueue

/-- A type of whole numbers. Negative ones are in two's complement. -/
structure NumberType where
  bits : Nat
  signed : Bool
  deriving DecidableEq, Repr

namespace NumberType

abbrev Number (type : NumberType) := BitVec type.bits

abbrev word32 : NumberType := ⟨32, false⟩
abbrev word64 : NumberType := ⟨64, false⟩

variable (type : NumberType)

/-- What a number of the type is as an integer. -/
def value (number : type.Number) : Int :=
  if type.signed then number.toInt else number.toNat

/-- A number that is not below `lowest` and below `stop`. -/
def Between (lowest stop number : type.Number) : Prop :=
  type.value lowest ≤ type.value number ∧ type.value number < type.value stop

instance (lowest stop number : type.Number) : Decidable (type.Between lowest stop number) :=
  inferInstanceAs (Decidable (_ ∧ _))

variable {type}

theorem value_injective {first second : type.Number}
    (h : type.value first = type.value second) : first = second := by
  unfold value at h
  split at h
  · exact BitVec.toInt_inj.mp h
  · exact BitVec.toNat_inj.mp (Int.ofNat_inj.mp h)

/-- Below another number there is no overflow. -/
theorem value_add_one {number greater : type.Number}
    (h : type.value number < type.value greater) :
    type.value (number + 1) = type.value number + 1 := by
  have hGreater := greater.isLt
  have hNumber := number.isLt
  have hNext : (number + 1).toNat = (number.toNat + 1) % 2 ^ type.bits := by
    simp [BitVec.toNat_add]
  unfold value at h ⊢
  rw [BitVec.toInt_eq_toNat_cond, BitVec.toInt_eq_toNat_cond] at h ⊢
  rw [hNext]
  generalize 2 ^ type.bits = count at *
  -- Only the word of all ones is followed by zero; with a sign it stands for -1.
  rcases Nat.lt_or_ge (number.toNat + 1) count with hBelow | hLast
  · rw [Nat.mod_eq_of_lt hBelow]
    grind
  · have hCount : number.toNat + 1 = count := by omega
    rw [hCount, Nat.mod_self]
    grind

/-- A natural number of the type is made of its own bits. -/
theorem eq_ofNat_of_value {number : type.Number} {n : Nat} (h : type.value number = n) :
    number = BitVec.ofNat type.bits n := by
  unfold value at h
  split at h
  · rw [← BitVec.ofInt_toInt (x := number), h, BitVec.ofInt_natCast]
  · rw [← Int.ofNat_inj.mp h, BitVec.ofNat_toNat, BitVec.setWidth_eq]

end NumberType

namespace Text

/-- The text writes the number in decimal digits, with any zeros in front. -/
def IsNumeral (text : Text) (n : Nat) : Prop :=
  ∃ zeros, text = List.replicate zeros '0' ++ decimal n

theorem isDigit_of_mem_decimal {n : Nat} {c : Char} (h : c ∈ decimal n) : c.isDigit = true :=
  Nat.isDigit_of_mem_toDigits (by decide) (by decide) h

theorem isNumeral_decimal (n : Nat) : IsNumeral (decimal n) n := ⟨0, rfl⟩

theorem IsNumeral.isDigit {text : Text} {n : Nat} (h : text.IsNumeral n) :
    ∀ c ∈ text, c.isDigit = true := by
  obtain ⟨zeros, rfl⟩ := h
  intro c hc
  rcases List.mem_append.mp hc with hZero | hDigit
  · rw [List.eq_of_mem_replicate hZero]
    rfl
  · exact isDigit_of_mem_decimal hDigit

theorem IsNumeral.ne_nil {text : Text} {n : Nat} (h : text.IsNumeral n) : text ≠ [] := by
  obtain ⟨zeros, rfl⟩ := h
  exact List.append_ne_nil_of_right_ne_nil _ Nat.toDigits_ne_nil

theorem IsNumeral.ofDigitChars {text : Text} {n : Nat} (h : text.IsNumeral n) :
    Nat.ofDigitChars 10 text 0 = n := by
  obtain ⟨zeros, rfl⟩ := h
  have hZeros : Nat.ofDigitChars 10 (List.replicate zeros '0') 0 = 0 := by
    induction zeros with
    | zero => rfl
    | succ zeros ih => exact ih
  rw [Nat.ofDigitChars_append, hZeros, decimal]
  exact Nat.ofDigitChars_toDigits (by decide) (by decide)

/-- A digit is written for its value. -/
theorem exists_digitChar {c : Char} (h : c.isDigit = true) :
    ∃ d < 10, c = Nat.digitChar d ∧ c.toNat - '0'.toNat = d := by
  have hRange : 48 ≤ c.toNat ∧ c.toNat ≤ 57 := Char.isDigit_iff_toNat.mp h
  have hBelow : c.toNat - 48 < 10 := by omega
  refine ⟨c.toNat - 48, hBelow, Char.toNat_inj.mp ?_, rfl⟩
  rw [Nat.toNat_digitChar_of_lt_ten hBelow]
  omega

theorem isNumeral_digitChar {d : Nat} (h : d < 10) : IsNumeral [Nat.digitChar d] d :=
  ⟨0, (Nat.toDigits_of_lt_base h).symm⟩

/-- One more digit multiplies by ten. If there were only zeros so far, the last of them leads now as
well. -/
theorem IsNumeral.append_digitChar {text : Text} {n d : Nat} (h : text.IsNumeral n) (hd : d < 10) :
    (text ++ [Nat.digitChar d]).IsNumeral (10 * n + d) := by
  obtain ⟨zeros, rfl⟩ := h
  rcases Nat.eq_zero_or_pos n with rfl | hn
  · refine ⟨zeros + 1, ?_⟩
    rw [Nat.mul_zero, Nat.zero_add, Text.decimal, Text.decimal, Nat.toDigits_of_lt_base hd,
      List.replicate_succ']
    rfl
  · refine ⟨zeros, ?_⟩
    rw [Text.decimal, Text.decimal, ← Nat.toDigits_append_toDigits (by decide) hn hd,
      Nat.toDigits_of_lt_base hd, List.append_assoc]

theorem IsNumeral.append {text digits : Text} {n : Nat} (h : text.IsNumeral n)
    (hDigits : ∀ c ∈ digits, c.isDigit = true) :
    (text ++ digits).IsNumeral (Nat.ofDigitChars 10 digits n) := by
  induction digits generalizing text n with
  | nil => simpa using h
  | cons c rest ih =>
    obtain ⟨hFirst, hRest⟩ := List.forall_mem_cons.mp hDigits
    obtain ⟨d, hd, rfl, hValue⟩ := exists_digitChar hFirst
    have hNext := ih (h.append_digitChar hd) hRest
    rw [List.append_assoc] at hNext
    rw [Nat.ofDigitChars, List.foldl_cons, hValue]
    exact hNext

/-- A text is a numeral if it consists of digits and there is at least one. -/
theorem isNumeral_iff {text : Text} {n : Nat} :
    text.IsNumeral n ↔
      text ≠ [] ∧ (∀ c ∈ text, c.isDigit = true) ∧ Nat.ofDigitChars 10 text 0 = n := by
  constructor
  · exact fun h => ⟨h.ne_nil, h.isDigit, h.ofDigitChars⟩
  · rintro ⟨hSome, hDigits, rfl⟩
    obtain ⟨c, rest, rfl⟩ := List.exists_cons_of_ne_nil hSome
    obtain ⟨hFirst, hRest⟩ := List.forall_mem_cons.mp hDigits
    obtain ⟨d, hd, rfl, hValue⟩ := exists_digitChar hFirst
    have hAll := (isNumeral_digitChar hd).append hRest
    rw [Nat.ofDigitChars, List.foldl_cons, hValue, Nat.mul_zero, Nat.zero_add]
    exact hAll

end Text

end ByteQueue
