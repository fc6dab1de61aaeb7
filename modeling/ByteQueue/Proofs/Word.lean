import ByteQueue.Sum
import ByteQueue.Word
import Mathlib

/-! Words that stand for the numbers they are computed from. -/
namespace ByteQueue.Word

theorem toNat_toUInt64 {n : Nat} (h : n < 2 ^ 64) : n.toUInt64.toNat = n := by
  rw [Nat.toUInt64, UInt64.toNat_ofNat', Nat.mod_eq_of_lt h]

theorem toNat_pos {n : UInt64} (h : n ≠ 0) : 0 < n.toNat :=
  Nat.pos_of_ne_zero fun hn => h (UInt64.toNat_inj.mp hn)

theorem toNat_add_of_lt {a b : UInt64} (h : a.toNat + b.toNat < 2 ^ 64) :
    (a + b).toNat = a.toNat + b.toNat := by
  rw [UInt64.toNat_add, Nat.mod_eq_of_lt h]

theorem toNat_sub_of_le {a b : UInt64} (h : b.toNat ≤ a.toNat) :
    (a - b).toNat = a.toNat - b.toNat :=
  UInt64.toNat_sub_of_le a b (UInt64.le_iff_toNat_le.mpr h)

/-- A sum of words is the sum of the numbers that they stand for, up to multiples of `2 ^ 64`. -/
theorem toNat_wordSum {α : Type} (size : α → UInt64) (elements : List α) :
    (wordSum size elements).toNat =
      sumOf (fun element => (size element).toNat) elements % 2 ^ 64 := by
  induction elements with
  | nil => rfl
  | cons first rest ih =>
    rw [wordSum_cons, UInt64.toNat_add, ih, sumOf_cons]
    omega

/-- A difference of words is the difference of the numbers that they stand for, if that is one
for which there is a word. -/
theorem toNat_sub_of_mod {a b : UInt64} {m : Nat} (ha : a.toNat = m % 2 ^ 64)
    (hle : b.toNat ≤ m) (hlt : m - b.toNat < 2 ^ 64) : (a - b).toNat = m - b.toNat := by
  have hb := b.toNat_lt
  rw [UInt64.toNat_sub, ha]
  omega

end ByteQueue.Word
