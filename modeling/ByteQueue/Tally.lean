import ByteQueue.ArrayId
import Std.Data.TreeMap

/-!
Tallies: how many references there are to each array. What refers to at most one array counts
for that one; what refers to none counts for nothing.
-/
namespace ByteQueue

/-- The numbers of references to arrays. -/
structure Tally where
  counts : Std.TreeMap ArrayId Nat

namespace Tally

/-- No references. -/
def empty : Tally := ⟨{}⟩

/-- The references to one array. -/
def count (tally : Tally) (id : ArrayId) : Nat := tally.counts.getD id 0

/-- One more reference. -/
def add (tally : Tally) : Option ArrayId → Tally
  | none => tally
  | some id => ⟨tally.counts.insert id (tally.count id + 1)⟩

/-- One reference less. -/
def remove (tally : Tally) : Option ArrayId → Tally
  | none => tally
  | some id =>
    if tally.count id ≤ 1 then ⟨tally.counts.erase id⟩
    else ⟨tally.counts.insert id (tally.count id - 1)⟩

@[simp] theorem count_empty (id : ArrayId) : empty.count id = 0 := by
  simp [empty, count]

theorem count_add (tally : Tally) (added : Option ArrayId) (id : ArrayId) :
    (tally.add added).count id = tally.count id + if added = some id then 1 else 0 := by
  cases added with
  | none => simp [add]
  | some key =>
    simp only [add, count, Std.TreeMap.getD_insert, Std.LawfulEqCmp.compare_eq_iff_eq,
      Option.some.injEq]
    split <;> simp_all

theorem count_remove (tally : Tally) (removed : Option ArrayId) (id : ArrayId) :
    (tally.remove removed).count id = tally.count id - if removed = some id then 1 else 0 := by
  cases removed with
  | none => simp [remove]
  | some key =>
    by_cases h : tally.counts.getD key 0 ≤ 1
    · simp only [remove, count, h, if_true, Std.TreeMap.getD_erase,
        Std.LawfulEqCmp.compare_eq_iff_eq, Option.some.injEq]
      split
      · next hk => subst hk; omega
      · rfl
    · simp only [remove, count, h, if_false, Std.TreeMap.getD_insert,
        Std.LawfulEqCmp.compare_eq_iff_eq, Option.some.injEq]
      split
      · next hk => rw [hk]
      · rfl

end Tally

end ByteQueue
