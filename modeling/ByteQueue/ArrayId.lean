/-!
Identities of arrays. Two handles share an array if they refer to one identity. Identities are
ordered, so that things can be kept by them; the order itself has no meaning.
-/
namespace ByteQueue

/-- The identity of an array: who allocated it, and as which of its arrays. -/
structure ArrayId where
  owner : Nat
  serial : Nat
  deriving DecidableEq, Repr

namespace ArrayId

/-- The array that the same owner allocates next. -/
def next (id : ArrayId) : ArrayId := { id with serial := id.serial + 1 }

instance : Ord ArrayId := ⟨compareLex (compareOn owner) (compareOn serial)⟩

instance : Std.TransOrd ArrayId :=
  inferInstanceAs (Std.TransCmp (compareLex (compareOn owner) (compareOn serial)))

instance : Std.LawfulEqOrd ArrayId where
  eq_of_compare {first second} h := by
    have h : (compareOn owner first second).then (compareOn serial first second) = .eq := h
    obtain ⟨ho, hs⟩ := Ordering.then_eq_eq.mp h
    obtain ⟨_, _⟩ := first
    obtain ⟨_, _⟩ := second
    simp_all [compareOn]

end ArrayId

end ByteQueue
