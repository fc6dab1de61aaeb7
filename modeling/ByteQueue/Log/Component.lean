import ByteQueue.Bytes

/-!
Components: the parts of a program whose messages can be told apart. A component is a value of
some enumeration; enumerations are known by their names, so two of them never share a component.
Enumerations are to have 32 bits: a component keeps no more of the number of its enumerator, and
enumerators whose numbers agree in 32 bits are one component.
-/
namespace ByteQueue

/-- A value of an enumeration of components. -/
structure Component where
  family : String
  value : UInt32
  deriving DecidableEq, Repr

namespace Component

/-- The component of an enumerator. -/
def ofEnumerator (family : String) (number : Int) : Component := ⟨family, UInt32.ofInt number⟩

theorem toNat_ofEnumerator (family : String) (number : Int) :
    ((ofEnumerator family number).value.toNat : Int) = number % 0x100000000 := by
  rw [ofEnumerator, UInt32.ofInt, UInt32.toNat_ofNat']
  omega

/-- Enumerators of 32 bits are told apart, and so are enumerations, whatever numbers they have. -/
theorem ofEnumerator_eq_iff {family other : String} {first second : Int} :
    ofEnumerator family first = ofEnumerator other second ↔
      family = other ∧ first % 0x100000000 = second % 0x100000000 := by
  rw [← toNat_ofEnumerator family, ← toNat_ofEnumerator other, Int.natCast_inj, UInt32.toNat_inj,
    Component.mk.injEq]
  exact Iff.rfl

/-- The enumeration of this library's own components. -/
def standardFamily : String := "chunked"

def uncategorized : Component := ⟨standardFamily, 0⟩
def util : Component := ⟨standardFamily, 1⟩
def log : Component := ⟨standardFamily, 2⟩
/-- The component of queues, their sizing rules and their settings. -/
def buffer : Component := ⟨standardFamily, 3⟩

/-- The names of the library's own components. -/
def standardNames : List (Int × String) :=
  [(0, "UNCAT"), (1, "UTIL"), (2, "LOG"), (3, "BUF")]

/-- The name of one of the library's own components, empty for others. -/
def standardName (component : Component) : String :=
  if component.family = standardFamily then
    (standardNames.lookup (component.value.toNat : Int)).getD ""
  else ""

end Component

end ByteQueue
