/-!
Finite tables as association lists. A key occurs once at most: inserting removes the older
entry. What matters about a table is what it holds at each key, `get?`.
-/
namespace ByteQueue

/-- Values by key. -/
abbrev Table (κ ν : Type) := List (κ × ν)

namespace Table

variable {κ ν : Type} [DecidableEq κ]

/-- The value at a key. -/
def get? : Table κ ν → κ → Option ν
  | [], _ => none
  | (key, value) :: rest, sought => if key = sought then some value else get? rest sought

def erase (table : Table κ ν) (key : κ) : Table κ ν := table.filter fun entry => entry.1 ≠ key

def insert (table : Table κ ν) (key : κ) (value : ν) : Table κ ν :=
  (key, value) :: table.erase key

theorem get?_erase (table : Table κ ν) (key other : κ) :
    (table.erase key).get? other = if key = other then none else table.get? other := by
  induction table with
  | nil => simp [erase, get?]
  | cons entry rest ih =>
    obtain ⟨k, v⟩ := entry
    by_cases hk : k = key <;> by_cases ho : k = other <;> by_cases h : key = other <;>
      simp_all [erase, get?]

theorem get?_insert (table : Table κ ν) (key other : κ) (value : ν) :
    (table.insert key value).get? other =
      if key = other then some value else table.get? other := by
  by_cases h : key = other <;> simp [insert, get?, get?_erase, h]

/-- Of two values for one key the later one counts. -/
theorem insert_insert (table : Table κ ν) (key : κ) (first second : ν) :
    (table.insert key first).insert key second = table.insert key second := by
  simp [insert, erase]

section Map

variable {μ : Type} (f : ν → μ) (table : Table κ ν) (key : κ)

theorem get?_map : get? (table.map (Prod.map id f)) key = (table.get? key).map f := by
  induction table with
  | nil => rfl
  | cons entry rest ih =>
    obtain ⟨k, v⟩ := entry
    by_cases h : k = key <;> simp [get?, h, ih]

theorem erase_map : erase (table.map (Prod.map id f)) key =
    (table.erase key).map (Prod.map id f) :=
  List.filter_map

theorem insert_map (value : ν) : insert (table.map (Prod.map id f)) key (f value) =
    (table.insert key value).map (Prod.map id f) := by
  rw [insert, insert, erase_map]
  rfl

end Map

end Table

end ByteQueue
