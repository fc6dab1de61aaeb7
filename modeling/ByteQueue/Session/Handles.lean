import ByteQueue.Handle
import ByteQueue.Tally

/-!
Handles by name. A collection of named handles knows how many of them refer to each array; its
type ties these numbers to the handles in it.
-/
namespace ByteQueue

/-- The references to an array that named handles hold. -/
def references (id : ArrayId) (handles : List (String × Handle)) : Nat :=
  handles.countP fun (_, handle) => handle.arrayId? == some id

/-- Handles by name. -/
structure NamedHandles where
  handles : Std.TreeMap String Handle
  /-- The references that the handles hold to arrays. -/
  tally : Tally
  count_tally : ∀ id, tally.count id = references id handles.toList

namespace NamedHandles

/-- The references that a handle holds, if there is one. -/
def share (handle : Option Handle) : Option ArrayId := handle.bind Handle.arrayId?

/-- A handle at a name that was free comes on top of the others. -/
theorem toList_insert_perm {handles : Std.TreeMap String Handle} {name : String}
    (free : handles[name]? = none) (handle : Handle) :
    (handles.insert name handle).toList.Perm ((name, handle) :: handles.toList) := by
  refine Std.TreeMap.toList_insert_perm.trans (.cons _ (.of_eq (List.filter_eq_self.mpr ?_)))
  rintro ⟨key, other⟩ member
  have := Std.TreeMap.mem_toList_iff_getElem?_eq_some.mp member
  simp only [decide_eq_true_eq, beq_iff_eq]
  rintro rfl
  simp [free] at this

theorem references_insert {handles : Std.TreeMap String Handle} {name : String}
    (free : handles[name]? = none) (handle : Handle) (id : ArrayId) :
    references id (handles.insert name handle).toList =
      references id handles.toList + if handle.arrayId? = some id then 1 else 0 := by
  rw [references, (toList_insert_perm free handle).countP_eq, List.countP_cons]
  simp [references]

theorem references_eq_of_equiv {first second : Std.TreeMap String Handle}
    (h : first.Equiv second) (id : ArrayId) :
    references id first.toList = references id second.toList :=
  (Std.TreeMap.equiv_iff_toList_perm.mp h).countP_eq _

/-- Setting a name sets it after it was erased. -/
theorem insert_equiv (handles : Std.TreeMap String Handle) (name : String) (handle : Handle) :
    (handles.insert name handle).Equiv ((handles.erase name).insert name handle) :=
  .of_forall_constGet?_eq fun key => by
    simp only [Std.TreeMap.getElem?_insert, Std.TreeMap.getElem?_erase]
    split <;> rfl

theorem references_erase (handles : Std.TreeMap String Handle) (name : String) (id : ArrayId) :
    references id (handles.erase name).toList =
      references id handles.toList - if share handles[name]? = some id then 1 else 0 := by
  cases h : handles[name]? with
  | none =>
    have : (handles.erase name).Equiv handles := .of_forall_constGet?_eq fun key => by
      rw [Std.TreeMap.getElem?_erase]
      split
      · next hk => rw [← Std.LawfulEqCmp.compare_eq_iff_eq.mp hk, h]
      · rfl
    simp [references_eq_of_equiv this, share]
  | some handle =>
    have : handles.Equiv ((handles.erase name).insert name handle) :=
      .of_forall_constGet?_eq fun key => by
        simp only [Std.TreeMap.getElem?_insert, Std.TreeMap.getElem?_erase]
        split
        · next hk => rw [← Std.LawfulEqCmp.compare_eq_iff_eq.mp hk, h]
        · rfl
    rw [references_eq_of_equiv this, references_insert Std.TreeMap.getElem?_erase_self]
    by_cases hi : handle.arrayId? = some id <;> simp [share, hi]

def empty : NamedHandles := ⟨{}, .empty, fun _ => rfl⟩

def get? (named : NamedHandles) (name : String) : Option Handle := named.handles[name]?

/-- Frees a name. -/
def erase (named : NamedHandles) (name : String) : NamedHandles where
  handles := named.handles.erase name
  tally := named.tally.remove (share named.handles[name]?)
  count_tally id := by rw [Tally.count_remove, named.count_tally, references_erase]

/-- Sets a name, whether it was free or not. -/
def insert (named : NamedHandles) (name : String) (handle : Handle) : NamedHandles where
  handles := named.handles.insert name handle
  tally := (named.tally.remove (share named.handles[name]?)).add handle.arrayId?
  count_tally id := by
    rw [Tally.count_add, Tally.count_remove, named.count_tally,
      references_eq_of_equiv (insert_equiv ..),
      references_insert Std.TreeMap.getElem?_erase_self, references_erase]

/-- The number of handles that refer to an array. -/
def uses (named : NamedHandles) (id : ArrayId) : Nat := named.tally.count id

theorem uses_eq (named : NamedHandles) (id : ArrayId) :
    named.uses id = references id named.handles.toList :=
  named.count_tally id

@[simp] theorem get?_insert (named : NamedHandles) (name : String) (handle : Handle)
    (key : String) :
    (named.insert name handle).get? key = if name = key then some handle else named.get? key := by
  simp [get?, insert, Std.TreeMap.getElem?_insert]

@[simp] theorem get?_erase (named : NamedHandles) (name key : String) :
    (named.erase name).get? key = if name = key then none else named.get? key := by
  simp [get?, erase, Std.TreeMap.getElem?_erase]

end NamedHandles

end ByteQueue
