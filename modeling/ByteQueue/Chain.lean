import ByteQueue.Sum

/-!
Chains: sequences that grow at the end and shrink at the beginning. A chain keeps its first
elements in order and its later ones in reverse order. The last element is always among the
later ones, and these are never more than the first ones and it: so either end is at hand, and
to look at some first elements costs no more than there are of them. What a chain holds is
`toList`; every operation is described by what it does to that list.
-/
namespace ByteQueue

/-- Folds over elements in order, as long as `goes` holds of the result so far. -/
@[specialize] def foldWhile {α β : Type} (goes : β → Bool) (f : β → α → β) : β → List α → β
  | result, [] => result
  | result, first :: rest =>
    if goes result then foldWhile goes f (f result first) rest else result

theorem foldWhile_of_not_goes {α β : Type} {goes : β → Bool} {f : β → α → β} {result : β}
    (h : goes result = false) (elements : List α) : foldWhile goes f result elements = result := by
  cases elements <;> simp [foldWhile, h]

theorem foldWhile_append {α β : Type} (goes : β → Bool) (f : β → α → β) (result : β)
    (first second : List α) :
    foldWhile goes f result (first ++ second) =
      foldWhile goes f (foldWhile goes f result first) second := by
  induction first generalizing result with
  | nil => rfl
  | cons element rest ih =>
    by_cases h : goes result = true
    · simp [foldWhile, h, ih]
    · simp only [Bool.not_eq_true] at h
      simp [foldWhile, h, foldWhile_of_not_goes h]

/-- The sum of the sizes of the first `count` elements, added to `sum`. -/
@[specialize] def addFirst {α : Type} (size : α → UInt64) : UInt64 → Nat → List α → UInt64
  | sum, 0, _ | sum, _, [] => sum
  | sum, count + 1, first :: rest => addFirst size (sum + size first) count rest

theorem addFirst_eq {α : Type} (size : α → UInt64) (sum : UInt64) (count : Nat)
    (elements : List α) :
    addFirst size sum count elements = sum + wordSum size (elements.take count) := by
  induction elements generalizing sum count with
  | nil => cases count <;> simp [addFirst]
  | cons first rest ih =>
    cases count with
    | zero => simp [addFirst]
    | succ count =>
      rw [addFirst, ih, UInt64.add_assoc, List.take_succ_cons, wordSum_cons]

/-- A sequence whose ends are both at hand. -/
structure Chain (α : Type) where
  /-- The first elements, in order. -/
  front : List α
  /-- The elements after those, the last one first. -/
  back : List α
  frontLength : Nat
  backLength : Nat
  frontLength_eq : frontLength = front.length
  backLength_eq : backLength = back.length
  /-- The last element is among the later ones. -/
  front_eq_nil : back = [] → front = []
  /-- The later elements are at most one more than the first ones. -/
  backLength_le : backLength ≤ frontLength + 1
  deriving DecidableEq

namespace Chain

variable {α : Type}

/-- All elements, in order. -/
def toList (chain : Chain α) : List α := chain.front ++ chain.back.reverse

/-- The number of elements. -/
def length (chain : Chain α) : Nat := chain.frontLength + chain.backLength

def empty : Chain α := ⟨[], [], 0, 0, rfl, rfl, fun _ => rfl, by omega⟩

/-- The chain of `front` and of `back` reversed, with one more element at the end. The later
elements join the first ones once they are more. -/
def build (front back : List α) (frontLength backLength : Nat)
    (frontLength_eq : frontLength = front.length) (backLength_eq : backLength = back.length)
    (last : α) : Chain α :=
  if h : backLength ≤ frontLength then
    ⟨front, last :: back, frontLength, backLength + 1, frontLength_eq, by simp [backLength_eq],
      nofun, by omega⟩
  else
    ⟨front ++ back.reverse, [last], frontLength + backLength, 1,
      by simp [frontLength_eq, backLength_eq], rfl, nofun, by omega⟩

/-- Adds an element at the end. -/
def push (chain : Chain α) (last : α) : Chain α :=
  build chain.front chain.back chain.frontLength chain.backLength chain.frontLength_eq
    chain.backLength_eq last

def last? (chain : Chain α) : Option α := chain.back.head?

/-- Puts an element in place of the last one; nothing happens to an empty chain. -/
def setLast (chain : Chain α) (last : α) : Chain α :=
  match h : chain.back with
  | [] => chain
  | _ :: back =>
    ⟨chain.front, last :: back, chain.frontLength, chain.backLength, chain.frontLength_eq,
      by simp [chain.backLength_eq, h], nofun, chain.backLength_le⟩

/-- The first element. -/
def head? (chain : Chain α) : Option α := chain.front.head? <|> chain.back.head?

/-- All but the first element. -/
def tail (chain : Chain α) : Chain α :=
  match hf : chain.front, hb : chain.back with
  | _ :: front, last :: back =>
    build front back (chain.frontLength - 1) (chain.backLength - 1)
      (by simp [chain.frontLength_eq, hf]) (by simp [chain.backLength_eq, hb]) last
  | _, _ => empty

/-- Folds over the elements in order, as long as `goes` holds of the result so far. The later
elements are put in order only if all of the first ones have been folded over. -/
@[specialize] def foldWhile {β : Type} (goes : β → Bool) (f : β → α → β) (start : β)
    (chain : Chain α) : β :=
  let result := ByteQueue.foldWhile goes f start chain.front
  if goes result then ByteQueue.foldWhile goes f result chain.back.reverse else result

/-- The first `count` elements, or as many as there are. -/
def take (chain : Chain α) (count : Nat) : List α :=
  if count ≤ chain.frontLength then chain.front.take count else chain.toList.take count

/-- The sum of the sizes of the first `count` elements, if `total` is that of all of them. It is
worked out from the end of the chain that is nearer. -/
@[specialize] def sumFirst (size : α → UInt64) (total : UInt64) (chain : Chain α) (count : Nat) :
    UInt64 :=
  if count ≤ chain.frontLength then addFirst size 0 count chain.front
  else total - addFirst size 0 (chain.length - count) chain.back

@[simp] theorem toList_empty : (empty : Chain α).toList = [] := rfl

@[simp] theorem length_toList (chain : Chain α) : chain.toList.length = chain.length := by
  simp [toList, length, chain.frontLength_eq, chain.backLength_eq]

theorem toList_eq_nil_iff {chain : Chain α} : chain.toList = [] ↔ chain = empty := by
  obtain ⟨front, back, frontLength, backLength, hf, hb, _, _⟩ := chain
  constructor
  · intro h
    obtain ⟨rfl, hr⟩ := List.append_eq_nil_iff.mp h
    obtain rfl := List.reverse_eq_nil_iff.mp hr
    simp_all [empty]
  · intro h
    rw [h, toList_empty]

theorem toList_build {front back : List α} {frontLength backLength : Nat}
    (hf : frontLength = front.length) (hb : backLength = back.length) (last : α) :
    (build front back frontLength backLength hf hb last).toList =
      front ++ back.reverse ++ [last] := by
  unfold build
  split <;> simp [toList]

@[simp] theorem toList_push (chain : Chain α) (last : α) :
    (chain.push last).toList = chain.toList ++ [last] :=
  toList_build ..

@[simp] theorem last?_eq (chain : Chain α) : chain.last? = chain.toList.getLast? := by
  cases hb : chain.back with
  | nil => simp [last?, toList, hb, chain.front_eq_nil hb]
  | cons last back => simp [last?, toList, hb]

@[simp] theorem toList_setLast (chain : Chain α) (last : α) :
    (chain.setLast last).toList =
      if chain.toList = [] then [] else chain.toList.dropLast ++ [last] := by
  obtain ⟨front, back, _, _, _, _, hf, _⟩ := chain
  cases back with
  | nil => simp [setLast, toList, hf rfl]
  | cons _ back => simp [setLast, toList, List.dropLast_append_of_ne_nil]

theorem toList_of_last?_eq_some {chain : Chain α} {replaced : α} (h : chain.last? = some replaced) :
    ∃ earlier, chain.toList = earlier ++ [replaced] ∧
      ∀ last, (chain.setLast last).toList = earlier ++ [last] := by
  rw [last?_eq] at h
  obtain ⟨earlier, he⟩ := List.getLast?_eq_some_iff.mp h
  exact ⟨earlier, he, by simp [he]⟩

/-- Without first elements there is at most one. -/
theorem back_eq_singleton {chain : Chain α} {last : α} {back : List α} (hf : chain.front = [])
    (hb : chain.back = last :: back) : back = [] := by
  have h := chain.backLength_le
  rw [chain.frontLength_eq, chain.backLength_eq, hf, hb] at h
  exact List.length_eq_zero_iff.mp (by simpa using h)

@[simp] theorem head?_eq (chain : Chain α) : chain.head? = chain.toList.head? := by
  cases hf : chain.front with
  | cons head front => simp [head?, toList, hf]
  | nil =>
    cases hb : chain.back with
    | nil => simp [head?, toList, hf, hb]
    | cons last back =>
      obtain rfl := back_eq_singleton hf hb
      simp [head?, toList, hf, hb]

@[simp] theorem toList_tail (chain : Chain α) : chain.tail.toList = chain.toList.tail := by
  unfold tail
  split
  · next hf hb =>
    rw [toList_build]
    simp [toList, hf, hb]
  · next hn =>
    cases hb : chain.back with
    | nil => simp [toList, hb, chain.front_eq_nil hb, empty]
    | cons last back =>
      cases hf : chain.front with
      | nil =>
        obtain rfl := back_eq_singleton hf hb
        simp [toList, hf, hb, empty]
      | cons head front => exact (hn head front last back hf hb).elim

@[simp] theorem foldWhile_eq {β : Type} (goes : β → Bool) (f : β → α → β) (start : β)
    (chain : Chain α) :
    chain.foldWhile goes f start = ByteQueue.foldWhile goes f start chain.toList := by
  rw [foldWhile, toList, foldWhile_append]
  split
  · rfl
  · next h => exact (foldWhile_of_not_goes (Bool.eq_false_iff.mpr h) _).symm

@[simp] theorem take_eq (chain : Chain α) (count : Nat) :
    chain.take count = chain.toList.take count := by
  unfold take
  split
  · next h =>
    rw [chain.frontLength_eq] at h
    rw [toList, List.take_append_of_le_length h]
  · rfl

theorem sumFirst_eq (size : α → UInt64) (chain : Chain α) (count : Nat) :
    chain.sumFirst size (wordSum size chain.toList) count =
      wordSum size (chain.toList.take count) := by
  unfold sumFirst
  split
  · next h =>
    rw [chain.frontLength_eq] at h
    rw [addFirst_eq, UInt64.zero_add, toList, List.take_append_of_le_length h]
  · next h =>
    rw [chain.frontLength_eq] at h
    have hl : chain.length - count = chain.back.length - (count - chain.front.length) := by
      rw [length, chain.frontLength_eq, chain.backLength_eq]
      omega
    have hd : (chain.back.take (chain.length - count)).reverse = chain.toList.drop count := by
      rw [hl, toList, List.drop_append, List.drop_of_length_le (Nat.le_of_not_le h),
        List.nil_append, List.drop_reverse]
    have hs : wordSum size (chain.back.take (chain.length - count)) =
        wordSum size (chain.toList.drop count) := by
      rw [← hd, wordSum_reverse]
    conv => lhs; rw [← List.take_append_drop count chain.toList]
    rw [addFirst_eq, UInt64.zero_add, hs, wordSum_append, UInt64.add_sub_cancel]

end Chain

end ByteQueue
