/-! Sums of sizes over lists: as numbers, and as words, which wrap around. -/
namespace ByteQueue

variable {α β : Type}

/-- The sizes of some elements together. -/
def sumOf (size : α → Nat) (elements : List α) : Nat :=
  elements.foldr (fun element sum => size element + sum) 0

/-- The sizes of some elements together, modulo the number of words. -/
def wordSum (size : α → UInt64) (elements : List α) : UInt64 :=
  elements.foldr (fun element sum => size element + sum) 0

@[simp] theorem sumOf_nil (size : α → Nat) : sumOf size [] = 0 := rfl

@[simp] theorem sumOf_cons (size : α → Nat) (first : α) (rest : List α) :
    sumOf size (first :: rest) = size first + sumOf size rest := rfl

@[simp] theorem sumOf_append (size : α → Nat) (first second : List α) :
    sumOf size (first ++ second) = sumOf size first + sumOf size second := by
  induction first with
  | nil => simp
  | cons element rest ih => rw [List.cons_append, sumOf_cons, sumOf_cons, ih, Nat.add_assoc]

@[simp] theorem sumOf_reverse (size : α → Nat) (elements : List α) :
    sumOf size elements.reverse = sumOf size elements := by
  induction elements with
  | nil => rfl
  | cons first rest ih => simp [ih, Nat.add_comm]

theorem sumOf_map (size : β → Nat) (f : α → β) (elements : List α) :
    sumOf size (elements.map f) = sumOf (fun element => size (f element)) elements :=
  List.foldr_map

theorem length_flatMap_eq_sumOf (f : α → List β) (elements : List α) :
    (elements.flatMap f).length = sumOf (fun element => (f element).length) elements := by
  induction elements with
  | nil => rfl
  | cons first rest ih => rw [List.flatMap_cons, List.length_append, ih, sumOf_cons]

@[simp] theorem wordSum_nil (size : α → UInt64) : wordSum size [] = 0 := rfl

@[simp] theorem wordSum_cons (size : α → UInt64) (first : α) (rest : List α) :
    wordSum size (first :: rest) = size first + wordSum size rest := rfl

@[simp] theorem wordSum_append (size : α → UInt64) (first second : List α) :
    wordSum size (first ++ second) = wordSum size first + wordSum size second := by
  induction first with
  | nil => simp
  | cons element rest ih => rw [List.cons_append, wordSum_cons, wordSum_cons, ih, UInt64.add_assoc]

@[simp] theorem wordSum_reverse (size : α → UInt64) (elements : List α) :
    wordSum size elements.reverse = wordSum size elements := by
  induction elements with
  | nil => rfl
  | cons first rest ih => simp [ih, UInt64.add_comm]

end ByteQueue
