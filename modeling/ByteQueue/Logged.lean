/-!
Results together with the events that were reported on the way to them. Operations of this library
that may report something are values of `Logged`.
-/
namespace ByteQueue

/-- A result and the events on the way to it, oldest first. -/
@[ext] structure Logged (ε α : Type) where
  value : α
  events : List ε

namespace Logged

variable {ε α β σ : Type}

/-- Earlier events, and those after them. What comes before nothing is not copied. -/
def join (earlier later : List ε) : List ε :=
  match later with
  | [] => earlier
  | _ => earlier ++ later

@[simp] theorem join_eq (earlier later : List ε) : join earlier later = earlier ++ later := by
  cases later <;> simp [join]

instance : Monad (Logged ε) where
  pure value := ⟨value, []⟩
  bind first next :=
    let second := next first.value
    ⟨second.value, join first.events second.events⟩

/-- Reports one event. -/
def note (event : ε) : Logged ε Unit := ⟨(), [event]⟩

@[simp] theorem value_pure (value : α) : (pure value : Logged ε α).value = value := rfl

@[simp] theorem events_pure (value : α) : (pure value : Logged ε α).events = [] := rfl

@[simp] theorem value_bind (first : Logged ε α) (next : α → Logged ε β) :
    (first >>= next).value = (next first.value).value := rfl

@[simp] theorem events_bind (first : Logged ε α) (next : α → Logged ε β) :
    (first >>= next).events = first.events ++ (next first.value).events :=
  join_eq ..

@[simp] theorem value_note (event : ε) : (note event).value = () := rfl

@[simp] theorem events_note (event : ε) : (note event).events = [event] := rfl

@[simp] theorem value_map (f : α → β) (first : Logged ε α) :
    (f <$> first).value = f first.value := rfl

instance : LawfulMonad (Logged ε) := LawfulMonad.mk' (Logged ε)
  (fun _ => rfl)
  (fun value next => by ext1 <;> simp)
  (fun first next last => by ext1 <;> simp)

/-- Repeats a step, `count` times at most. A step yields a state to go on with, or a result; if
all repetitions have been made, `stop` makes the result. The events are gathered on the way, so
that the number of repetitions is not bounded by anything else. -/
@[specialize] def iterate (next : σ → Logged ε (σ ⊕ α)) (stop : σ → α) (count : Nat) (start : σ) :
    Logged ε α :=
  go count start []
where
  /-- The steps after those that reported `earlier`, the latest event first. -/
  @[specialize] go : Nat → σ → List ε → Logged ε α
  | 0, state, earlier => ⟨stop state, earlier.reverse⟩
  | count + 1, state, earlier =>
    let step := next state
    let earlier := step.events.reverseAux earlier
    match step.value with
    | .inl state => go count state earlier
    | .inr result => ⟨result, earlier.reverse⟩

theorem iterate_go (next : σ → Logged ε (σ ⊕ α)) (stop : σ → α) (count : Nat) (state : σ)
    (earlier : List ε) :
    iterate.go next stop count state earlier =
      ⟨(iterate next stop count state).value,
        earlier.reverse ++ (iterate next stop count state).events⟩ := by
  induction count generalizing state earlier with
  | zero => simp [iterate, iterate.go]
  | succ count ih =>
    rw [iterate, iterate.go, iterate.go]
    split
    · rw [ih, ih _ ((next state).events.reverseAux [])]
      simp [List.reverseAux_eq]
    · simp [List.reverseAux_eq]

@[simp] theorem iterate_zero (next : σ → Logged ε (σ ⊕ α)) (stop : σ → α) (start : σ) :
    iterate next stop 0 start = pure (stop start) := rfl

/-- To repeat a step is to make it once and to repeat it less often. -/
theorem iterate_succ (next : σ → Logged ε (σ ⊕ α)) (stop : σ → α) (count : Nat) (start : σ) :
    iterate next stop (count + 1) start = next start >>= fun
      | .inl state => iterate next stop count state
      | .inr result => pure result := by
  rw [iterate, iterate.go]
  split
  · next h =>
    rw [iterate_go]
    ext1 <;> simp [h, List.reverseAux_eq]
  · next h =>
    ext1 <;> simp [h, List.reverseAux_eq]

theorem value_iterate_succ (next : σ → Logged ε (σ ⊕ α)) (stop : σ → α) (count : Nat)
    (start : σ) :
    (iterate next stop (count + 1) start).value =
      match (next start).value with
      | .inl state => (iterate next stop count state).value
      | .inr result => result := by
  rw [iterate_succ, value_bind]
  split
  · rfl
  · rfl

/-- Works through a list, as `List.foldlM` does, however long it is. -/
@[specialize] def fold (f : β → α → Logged ε β) (start : β) (elements : List α) : Logged ε β :=
  go start elements []
where
  /-- The work after that which reported `earlier`, the latest event first. -/
  @[specialize] go : β → List α → List ε → Logged ε β
  | result, [], earlier => ⟨result, earlier.reverse⟩
  | result, first :: rest, earlier =>
    let step := f result first
    go step.value rest (step.events.reverseAux earlier)

@[simp] theorem fold_eq (f : β → α → Logged ε β) (start : β) (elements : List α) :
    fold f start elements = elements.foldlM f start := by
  have h (elements : List α) : ∀ (start : β) (earlier : List ε),
      fold.go f start elements earlier =
        ⟨(elements.foldlM f start).value, earlier.reverse ++ (elements.foldlM f start).events⟩ := by
    induction elements with
    | nil => intro start earlier; simp [fold.go]
    | cons first rest ih =>
      intro start earlier
      rw [fold.go, ih]
      simp [List.reverseAux_eq]
  rw [fold, h]
  simp

/-- Reports the events as events of another kind. -/
def mapEvents {δ : Type} (f : ε → δ) (logged : Logged ε α) : Logged δ α :=
  ⟨logged.value, logged.events.map f⟩

@[simp] theorem value_mapEvents {δ : Type} (f : ε → δ) (logged : Logged ε α) :
    (logged.mapEvents f).value = logged.value := rfl

end Logged

end ByteQueue
