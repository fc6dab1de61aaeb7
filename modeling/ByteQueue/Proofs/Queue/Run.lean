import ByteQueue.Proofs.Queue.Step

/-! Runs: operations one after another, refused ones included, from a new queue or from any
other. A run is admissible if every handle in it is a window inside its array and the queue
never holds more bytes than it is made for; nothing bounds the bytes that pass through. -/
namespace ByteQueue

instance (handle : Handle) : Decidable handle.InBounds :=
  match handle with
  | ⟨some _, _, _⟩ => inferInstanceAs (Decidable (_ ∧ _))
  | ⟨none, _, size⟩ => inferInstanceAs (Decidable (size = 0))

instance (operation : Operation) : Decidable operation.InBounds :=
  match operation with
  | .absorb handle => inferInstanceAs (Decidable handle.InBounds)
  | .append _ | .appendAll _ | .project _ | .projectAll | .confirm _ | .sealTail | .take _
  | .drain | .clear => isTrue trivial

namespace Queue

/-- The queue after some operations. -/
def run (queue : Queue) (operations : List Operation) : Queue := operations.foldl apply queue

def Admissible : Queue → List Operation → Prop
  | _, [] => True
  | queue, operation :: rest =>
    operation.InBounds ∧ (queue.apply operation).content.length ≤ capacity ∧
      (queue.apply operation).Admissible rest

instance decidableAdmissible :
    (queue : Queue) → (operations : List Operation) → Decidable (queue.Admissible operations)
  | _, [] => isTrue trivial
  | queue, operation :: rest =>
    have := decidableAdmissible (queue.apply operation) rest
    inferInstanceAs (Decidable (_ ∧ _ ∧ _))

@[simp] theorem run_nil (queue : Queue) : queue.run [] = queue := rfl

@[simp] theorem run_cons (queue : Queue) (operation : Operation) (rest : List Operation) :
    queue.run (operation :: rest) = (queue.apply operation).run rest := rfl

theorem run_append (queue : Queue) (first second : List Operation) :
    queue.run (first ++ second) = (queue.run first).run second :=
  List.foldl_append

theorem admissible_append {queue : Queue} {first second : List Operation} :
    queue.Admissible (first ++ second) ↔
      queue.Admissible first ∧ (queue.run first).Admissible second := by
  induction first generalizing queue with
  | nil => simp [Admissible]
  | cons operation rest ih => simp [Admissible, ih, and_assoc]

theorem Reachable.run {queue : Queue} (h : Reachable queue) {operations : List Operation}
    (admissible : queue.Admissible operations) : Reachable (queue.run operations) := by
  induction operations generalizing queue with
  | nil => exact h
  | cons operation rest ih =>
    obtain ⟨hBounds, hBound, hRest⟩ := admissible
    exact ih (.step h operation hBounds hBound) hRest

/-- The reachable queues are those that admissible runs lead to. -/
theorem reachable_iff_exists_run {queue : Queue} :
    Reachable queue ↔ ∃ logger owner settings operations, settings.Valid ∧
      (fresh logger owner settings).Admissible operations ∧
      queue = (fresh logger owner settings).run operations := by
  constructor
  · intro h
    induction h with
    | fresh logger owner settings valid => exact ⟨logger, owner, settings, [], valid, trivial, rfl⟩
    | step before operation inBounds bound ih =>
      obtain ⟨logger, owner, settings, operations, hValid, hAdmissible, rfl⟩ := ih
      refine ⟨logger, owner, settings, operations ++ [operation], hValid, ?_, ?_⟩
      · rw [admissible_append]
        exact ⟨hAdmissible, inBounds, bound, trivial⟩
      · rw [run_append, run_cons, run_nil]
  · rintro ⟨logger, owner, settings, operations, hValid, hAdmissible, rfl⟩
    exact (Reachable.fresh logger owner settings hValid).run hAdmissible

theorem WellFormed.run {queue : Queue} (h : queue.WellFormed) {operations : List Operation}
    (admissible : queue.Admissible operations) : (queue.run operations).WellFormed := by
  induction operations generalizing queue with
  | nil => exact h
  | cons operation rest ih =>
    obtain ⟨hBounds, hBound, hRest⟩ := admissible
    exact ih (h.apply hBounds hBound) hRest

theorem WellFormed.settings_run {queue : Queue} (h : queue.WellFormed)
    {operations : List Operation} (admissible : queue.Admissible operations) :
    (queue.run operations).settings = queue.settings := by
  induction operations generalizing queue with
  | nil => rfl
  | cons operation rest ih =>
    obtain ⟨hBounds, hBound, hRest⟩ := admissible
    have hAfter := ih (h.apply hBounds hBound) hRest
    rw [run_cons, hAfter, h.settings_apply hBounds]

end Queue

end ByteQueue
