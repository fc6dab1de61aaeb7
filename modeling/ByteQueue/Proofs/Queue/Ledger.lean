import ByteQueue.Proofs.Queue.Fifo

/-! The ledger of a projection: what it showed, how much of that was confirmed since, and that
the rest of it still stands in front. Some operations leave the latest projection in force, a
new projection replaces it, and all others put an end to it. -/
namespace ByteQueue

/-- The operations that show bytes to a writer. -/
def Operation.Projects : Operation → Prop
  | .project _ | .projectAll => True
  | .append _ | .appendAll _ | .absorb _ | .confirm _ | .sealTail | .take _ | .drain
  | .clear => False

namespace Queue

/-- The bytes that an operation shows. -/
def shown (queue : Queue) (operation : Operation) : Bytes :=
  match queue.outcome operation with
  | .shown _ slices => slices.flatMap Block.bytes
  | .done | .taken _ | .drained _ | .refused _ => []

/-- The latest projection stays in force: bytes are added or confirmed, the tail is sealed,
nothing is taken, or the operation fails. -/
def KeepsProjection (queue : Queue) (operation : Operation) : Prop :=
  operation.AtTail ∨ (∃ count, operation = .confirm count) ∨ operation = .take 0 ∨
    queue.Refuses operation

/-- The projection in force at first is in force throughout the run. -/
def KeepsThroughout : Queue → List Operation → Prop
  | _, [] => True
  | queue, operation :: rest =>
    queue.KeepsProjection operation ∧ (queue.apply operation).KeepsThroughout rest

/-- The number of bytes that an operation confirms, unless it is refused. -/
def confirming (queue : Queue) (operation : Operation) : Nat :=
  match operation, queue.outcome operation with
  | .confirm count, .done => count.toNat
  | _, _ => 0

/-- The number of bytes confirmed in a run. -/
def confirmed : Queue → List Operation → Nat
  | _, [] => 0
  | queue, operation :: rest =>
    queue.confirming operation + (queue.apply operation).confirmed rest

/-- Of the bytes `shown`, the first `confirmed` are gone, and the queue begins with the others.
Their number is what may still be confirmed. -/
structure Ledger (shown : Bytes) (confirmed : Nat) (queue : Queue) : Prop where
  confirmed_le : confirmed ≤ shown.length
  projected_eq : queue.projected.toNat = shown.length - confirmed
  content_eq : queue.content.take queue.projected.toNat = shown.drop confirmed

theorem confirming_of_ne {queue : Queue} {operation : Operation}
    (h : ∀ count, operation ≠ .confirm count) : queue.confirming operation = 0 := by
  unfold confirming
  split
  · next count _ => exact absurd rfl (h count)
  · rfl

theorem confirming_of_refuses {queue : Queue} {operation : Operation}
    (h : queue.Refuses operation) : queue.confirming operation = 0 := by
  obtain ⟨failure, hOutcome⟩ := h
  unfold confirming
  split
  · next hDone =>
    rw [hDone] at hOutcome
    cases hOutcome
  · rfl

theorem confirming_of_le {queue : Queue} {count : UInt64} (h : count ≤ queue.projected) :
    queue.confirming (.confirm count) = count.toNat := by
  simp only [confirming, outcome_confirm_of_le h]

/-- A projection opens a ledger in which nothing is confirmed. -/
theorem WellFormed.ledger_of_projects {queue : Queue} (h : queue.WellFormed)
    {projection : Operation} (hProjects : projection.Projects) :
    queue.shown projection <+: queue.content ∧
      Ledger (queue.shown projection) 0 (queue.apply projection) := by
  have hProject (limit : UInt64) :
      queue.shown (.project limit) <+: queue.content ∧
        Ledger (queue.shown (.project limit)) 0 (queue.apply (.project limit)) := by
    obtain ⟨hPrefix, hProjected⟩ := h.toConsistent.project limit
    refine ⟨hPrefix, Nat.zero_le _, hProjected, ?_⟩
    rw [List.drop_zero]
    show queue.content.take (queue.project limit).value.1.projected.toNat = _
    rw [hProjected]
    exact (List.prefix_iff_eq_take.mp hPrefix).symm
  cases projection with
  | project limit => exact hProject limit
  | projectAll => exact hProject queue.settings.maxSlices
  | append _ | appendAll _ | absorb _ | confirm _ | sealTail | take _ | drain | clear =>
    exact hProjects.elim

namespace Ledger

variable {shown : Bytes} {confirmed : Nat} {queue : Queue}

/-- Bytes that are added come behind those that were shown. -/
theorem grow (hLedger : Ledger shown confirmed queue) (h : queue.WellFormed)
    {after : Queue} {data : Bytes} (hGrows : Grows queue data after) :
    Ledger shown confirmed after := by
  have hProjected : after.projected = queue.projected := hGrows.frame.2.2
  have hLe : queue.projected.toNat ≤ queue.content.length :=
    h.size_eq ▸ UInt64.le_iff_toNat_le.mp h.projected_le
  refine ⟨hLedger.confirmed_le, hProjected ▸ hLedger.projected_eq, ?_⟩
  rw [hProjected, hGrows.content_eq h.toConsistent, List.take_append_of_le_length hLe]
  exact hLedger.content_eq

/-- Bytes are confirmed from the ledger. -/
theorem confirm (hLedger : Ledger shown confirmed queue) (h : queue.WellFormed) {count : UInt64}
    (hLe : count ≤ queue.projected) :
    Ledger shown (confirmed + count.toNat) (queue.apply (.confirm count)) ∧
      queue.leaving (.confirm count) = (shown.drop confirmed).take count.toNat := by
  have hCount := UInt64.le_iff_toNat_le.mp hLe
  have hProjected := hLedger.projected_eq
  have hConfirmed := hLedger.confirmed_le
  obtain ⟨_, hContent, hRest⟩ := h.apply_confirm hLe
  constructor
  · refine ⟨by omega, by omega, ?_⟩
    rw [hRest, hContent, ← List.drop_take, hLedger.content_eq, List.drop_drop]
  · rw [leaving_confirm_of_le hLe, ← hLedger.content_eq, List.take_take, Nat.min_eq_left hCount]

/-- One operation under which the projection stays in force. -/
theorem step (hLedger : Ledger shown confirmed queue) (h : queue.WellFormed)
    {operation : Operation} (hBounds : operation.InBounds)
    (hKeeps : queue.KeepsProjection operation) :
    Ledger shown (confirmed + queue.confirming operation) (queue.apply operation) ∧
      queue.leaving operation = (shown.drop confirmed).take (queue.confirming operation) := by
  by_cases hRefuses : queue.Refuses operation
  · rw [confirming_of_refuses hRefuses, apply_of_refuses hRefuses, leaving_of_refuses hRefuses]
    exact ⟨hLedger, rfl⟩
  rcases hKeeps with hTail | ⟨count, rfl⟩ | rfl | hRefused
  · have hNone : queue.confirming operation = 0 :=
      confirming_of_ne fun count hn => by rw [hn] at hTail; exact hTail
    have hLeaving : queue.leaving operation = [] := by
      cases operation with
      | append _ | appendAll _ | absorb _ | sealTail => rfl
      | project _ | projectAll | confirm _ | take _ | drain | clear => exact hTail.elim
    rw [hNone, hLeaving]
    exact ⟨hLedger.grow h (grows_apply h.toConsistent hTail hBounds), rfl⟩
  · rw [refuses_confirm_iff] at hRefuses
    have hLe := UInt64.not_lt.mp hRefuses
    rw [confirming_of_le hLe]
    exact hLedger.confirm h hLe
  · have hLeaving := (h.actsAsPlain_take 0).leaving_eq hRefuses
    have hNone : queue.confirming (.take 0) = 0 := confirming_of_ne fun count hn => by cases hn
    rw [hLeaving, hNone, apply_take_zero]
    exact ⟨hLedger, rfl⟩
  · exact absurd hRefused hRefuses

/-- A run in which the projection stays in force: what is confirmed are the bytes that were
shown, in order. -/
theorem run (hLedger : Ledger shown confirmed queue) (h : queue.WellFormed)
    {operations : List Operation} (admissible : queue.Admissible operations)
    (hKeeps : queue.KeepsThroughout operations) :
    Ledger shown (confirmed + queue.confirmed operations) (queue.run operations) ∧
      queue.consumed operations = (shown.drop confirmed).take (queue.confirmed operations) := by
  induction operations generalizing queue confirmed with
  | nil => exact ⟨hLedger, rfl⟩
  | cons operation rest ih =>
    obtain ⟨hBounds, hBound, hRest⟩ := admissible
    obtain ⟨hFirst, hLater⟩ := hKeeps
    obtain ⟨hStep, hLeaving⟩ := hLedger.step h hBounds hFirst
    obtain ⟨hRun, hConsumed⟩ := ih hStep (h.apply hBounds hBound) hRest hLater
    rw [Queue.confirmed, consumed, run_cons, ← Nat.add_assoc]
    refine ⟨hRun, ?_⟩
    rw [hLeaving, hConsumed, ← List.drop_drop, List.take_add]

end Ledger

/-- Nothing may be confirmed after an operation that neither shows bytes nor leaves the latest
projection in force. -/
theorem WellFormed.projected_apply_of_ends {queue : Queue} (h : queue.WellFormed)
    {operation : Operation} (hProjects : ¬ operation.Projects)
    (hKeeps : ¬ queue.KeepsProjection operation) : (queue.apply operation).projected = 0 := by
  cases operation with
  | append _ | appendAll _ | absorb _ | sealTail => exact absurd (.inl trivial) hKeeps
  | project _ | projectAll => exact absurd trivial hProjects
  | confirm count => exact absurd (.inr (.inl ⟨count, rfl⟩)) hKeeps
  | take count =>
    have h0 : count ≠ 0 := fun h0 => hKeeps (.inr (.inr (.inl (by rw [h0]))))
    have hAccepts : ¬ queue.Refuses (.take count) := fun hr => hKeeps (.inr (.inr (.inr hr)))
    rw [h.refuses_take_iff] at hAccepts
    exact (h.apply_take (UInt64.not_lt.mp hAccepts) h0).2.2.2.1
  | drain => rfl
  | clear => rfl

/-- Where nothing was shown, nothing may be confirmed later on. -/
theorem WellFormed.projected_run_eq_zero {queue : Queue} (h : queue.WellFormed)
    (h0 : queue.projected = 0) {operations : List Operation}
    (admissible : queue.Admissible operations) (hKeeps : queue.KeepsThroughout operations) :
    (queue.run operations).projected = 0 := by
  have hNothing : Ledger [] 0 queue := ⟨Nat.le_refl 0, by rw [h0]; rfl, by rw [h0]; rfl⟩
  have hRun := (hNothing.run h admissible hKeeps).1.projected_eq
  rw [List.length_nil, Nat.zero_sub] at hRun
  exact UInt64.toNat_inj.mp hRun

/-- After a run, the latest projection of the run is in force, or the one before it, or none. -/
theorem WellFormed.projection_in_force {queue : Queue} (h : queue.WellFormed)
    {operations : List Operation} (admissible : queue.Admissible operations) :
    (queue.run operations).projected = 0 ∨ queue.KeepsThroughout operations ∨
      ∃ earlier projection since, operations = earlier ++ projection :: since ∧
        projection.Projects ∧
        ((queue.run earlier).apply projection).KeepsThroughout since := by
  induction operations generalizing queue with
  | nil => exact .inr (.inl trivial)
  | cons operation rest ih =>
    obtain ⟨hBounds, hBound, hRest⟩ := admissible
    have hAfter := h.apply hBounds hBound
    -- What the rest of the run says about the queue after this operation is carried over it: a
    -- projection kept by the rest is this operation, or older and kept by it too, or void.
    rcases ih hAfter hRest with h0 | hKeeps | ⟨earlier, projection, since, rfl, hp, hs⟩
    · exact .inl h0
    · by_cases hProjects : operation.Projects
      · exact .inr (.inr ⟨[], operation, rest, rfl, hProjects, hKeeps⟩)
      · by_cases hFirst : queue.KeepsProjection operation
        · exact .inr (.inl ⟨hFirst, hKeeps⟩)
        · have h0 := h.projected_apply_of_ends hProjects hFirst
          exact .inl (hAfter.projected_run_eq_zero h0 hRest hKeeps)
    · exact .inr (.inr ⟨operation :: earlier, projection, since, rfl, hp, hs⟩)

theorem WellFormed.apply_of_projects {queue : Queue} (h : queue.WellFormed)
    {projection : Operation} (hProjects : projection.Projects) :
    (queue.apply projection).WellFormed := by
  cases projection with
  | project limit => exact h.project limit
  | projectAll => exact h.project queue.settings.maxSlices
  | append _ | appendAll _ | absorb _ | confirm _ | sealTail | take _ | drain | clear =>
    exact hProjects.elim

theorem WellFormed.ledger {queue : Queue} (h : queue.WellFormed) {projection : Operation}
    (hProjects : projection.Projects) {since : List Operation}
    (admissible : (queue.apply projection).Admissible since)
    (hKeeps : (queue.apply projection).KeepsThroughout since) :
    Ledger (queue.shown projection) ((queue.apply projection).confirmed since)
      ((queue.apply projection).run since) := by
  have hOpened := (h.ledger_of_projects hProjects).2
  have hRun := (hOpened.run (h.apply_of_projects hProjects) admissible hKeeps).1
  rwa [Nat.zero_add] at hRun

/-- What may be confirmed was shown in the run, unless it was shown before. -/
theorem WellFormed.exists_projection {queue : Queue} (h : queue.WellFormed)
    (h0 : queue.projected = 0) {operations : List Operation}
    (admissible : queue.Admissible operations) (hSome : (queue.run operations).projected ≠ 0) :
    ∃ earlier projection since, operations = earlier ++ projection :: since ∧
      projection.Projects ∧ ((queue.run earlier).apply projection).KeepsThroughout since := by
  rcases h.projection_in_force admissible with hNone | hKeeps | hExists
  · exact absurd hNone hSome
  · exact absurd (h.projected_run_eq_zero h0 admissible hKeeps) hSome
  · exact hExists

/-- What a confirmation takes away are bytes that some projection showed: those that follow the
bytes confirmed since. -/
theorem WellFormed.confirmed_was_shown {queue : Queue} (h : queue.WellFormed)
    (h0 : queue.projected = 0) {operations : List Operation}
    (admissible : queue.Admissible operations) {count : UInt64} (hCount : count ≠ 0)
    (hLe : count ≤ (queue.run operations).projected) :
    ∃ earlier projection since, operations = earlier ++ projection :: since ∧
      projection.Projects ∧ ((queue.run earlier).apply projection).KeepsThroughout since ∧
      ((queue.run earlier).apply projection).confirmed since + count.toNat ≤
        ((queue.run earlier).shown projection).length ∧
      (queue.run operations).leaving (.confirm count) =
        (((queue.run earlier).shown projection).drop
          (((queue.run earlier).apply projection).confirmed since)).take count.toNat := by
  have hSome : (queue.run operations).projected ≠ 0 := by
    intro hn
    rw [hn, UInt64.le_iff_toNat_le] at hLe
    exact hCount (UInt64.toNat_inj.mp (Nat.le_zero.mp hLe))
  have hQueue := h.run admissible
  obtain ⟨earlier, projection, since, rfl, hProjects, hKeeps⟩ :=
    h.exists_projection h0 admissible hSome
  rw [admissible_append] at admissible
  obtain ⟨hEarlier, _, _, hSince⟩ := admissible
  have hLedger := (h.run hEarlier).ledger hProjects hSince hKeeps
  rw [run_append, run_cons] at hLe hQueue ⊢
  obtain ⟨hConfirmed, hLeaving⟩ := hLedger.confirm hQueue hLe
  exact ⟨earlier, projection, since, rfl, hProjects, hKeeps, hConfirmed.confirmed_le, hLeaving⟩

/-- The ledger of every projection in every run. What may be confirmed is what is left of the
bytes that the projection in force showed, and it stands in front; bytes that came in later are
never confirmed. -/
theorem projection_ledger (logger : Option Log.Config) (owner : Nat) (settings : Settings)
    (valid : settings.Valid) (operations : List Operation)
    (admissible : (fresh logger owner settings).Admissible operations) :
    let queue := (fresh logger owner settings).run operations
    (∀ projection since, projection.Projects → (queue.apply projection).Admissible since →
        (queue.apply projection).KeepsThroughout since →
        queue.shown projection <+: queue.content ∧
          Ledger (queue.shown projection) ((queue.apply projection).confirmed since)
            ((queue.apply projection).run since)) ∧
      (∀ count, queue.Refuses (.confirm count) ↔ queue.projected < count) ∧
      (queue.apply .drain).projected = 0 ∧ (queue.apply .clear).projected = 0 ∧
      (∀ count, count ≠ 0 → ¬ queue.Refuses (.take count) →
        (queue.apply (.take count)).projected = 0) ∧
      ((∀ operation ∈ operations, ¬ operation.Projects) → queue.projected = 0) ∧
      ∀ count, count ≠ 0 → ¬ queue.Refuses (.confirm count) →
        ∃ earlier projection since, operations = earlier ++ projection :: since ∧
          let before := (fresh logger owner settings).run earlier
          let confirmed := (before.apply projection).confirmed since
          projection.Projects ∧ (before.apply projection).KeepsThroughout since ∧
            confirmed + count.toNat ≤ (before.shown projection).length ∧
            queue.leaving (.confirm count) =
              ((before.shown projection).drop confirmed).take count.toNat := by
  have hFresh := wellFormed_fresh logger owner valid
  have hQueue := hFresh.run admissible
  refine ⟨?_, ?_, rfl, rfl, ?_, ?_, ?_⟩
  · intro projection since hProjects hSince hKeeps
    exact ⟨(hQueue.ledger_of_projects hProjects).1, hQueue.ledger hProjects hSince hKeeps⟩
  · exact fun count => refuses_confirm_iff _ count
  · intro count h0 hAccepts
    rw [hQueue.refuses_take_iff] at hAccepts
    exact (hQueue.apply_take (UInt64.not_lt.mp hAccepts) h0).2.2.2.1
  · intro hNone
    refine Decidable.byContradiction fun hSome => ?_
    obtain ⟨earlier, projection, since, hSplit, hProjects, _⟩ :=
      hFresh.exists_projection rfl admissible hSome
    exact hNone projection (by rw [hSplit]; simp) hProjects
  · intro count h0 hAccepts
    rw [refuses_confirm_iff] at hAccepts
    exact hFresh.confirmed_was_shown rfl admissible h0 (UInt64.not_lt.mp hAccepts)

/-- A projection of a chunk that is filled up afterwards: the byte that came in later stands
behind what may be confirmed. -/
theorem projection_ledger_of_filled_tail :
    let settings : Settings := { initialChunkSize := 4 }
    let queue := (fresh none 0 settings).run [.append (.ofBytes [1, 2, 3])]
    let since : List Operation := [.append (.ofBytes [4]), .confirm 2, .take 0, .confirm 9]
    let shown := queue.apply (.project 1)
    let after := shown.run since
    settings.Valid ∧ (fresh none 0 settings).Admissible [.append (.ofBytes [1, 2, 3])] ∧
      shown.Admissible since ∧ shown.KeepsThroughout since ∧ Ledger [1, 2, 3] 2 after ∧
      after.content = [3, 4] ∧ after.projected = 1 ∧
      (queue.Refuses (.confirm 1) ↔ queue.projected < 1) := by
  intro settings queue since shown after
  have hValid : settings.Valid := by decide
  have hAdmissible : (fresh none 0 settings).Admissible [.append (.ofBytes [1, 2, 3])] := by
    decide +kernel
  have hSince : shown.Admissible since := by decide +kernel
  have hRefused : ((shown.apply (.append (.ofBytes [4]))).apply (.confirm 2)).outcome
      (.confirm 9) = .refused .overConfirmed := by decide +kernel
  have hKeeps : shown.KeepsThroughout since :=
    ⟨.inl trivial, .inr (.inl ⟨2, rfl⟩), .inr (.inr (.inl rfl)), .inr (.inr (.inr ⟨_, hRefused⟩)),
      trivial⟩
  obtain ⟨hLedgers, hRefuses, _⟩ := projection_ledger none 0 settings hValid _ hAdmissible
  obtain ⟨_, hLedger⟩ := hLedgers (.project 1) since trivial hSince hKeeps
  have hShown : queue.shown (.project 1) = [1, 2, 3] := by decide +kernel
  have hConfirmed : shown.confirmed since = 2 := by decide +kernel
  have hAfter : Ledger [1, 2, 3] 2 after := by
    rw [← hShown, ← hConfirmed]
    exact hLedger
  exact ⟨hValid, hAdmissible, hSince, hKeeps, hAfter, by decide +kernel, by decide +kernel,
    hRefuses 1⟩

end Queue

end ByteQueue
