import ByteQueue.Proofs.Queue.Ledger
import ByteQueue.Proofs.Write.AtOnce

/-! A queue and the sink behind it: bytes are added, shown and sealed, and calls that write pass
them on, in any order and with failures reported or raised. No byte gets lost or overtaken on its
way through the queue to the sink. -/
namespace ByteQueue

/-- A queue and the sink that it is written to. -/
structure Outlet where
  queue : Queue
  sink : Sink

/-- What is done with an outlet: an operation on the queue, or a call that writes. -/
inductive Exchange where
  | change (operation : Operation)
  | write (request : Request) (mode : Mode)

/-- The bytes that are added to the queue. -/
def Exchange.entering : Exchange → Bytes
  | .change operation => operation.entering
  | .write .. => []

instance (operation : Operation) : Decidable operation.Projects :=
  match operation with
  | .project _ | .projectAll => isTrue trivial
  | .append _ | .appendAll _ | .absorb _ | .confirm _ | .sealTail | .take _ | .drain
  | .clear => isFalse id

/-- Two accounts one after the other. The second owes what the first one left in the queue. -/
theorem Balance.trans {before between sink : Sink} {owed earlier later : Bytes}
    {queue after : Queue} (first : Balance before owed between queue earlier [])
    (second : Balance between queue.content sink after later []) :
    Balance before owed sink after (earlier ++ later) [] := by
  have hFirst := first.bytes_eq
  have hSecond := second.bytes_eq
  rw [List.append_nil] at hFirst hSecond
  refine ⟨second.wellFormed, second.honest, Nat.le_trans first.writes_le second.writes_le, ?_,
    second.sliceLimit_eq.trans first.sliceLimit_eq, ?_, ?_, List.nil_prefix⟩
  · have hWrites : sink.writes - before.writes =
        between.writes - before.writes + (sink.writes - between.writes) := by
      have := first.writes_le
      have := second.writes_le
      omega
    rw [second.script_eq, first.script_eq, List.drop_drop, hWrites]
  · rw [hSecond, hFirst, List.append_nil, List.append_assoc]
  · rw [List.append_assoc, second.conserved, first.conserved]

theorem Transfer.escalate_report (transfer : Transfer) : transfer.escalate .report = transfer := by
  rcases transfer with ⟨sink, queue, value | code⟩
  · simp [escalate, Mode.escalate]
  · rfl

namespace Outlet

/-- A call that writes; a failure is reported or raised as its mode says. -/
def write (outlet : Outlet) (request : Request) (mode : Mode) : Transfer :=
  match request with
  | .some => (outlet.queue.writeSome outlet.sink).value.escalate mode
  | .all => (outlet.queue.writeAll outlet.sink).value.escalate mode

def exchange (outlet : Outlet) : Exchange → Outlet
  | .change operation => { outlet with queue := outlet.queue.apply operation }
  | .write request mode =>
    let transfer := outlet.write request mode
    ⟨transfer.queue, transfer.sink⟩

/-- The outlet after some exchanges. -/
def run (outlet : Outlet) (exchanges : List Exchange) : Outlet :=
  exchanges.foldl exchange outlet

/-- Bytes are added to the queue, sealed or shown, and it never holds more than it is made for.
What takes bytes away are calls that write. -/
def Permits (outlet : Outlet) : Exchange → Prop
  | .change operation =>
    (operation.AtTail ∨ operation.Projects) ∧ operation.InBounds ∧
      (outlet.queue.apply operation).content.length ≤ Queue.capacity
  | .write .. => True

def Permitted : Outlet → List Exchange → Prop
  | _, [] => True
  | outlet, exchange :: rest =>
    outlet.Permits exchange ∧ Permitted (outlet.exchange exchange) rest

instance (outlet : Outlet) (exchange : Exchange) : Decidable (outlet.Permits exchange) :=
  match exchange with
  | .change operation =>
    inferInstanceAs (Decidable ((operation.AtTail ∨ operation.Projects) ∧ operation.InBounds ∧
      (outlet.queue.apply operation).content.length ≤ Queue.capacity))
  | .write .. => isTrue trivial

instance decidablePermitted :
    (outlet : Outlet) → (exchanges : List Exchange) → Decidable (Permitted outlet exchanges)
  | _, [] => isTrue trivial
  | outlet, exchange :: rest =>
    have := decidablePermitted (outlet.exchange exchange) rest
    inferInstanceAs (Decidable (_ ∧ _))

/-- A call that writes takes from the queue what the sink accepts, and counts it. -/
theorem write_spec {outlet : Outlet} (h : outlet.queue.WellFormed)
    (honest : outlet.sink.Honest) (request : Request) (mode : Mode) :
    let transfer := outlet.write request mode
    ∃ accepted, Balance outlet.sink outlet.queue.content transfer.sink transfer.queue accepted [] ∧
      transfer.ending = mode.escalate
        (.returned accepted.size (firstFailure (outlet.sink.answersSince transfer.sink))) := by
  cases request with
  | some =>
    obtain ⟨accepted, hAfter, hEnding⟩ := h.writeSome honest
    exact ⟨accepted, hAfter, congrArg mode.escalate hEnding⟩
  | all =>
    obtain ⟨accepted, hAfter, hEnding, _⟩ := h.writeAll honest
    exact ⟨accepted, hAfter, congrArg mode.escalate hEnding⟩

end Outlet

namespace Balance

variable {before : Sink} {owed earlier : Bytes} {outlet : Outlet}

/-- One exchange: what is added is owed in addition, and what a call writes is paid. -/
theorem exchange (h : Balance before owed outlet.sink outlet.queue earlier []) {exchange : Exchange}
    (hPermits : outlet.Permits exchange) :
    ∃ accepted, Balance before (owed ++ exchange.entering) (outlet.exchange exchange).sink
      (outlet.exchange exchange).queue accepted [] := by
  cases exchange with
  | change operation =>
    obtain ⟨hKind, hBounds, hBound⟩ := hPermits
    have hGrown (hTail : operation.AtTail) : ∃ accepted, Balance before (owed ++ operation.entering)
        outlet.sink (outlet.queue.apply operation) accepted [] := by
      have hConsistent := h.wellFormed.toConsistent
      have hGrows := Queue.grows_apply hConsistent hTail hBounds
      exact ⟨earlier, h.grow hGrows (hGrows.length_lt hConsistent hBound)⟩
    have hShown (limit : UInt64) : Balance before (owed ++ [])
        outlet.sink (outlet.queue.project limit).value.1 earlier [] := by
      rw [List.append_nil]
      exact h.project limit
    cases operation with
    | append _ | appendAll _ | absorb _ | sealTail => exact hGrown trivial
    | project limit => exact ⟨earlier, hShown limit⟩
    | projectAll => exact ⟨earlier, hShown outlet.queue.settings.maxSlices⟩
    | confirm _ | take _ | drain | clear => exact (hKind.elim id id).elim
  | write request mode =>
    obtain ⟨accepted, hAfter, _⟩ := Outlet.write_spec h.wellFormed h.honest request mode
    rw [Exchange.entering, List.append_nil]
    exact ⟨earlier ++ accepted, h.trans hAfter⟩

/-- Exchange by exchange, whatever their order. -/
theorem exchanges (h : Balance before owed outlet.sink outlet.queue earlier [])
    {exchanges : List Exchange}
    (permitted : Outlet.Permitted outlet exchanges) :
    ∃ accepted, Balance before (owed ++ exchanges.flatMap Exchange.entering)
      (outlet.run exchanges).sink (outlet.run exchanges).queue accepted [] := by
  induction exchanges generalizing outlet owed earlier with
  | nil => exact ⟨earlier, by rw [List.flatMap_nil, List.append_nil]; exact h⟩
  | cons exchange rest ih =>
    obtain ⟨hFirst, hRest⟩ := permitted
    obtain ⟨between, hBetween⟩ := h.exchange hFirst
    obtain ⟨accepted, hAfter⟩ := ih hBetween hRest
    refine ⟨accepted, ?_⟩
    rwa [List.append_assoc, ← List.flatMap_cons] at hAfter

end Balance

namespace Outlet

/-- After every run of exchanges from a new queue, what the sink has accepted since, followed by
what the queue holds, are all bytes that were added, in order. A further call that writes, in
whichever mode, takes from the queue just the bytes that the sink accepts meanwhile; the number
it returns is theirs, and the failure that it reports or raises is the first of the sink's answers
to it. The sink may answer as it likes as long as it claims no more than it is given: a script
covers all answers that a run can have used up when it returns. -/
theorem exchanges_conserve (logger : Option Log.Config) (owner : Nat) (settings : Settings)
    (valid : settings.Valid) (sink : Sink) (honest : sink.Honest) (exchanges : List Exchange)
    (permitted : Permitted ⟨Queue.fresh logger owner settings, sink⟩ exchanges) :
    let outlet := run ⟨Queue.fresh logger owner settings, sink⟩ exchanges
    (∃ accepted, outlet.sink.bytes = sink.bytes ++ accepted ∧
      accepted ++ outlet.queue.content = exchanges.flatMap Exchange.entering) ∧
    ∀ request mode,
      let transfer := outlet.write request mode
      ∃ accepted count code, transfer.sink.bytes = outlet.sink.bytes ++ accepted ∧
        accepted ++ transfer.queue.content = outlet.queue.content ∧
        count.toNat = accepted.length ∧
        code = firstFailure (outlet.sink.answersSince transfer.sink) ∧
        transfer.ending = mode.escalate (.returned count code) := by
  intro outlet
  let start : Outlet := ⟨Queue.fresh logger owner settings, sink⟩
  have hStart : Balance sink [] start.sink start.queue [] [] :=
    Balance.start (Queue.wellFormed_fresh logger owner valid) honest
  obtain ⟨accepted, hRun⟩ := Balance.exchanges hStart permitted
  have hBytes := hRun.bytes_eq
  rw [List.append_nil] at hBytes
  refine ⟨⟨accepted, hBytes, hRun.conserved⟩, fun request mode => ?_⟩
  obtain ⟨taken, hAfter, hEnding⟩ := write_spec hRun.wellFormed hRun.honest request mode
  have hTaken := hAfter.bytes_eq
  rw [List.append_nil] at hTaken
  have hPrefix : taken <+: outlet.queue.content := ⟨_, hAfter.conserved⟩
  have hCount : taken.size.toNat = taken.length :=
    Word.toNat_toUInt64 (hRun.wellFormed.length_lt hPrefix)
  exact ⟨taken, taken.size, _, hTaken, hAfter.conserved, hCount, rfl, hEnding⟩

/-- A run with a short write, a write of nothing, and an error that comes with one byte and is
raised out of a loop of writes; the next call writes the rest. -/
theorem exchanges_conserve_raised :
    let settings : Settings := { initialChunkSize := 4, smallHandleThreshold := 2, maxSlices := 1 }
    let sink : Sink := { script := [⟨.atMost 3, 0⟩, ⟨.atMost 0, 0⟩, ⟨.atMost 1, 7⟩] }
    let handle : Handle := .adopt (some ⟨⟨1, 0⟩, .ofBytes [6, 7]⟩) 2
    let exchanges : List Exchange :=
      [.change (.append (.ofBytes [1, 2, 3, 4, 5])), .write .some .report,
        .change (.absorb handle), .change .projectAll, .write .all .raise, .change .sealTail]
    let start : Outlet := ⟨Queue.fresh none 0 settings, sink⟩
    let outlet := start.run exchanges
    let transfer := outlet.write .all .report
    settings.Valid ∧ sink.Honest ∧ start.Permitted exchanges ∧
      outlet.sink.bytes = [1, 2, 3, 4] ∧
      outlet.sink.bytes ++ outlet.queue.content = [1, 2, 3, 4, 5, 6, 7] ∧
      transfer.sink.bytes = [1, 2, 3, 4, 5, 6, 7] ∧
      transfer.ending = .returned 3 .success := by
  intro settings sink handle exchanges start outlet transfer
  have hValid : settings.Valid := by decide
  have hHonest : sink.Honest := by decide
  have hPermitted : start.Permitted exchanges := by decide +kernel
  obtain ⟨⟨accepted, hAccepted, hConserved⟩, hWrites⟩ :=
    exchanges_conserve none 0 settings hValid sink hHonest exchanges hPermitted
  obtain ⟨taken, count, code, hTaken, _, hCount, hCode, hEnding⟩ := hWrites .all .report
  have hBefore : outlet.sink.bytes = [1, 2, 3, 4] := by decide +kernel
  have hAfter : transfer.sink.bytes = [1, 2, 3, 4, 5, 6, 7] := by decide +kernel
  have hRest : taken = [5, 6, 7] := by
    have hAll : [1, 2, 3, 4, 5, 6, 7] = [1, 2, 3, 4] ++ taken :=
      hAfter.symm.trans (hBefore ▸ hTaken)
    simpa using hAll.symm
  have hThree : count = 3 := UInt64.toNat_inj.mp (by rw [hCount, hRest]; rfl)
  have hSuccess : code = .success := hCode.trans (by decide +kernel)
  refine ⟨hValid, hHonest, hPermitted, hBefore, ?_, hAfter, ?_⟩
  · have hStart : sink.bytes = [] := rfl
    rw [show outlet.sink.bytes = _ from hAccepted, hStart, List.nil_append, hConserved]
    decide +kernel
  · rw [show transfer.ending = _ from hEnding, hThree, hSuccess]
    rfl

end Outlet

end ByteQueue
