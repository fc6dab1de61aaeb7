import ByteQueue.Proofs.Queue.Refusal
import ByteQueue.Proofs.Write.Attempts

/-! Sinks that may claim another number of bytes than they took. The queue goes by the claim: one
that is no more than it has shown is confirmed, whatever the sink has taken. A larger claim is
refused, and since the confirmation inside a write has no place for its code, the refusal is raised
there, whether or not the caller of the write has a place. The bytes of that write are with the sink
and in the queue as well. -/
namespace ByteQueue

open Body

/-- One write with a claim: an attempt, and the bytes that the queue would have confirmed. -/
structure Claim extends Attempt where
  exposed : Bytes

namespace Claim

/-- The next write of a queue to a sink. -/
def next (queue : Queue) (sink : Sink) : Claim :=
  ⟨.next queue sink, queue.projectAll.value.2.bytes⟩

/-- The number that the sink claims to have taken. -/
def claimed (claim : Claim) : UInt64 := claim.taken.size + claim.answer.acceptance.excess

/-- No more can be confirmed than was shown. -/
def Refused (claim : Claim) : Prop := claim.exposed.length < claim.claimed.toNat

/-- The queue shows some bytes at the front of its content, and the sink looks at the first of
them. -/
structure Made (content : Bytes) (claim : Claim) : Prop where
  exposed_ne_nil : claim.exposed ≠ []
  exposed_prefix : claim.exposed <+: content
  shown_prefix : claim.shown <+: claim.exposed

end Claim

theorem Attempt.taken_prefix (attempt : Attempt) : attempt.taken <+: attempt.shown := by
  unfold taken
  split
  · exact List.prefix_refl _
  · exact List.take_prefix ..
  · exact List.take_prefix ..

/-- How writes of the bytes `content` are settled after `total` bytes have been confirmed: what is
left of the bytes, and how the call ends. What is claimed is removed and counted. The last write is
one whose claim is refused or which fails, or else the call ends with success. -/
inductive Settles : Bytes → UInt64 → List Claim → Bytes → Ending UInt64 → Prop where
  | done (content : Bytes) (total : UInt64) :
    Settles content total [] content (.returned total .success)
  | refused {content : Bytes} {claim : Claim} (total : UInt64) (made : claim.Made content)
    (hRefused : claim.Refused) :
    Settles content total [claim] content (.raised Failure.overConfirmed.code)
  | failed {content : Bytes} {claim : Claim} (total : UInt64) (made : claim.Made content)
    (hConfirmed : ¬ claim.Refused) (hFails : claim.answer.code.isFailure = true) :
    Settles content total [claim] (content.drop claim.claimed.toNat)
      (.returned (total + claim.claimed) claim.answer.code)
  | again {content left : Bytes} {total : UInt64} {claim : Claim} {claims : List Claim}
    {ending : Ending UInt64} (made : claim.Made content) (hConfirmed : ¬ claim.Refused)
    (hGoesOn : ¬ claim.answer.code.isFailure = true)
    (rest : Settles (content.drop claim.claimed.toNat) (total + claim.claimed) claims left ending) :
    Settles content total (claim :: claims) left ending

namespace Claim

variable {content : Bytes} {claim : Claim}

theorem Made.taken_prefix (made : claim.Made content) : claim.taken <+: claim.exposed :=
  claim.toAttempt.taken_prefix.trans made.shown_prefix

/-- A sound claim is the number of bytes that were taken. -/
theorem Made.claimed_of_honest (made : claim.Made content) (hBound : content.length < 2 ^ 64)
    (honest : claim.answer.Honest) :
    claim.claimed = claim.taken.size ∧ claim.claimed.toNat = claim.taken.length := by
  have hTaken := made.taken_prefix.trans made.exposed_prefix
  have hClaimed : claim.claimed = claim.taken.size := by
    rw [claimed, show claim.answer.acceptance.excess = 0 from honest, UInt64.add_zero]
  refine ⟨hClaimed, ?_⟩
  rw [hClaimed]
  exact Word.toNat_toUInt64 (Nat.lt_of_le_of_lt hTaken.length_le hBound)

/-- A sound claim is never refused. -/
theorem Made.not_refused_of_honest (made : claim.Made content) (hBound : content.length < 2 ^ 64)
    (honest : claim.answer.Honest) : ¬ claim.Refused := by
  rw [Refused, (made.claimed_of_honest hBound honest).2]
  exact Nat.not_lt.mpr made.taken_prefix.length_le

end Claim

namespace Settles

variable {content left : Bytes} {total : UInt64} {claims : List Claim} {ending : Ending UInt64}

/-- A refusal, and nothing else, is raised. -/
theorem raised_iff (h : Settles content total claims left ending) :
    ending = .raised Failure.overConfirmed.code ↔ ∃ claim ∈ claims, claim.Refused := by
  induction h with
  | done => exact ⟨nofun, fun ⟨_, hm, _⟩ => absurd hm List.not_mem_nil⟩
  | refused total made hRefused =>
    exact ⟨fun _ => ⟨_, List.mem_singleton_self _, hRefused⟩, fun _ => rfl⟩
  | failed total made hConfirmed =>
    refine ⟨nofun, ?_⟩
    rintro ⟨claim, hm, hRefused⟩
    exact absurd (List.mem_singleton.mp hm ▸ hRefused) hConfirmed
  | again made hConfirmed hGoesOn rest ih =>
    rw [ih]
    simp [hConfirmed]

/-- What is raised is the refusal of the last claim, and what the sink took with it is still in
front of the queue. -/
theorem refused_last (h : Settles content total claims left ending) {claim : Claim}
    (hm : claim ∈ claims) (hRefused : claim.Refused) :
    claims.getLast? = some claim ∧ claim.Made left := by
  induction h with
  | done => exact absurd hm List.not_mem_nil
  | refused total made =>
    obtain rfl := List.mem_singleton.mp hm
    exact ⟨rfl, made⟩
  | failed total made hConfirmed =>
    obtain rfl := List.mem_singleton.mp hm
    exact absurd hRefused hConfirmed
  | @again _ _ _ first later _ made hConfirmed hGoesOn rest ih =>
    rcases List.mem_cons.mp hm with rfl | hLater
    · exact absurd hRefused hConfirmed
    · obtain ⟨hLast, hMade⟩ := ih hLater
      refine ⟨?_, hMade⟩
      rw [List.getLast?_cons, hLast]
      rfl

/-- Sound claims: the bytes that were taken are those that are gone, their number is returned, and
the first failure. -/
theorem of_honest (h : Settles content total claims left ending) (hBound : content.length < 2 ^ 64)
    (honest : ∀ claim ∈ claims, claim.answer.Honest) :
    claims.flatMap (·.taken) ++ left = content ∧
      ending = .returned (total + Bytes.size (claims.flatMap (·.taken)))
        (firstFailure (claims.map (·.answer))) := by
  induction h with
  | done content total =>
    exact ⟨rfl, congrArg (Ending.returned · .success) (UInt64.add_zero total).symm⟩
  | refused total made hRefused =>
    exact absurd hRefused (made.not_refused_of_honest hBound (honest _ List.mem_cons_self))
  | @failed content claim total made hConfirmed hFails =>
    obtain ⟨hClaimed, hLength⟩ := made.claimed_of_honest hBound (honest _ List.mem_cons_self)
    obtain ⟨rest, rfl⟩ := made.taken_prefix.trans made.exposed_prefix
    have hFirst : firstFailure [claim.answer] = claim.answer.code := if_pos hFails
    rw [hLength, List.drop_left, List.flatMap_singleton, List.map_singleton, hFirst, hClaimed]
    exact ⟨rfl, rfl⟩
  | @again content left total claim claims ending made hConfirmed hGoesOn rest ih =>
    obtain ⟨hFirst, hLater⟩ := List.forall_mem_cons.mp honest
    obtain ⟨hClaimed, hLength⟩ := made.claimed_of_honest hBound hFirst
    have hCode : firstFailure (claim.answer :: claims.map (·.answer)) =
        firstFailure (claims.map (·.answer)) := if_neg hGoesOn
    have hShorter : (content.drop claim.claimed.toNat).length < 2 ^ 64 :=
      Nat.lt_of_le_of_lt (List.length_drop ▸ Nat.sub_le ..) hBound
    obtain ⟨hLeft, hEnding⟩ := ih hShorter hLater
    constructor
    · rw [List.flatMap_cons, List.append_assoc, hLeft, hLength]
      exact List.prefix_iff_eq_append.mp (made.taken_prefix.trans made.exposed_prefix)
    · rw [List.map_cons, hCode, hEnding, hClaimed, List.flatMap_cons, Bytes.size_append,
        UInt64.add_assoc]

end Settles

/-- A sink has made claims: its answers were the next ones, and it has gained what it took. -/
structure Sink.Claimed (sink : Sink) (claims : List Claim) (written : Sink) : Prop where
  answers_eq : claims.map (·.answer) = sink.answers claims.length
  writes_eq : written.writes = sink.writes + claims.length
  bytes_eq : written.bytes = sink.bytes ++ claims.flatMap (·.taken)
  /-- A sink that any number of slices can be handed to looks at all that the queue shows. -/
  shown_eq : sink.sliceLimit = none → ∀ claim ∈ claims, claim.shown = claim.exposed

theorem Sink.Claimed.nil (sink : Sink) : sink.Claimed [] sink where
  answers_eq := rfl
  writes_eq := rfl
  bytes_eq := (List.append_nil _).symm
  shown_eq := fun _ => List.forall_mem_nil _

namespace Queue

open Logged

/-- A write whose claim is refused leaves the queue as it was shown. -/
theorem value_writeSome_of_refused {queue : Queue} {sink : Sink}
    (hShown : queue.projectAll.value.1.projected ≠ 0)
    (hClaimed : queue.projectAll.value.1.projected < (sink.write queue.projectAll.value.2).2.1) :
    (queue.writeSome sink).value =
      ⟨(sink.write queue.projectAll.value.2).1, queue.projectAll.value.1,
        .raised Failure.overConfirmed.code⟩ := by
  have hValue := queue.projectAll.value.1.value_confirm (sink.write queue.projectAll.value.2).2.1
  rw [if_pos hClaimed] at hValue
  unfold writeSome
  rw [value_bind]
  generalize queue.projectAll.value = shown at *
  obtain ⟨shown, projection⟩ := shown
  dsimp only at *
  generalize sink.write projection = written at *
  obtain ⟨written, count, code⟩ := written
  dsimp only at *
  rw [if_neg hShown, value_bind, hValue]
  rfl

theorem value_writeMore_of_raised {queue : Queue} {sink : Sink} {transfer : Transfer} {code : Code}
    (hSome : ¬ queue.isEmpty = true) (hWrite : (queue.writeSome sink).value = transfer)
    (hRaised : transfer.ending = .raised code) (total : UInt64) :
    (writeMore (queue, sink, total)).value = .inr transfer := by
  unfold writeMore
  dsimp only
  rw [if_neg hSome, value_bind, hWrite, hRaised]
  rfl

variable {queue : Queue}

/-- A queue that holds bytes shows some of them. -/
theorem WellFormed.made_next (h : queue.WellFormed) (hSome : queue.content ≠ []) (sink : Sink) :
    (Claim.next queue sink).Made queue.content := by
  obtain ⟨hChunks, hLimit⟩ := h.projectAll_shows hSome
  obtain ⟨hPrefix, _⟩ := h.toConsistent.project queue.settings.maxSlices
  exact ⟨Projection.bytes_ne_nil h.cursor hChunks hLimit, hPrefix, sink.bytes_offered _⟩

theorem WellFormed.claimed_next (h : queue.WellFormed) (sink : Sink) :
    (Claim.next queue sink).claimed = (sink.write queue.projectAll.value.2).2.1 := by
  rw [sink.write_eq, Block.size_eq, ← h.taken_next sink]
  rfl

theorem WellFormed.refused_next_iff (h : queue.WellFormed) (sink : Sink) :
    (Claim.next queue sink).Refused ↔
      queue.projectAll.value.1.projected < (sink.write queue.projectAll.value.2).2.1 := by
  obtain ⟨_, hProjected⟩ := h.toConsistent.project queue.settings.maxSlices
  rw [Claim.Refused, h.claimed_next sink, UInt64.lt_iff_toNat_lt, projectAll, hProjected]
  rfl

/-- One write of a queue that holds bytes, to any sink: the claim is refused, or as many bytes leave
the queue as are claimed. -/
theorem WellFormed.writeSome_claim (h : queue.WellFormed) (hSome : queue.content ≠ [])
    (sink : Sink) :
    let claim := Claim.next queue sink
    let written := (sink.write queue.projectAll.value.2).1
    (claim.Refused ∧ ∃ after, (queue.writeSome sink).value =
        ⟨written, after, .raised Failure.overConfirmed.code⟩ ∧ after.content = queue.content) ∨
      (¬ claim.Refused ∧ ∃ after, (queue.writeSome sink).value =
        ⟨written, after, .returned claim.claimed sink.answer.code⟩ ∧ after.WellFormed ∧
        after.content = queue.content.drop claim.claimed.toNat) := by
  intro claim written
  have hShown := mt h.projected_projectAll.mp hSome
  by_cases hRefused : claim.Refused
  · exact .inl ⟨hRefused, queue.projectAll.value.1,
      value_writeSome_of_refused hShown ((h.refused_next_iff sink).mp hRefused), rfl⟩
  · have hAccepted : claim.claimed ≤ queue.projectAll.value.1.projected := by
      rw [h.claimed_next sink]
      exact UInt64.not_lt.mp (mt (h.refused_next_iff sink).mpr hRefused)
    have hClaimed : (sink.write queue.projectAll.value.2).2 = (claim.claimed, sink.answer.code) :=
      Prod.ext (h.claimed_next sink).symm rfl
    obtain ⟨after, hValue⟩ := exists_value_confirm hAccepted
    obtain ⟨hAfter, hContent, _, _⟩ := (h.project queue.settings.maxSlices).confirm hValue
    exact .inr ⟨hRefused, after, value_writeSome hShown hClaimed hValue, hAfter, hContent⟩

/-- The next claim, and those of the sink that has made it. -/
theorem WellFormed.claimed_cons (h : queue.WellFormed) {sink written : Sink} {claims : List Claim}
    (rest : (sink.write queue.projectAll.value.2).1.Claimed claims written) :
    sink.Claimed (.next queue sink :: claims) written where
  answers_eq := by
    have hScript : (sink.write queue.projectAll.value.2).1.script = sink.script.tail := rfl
    rw [List.map_cons, rest.answers_eq, List.length_cons, Sink.answers_succ hScript]
    rfl
  writes_eq := by
    rw [rest.writes_eq, List.length_cons]
    show sink.writes + 1 + _ = _
    omega
  bytes_eq := by
    rw [rest.bytes_eq, List.flatMap_cons, ← List.append_assoc, sink.bytes_write,
      ← h.taken_next sink]
    rfl
  shown_eq := by
    intro hLimit claim hm
    rcases List.mem_cons.mp hm with rfl | hLater
    · show (sink.offered queue.projectAll.value.2).bytes = _
      rw [Sink.offered, hLimit]
      rfl
    · exact rest.shown_eq hLimit claim hLater

/-- A single write, of whatever queue, makes one claim at most. -/
theorem WellFormed.settles_writeSome (h : queue.WellFormed) (sink : Sink) :
    let transfer := (queue.writeSome sink).value
    ∃ claims, sink.Claimed claims transfer.sink ∧
      Settles queue.content 0 claims transfer.queue.content transfer.ending := by
  intro transfer
  by_cases hNone : queue.content = []
  · have hTransfer := value_writeSome_of_nothing (h.projected_projectAll.mpr hNone) sink
    rw [show transfer = _ from hTransfer]
    exact ⟨[], .nil sink, .done queue.content 0⟩
  have hMade := h.made_next hNone sink
  refine ⟨[.next queue sink], ?_⟩
  rcases h.writeSome_claim hNone sink with
    ⟨hRefused, after, hTransfer, hContent⟩ | ⟨hConfirmed, after, hTransfer, _, hContent⟩
  · rw [show transfer = _ from hTransfer, hContent]
    exact ⟨h.claimed_cons (.nil _), .refused 0 hMade hRefused⟩
  · rw [show transfer = _ from hTransfer, hContent]
    refine ⟨h.claimed_cons (.nil _), ?_⟩
    by_cases hFails : sink.answer.code.isFailure = true
    · have hSettles := Settles.failed 0 hMade hConfirmed hFails
      rwa [UInt64.zero_add] at hSettles
    · rw [Response.code_eq_success hFails]
      refine .again hMade hConfirmed hFails ?_
      rw [UInt64.zero_add]
      exact .done ..

/-- A loop of writes, by induction on the number of writes that it may make. -/
theorem WellFormed.settles_writeUpTo (h : queue.WellFormed) (sink : Sink) (total : UInt64)
    (writes : Nat) :
    let transfer := (queue.writeUpTo writes sink total).value
    ∃ claims, sink.Claimed claims transfer.sink ∧
      Settles queue.content total claims transfer.queue.content transfer.ending := by
  induction writes generalizing queue sink total with
  | zero => exact ⟨[], .nil sink, .done queue.content total⟩
  | succ writes ih =>
    intro transfer
    by_cases hEmpty : queue.isEmpty = true
    · rw [show transfer = _ from value_writeUpTo_of_empty hEmpty sink total (writes + 1)]
      exact ⟨[], .nil sink, .done queue.content total⟩
    have hSome : queue.content ≠ [] := mt h.isEmpty_iff.mpr hEmpty
    have hMade := h.made_next hSome sink
    rcases h.writeSome_claim hSome sink with
      ⟨hRefused, after, hWrite, hContent⟩ | ⟨hConfirmed, after, hWrite, hAfter, hContent⟩
    · have hTransfer := (queue.value_writeUpTo_succ sink total writes).trans
        (by rw [value_writeMore_of_raised hEmpty hWrite rfl])
      rw [show transfer = _ from hTransfer, hContent]
      exact ⟨_, h.claimed_cons (.nil _), .refused total hMade hRefused⟩
    · have hTransfer := value_writeUpTo_of_some hEmpty hWrite total writes
      by_cases hFails : sink.answer.code.isFailure = true
      · rw [show transfer = _ from hTransfer, if_pos hFails, hContent]
        exact ⟨_, h.claimed_cons (.nil _), .failed total hMade hConfirmed hFails⟩
      · obtain ⟨claims, hClaimed, hSettles⟩ := ih hAfter (sink.write queue.projectAll.value.2).1
          (total + (Claim.next queue sink).claimed)
        rw [hContent] at hSettles
        rw [show transfer = _ from hTransfer, if_neg hFails]
        exact ⟨_, h.claimed_cons hClaimed, .again hMade hConfirmed hFails hSettles⟩

end Queue

namespace Outlet

/-- What a transfer leaves. -/
def after (transfer : Transfer) : Outlet := ⟨transfer.queue, transfer.sink⟩

/-- One write, step by step. The sink's own error is reported, but the confirmation is made without
a place for its code. -/
def writeSomeBody : Body Outlet UInt64 := do
  let outlet ← object
  let (queue, projection) := outlet.queue.projectAll.value
  setObject { outlet with queue }
  if queue.projected = 0 then
    report .success
    return 0
  let (sink, count, code) := outlet.sink.write projection
  setObject ⟨queue, sink⟩
  raisingOn Outlet.queue (fun queue outlet => { outlet with queue }) (Queue.confirmBody count)
  if code.isFailure then report code else report .success
  return count

/-- Further writes, each with the place of the whole loop. -/
def writeUpToBody : Nat → UInt64 → Body Outlet UInt64
  | 0, total => return total
  | writes + 1, total => do
    let outlet ← object
    if outlet.queue.isEmpty then return total
    let count ← writeSomeBody
    let code ← place
    if code.isFailure then return total + count
    writeUpToBody writes (total + count)

def writeAllBody : Body Outlet UInt64 := do
  report .success
  let outlet ← object
  writeUpToBody (outlet.sink.script.length + outlet.queue.size.toNat) 0

def writeBody : Request → Body Outlet UInt64
  | .some => writeSomeBody
  | .all => writeAllBody

/-- The code of an answer is success or a failure, whoever reports it. -/
theorem code_write (sink : Sink) (projection : Projection) :
    (if (sink.write projection).2.2.isFailure then (sink.write projection).2.2 else .success) =
      (sink.write projection).2.2 := by
  split
  · rfl
  · next h => exact (Response.code_eq_success h).symm

theorem code_writeSome {queue : Queue} {sink : Sink} {count : UInt64} {code : Code}
    (h : (queue.writeSome sink).value.ending = .returned count code) (hFails : ¬ code.isFailure) :
    code = .success := by
  by_cases h0 : queue.projectAll.value.1.projected = 0
  · rw [Queue.value_writeSome_of_nothing h0] at h
    cases h
    rfl
  cases hValue : (queue.projectAll.value.1.confirm
      (sink.write queue.projectAll.value.2).2.1).value with
  | error failure =>
    have hRefused := Queue.confirm_eq_error_iff.mp ⟨failure, hValue⟩
    rw [Queue.value_writeSome_of_refused h0 hRefused] at h
    cases h
  | ok confirmed =>
    rw [Queue.value_writeSome h0 rfl hValue] at h
    cases h
    exact Response.code_eq_success hFails

theorem callWith_writeSomeBody (outlet : Outlet) (earlier : Code) :
    writeSomeBody.callWith earlier outlet =
      (after (outlet.queue.writeSome outlet.sink).value,
        (outlet.queue.writeSome outlet.sink).value.ending) := by
  have hCode := code_write outlet.sink outlet.queue.projectAll.value.2
  rw [writeSomeBody, callWith_object_bind, Queue.writeSome, Logged.value_bind]
  generalize outlet.queue.projectAll.value = shown at *
  obtain ⟨shown, projection⟩ := shown
  dsimp only at *
  rw [callWith_setObject_bind]
  by_cases hNothing : shown.projected = 0
  · rw [if_pos hNothing, if_pos hNothing]
    rfl
  rw [if_neg hNothing, if_neg hNothing]
  generalize outlet.sink.write projection = written at *
  obtain ⟨written, count, code⟩ := written
  dsimp only at *
  rw [callWith_setObject_bind, Logged.value_bind]
  have hConfirm := callWith_raisingOn Outlet.queue (fun queue outlet => { outlet with queue })
    (Queue.confirmBody count) earlier ⟨shown, written⟩
  have hHonours := shown.confirmBody_honours count
  cases hValue : (shown.confirm count).value with
  | error failure =>
    have hRefused : shown.projected < count := Queue.confirm_eq_error_iff.mp ⟨failure, hValue⟩
    obtain ⟨hFailure, _, hRaised⟩ := hHonours.fails hRefused
    rw [hValue] at hFailure
    cases hFailure
    rw [hRaised] at hConfirm
    rw [callWith_bind_of_raised hConfirm]
    rfl
  | ok confirmed =>
    have hAccepted : ¬ shown.projected < count := by
      rw [← Queue.confirm_eq_error_iff, hValue]
      rintro ⟨failure, hn⟩
      cases hn
    obtain ⟨_, _, hOperation, hCall⟩ := hHonours.succeeds hAccepted
    rw [hValue] at hOperation
    cases hOperation
    rw [hCall] at hConfirm
    rw [callWith_bind hConfirm]
    dsimp only
    by_cases hFails : code.isFailure = true
    · rw [if_pos hFails, if_pos hFails]
      rfl
    · rw [if_neg hFails] at hCode
      rw [if_neg hFails, if_neg hFails, ← hCode]
      rfl

/-- In a loop the place is free of failures before each write. -/
theorem callWith_writeUpToBody (writes : Nat) (outlet : Outlet) (total : UInt64) :
    (writeUpToBody writes total).callWith .success outlet =
      (after (outlet.queue.writeUpTo writes outlet.sink total).value,
        (outlet.queue.writeUpTo writes outlet.sink total).value.ending) := by
  induction writes generalizing outlet total with
  | zero => rfl
  | succ writes ih =>
    rw [writeUpToBody, callWith_object_bind]
    by_cases hEmpty : outlet.queue.isEmpty = true
    · rw [if_pos hEmpty, Queue.value_writeUpTo_of_empty hEmpty]
      rfl
    have hWrite := outlet.callWith_writeSomeBody .success
    rw [if_neg hEmpty]
    rcases hTransfer : (outlet.queue.writeSome outlet.sink).value with ⟨sink, queue, ending⟩
    rw [hTransfer] at hWrite
    cases ending with
    | raised code =>
      rw [Queue.value_writeUpTo_succ, Queue.value_writeMore_of_raised hEmpty hTransfer rfl,
        callWith_bind_of_raised hWrite]
    | returned count code =>
      rw [Queue.value_writeUpTo_of_some hEmpty hTransfer, callWith_bind hWrite,
        callWith_place_bind]
      by_cases hFails : code.isFailure = true
      · rw [if_pos hFails, if_pos hFails]
        rfl
      · have hSuccess : code = .success := code_writeSome (by rw [hTransfer]) hFails
        rw [if_neg hFails, if_neg hFails, hSuccess]
        exact ih ⟨queue, sink⟩ (total + count)

/-- What is done step by step is what calls do that write, with and without a place. -/
theorem call_writeBody (outlet : Outlet) (request : Request) (earlier : Code) :
    (writeBody request).call (some earlier) outlet =
        (after (outlet.write request .report),
          (outlet.write request .report).ending) ∧
      (writeBody request).call none outlet =
        (after (outlet.write request .raise),
          (outlet.write request .raise).ending) := by
  cases request with
  | some =>
    have hCall (earlier : Code) := outlet.callWith_writeSomeBody earlier
    refine ⟨?_, ?_⟩
    · rw [call, writeBody, hCall, Outlet.write, Transfer.escalate_report]
    · rw [call, writeBody, hCall]
      rfl
  | all =>
    have hCall (earlier : Code) : writeAllBody.callWith earlier outlet =
        (after (outlet.queue.writeAll outlet.sink).value,
          (outlet.queue.writeAll outlet.sink).value.ending) := by
      rw [writeAllBody, callWith_report_bind, callWith_object_bind, callWith_writeUpToBody]
      rfl
    refine ⟨?_, ?_⟩
    · rw [call, writeBody, hCall, Outlet.write, Transfer.escalate_report]
    · rw [call, writeBody, hCall]
      rfl

/-- What holds of calls that write to any sink, one that claims too much included. Step by step,
they do the same with and without a place for the code, and what one of them returns with a
failure is raised by the other. The claims that were made settle what is left in the queue and how
the call ends. If they are sound, what was accepted has left the queue, and the first failure among
them is returned. If one is larger than what was shown, it is the last, its refusal is raised even
where there is a place, and what the sink took with it is still in front of the queue. Nothing else
is raised. -/
theorem calls_settle {outlet : Outlet} (reachable : Queue.Reachable outlet.queue)
    (request : Request) :
    let reported := outlet.write request .report
    let raised := outlet.write request .raise
    (∀ earlier, (writeBody request).call (some earlier) outlet =
        (after reported, reported.ending)) ∧
      (writeBody request).call none outlet = (after raised, raised.ending) ∧
      after raised = after reported ∧ raised.ending = Mode.raise.escalate reported.ending ∧
      ∃ claims, outlet.sink.Claimed claims reported.sink ∧
        Settles outlet.queue.content 0 claims reported.queue.content reported.ending ∧
        ((∀ claim ∈ claims, claim.answer.Honest) →
          claims.flatMap (·.taken) ++ reported.queue.content = outlet.queue.content ∧
            reported.ending = .returned (Bytes.size (claims.flatMap (·.taken)))
              (firstFailure (claims.map (·.answer)))) ∧
        (reported.ending = .raised Failure.overConfirmed.code ↔ ∃ claim ∈ claims, claim.Refused) ∧
        ∀ claim ∈ claims, claim.Refused →
          claims.getLast? = some claim ∧ claim.taken <+: reported.queue.content := by
  intro reported raised
  have h := reachable.wellFormed
  have hCall := outlet.call_writeBody request
  have hRaised : raised = reported.escalate .raise := by
    show outlet.write request .raise = (outlet.write request .report).escalate .raise
    cases request <;> rw [write, write, Transfer.escalate_report]
  refine ⟨fun earlier => (hCall earlier).1, (hCall .success).2, by rw [hRaised]; rfl,
    by rw [hRaised]; rfl, ?_⟩
  have hSettled : ∃ claims, outlet.sink.Claimed claims reported.sink ∧
      Settles outlet.queue.content 0 claims reported.queue.content reported.ending := by
    cases request with
    | some =>
      rw [show reported = _ from Transfer.escalate_report _]
      exact h.settles_writeSome outlet.sink
    | all =>
      rw [show reported = _ from Transfer.escalate_report _]
      exact h.settles_writeUpTo outlet.sink 0 _
  obtain ⟨claims, hClaimed, hSettles⟩ := hSettled
  refine ⟨claims, hClaimed, hSettles, fun honest => ?_, hSettles.raised_iff,
    fun claim hm hRefused => ?_⟩
  · have hHonest := hSettles.of_honest h.length_content_lt honest
    rwa [UInt64.zero_add] at hHonest
  · obtain ⟨hLast, hMade⟩ := hSettles.refused_last hm hRefused
    exact ⟨hLast, hMade.taken_prefix.trans hMade.exposed_prefix⟩

/-- A loop whose first answer claims a byte more than it takes, as many as were shown, and whose
second answer claims too much. The caller has a place with an earlier code in it, and the refusal is
raised; one byte is lost, and two that the sink has are still in the queue. -/
theorem calls_settle_in_second_write :
    let settings : Settings := { initialChunkSize := 2, maxSlices := 1 }
    let operations : List Operation := [.append (.ofBytes [1, 2, 3, 4, 5])]
    let sink : Sink := { script := [⟨.overclaim 1 1, 0⟩, ⟨.overclaim 9 7, 7⟩] }
    let outlet : Outlet := ⟨(Queue.fresh none 0 settings).run operations, sink⟩
    let reported := outlet.write .all .report
    Queue.Reachable outlet.queue ∧
      (writeBody .all).call (some ⟨.stream, 99⟩) outlet =
        (after reported, .raised Failure.overConfirmed.code) ∧
      reported.sink.bytes = [1, 3, 4] ∧ reported.queue.content = [3, 4, 5] ∧
      ∃ claims, outlet.sink.Claimed claims reported.sink ∧ claims.length = 2 ∧
        ∃ claim ∈ claims, claim.Refused := by
  intro settings operations sink outlet reported
  have hAdmissible : (Queue.fresh none 0 settings).Admissible operations := by decide +kernel
  have hReachable : Queue.Reachable outlet.queue :=
    (Queue.Reachable.fresh none 0 settings (by decide)).run hAdmissible
  obtain ⟨hCall, _, _, _, claims, hClaimed, _, _, hRaised, _⟩ := calls_settle hReachable .all
  have hEnding : reported.ending = .raised Failure.overConfirmed.code := by decide +kernel
  have hWrites : reported.sink.writes = 2 := by decide +kernel
  have hLength : claims.length = 2 :=
    (Nat.zero_add _).symm.trans (hClaimed.writes_eq.symm.trans hWrites)
  refine ⟨hReachable, ?_, by decide +kernel, by decide +kernel, claims, hClaimed, hLength,
    hRaised.mp hEnding⟩
  rw [hCall, show (outlet.write .all .report).ending = _ from hEnding]

/-- A place for the code does not keep a call that writes from raising one. -/
theorem raised_despite_place :
    let settings : Settings := {}
    let queue := (Queue.fresh none 0 settings).run [.append (.ofBytes [97, 98, 99])]
    let outlet : Outlet := ⟨queue, { script := [⟨.overclaim 3 1, 0⟩] }⟩
    let earlier : Code := ⟨.stream, 99⟩
    Queue.Reachable queue ∧
      ((writeBody .some).call (some earlier) outlet).2 = .raised Failure.overConfirmed.code ∧
      ¬ ∃ count code, ((writeBody .some).call (some earlier) outlet).2 = .returned count code := by
  intro settings queue outlet earlier
  have hAdmissible :
      (Queue.fresh none 0 settings).Admissible [.append (.ofBytes [97, 98, 99])] := by
    decide +kernel
  have hRaised : ((writeBody .some).call (some earlier) outlet).2 =
      .raised Failure.overConfirmed.code := by decide +kernel
  refine ⟨(Queue.Reachable.fresh none 0 settings (by decide)).run hAdmissible, hRaised, ?_⟩
  rintro ⟨count, code, hReturned⟩
  rw [hRaised] at hReturned
  cases hReturned

end Outlet

end ByteQueue
