import ByteQueue.Session.Action
import ByteQueue.Session.Basic

/-!
The steps of a session. A step works on one queue, or on handles, the sink, or the printer; it
ends with an answer or with a raised code, and either way the session goes on. A step that
names a queue, a handle or a printer which does not exist has no meaning.
-/
namespace ByteQueue

namespace Session

open Logged

/-- A session after some work, and how the step ended. -/
abbrev Result := Session × Ending Answer

/-- The normal end of a step that reports no code. -/
def answer (session : Session) (answer : Answer) : Result :=
  (session, .returned answer .success)

/-- Work on one queue. -/
def update (session : Session) (index : Nat) (work : Logged Event Queue) : Logged Event Result := do
  let queue ← work
  return (session.setQueue index queue).answer .nothing

/-- Appends what a printer passes on to the queue behind it. If that queue has gone out of use,
it is lost. -/
def receive (session : Session) (index : Nat) (passed : List Block) : Logged Event Session :=
  match session.queue? index with
  | none => pure session
  | some queue => session.setQueue index <$> queue.appendAll passed

/-- Appends what the printer holds, if one is open, and closes it. -/
def closePrinter (session : Session) : Logged Event Session :=
  match session.printer with
  | none => pure session
  | some (index, printer) => { session with printer := none }.receive index [printer.collected]

/-- Takes in a queue that was asked for, in place of the one of this number; if there is none, its
place stays empty. -/
def enter (session : Session) (index : Nat) : Except Failure Queue → Result
  | .ok queue =>
    ({ session with owners := session.owners + 1 }.setQueue index queue).answer .nothing
  | .error failure =>
    ({ session with queues := session.queues.erase index },
      Mode.raise.settle .nothing (.error failure))

/-- Replaces a queue by a new one with the given settings. If these are invalid, there is no
queue of that number afterwards. -/
def create (session : Session) (index : Nat) (settings : Settings) : Logged Event Result := do
  if let some queue := session.queue? index then queue.destroy
  let created ← Queue.create session.logger session.owners settings
  return session.enter index created

/-- Keeps handles under the names `front0`, `front1`, …. -/
def storeAll (session : Session) (front : String) (handles : List Handle) : Session :=
  handles.zipIdx.foldl
    (fun session (handle, position) => session.setHandle s!"{front}{position}" handle) session

/-- Takes bytes from a queue into a handle, which may be kept. -/
def take (session : Session) (index : Nat) (queue : Queue) (count : UInt64) (mode : Mode)
    (store : Option String) : Logged Event Result := do
  let result ← queue.take count
  let session :=
    match result with
    | .ok (queue, _) => session.setQueue index queue
    | .error _ => session
  match mode.settle .empty (result.map Prod.snd) with
  | .returned handle code =>
    let session :=
      match store with
      | some name => session.setHandle name handle
      | none => session
    return (session, .returned (.bytes handle.block) code)
  | .raised code => return (session, .raised code)

/-- Sets a handle to a slice of another. A refused slice leaves the empty handle if the failure
is reported, and changes nothing if it is raised. -/
def setSlice (session : Session) (name : String) (source : Handle) (offset count : UInt64)
    (mode : Mode) : Result :=
  match mode.settle .empty (source.slice offset count) with
  | .returned handle code =>
    (session.setHandle name handle, .returned (.bytes handle.block) code)
  | .raised code => (session, .raised code)

/-- The end of a write to the sink. -/
def transferred (session : Session) (index : Nat) (mode : Mode) (work : Logged Event Transfer) :
    Logged Event Result := do
  let transfer ← work
  let session := { session with sink := transfer.sink }.setQueue index transfer.queue
  match mode.escalate transfer.ending with
  | .returned count code => return (session, .returned (.number count) code)
  | .raised code => return (session, .raised code)

/-- Puts a started write behind those that are pending. -/
def started (session : Session) (index : Nat) (work : Logged Event Started) :
    Logged Event Result := do
  let started ← work
  let session := { session with sink := started.sink }.setQueue index started.queue
  let session := { session with pending := session.pending ++ [(index, started.completion)] }
  return session.answer (.number session.reports.length.toUInt64)

/-- Runs the first pending completion: the session, or the code that was raised. That
completion is gone either way. A write is confirmed to its queue, so it completes only while
there is one; where nothing is left to write, the queue may have gone out of use. `none` if
nothing can complete. -/
def runFirst (session : Session) : Option (Logged Event (Session × Option Code)) :=
  match session.pending with
  | [] => none
  | (_, .finished total) :: pending =>
    some (pure ({ session with pending, reports := session.reports ++ [.finished total] }, none))
  | (index, completion) :: pending =>
    (session.queue? index).map fun queue => do
      let completed ← queue.complete session.sink completion
      let session := { session with sink := completed.sink, pending }.setQueue index completed.queue
      match completed.ending with
      | .raised code => return (session, some code)
      | .returned (.next completion) _ =>
        return ({ session with pending := session.pending ++ [(index, completion)] }, none)
      | .returned (.done report) _ =>
        return ({ session with reports := session.reports ++ [report] }, none)

/-- Runs the first pending completion, if there is one, after `count` that ran already. A code
that is raised ends the run. -/
def runNext : Session × Nat →
    Logged Event ((Session × Nat) ⊕ (Session × Nat × Option Code))
  | (session, count) =>
    match session.runFirst with
    | none => pure (.inr (session, count, none))
    | some first => do
      match ← first with
      | (session, some code) => return .inr (session, count + 1, some code)
      | (session, none) => return .inl (session, count + 1)

/-- Runs pending completions, `runs` of them at most: how many ran, and the code that one of
them raised. -/
def runUpTo (runs : Nat) (session : Session) : Logged Event (Session × Nat × Option Code) :=
  iterate runNext (fun (session, count) => (session, count, none)) runs (session, 0)

/-- A bound on the completions that can still run: each write uses up an answer of the script
or takes a byte at least, and everything ends with one more completion. -/
def runBound (session : Session) : Nat :=
  2 * session.pending.length + session.sink.script.length
    + sumOf (fun (_, queue) => queue.size.toNat) session.queues

/-- Runs completions and tells of all reports, unless a code was raised. -/
def run (session : Session) (runs : Nat) : Logged Event Result := do
  let (session, count, code) ← session.runUpTo runs
  match code with
  | some code => return (session, .raised code)
  | none => return { session with reports := [] }.answer (.ran count session.reports)

/-- Prints items with the open printer. Its queue is needed only where something is passed on. -/
def put (session : Session) (items : List Item) : Option (Logged Event Result) := do
  let (index, printer) ← session.printer
  let (passed, printer) := printer.print items
  some do
    let session ← { session with printer := some (index, printer) }.receive index passed
    return session.answer .nothing

/-- The session after the allocation of an array, and the identity of that array. -/
def allocate (session : Session) : Session × ArrayId :=
  ({ session with owners := session.owners + 1 }, ⟨session.owners, 0⟩)

/-- Performs an action on the queue of number `index`. -/
def perform (session : Session) (index : Nat) : Action → Option (Logged Event Result)
  | .create settings => some (session.create index settings)
  | .destroy => do
    let queue ← session.queue? index
    some do
      queue.destroy
      return { session with queues := session.queues.erase index }.answer .nothing
  | .append data => do
    let queue ← session.queue? index
    some (session.update index (queue.append data))
  | .appendAll pieces => do
    let queue ← session.queue? index
    some (session.update index (queue.appendAll pieces))
  | .absorb name => do
    let queue ← session.queue? index
    let handle ← session.handle? name
    some (session.update index (queue.absorb handle))
  | .isEmpty => do
    let queue ← session.queue? index
    some (pure (session.answer (.truth queue.isEmpty)))
  | .front => do
    let queue ← session.queue? index
    some (pure (session.answer (.bytes queue.front)))
  | .settings => do
    let queue ← session.queue? index
    some (pure (session.answer (.settings queue.settings)))
  | .describe => do
    let queue ← session.queue? index
    some (pure (session.answer (.text queue.summary.describe)))
  | .project limit => do
    let queue ← session.queue? index
    some do
      let (queue, projection) ← queue.project (limit.getD queue.settings.maxSlices)
      return (session.setQueue index queue).answer
        (.projection queue.projected projection.slices)
  | .confirm count mode => do
    let queue ← session.queue? index
    some do
      let result ← queue.confirm count
      let session :=
        match result with
        | .ok queue => session.setQueue index queue
        | .error _ => session
      return (session, mode.settle .nothing (result.map fun _ => .nothing))
  | .sealTail => do
    let queue ← session.queue? index
    some (session.update index queue.sealTail)
  | .clear => do
    let queue ← session.queue? index
    some (session.update index (pure queue.clear))
  | .drain before store => do
    let queue ← session.queue? index
    let before ← before.mapM session.handle?
    some do
      let (queue, drained) ← queue.drain
      let session := session.setQueue index queue
      let handles := before ++ drained
      let session :=
        match store with
        | some front => session.storeAll front handles
        | none => session
      return session.answer (.parts (handles.map Handle.block))
  | .take count mode store => do
    let queue ← session.queue? index
    some (session.take index queue count mode store)
  | .setEmpty name => some (pure ((session.setHandle name .empty).answer .nothing))
  | .setCopy name data =>
    let (session, id) := session.allocate
    some (pure ((session.setHandle name (Handle.ofBlock id data)).answer .nothing))
  | .setAdopted name data count =>
    let (session, id) := session.allocate
    let array := if data.isEmpty then none else some ⟨id, data⟩
    some (pure ((session.setHandle name (Handle.adopt array count)).answer .nothing))
  | .setShared name source => do
    let handle ← session.handle? source
    some (pure ((session.setHandle name handle).answer .nothing))
  | .setSlice name source offset count mode => do
    let handle ← session.handle? source
    some (pure (session.setSlice name handle offset count mode))
  | .drop name => do
    let _ ← session.handle? name
    some (pure ({ session with handles := session.handles.erase name }.answer .nothing))
  | .sameBytes first second => do
    let first ← session.handle? first
    let second ← session.handle? second
    some (pure (session.answer (.truth (first.sameBytes second))))
  | .differentBytes first second => do
    let first ← session.handle? first
    let second ← session.handle? second
    some (pure (session.answer (.truth (!first.sameBytes second))))
  | .sharing first second => do
    let first ← session.handle? first
    let second ← session.handle? second
    some (pure (session.answer (.truth (first.sharing second))))
  | .uses name => do
    let handle ← session.handle? name
    some (pure (session.answer (.number (session.uses handle).toUInt64)))
  | .describeHandle name => do
    let handle ← session.handle? name
    some (pure (session.answer (.text (handle.describe (session.uses handle)))))
  | .view name => do
    let handle ← session.handle? name
    some (pure (session.answer (.view handle.size handle.isEmpty handle.block)))
  | .extendScript responses =>
    let sink := { session.sink with script := session.sink.script ++ responses }
    some (pure ({ session with sink }.answer .nothing))
  | .inspectSink =>
    some (pure ({ session with sink := session.sink.reset }.answer
      (.sink session.sink.writes session.sink.block)))
  | .writeSome mode => do
    let queue ← session.queue? index
    some (session.transferred index mode (queue.writeSome session.sink))
  | .writeAll mode => do
    let queue ← session.queue? index
    some (session.transferred index mode (queue.writeAll session.sink))
  | .startSome => do
    let queue ← session.queue? index
    some (session.started index (queue.startSome session.sink))
  | .startAll => do
    let queue ← session.queue? index
    some (session.started index (queue.startAll session.sink))
  | .runOne => some (session.run 1)
  | .runAll => some (session.run session.runBound)
  | .openPrinter => do
    let _ ← session.queue? index
    some do
      let session ← session.closePrinter
      return { session with printer := some (index, {}) }.answer .nothing
  | .put items => session.put items
  | .flushPrinter => session.put [.change .flush]
  | .closePrinter => some do
    let session ← session.closePrinter
    return session.answer .nothing

/-- An action and the number of the queue that it works on. -/
structure Step where
  queue : Nat
  action : Action

/-- What a step tells: how it ended, the state of its queue afterwards if there is one, and what it
logged if there is a logger. -/
structure Reply where
  ending : Ending Answer
  summary : Option Summary
  log : Option (List Event)
  deriving DecidableEq

/-- Makes one step; `none` if it has no meaning. -/
def step (session : Session) (step : Step) : Option (Session × Reply) :=
  (session.perform step.queue step.action).map fun work =>
    let (after, ending) := work.value
    (after, ⟨ending, (after.queue? step.queue).map Queue.summary,
      session.logger.map fun _ => work.events⟩)

/-- Ends a session: the printer is closed, and the queues go out of use in the order of their
numbers. -/
def finish (session : Session) : Logged Event Unit := do
  let session ← session.closePrinter
  let queues := session.queues.mergeSort fun first second => first.1 ≤ second.1
  queues.forM fun (_, queue) => queue.destroy

end Session

end ByteQueue
