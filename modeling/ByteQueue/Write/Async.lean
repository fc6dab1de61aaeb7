import ByteQueue.Write.Sync

/-!
Writing in the background. A write is started by handing a projection to the sink, which takes
the bytes at once and completes later; only the completion consumes them from the queue. A
completion reports to the caller, or, when everything is to be written, starts the next write.
The queue may gain bytes in between.
-/
namespace ByteQueue

/-- What the caller asked for. -/
inductive Request where
  | some | all
  deriving DecidableEq, Repr

/-- What the caller is told in the end: the outcome, and the number of bytes written. -/
structure Report where
  request : Request
  code : Code
  count : UInt64
  deriving DecidableEq, Repr

/-- The report that nothing is left to write after `total` bytes. -/
def Report.finished (total : UInt64) : Report := ⟨.all, .success, total⟩

/-- What follows a completed write. -/
inductive Sequel where
  /-- The caller is told about it. -/
  | report
  /-- The next write, unless the queue is empty; `total` bytes were written before. -/
  | further (total : UInt64)
  deriving DecidableEq, Repr

/-- Something that will complete. -/
inductive Completion where
  /-- A write of `slices` slices of which the sink claims `count` bytes. -/
  | write (count : UInt64) (code : Code) (slices : Nat) (sequel : Sequel)
  /-- Nothing was left to write after `total` bytes. -/
  | finished (total : UInt64)
  deriving DecidableEq, Repr

/-- What a completion leads to: another one, or the report. -/
inductive Consequence where
  | next (completion : Completion)
  | done (report : Report)
  deriving DecidableEq, Repr

/-- A completion that has run. -/
structure Completed where
  sink : Sink
  queue : Queue
  ending : Ending Consequence

/-- A write that has been started. -/
structure Started where
  sink : Sink
  queue : Queue
  completion : Completion

namespace Queue

/-- Starts a write of what a projection shows, even if that is nothing. -/
def startWrite (queue : Queue) (sink : Sink) (sequel : Sequel) : Logged Event Started := do
  let (queue, projection) ← queue.projectAll
  let (sink, count, code) := sink.write projection
  return ⟨sink, queue, .write count code projection.count sequel⟩

/-- Starts a single write. -/
def startSome (queue : Queue) (sink : Sink) : Logged Event Started := queue.startWrite sink .report

/-- Continues with writing everything after `total` bytes. An empty queue completes without a
write. -/
def continueAll (queue : Queue) (sink : Sink) (total : UInt64) : Logged Event Started :=
  if queue.isEmpty then pure ⟨sink, queue, .finished total⟩
  else queue.startWrite sink (.further total)

/-- Starts writing everything. -/
def startAll (queue : Queue) (sink : Sink) : Logged Event Started := queue.continueAll sink 0

/-- Runs a completion. What the sink claims is confirmed, and that is raised if it is refused;
nothing follows then. -/
def complete (queue : Queue) (sink : Sink) : Completion → Logged Event Completed
  | .finished total => pure ⟨sink, queue, .returned (.done (.finished total)) .success⟩
  | .write count code slices sequel => do
    match ← queue.confirm count with
    | .error failure => return ⟨sink, queue, .raised failure.code⟩
    | .ok queue =>
      if code.isFailure then queue.emit (.streamFailed code)
      queue.emit (.wroteLater count slices queue.summary)
      match sequel with
      | .report => return ⟨sink, queue, .returned (.done ⟨.some, code, count⟩) .success⟩
      | .further total =>
        if code.isFailure then
          return ⟨sink, queue, .returned (.done ⟨.all, code, total + count⟩) .success⟩
        else
          let started ← queue.continueAll sink (total + count)
          return ⟨started.sink, started.queue, .returned (.next started.completion) .success⟩

/-- Runs a completion and those that follow it, `runs` of them at most, up to the report. -/
def completeUpTo : Nat → Queue → Sink → Completion → Logged Event Completed
  | 0, queue, sink, completion => pure ⟨sink, queue, .returned (.next completion) .success⟩
  | runs + 1, queue, sink, completion => do
    let completed ← queue.complete sink completion
    match completed.ending with
    | .returned (.next completion) _ =>
      completeUpTo runs completed.queue completed.sink completion
    | _ => return completed

end Queue

end ByteQueue
