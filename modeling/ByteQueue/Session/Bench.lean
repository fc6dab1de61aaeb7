import ByteQueue.Chunk
import ByteQueue.Table

/-!
A bench for single chunks: at most one chunk on it, and named handles beside it. A filling chunk
lies on the bench bare until it is wrapped; then it counts as a chunk of either kind. What is
released leaves the bench empty.
-/
namespace ByteQueue

/-- What lies on the bench. -/
inductive Workpiece where
  | bare (chunk : FillingChunk)
  | wrapped (chunk : Chunk)
  deriving DecidableEq

/-- A workpiece, named handles, and the number of arrays allocated so far. -/
structure Bench where
  workpiece : Option Workpiece := none
  handles : Table String Handle := []
  arrays : Nat := 0
  deriving DecidableEq

/-- What is done at the bench. -/
inductive BenchAction where
  | setFilling (capacity : UInt64)
  | append (data : Block)
  | wrap
  | setCopy (handle : String) (data : Block)
  /-- A sealed chunk of a handle. -/
  | setSealed (handle : String)
  /-- Releases the chunk into a handle. -/
  | release (handle : String)
  | uses (handle : String)
  deriving DecidableEq

/-- What a bench action answers. -/
inductive BenchAnswer where
  | nothing
  | bytes (data : Block)
  | number (value : Nat)
  deriving DecidableEq

namespace Bench

/-- An identity for a new array. -/
def allocate (bench : Bench) : Bench × ArrayId :=
  ({ bench with arrays := bench.arrays + 1 }, ⟨0, bench.arrays⟩)

/-- The references that named handles and the workpiece hold to the array of a handle. -/
def uses (bench : Bench) (handle : Handle) : Nat :=
  match handle.arrayId? with
  | none => 0
  | some id =>
    bench.handles.countP (fun (_, handle) => handle.arrayId? == some id)
      + match bench.workpiece with
        | some (.wrapped chunk) => if chunk.sharedArrayId? = some id then 1 else 0
        | _ => 0

/-- Performs an action; `none` if it does not apply to what lies on the bench. -/
def perform (bench : Bench) : BenchAction → Option (Bench × BenchAnswer)
  | .setFilling capacity =>
    let (bench, id) := bench.allocate
    some ({ bench with workpiece := some (.bare (.ofBlock id capacity .empty)) }, .nothing)
  | .append data =>
    match bench.workpiece with
    | some (.bare chunk) =>
      some ({ bench with workpiece := some (.bare (chunk.append data)) }, .nothing)
    | some (.wrapped (.filling chunk)) =>
      some ({ bench with workpiece := some (.wrapped (.filling (chunk.append data))) }, .nothing)
    | _ => none
  | .wrap =>
    match bench.workpiece with
    | some (.bare chunk) =>
      some ({ bench with workpiece := some (.wrapped (.filling chunk)) }, .nothing)
    | _ => none
  | .setCopy name data =>
    let (bench, id) := bench.allocate
    some ({ bench with handles := bench.handles.insert name (Handle.ofBlock id data) }, .nothing)
  | .setSealed name => do
    let handle ← bench.handles.get? name
    some ({ bench with workpiece := some (.wrapped (.sealed handle)) }, .nothing)
  | .release name => do
    let handle ←
      match bench.workpiece with
      | some (.bare chunk) => some chunk.release
      | some (.wrapped chunk) => some chunk.release
      | none => none
    some ({ bench with workpiece := none, handles := bench.handles.insert name handle },
      .bytes handle.block)
  | .uses name => do
    let handle ← bench.handles.get? name
    some (bench, .number (bench.uses handle))

end Bench

end ByteQueue
