import ByteQueue.Queue.Printer
import ByteQueue.Write.Async

/-! What can be done in a session, and what is answered. -/
namespace ByteQueue

/-- What a step does. Actions on a queue are on the one that the step names. -/
inductive Action where
  | create (settings : Settings)
  | destroy
  | append (data : Block)
  | appendAll (pieces : List Block)
  | absorb (handle : String)
  | isEmpty
  | front
  | settings
  | describe
  /-- Without a limit, the settings alone decide how many slices are shown. -/
  | project (limit : Option UInt64)
  | confirm (count : UInt64) (mode : Mode)
  | sealTail
  | clear
  /-- Drains after copies of some handles; `store` is the front of the names under which the
  resulting handles are kept. -/
  | drain (before : List String) (store : Option String)
  | take (count : UInt64) (mode : Mode) (store : Option String)
  | setEmpty (handle : String)
  | setCopy (handle : String) (data : Block)
  | setAdopted (handle : String) (data : Block) (count : UInt64)
  | setShared (handle source : String)
  | setSlice (handle source : String) (offset count : UInt64) (mode : Mode)
  | drop (handle : String)
  | sameBytes (first second : String)
  | differentBytes (first second : String)
  | sharing (first second : String)
  | uses (handle : String)
  | describeHandle (handle : String)
  | view (handle : String)
  | extendScript (responses : List Response)
  /-- What the sink took since it was last asked. -/
  | inspectSink
  | writeSome (mode : Mode)
  | writeAll (mode : Mode)
  | startSome
  | startAll
  /-- Runs the first pending completion. -/
  | runOne
  /-- Runs pending completions until there are none. -/
  | runAll
  | openPrinter
  | put (items : List Item)
  | flushPrinter
  | closePrinter

/-- What a step answers. -/
inductive Answer where
  | nothing
  | truth (value : Bool)
  | number (value : UInt64)
  | bytes (data : Block)
  | parts (parts : List Block)
  | text (text : String)
  | settings (settings : Settings)
  | projection (exposed : UInt64) (slices : List Block)
  | view (size : UInt64) (isEmpty : Bool) (data : Block)
  | sink (writes : Nat) (data : Block)
  | ran (count : Nat) (reports : List Report)
  deriving DecidableEq

end ByteQueue
