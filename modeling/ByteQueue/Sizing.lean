import ByteQueue.Text.Words

/-!
Sizing rules: how large the next chunk becomes. The fixed rule has one size. The doubling rule
begins with a first size and doubles it until the chunk would hold everything that is buffered
and the request, but not beyond a cap; a request that reaches the cap gets a chunk of its own.

Sizes are words, so doubling is modulo `2 ^ 64`. A word that was doubled 64 times is zero and
stays so: `Doubling.firstReaching?` says that no doubling reaches a goal when 64 of them do not.
-/
namespace ByteQueue

/-- The choice of a sizing rule. Numbers without a meaning count as `unlisted`. -/
inductive Rule where
  | fixed | doubling | unlisted
  deriving DecidableEq, Repr

namespace Rule

def ofNumber : Int → Rule
  | 0 => .fixed
  | 1 => .doubling
  | _ => .unlisted

/-- The names by which rules are chosen, in alphabetical order. -/
def ids : List String := ["doubling", "fixed"]

def name : Rule → String
  | .fixed => "fixed"
  | .doubling => "doubling"
  | .unlisted => "unknown"

/-- Every name but `doubling` chooses the fixed rule, unknown ones included. -/
def ofName (name : String) : Rule := if name = "doubling" then .doubling else .fixed

/-- Reads `count` rules from a text of words. Where no word is left, the word is empty. -/
def readMany : Nat → Text → List Rule
  | 0, _ => []
  | count + 1, text =>
    let (word, rest) := text.nextWord
    ofName (String.ofList word) :: readMany count rest

end Rule

/-- The parameters of the doubling rule. -/
structure Doubling where
  first : UInt64
  cap : UInt64
  deriving DecidableEq, Repr

namespace Doubling

/-- The first of `size`, `2 * size`, `4 * size`, … that is at least `goal`, looking at no more
than `doublings` steps. -/
def firstReaching? (goal : UInt64) : Nat → UInt64 → Option UInt64
  | 0, size => if size < goal then none else some size
  | doublings + 1, size =>
    if size < goal then firstReaching? goal doublings (size * 2) else some size

/-- What the chunk should hold: all that is buffered and the request, or the cap if that sum
is no word. -/
def wanted (rule : Doubling) (buffered request : UInt64) : UInt64 :=
  if buffered > -1 - request then rule.cap else buffered + request

/-- The size that the doubling arrives at, if it arrives anywhere. -/
def reached? (rule : Doubling) (buffered request : UInt64) : Option UInt64 :=
  firstReaching? (min (rule.wanted buffered request) rule.cap) 64 rule.first

/-- The size of the next chunk; `none` if the doubling goes on for ever. -/
def next? (rule : Doubling) (buffered request : UInt64) : Option UInt64 :=
  if request ≥ rule.cap then some request
  else (rule.reached? buffered request).map fun size => max (min size rule.cap) request

end Doubling

/-- A sizing rule with its parameters. -/
inductive Sizing where
  | fixed (size : UInt64)
  | doubling (rule : Doubling)
  deriving DecidableEq, Repr

namespace Sizing

/-- The size of the next chunk when `buffered` bytes are held and `request` more arrive;
`none` if the rule finds none. -/
def next? (sizing : Sizing) (buffered request : UInt64) : Option UInt64 :=
  match sizing with
  | .fixed size => some size
  | .doubling rule => rule.next? buffered request

/-- The greatest size of any chunk, or 0 if there is no bound. -/
def greatest : Sizing → UInt64
  | .fixed size => size
  | .doubling _ => 0

end Sizing

end ByteQueue
