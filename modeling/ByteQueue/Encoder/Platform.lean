import ByteQueue.CommandLine
import ByteQueue.Failure
import ByteQueue.Text.Token

/-!
What an encoder leaves to the platform and the libraries that it is built on: how command lines
are split and numbers are read, whether there is memory for a blob, and the texts that messages
quote.
-/
namespace ByteQueue.Encoder

/-- What an encoder is built on. -/
structure Platform where
  arguments : ArgumentReader
  /-- Reads counts of messages. -/
  counts : NumberReader .word32
  /-- Reads all other numbers. -/
  sizes : NumberReader .word64
  /-- How options are laid out. -/
  layout : Layout
  /-- What an exception that carries a code says. -/
  describe : Code → String
  /-- What is said about a command line that is refused. -/
  complain : Misuse → String
  /-- What an exception says if there is no memory for a blob of a size. -/
  refusal? : UInt64 → Option String

/-- What ends the encoding early. -/
inductive Obstacle where
  /-- A code that was raised. -/
  | code (code : Code)
  /-- There is no memory for the blob, and what is said about that. -/
  | noMemory (reason : String)
  deriving DecidableEq, Repr

namespace Platform

/-- What the exception says that ends the encoding. -/
def what (platform : Platform) : Obstacle → String
  | .code code => platform.describe code
  | .noMemory reason => reason

/-- A platform whose allocator refuses blobs of `bound` bytes and more. -/
def bounded (bound : UInt64) : Platform where
  arguments := .standard
  counts := .decimal .word32
  sizes := .decimal .word64
  layout caption options :=
    "\n".intercalate (s!"{caption}:" :: options.map fun option =>
      if option.takesValue then s!"  --{option.name} arg (={option.shown})  {option.description}"
      else s!"  --{option.name}  {option.description}")
  describe := Code.message
  complain
    | .unknownOption name => s!"unrecognised option '--{name}'"
    | .repeatedOption name => s!"option '--{name}' cannot be specified more than once"
    | .missingValue name => s!"the required argument for option '--{name}' is missing"
    | .unexpectedValue name => s!"option '--{name}' does not take any arguments"
    | .strayArgument _ => "too many positional options have been specified on the command line"
    | .badValue name value => s!"the argument ('{value}') for option '--{name}' is invalid"
  refusal? size := if bound ≤ size then some "std::bad_alloc" else none

end Platform

end ByteQueue.Encoder
