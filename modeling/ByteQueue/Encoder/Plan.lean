import ByteQueue.Encoder.Platform
import ByteQueue.Log.Config
import ByteQueue.Settings.Named

/-! What an encoder is asked to do: the options of its command line, and those of its queue. -/
namespace ByteQueue.Encoder

/-- The configuration that the encoder's logger begins with: the names of components are labelled,
and the verbosity is the general one. -/
def firstConfig : Log.Config :=
  ({} : Log.Config).registerAll Component.standardFamily Component.standardNames "enc".toList

/-- What the command line decides. -/
structure Plan where
  help : Bool := false
  count : UInt32 := 100
  blobSize : UInt64 := 1024
  verbosity : Severity := .info
  settings : Settings := {}
  deriving DecidableEq, Repr

namespace Plan

/-- A count of messages fits into 32 bits. -/
def count? (counts : NumberReader .word32) (value : String) : Option UInt32 :=
  (counts.read? value.toList).map UInt32.ofBitVec

/-- A verbosity is a severity by name or number, with nothing after it. -/
def verbosity? (numbers : NumberReader .word64) (value : String) : Option Severity :=
  let (level, rest) :=
    Severity.enumeration.read numbers Severity.silent.level.toBitVec value.toList
  if rest = [] then some ⟨⟨level⟩⟩ else none

/-- The options of an encoder, with their defaults from the given plan. -/
def entries (platform : Platform) (defaults : Plan) : List (OptionEntry Plan) :=
  [{ name := "help", takesValue := false, shown := ""
     description := "Print this help and exit."
     read? := fun _ => some fun plan => { plan with help := true }
     restore := id },
   { name := "count", takesValue := true, shown := toString defaults.count
     description := "Number of messages to encode."
     read? := fun value => (count? platform.counts value).map fun count plan => { plan with count }
     restore := fun plan => { plan with count := defaults.count } },
   { name := "blob-size", takesValue := true, shown := toString defaults.blobSize
     description := "Size in bytes of the blob carried by each message."
     read? := fun value => (Setting.size? platform.sizes value).map fun size plan =>
       { plan with blobSize := size }
     restore := fun plan => { plan with blobSize := defaults.blobSize } },
   { name := "log-level", takesValue := true, shown := String.ofList defaults.verbosity.name
     description := "Most verbose severity to log to stderr: fatal, error, warning, info, " ++
       "debug, trace, data."
     read? := fun value => (verbosity? platform.sizes value).map fun verbosity plan =>
       { plan with verbosity }
     restore := fun plan => { plan with verbosity := defaults.verbosity } }]
  ++ (defaults.settings.entries platform.sizes false).map fun entry =>
    entry.lift Plan.settings fun plan settings => { plan with settings }

def parse (platform : Platform) (arguments : List String) : Except Misuse Plan :=
  CommandLine.parse platform.arguments (entries platform {}) {} arguments

/-- The options as they are explained. -/
def usage (platform : Platform) : String :=
  platform.layout "chunked_encoder options" ((entries platform {}).map OptionEntry.text)

/-- The configuration of the encoder's logger once the command line has been read. -/
def config (plan : Plan) : Log.Config := firstConfig.setGeneral plan.verbosity true

end Plan

end ByteQueue.Encoder
