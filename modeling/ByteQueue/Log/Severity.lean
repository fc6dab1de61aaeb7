import ByteQueue.Text.Enumeration

/-!
Severities of messages. A severity is a number, and a greater one is more verbose; seven of
them have a meaning, 0 is the verbosity that lets nothing pass, and the rest are unknown.
-/
namespace ByteQueue

/-- How verbose a message is. -/
structure Severity where
  level : UInt64
  deriving DecidableEq, Repr

namespace Severity

/-- Not the severity of any message: as a verbosity it silences everything. -/
def silent : Severity := ⟨0⟩
def fatal : Severity := ⟨1⟩
def error : Severity := ⟨2⟩
def warning : Severity := ⟨3⟩
def info : Severity := ⟨4⟩
def debug : Severity := ⟨5⟩
def trace : Severity := ⟨6⟩
def data : Severity := ⟨7⟩
/-- The first number without a meaning. -/
def bound : Severity := ⟨8⟩

def name (severity : Severity) : Text :=
  (match severity.level with
  | 0 => "NONE"
  | 1 => "FATAL"
  | 2 => "ERROR"
  | 3 => "WARNING"
  | 4 => "INFO"
  | 5 => "DEBUG"
  | 6 => "TRACE"
  | 7 => "DATA"
  | _ => "UNKNOWN").toList

/-- Four letters, as log lines show a severity. -/
def shortName (severity : Severity) : Text :=
  (match severity.level with
  | 0 => "null"
  | 1 => "fatl"
  | 2 => "eror"
  | 3 => "warn"
  | 4 => "info"
  | 5 => "debg"
  | 6 => "trce"
  | 7 => "data"
  | _ => "").toList

/-- Whether a message of this severity passes a filter of the given verbosity. -/
def passes (severity verbosity : Severity) : Bool :=
  severity != silent && severity.level ≤ verbosity.level

/-- Reads a severity by name or number, among those from `lowest` on and before `stop`. -/
def readWithin (fallback lowest stop : Severity) (text : Text) : Severity × Text :=
  let (level, rest) :=
    Token.read (.decimal .word64) (fun level => name ⟨⟨level⟩⟩) fallback.level.toBitVec
      lowest.level.toBitVec stop.level.toBitVec text
  (⟨⟨level⟩⟩, rest)

/-- Before the bound there are only eight numbers. -/
theorem exists_of_between {level : NumberType.word64.Number}
    (h : NumberType.word64.Between silent.level.toBitVec bound.level.toBitVec level) :
    ∃ n < 8, level = BitVec.ofNat 64 n := by
  have hValue : NumberType.word64.value level = level.toNat := rfl
  exact ⟨level.toNat, Int.ofNat_lt.mp h.2, NumberType.eq_ofNat_of_value hValue⟩

/-- The severities with a meaning, and the silent one. -/
def enumeration : Enumeration .word64 where
  name level := name ⟨⟨level⟩⟩
  lowest := silent.level.toBitVec
  stop := bound.level.toBitVec
  lowest_le_stop := by decide
  isName_name h := by
    obtain ⟨n, hn, rfl⟩ := exists_of_between h
    have hAll : ∀ n < 8, Token.IsName (name ⟨⟨BitVec.ofNat 64 n⟩⟩) := by decide
    exact hAll n hn
  eq_of_sameLetters hFirst hSecond h := by
    obtain ⟨m, hm, rfl⟩ := exists_of_between hFirst
    obtain ⟨n, hn, rfl⟩ := exists_of_between hSecond
    have hAll : ∀ m < 8, ∀ n < 8, Token.sameLetters (name ⟨⟨BitVec.ofNat 64 m⟩⟩)
        (name ⟨⟨BitVec.ofNat 64 n⟩⟩) = true → m = n := by decide
    exact congrArg _ (hAll m hm n hn h)

/-- Among these severities, reading is that of the enumeration. -/
theorem readWithin_bound (fallback : Severity) (text : Text) :
    readWithin fallback silent bound text =
      let (level, rest) := enumeration.read (.decimal .word64) fallback.level.toBitVec text
      (⟨⟨level⟩⟩, rest) := rfl

/-- Reads a severity; what is not recognised reads as `silent`. -/
def read (text : Text) : Severity × Text := readWithin silent silent bound text

end Severity

end ByteQueue
