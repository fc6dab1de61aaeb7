import ByteQueue.CommandLine
import ByteQueue.Settings.Basic
import ByteQueue.Text.Token

/-!
The settings by name. Each of the five has a description, a value that is printed as text, and
a way to read that text back; together they are options of a command line. What a command line
does not mention keeps its value.
-/
namespace ByteQueue

/-- One of the settings. -/
inductive Setting where
  | rule | initialChunkSize | maxChunkSize | smallHandleThreshold | maxSlices
  deriving DecidableEq, Repr

namespace Setting

/-- In the order in which they are printed. -/
def all : List Setting :=
  [.rule, .initialChunkSize, .maxChunkSize, .smallHandleThreshold, .maxSlices]

theorem mem_all (setting : Setting) : setting ∈ all := by
  cases setting <;> simp [all]

/-- What a setting is: a rule or a size. -/
abbrev Value : Setting → Type
  | .rule => Rule
  | .initialChunkSize | .maxChunkSize | .smallHandleThreshold | .maxSlices => UInt64

def get (settings : Settings) : (setting : Setting) → setting.Value
  | .rule => settings.rule
  | .initialChunkSize => settings.initialChunkSize
  | .maxChunkSize => settings.maxChunkSize
  | .smallHandleThreshold => settings.smallHandleThreshold
  | .maxSlices => settings.maxSlices

def set (settings : Settings) : (setting : Setting) → setting.Value → Settings
  | .rule, value => { settings with rule := value }
  | .initialChunkSize, size => { settings with initialChunkSize := size }
  | .maxChunkSize, size => { settings with maxChunkSize := size }
  | .smallHandleThreshold, size => { settings with smallHandleThreshold := size }
  | .maxSlices, size => { settings with maxSlices := size }

theorem get_set_self (settings : Settings) (setting : Setting) (value : setting.Value) :
    get (set settings setting value) setting = value := by
  cases setting <;> rfl

theorem get_set_of_ne {setting other : Setting} (h : other ≠ setting) (settings : Settings)
    (value : setting.Value) : get (set settings setting value) other = get settings other := by
  cases setting <;> cases other <;> simp_all [get, set]

/-- Settings are the same if each of them is. -/
theorem eq_of_get {first second : Settings}
    (h : ∀ setting, get first setting = get second setting) : first = second := by
  cases first
  cases second
  simp only [Settings.mk.injEq]
  exact ⟨h .rule, h .initialChunkSize, h .maxChunkSize, h .smallHandleThreshold, h .maxSlices⟩

/-- As a setting is called where it cannot be changed any more. -/
def identifier : Setting → String
  | .rule => "m_st_growth_rule"
  | .initialChunkSize => "m_st_initial_chunk_size"
  | .maxChunkSize => "m_st_max_chunk_size"
  | .smallHandleThreshold => "m_st_small_handle_threshold"
  | .maxSlices => "m_st_max_vectored_slices"

/-- The mark of what cannot be changed any more. -/
def mark : Text := "m_st_".toList

/-- The option for an identifier: without the mark, and with hyphens for underscores. -/
def optionName (identifier : String) : String :=
  let text := identifier.toList
  let unmarked := if mark.isPrefixOf text then text.drop mark.length else text
  String.ofList (unmarked.map fun c => if c = '_' then '-' else c)

def name (setting : Setting) : String := optionName setting.identifier

def description : Setting → String
  | .rule =>
    "How new chunks are sized.  \"fixed\": every chunk is exactly initial-chunk-size bytes; " ++
      "longer writes are split across chunks, and longer absorbed handles are sliced " ++
      "(zero copy).  \"doubling\": chunk sizes double from initial-chunk-size as bytes " ++
      "accumulate, up to max-chunk-size; a single write larger than that gets one exact-fit " ++
      "chunk.  Possible values: [" ++ ", ".intercalate Rule.ids ++ "]."
  | .initialChunkSize =>
    "Size in bytes of each new chunk (fixed rule); or of the first, smallest chunk " ++
      "(doubling rule).  Must be positive."
  | .maxChunkSize =>
    "With the doubling rule, the size at which chunk sizes stop doubling.  Must be at least " ++
      "initial-chunk-size in that case.  Ignored with the fixed rule."
  | .smallHandleThreshold =>
    "An absorbed handle shorter than this is copied into the tail chunk, if it has room, " ++
      "rather than referenced.  This avoids a long run of tiny slices in projections.  0 means " ++
      "always reference."
  | .maxSlices =>
    "The most contiguous slices a single projection exposes for one vectored write.  Must be " ++
      "positive.  Consider the platform's IOV_MAX."

/-- A value as text. -/
def text : (setting : Setting) → setting.Value → String
  | .rule, value => value.name
  | .initialChunkSize, size | .maxChunkSize, size | .smallHandleThreshold, size
  | .maxSlices, size => toString size

/-- A rule is written as one word. -/
def rule? (value : String) : Option Rule :=
  if value ≠ "" ∧ value.toList.all (!Text.isBlank ·) then some (Rule.ofName value) else none

def size? (reader : NumberReader .word64) (value : String) : Option UInt64 :=
  (reader.read? value.toList).map UInt64.ofBitVec

/-- The value that a text stands for. -/
def value? (reader : NumberReader .word64) :
    (setting : Setting) → String → Option setting.Value
  | .rule, text => rule? text
  | .initialChunkSize, text | .maxChunkSize, text | .smallHandleThreshold, text
  | .maxSlices, text => size? reader text

/-- The option for a setting, with its default from the given settings. An option that is only
printed is not explained, and changes nothing. -/
def entry (reader : NumberReader .word64) (defaults : Settings) (printed : Bool)
    (setting : Setting) : OptionEntry Settings where
  name := setting.name
  takesValue := true
  shown := setting.text (setting.get defaults)
  description := if printed then "" else setting.description
  read? text := (setting.value? reader text).map fun value settings =>
    if printed then settings else setting.set settings value
  restore settings := if printed then settings else setting.set settings (setting.get defaults)

end Setting

namespace Settings

/-- The options for all settings. -/
def entries (reader : NumberReader .word64) (defaults : Settings) (printed : Bool) :
    List (OptionEntry Settings) :=
  Setting.all.map (Setting.entry reader defaults printed)

/-- Every setting with its value, as names and texts. -/
def print (settings : Settings) : List (String × String) :=
  (settings.entries (.decimal .word64) true).map fun entry => (entry.name, entry.shown)

/-- The settings as they are printed into a text. -/
def printout (layout : Layout) (settings : Settings) : String :=
  layout "Per-Chunked_buffer option values"
    ((settings.entries (.decimal .word64) true).map OptionEntry.text)

/-- Every setting with its value and what it means. -/
def help (settings : Settings) : List (String × String × String) :=
  (settings.entries (.decimal .word64) false).map fun entry =>
    (entry.name, entry.shown, entry.description)

/-- Reads settings from a command line; those that it does not mention keep their values. -/
def parseBy (reader : ArgumentReader) (numbers : NumberReader .word64) (settings : Settings)
    (arguments : List String) : Except Misuse Settings :=
  CommandLine.parse reader (settings.entries numbers false) settings arguments

def parse (settings : Settings) (arguments : List String) : Except Misuse Settings :=
  settings.parseBy .standard (.decimal .word64) arguments

end Settings

end ByteQueue
