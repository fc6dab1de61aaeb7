import ByteQueue.Text.Basic

/-!
Command lines of named options. An option stands as `--name=value` or as `--name value`, in any
order and at most once; some options take no value. Every argument belongs to an option. An option
that is not given has its default.

How a command line is split into options is left to a reader of arguments, of which only this much
is known: it finds options of declared names that are spelled out in these two ways.
-/
namespace ByteQueue

/-- The name of an option, and whether it has a value. -/
structure OptionDeclaration where
  name : String
  takesValue : Bool
  deriving DecidableEq, Repr

/-- What is wrong with a command line. -/
inductive Misuse where
  | unknownOption (name : String)
  | repeatedOption (name : String)
  | missingValue (name : String)
  | unexpectedValue (name : String)
  | strayArgument (text : String)
  | badValue (name value : String)
  deriving DecidableEq, Repr

/-- An option as a program understands it, by what it does to a state. -/
structure OptionEntry (σ : Type) extends OptionDeclaration where
  /-- The default, as text. -/
  shown : String
  description : String
  /-- What a given value changes, if the text is one. -/
  read? : String → Option (σ → σ)
  /-- What is changed if the option is not given. -/
  restore : σ → σ

/-- What a printout tells of an option. -/
structure OptionText extends OptionDeclaration where
  shown : String
  description : String
  deriving DecidableEq, Repr

def OptionEntry.text {σ : Type} (entry : OptionEntry σ) : OptionText := { entry with }

/-- A way to lay options out under a caption. Widths and line breaks are up to it. -/
abbrev Layout := String → List OptionText → String

/-- The same option, of a larger state. -/
def OptionEntry.lift {σ τ : Type} (entry : OptionEntry σ) (get : τ → σ) (set : τ → σ → τ) :
    OptionEntry τ where
  toOptionDeclaration := entry.toOptionDeclaration
  shown := entry.shown
  description := entry.description
  read? value := (entry.read? value).map fun change state => set state (change (get state))
  restore state := set state (entry.restore (get state))

/-- The two ways in which an option and its value stand on a command line. -/
inductive Spelling where
  | joined | apart
  deriving DecidableEq, Repr

/-- An option and its value, as they are given. -/
structure SpelledOption where
  name : String
  value : String
  spelling : Spelling
  deriving DecidableEq, Repr

namespace SpelledOption

def pair (option : SpelledOption) : String × String := (option.name, option.value)

def arguments (option : SpelledOption) : List String :=
  match option.spelling with
  | .joined => ["--" ++ option.name ++ "=" ++ option.value]
  | .apart => ["--" ++ option.name, option.value]

end SpelledOption

namespace CommandLine

/-- The arguments as they are received: each is NUL-terminated. -/
def received (arguments : List String) : List String :=
  arguments.map fun argument => String.ofList (Text.terminated argument.toList)

/-- A name or a value that cannot be mistaken for anything else in an argument: there is something
of it, it does not begin with a hyphen, and it has no equals sign. -/
def Plain (text : String) : Prop :=
  text.toList.head?.any (· ≠ '-') = true ∧ '=' ∉ text.toList

instance (text : String) : Decidable (Plain text) := inferInstanceAs (Decidable (_ ∧ _))

end CommandLine

/-- A way to split command lines into options and values, in order; an option without a value has
the empty text. -/
structure ArgumentReader where
  read : List OptionDeclaration → List String → Except Misuse (List (String × String))
  read_spelled {declared : List OptionDeclaration} (given : List SpelledOption)
    (distinct : (declared.map OptionDeclaration.name).Nodup)
    (known : ∀ option ∈ given, ⟨option.name, true⟩ ∈ declared)
    (plain : ∀ option ∈ given, CommandLine.Plain option.name ∧ CommandLine.Plain option.value) :
    read declared (given.flatMap SpelledOption.arguments) = .ok (given.map SpelledOption.pair)

namespace CommandLine

/-- The name of an option argument and the value in it, if there is one. -/
def splitOption? (argument : String) : Option (String × Option String) :=
  match argument.toList with
  | '-' :: '-' :: rest =>
    let name := rest.takeWhile (· ≠ '=')
    match rest.dropWhile (· ≠ '=') with
    | [] => some (String.ofList name, none)
    | _ :: value => some (String.ofList name, some (String.ofList value))
  | _ => none

/-- The options and values of a command line. The argument after an option that needs a value is
that value, whatever it looks like. -/
def read (declared : List OptionDeclaration) :
    List String → Except Misuse (List (String × String))
  | [] => .ok []
  | argument :: rest =>
    match splitOption? argument with
    | none => .error (.strayArgument argument)
    | some (name, value?) =>
      match declared.find? (·.name == name) with
      | none => .error (.unknownOption name)
      | some option =>
        match option.takesValue, value?, rest with
        | false, some _, _ => .error (.unexpectedValue name)
        | false, none, rest => (read declared rest).map ((name, "") :: ·)
        | true, some value, rest =>
          if value = "" then .error (.missingValue name)
          else (read declared rest).map ((name, value) :: ·)
        | true, none, [] => .error (.missingValue name)
        | true, none, value :: rest => (read declared rest).map ((name, value) :: ·)

theorem splitOption?_joined {name : String} (h : '=' ∉ name.toList) (value : String) :
    splitOption? ("--" ++ name ++ "=" ++ value) = some (name, some value) := by
  have hName : ∀ c ∈ name.toList, decide (c ≠ '=') = true := by
    intro c hc
    exact decide_eq_true fun hSame => h (hSame ▸ hc)
  have hText : ("--" ++ name ++ "=" ++ value).toList =
      '-' :: '-' :: (name.toList ++ '=' :: value.toList) := by
    simp
  simp only [splitOption?, hText, List.takeWhile_append_of_pos hName,
    List.dropWhile_append_of_pos hName]
  simp

theorem splitOption?_apart {name : String} (h : '=' ∉ name.toList) :
    splitOption? ("--" ++ name) = some (name, none) := by
  have hName : ∀ c ∈ name.toList, decide (c ≠ '=') = true := by
    intro c hc
    exact decide_eq_true fun hSame => h (hSame ▸ hc)
  have hText : ("--" ++ name).toList = '-' :: '-' :: name.toList := by
    simp
  have hTake : name.toList.takeWhile (· ≠ '=') = name.toList := by
    have hAll : (name.toList ++ []).takeWhile (· ≠ '=') = name.toList ++ [] :=
      List.takeWhile_append_of_pos hName
    rwa [List.append_nil] at hAll
  have hDrop : name.toList.dropWhile (· ≠ '=') = [] := by
    have hAll : (name.toList ++ []).dropWhile (· ≠ '=') = [] :=
      List.dropWhile_append_of_pos hName
    rwa [List.append_nil] at hAll
  simp only [splitOption?, hText, hTake, hDrop]
  simp

theorem find?_declared {declared : List OptionDeclaration} {option : OptionDeclaration}
    (distinct : (declared.map OptionDeclaration.name).Nodup) (h : option ∈ declared) :
    declared.find? (·.name == option.name) = some option := by
  induction declared with
  | nil => cases h
  | cons first rest ih =>
    rw [List.map_cons, List.nodup_cons] at distinct
    rcases List.mem_cons.mp h with rfl | hRest
    · simp
    · have hOther : first.name ≠ option.name := by
        intro hSame
        exact distinct.1 (hSame ▸ List.mem_map_of_mem hRest)
      rw [List.find?_cons_of_neg (by simpa using hOther)]
      exact ih distinct.2 hRest

section Reading

variable {declared : List OptionDeclaration} {name value : String}

theorem read_joined (known : declared.find? (·.name == name) = some ⟨name, true⟩)
    (hName : '=' ∉ name.toList) (hValue : value ≠ "") (rest : List String) :
    read declared (("--" ++ name ++ "=" ++ value) :: rest) =
      (read declared rest).map ((name, value) :: ·) := by
  rw [read, splitOption?_joined hName]
  simp only [known]
  exact if_neg hValue

theorem read_apart (known : declared.find? (·.name == name) = some ⟨name, true⟩)
    (hName : '=' ∉ name.toList) (rest : List String) :
    read declared (("--" ++ name) :: value :: rest) =
      (read declared rest).map ((name, value) :: ·) := by
  rw [read, splitOption?_apart hName]
  simp only [known]

theorem read_spelled (given : List SpelledOption)
    (distinct : (declared.map OptionDeclaration.name).Nodup)
    (known : ∀ option ∈ given, ⟨option.name, true⟩ ∈ declared)
    (plain : ∀ option ∈ given, Plain option.name ∧ Plain option.value) :
    read declared (given.flatMap SpelledOption.arguments) = .ok (given.map SpelledOption.pair) := by
  induction given with
  | nil => rfl
  | cons option rest ih =>
    obtain ⟨hKnown, hRestKnown⟩ := List.forall_mem_cons.mp known
    obtain ⟨⟨hName, hValue⟩, hRestPlain⟩ := List.forall_mem_cons.mp plain
    have hFind : declared.find? (·.name == option.name) = some ⟨option.name, true⟩ :=
      find?_declared distinct hKnown
    have hSome : option.value ≠ "" := by
      intro hEmpty
      simp [Plain, hEmpty] at hValue
    rw [List.flatMap_cons, SpelledOption.arguments]
    cases option.spelling with
    | joined =>
      rw [List.singleton_append, read_joined hFind hName.2 hSome, ih hRestKnown hRestPlain]
      rfl
    | apart =>
      rw [List.cons_append, List.singleton_append, read_apart hFind hName.2,
        ih hRestKnown hRestPlain]
      rfl

end Reading

/-- The first option that occurs again later. -/
def repeated? : List (String × String) → Option String
  | [] => none
  | (name, _) :: rest => if rest.any (·.1 == name) then some name else repeated? rest

variable {σ : Type}

/-- What a given option changes. -/
def change (entries : List (OptionEntry σ)) (option : String × String) :
    Except Misuse (String × (σ → σ)) :=
  match entries.find? (·.name == option.1) with
  | none => .error (.unknownOption option.1)
  | some entry =>
    match entry.read? option.2 with
    | none => .error (.badValue option.1 option.2)
    | some change => .ok (option.1, change)

/-- Makes all changes, and those of the defaults of options that are not among them. -/
def settle (entries : List (OptionEntry σ)) (changes : List (String × (σ → σ))) (start : σ) : σ :=
  entries.foldl (fun state entry => (changes.lookup entry.name).getD entry.restore state) start

/-- Reads a command line. Nothing is changed before all values have been read. -/
def parse (reader : ArgumentReader) (entries : List (OptionEntry σ)) (start : σ)
    (arguments : List String) : Except Misuse σ := do
  let given ← reader.read (entries.map OptionEntry.toOptionDeclaration) (received arguments)
  if let some name := repeated? given then throw (.repeatedOption name)
  let changes ← given.mapM (change entries)
  return settle entries changes start

end CommandLine

/-- Takes the argument after an option that needs a value as that value, whatever it looks like. -/
def ArgumentReader.standard : ArgumentReader where
  read := CommandLine.read
  read_spelled := CommandLine.read_spelled

end ByteQueue
