import ByteQueue.Log.History

/-! Names of components. A registration writes a pair into two tables, and neither takes an older
entry back: a component is printed under the name that it was given last, and a name stands for the
component that it was given to last. A name that its component has given up goes on standing for
it, and of components that share a name only one is found by it; if neither happens, names and
components correspond one to one. -/
namespace ByteQueue

/-- Of entries that are written one after the other, the last one for a key counts. -/
theorem Table.get?_foldl_insert {ι κ ν : Type} [DecidableEq κ] (key : ι → κ) (value : ι → ν)
    (entries : List ι) (table : Table κ ν) (sought : κ) :
    (entries.foldl (fun table entry => table.insert (key entry) (value entry)) table).get? sought =
      ((entries.reverse.find? (key · = sought)).map value).or (table.get? sought) := by
  induction entries generalizing table with
  | nil => rfl
  | cons entry rest ih =>
    rw [List.foldl_cons, ih, get?_insert, List.reverse_cons, List.find?_append]
    cases rest.reverse.find? (key · = sought) with
    | some later => rfl
    | none => by_cases hKey : key entry = sought <;> simp [hKey]

namespace Log

namespace Config

/-- A component is printed as a name that it has, not as its enumeration and number. -/
def PrintsAs (config : Config) (component : Component) (name : Text) : Prop :=
  config.componentItems component = [.text name]

theorem printsAs_iff {config : Config} {component : Component} {name : Text} :
    config.PrintsAs component name ↔ config.names.get? component = some name := by
  rw [PrintsAs, componentItems]
  cases config.names.get? component with
  | none => simp
  | some own => simp

/-- Registering many pairs writes each into both tables, and changes nothing else. -/
theorem call_registerAll (config : Config) (family : String) (names : List (Int × String))
    (label : Text) :
    config.call (.registerAll family names label) =
      (Call.registerAll family names label).registrations.foldl
        (fun config pair => config.register pair.1 pair.2) config := by
  rw [Call.registrations, List.foldl_map]
  rfl

theorem tables_foldl_register (pairs : List (Component × Text)) (config : Config) :
    let after := pairs.foldl (fun config pair => config.register pair.1 pair.2) config
    after.names = pairs.foldl (fun table pair => table.insert pair.1 pair.2) config.names ∧
      after.components =
        pairs.foldl (fun table pair => table.insert pair.2 pair.1) config.components := by
  induction pairs generalizing config with
  | nil => exact ⟨rfl, rfl⟩
  | cons pair rest ih => exact ih (config.register pair.1 pair.2)

/-- What a call writes into the two tables, if anything. -/
theorem tables_call (config : Config) (call : Call) :
    (config.call call).names =
        call.registrations.foldl (fun table pair => table.insert pair.1 pair.2) config.names ∧
      (config.call call).components =
        call.registrations.foldl (fun table pair => table.insert pair.2 pair.1)
          config.components := by
  cases call with
  | registerAll family names label =>
    rw [call_registerAll]
    exact tables_foldl_register _ config
  | setGeneral _ _ => exact ⟨rfl, rfl⟩
  | setVerbosity _ _ => exact ⟨rfl, rfl⟩
  | setVerbosityByName name verbosity =>
    rw [call, setVerbosityByName]
    split <;> exact ⟨rfl, rfl⟩

/-- Setting the verbosity of a component changes that of no other, nor the general one. -/
theorem verbosity_setVerbosity (config : Config) (component : Component) (verbosity : Severity)
    (other : Option Component) :
    (config.setVerbosity component verbosity).verbosity other =
      if other = some component then verbosity else config.verbosity other := by
  cases other with
  | none => rfl
  | some other =>
    rw [Config.verbosity, setVerbosity, Option.bind_some, Table.get?_insert]
    by_cases hSame : component = other
    · simp [hSame]
    · rw [if_neg hSame, if_neg (by simpa using Ne.symm hSame)]
      rfl

end Config

namespace History

/-- All pairs that were registered, the latest first. -/
def registrations (calls : List Call) : List (Component × Text) :=
  calls.flatMap fun call => call.registrations.reverse

theorem registrations_cons (latest : Call) (earlier : List Call) :
    registrations (latest :: earlier) =
      latest.registrations.reverse ++ registrations earlier := by
  rw [registrations, List.flatMap_cons, registrations]

/-- The name that a component was given last. -/
def name? (component : Component) (calls : List Call) : Option Text :=
  ((registrations calls).find? (·.1 = component)).map Prod.snd

theorem component?_eq (name : Text) (calls : List Call) :
    component? name calls =
      ((registrations calls).find? (·.2 = Config.normalize name)).map Prod.fst := by
  induction calls with
  | nil => rfl
  | cons latest earlier ih =>
    rw [component?, registrations_cons, List.find?_append]
    cases latest.registrations.reverse.find? (·.2 = Config.normalize name) with
    | some pair => rfl
    | none => exact ih

/-- The tables of a configuration, read off its history. -/
theorem get?_config (general : Severity) (calls : List Call) :
    (∀ component, (config general calls).names.get? component = name? component calls) ∧
      ∀ name, (config general calls).components.get? name =
        ((registrations calls).find? (·.2 = name)).map Prod.fst := by
  induction calls with
  | nil => exact ⟨fun _ => rfl, fun _ => rfl⟩
  | cons latest earlier ih =>
    obtain ⟨hNames, hComponents⟩ := (config general earlier).tables_call latest
    constructor
    · intro component
      rw [config, hNames, Table.get?_foldl_insert, ih.1, name?, name?, registrations_cons,
        List.find?_append, Option.map_or]
    · intro name
      rw [config, hComponents, Table.get?_foldl_insert, ih.2, registrations_cons,
        List.find?_append, Option.map_or]

variable {component : Component} {name : Text} {calls : List Call}

theorem mem_of_name? (h : name? component calls = some name) :
    (component, name) ∈ registrations calls := by
  obtain ⟨⟨named, _⟩, hFind, rfl⟩ := Option.map_eq_some_iff.mp h
  have hSame : named = component := by simpa using List.find?_some hFind
  exact hSame ▸ List.mem_of_find?_eq_some hFind

theorem mem_of_component? (h : component? name calls = some component) :
    (component, Config.normalize name) ∈ registrations calls := by
  rw [component?_eq] at h
  obtain ⟨⟨_, given⟩, hFind, rfl⟩ := Option.map_eq_some_iff.mp h
  have hSame : given = Config.normalize name := by simpa using List.find?_some hFind
  exact hSame ▸ List.mem_of_find?_eq_some hFind

theorem exists_name? (h : (component, name) ∈ registrations calls) :
    ∃ last, name? component calls = some last := by
  rw [← Option.isSome_iff_exists, name?, Option.isSome_map, List.find?_isSome]
  exact ⟨_, h, by simp⟩

theorem exists_component?_iff :
    (∃ component, component? name calls = some component) ↔
      ∃ component, (component, Config.normalize name) ∈ registrations calls := by
  constructor
  · rintro ⟨component, h⟩
    exact ⟨component, mem_of_component? h⟩
  · rintro ⟨component, h⟩
    rw [← Option.isSome_iff_exists, component?_eq, Option.isSome_map, List.find?_isSome]
    exact ⟨_, h, by simp⟩

theorem printsAs_config_iff (general : Severity) :
    (config general calls).PrintsAs component name ↔ name? component calls = some name := by
  rw [Config.printsAs_iff, (get?_config general calls).1]

/-- A name finds the component that it was given to last, if it was ever given to any. -/
theorem setVerbosityByName_config (general : Severity) (calls : List Call) (name : Text)
    (verbosity : Severity) :
    (config general calls).setVerbosityByName name verbosity =
      match component? name calls with
      | some component => ((config general calls).setVerbosity component verbosity, true)
      | none => (config general calls, false) := by
  rw [component?_eq, ← (get?_config general calls).2]
  rfl

/-- What names do after any calls. A name is found just if it was ever registered, and then the
verbosity changes of the component that it was registered for last, and no other; a component is
printed under the name that it was registered with last. So a name under which a component is
printed is found. The converse holds as long as no component has been given two names, and it is
that component that is found as long as no name has been given to two. -/
theorem names_follow_registrations (general : Severity) (calls : List Call) (name : Text)
    (verbosity : Severity) :
    let config := History.config general calls
    let sought := Config.normalize name
    let registered := registrations calls
    let found := (config.setVerbosityByName name verbosity).2
    let after := (config.setVerbosityByName name verbosity).1
    let changesOnly (component : Component) := ∀ other,
      after.verbosity other = if other = some component then verbosity else config.verbosity other
    (found = true ↔ ∃ component, (component, sought) ∈ registered) ∧
      (found = false → after = config) ∧
      (∀ component, component? name calls = some component → changesOnly component) ∧
      (∀ component shown, config.PrintsAs component shown ↔ name? component calls = some shown) ∧
      (∀ component, config.PrintsAs component sought → found = true) ∧
      ((∀ first ∈ registered, ∀ second ∈ registered, first.1 = second.1 → first.2 = second.2) →
        (found = true ↔ ∃ component, config.PrintsAs component sought)) ∧
      ((∀ first ∈ registered, ∀ second ∈ registered, first.2 = second.2 → first.1 = second.1) →
        ∀ component, config.PrintsAs component sought → changesOnly component) := by
  intro config sought registered found after changesOnly
  have hResult := setVerbosityByName_config general calls name verbosity
  have hPrints (component : Component) (shown : Text) :
      config.PrintsAs component shown ↔ name? component calls = some shown :=
    printsAs_config_iff general
  have hFound : found = true ↔ ∃ component, component? name calls = some component := by
    show (Config.setVerbosityByName _ name verbosity).2 = true ↔ _
    rw [hResult]
    cases component? name calls <;> simp
  have hKept (h : found = false) : after = config := by
    rw [show after = _ from congrArg Prod.fst hResult]
    cases hComponent : component? name calls with
    | none => rfl
    | some component => exact absurd (hFound.mpr ⟨component, hComponent⟩) (by simp [h])
  have hChanges (component : Component) (h : component? name calls = some component) :
      changesOnly component := by
    intro other
    rw [show after = _ from congrArg Prod.fst hResult, h]
    exact config.verbosity_setVerbosity component verbosity other
  have hRegistered (component : Component) (h : config.PrintsAs component sought) :
      (component, sought) ∈ registered := mem_of_name? ((hPrints component sought).mp h)
  rw [exists_component?_iff] at hFound
  refine ⟨hFound, hKept, hChanges, hPrints,
    fun component h => hFound.mpr ⟨component, hRegistered component h⟩, ?_, ?_⟩
  · intro hOneName
    refine ⟨fun h => ?_, fun ⟨component, h⟩ => hFound.mpr ⟨component, hRegistered component h⟩⟩
    obtain ⟨component, hGiven⟩ := hFound.mp h
    obtain ⟨last, hLast⟩ := exists_name? hGiven
    have hSame : last = sought := hOneName _ (mem_of_name? hLast) _ hGiven rfl
    exact ⟨component, (hPrints component sought).mpr (hSame ▸ hLast)⟩
  · intro hOneComponent component h
    have hGiven := hRegistered component h
    obtain ⟨last, hLast⟩ := exists_component?_iff.mpr ⟨component, hGiven⟩
    have hSame : last = component := hOneComponent _ (mem_of_component? hLast) _ hGiven rfl
    exact hChanges component (hSame ▸ hLast)

/-- The library's own components, registered twice with the same label: names and components
correspond one to one, and the name in lower case changes the verbosity of that component only. -/
theorem names_follow_registrations_of_standard_names :
    let register : Call :=
      .registerAll Component.standardFamily Component.standardNames "lib".toList
    let config := History.config .info [register, register]
    let result := config.setVerbosityByName "lib_buf".toList .trace
    config.PrintsAs .buffer "LIB_BUF".toList ∧ result.2 = true ∧
      result.1.verbosity (some .buffer) = .trace ∧ result.1.verbosity (some .util) = .info ∧
      result.1.verbosity none = .info := by
  intro register config result
  obtain ⟨_, _, _, hPrints, _, hFound, hChanges⟩ :=
    names_follow_registrations .info [register, register] "lib_buf".toList .trace
  have hShown : config.PrintsAs .buffer "LIB_BUF".toList :=
    (hPrints .buffer _).mpr (by decide +kernel)
  have hSought : Config.normalize "lib_buf".toList = "LIB_BUF".toList := by decide +kernel
  rw [hSought] at hFound hChanges
  have hOnly := hChanges (by decide +kernel) .buffer hShown
  exact ⟨hShown, (hFound (by decide +kernel)).mpr ⟨.buffer, hShown⟩, (hOnly _).trans (by decide),
    (hOnly _).trans (by decide +kernel), (hOnly _).trans (by decide +kernel)⟩

/-- Two calls: a component is registered, and then registered under another name. What it was called
first is still found, though no component is printed so. -/
theorem given_up_name_is_found :
    let calls : List Call :=
      [.registerAll "other" [(1, "beta")] [], .registerAll "other" [(1, "alpha")] []]
    let config := History.config .info calls
    let result := config.setVerbosityByName "alpha".toList .data
    config.PrintsAs ⟨"other", 1⟩ "BETA".toList ∧ result.2 = true ∧
      ¬ ∃ component, config.PrintsAs component (Config.normalize "alpha".toList) := by
  intro calls config result
  have hNames : config.names = [(⟨"other", 1⟩, "BETA".toList)] := by decide +kernel
  have hOther : "BETA".toList ≠ Config.normalize "alpha".toList := by decide +kernel
  refine ⟨by rw [Config.printsAs_iff, hNames]; rfl, by decide +kernel, ?_⟩
  rintro ⟨component, hPrints⟩
  rw [Config.printsAs_iff, hNames, Table.get?] at hPrints
  split at hPrints
  · exact hOther (Option.some.inj hPrints)
  · cases hPrints

end History

end Log

end ByteQueue
