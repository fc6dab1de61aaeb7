import ByteQueue.Proofs.Log.Naming

/-! Which messages pass. The verbosity that counts for a component is the one that was set for it
last, directly or by a name that stood for it at the time, as long as no reset has followed; for all
others it is the general one. So what a configuration answers is a matter of the calls that were
made on it, and its tables can be forgotten. -/
namespace ByteQueue.Log

/-- Registering names touches no verbosity. -/
theorem Config.verbosities_foldl_register (pairs : List (Component × Text)) (config : Config) :
    let after := pairs.foldl (fun config pair => config.register pair.1 pair.2) config
    after.general = config.general ∧ after.verbosities = config.verbosities := by
  induction pairs generalizing config with
  | nil => exact ⟨rfl, rfl⟩
  | cons pair rest ih => exact ih (config.register pair.1 pair.2)

namespace History

variable {component : Component} {verbosity : Severity} {call : Call} {calls earlier : List Call}

/-- After one more call a component has a verbosity of its own if that call sets it, or if the call
neither sets another one nor resets all and the component has had it before. -/
theorem own?_cons_eq_some_iff :
    own? component (call :: earlier) = some verbosity ↔
      setting? earlier call = some (component, verbosity) ∨
        (∀ general, call ≠ .setGeneral general true) ∧
          (∀ another, setting? earlier call ≠ some (component, another)) ∧
          own? component earlier = some verbosity := by
  cases call with
  | registerAll _ _ _ => simp [own?, setting?]
  | setGeneral _ reset => cases reset <;> simp [own?, setting?]
  | setVerbosity target given =>
    by_cases hTarget : target = component <;> simp [own?, setting?, hTarget]
  | setVerbosityByName name given =>
    cases hName : component? name earlier with
    | none => simp [own?, setting?, hName]
    | some target =>
      by_cases hTarget : target = component <;> simp [own?, setting?, hName, hTarget]

theorem lastSet_cons_iff :
    LastSet component verbosity (call :: earlier) ↔
      setting? earlier call = some (component, verbosity) ∨
        (∀ general, call ≠ .setGeneral general true) ∧
          (∀ another, setting? earlier call ≠ some (component, another)) ∧
          LastSet component verbosity earlier := by
  constructor
  -- The last setting is this call, or it came before and this call does not undo it.
  · rintro ⟨later, setting, rest, hCalls, hSets, hSince⟩
    cases later with
    | nil =>
      obtain ⟨rfl, rfl⟩ := List.cons.inj hCalls
      exact .inl hSets
    | cons first later =>
      obtain ⟨rfl, rfl⟩ := List.cons.inj hCalls
      obtain ⟨hReset, hOther⟩ := hSince [] call later rfl
      refine .inr ⟨hReset, hOther, later, setting, rest, rfl, hSets, ?_⟩
      rintro newer other older rfl
      exact hSince (call :: newer) other older rfl
  · rintro (hSets | ⟨hReset, hOther, later, setting, rest, rfl, hSets, hSince⟩)
    · refine ⟨[], call, earlier, rfl, hSets, ?_⟩
      intro newer other older h
      simp at h
    · refine ⟨call :: later, setting, rest, rfl, hSets, ?_⟩
      intro newer other older h
      cases newer with
      | nil =>
        obtain ⟨rfl, rfl⟩ := List.cons.inj h
        exact ⟨hReset, hOther⟩
      | cons first newer =>
        obtain ⟨rfl, rfl⟩ := List.cons.inj h
        exact hSince newer other older rfl

/-- The verbosity of its own that a component has is the one set for it last. -/
theorem own?_eq_some_iff :
    own? component calls = some verbosity ↔ LastSet component verbosity calls := by
  induction calls with
  | nil => simp [own?, LastSet]
  | cons call earlier ih => rw [own?_cons_eq_some_iff, lastSet_cons_iff, ih]

theorem own?_eq_none_iff :
    own? component calls = none ↔ ∀ verbosity, ¬ LastSet component verbosity calls := by
  simp [← own?_eq_some_iff, Option.eq_none_iff_forall_ne_some]

/-- The general verbosity of a configuration and those of its components, read off its history. -/
theorem verbosities_config (start : Severity) (calls : List Call) :
    (config start calls).general = general start calls ∧
      ∀ component, (config start calls).verbosities.get? component = own? component calls := by
  induction calls with
  | nil => exact ⟨rfl, fun _ => rfl⟩
  | cons call earlier ih =>
    obtain ⟨hGeneral, hOwn⟩ := ih
    cases call with
    | registerAll family names label =>
      obtain ⟨hSame, hTable⟩ := Config.verbosities_foldl_register
        (Call.registerAll family names label).registrations (config start earlier)
      rw [config, Config.call_registerAll]
      exact ⟨hSame.trans hGeneral, fun component => hTable ▸ hOwn component⟩
    | setGeneral verbosity reset =>
      refine ⟨rfl, fun component => ?_⟩
      cases reset with
      | true => rfl
      | false => exact hOwn component
    | setVerbosity target verbosity =>
      refine ⟨hGeneral, fun component => ?_⟩
      simp [config, Config.call, Config.setVerbosity, own?, Table.get?_insert, hOwn]
    | setVerbosityByName name verbosity =>
      simp only [config, Config.call, setVerbosityByName_config, general, own?]
      cases component? name earlier with
      | none => simp [hGeneral, hOwn]
      | some target => simp [Config.setVerbosity, Table.get?_insert, hGeneral, hOwn]

/-- A call that registers no names changes the meaning of none. -/
theorem component?_erase (h : call.registrations = []) (name : Text) (later earlier : List Call) :
    component? name (later ++ call :: earlier) = component? name (later ++ earlier) := by
  simp [component?_eq, registrations, h]

theorem registrations_of_setting (h : setting? earlier call = some (component, verbosity)) :
    call.registrations = [] := by
  cases call with
  | registerAll _ _ _ => simp [setting?] at h
  | _ => rfl

/-- Setting the verbosity of one component is as good as not done for all others. -/
theorem own?_erase {other : Component} (hSets : setting? earlier call = some (other, verbosity))
    (hOther : other ≠ component) (later : List Call) :
    own? component (later ++ call :: earlier) = own? component (later ++ earlier) := by
  have hNames (name : Text) (later : List Call) :=
    component?_erase (registrations_of_setting hSets) name later earlier
  ext own
  induction later with
  | nil =>
    simp only [List.nil_append]
    rw [own?_cons_eq_some_iff, hSets]
    cases call with
    | registerAll _ _ _ => simp [setting?] at hSets
    | setGeneral _ _ => simp [setting?] at hSets
    | _ => simp [hOther]
  | cons newer later ih =>
    have hSetting : setting? (later ++ call :: earlier) newer =
        setting? (later ++ earlier) newer := by
      cases newer with
      | setVerbosityByName name _ => rw [setting?, setting?, hNames]
      | _ => rfl
    rw [List.cons_append, List.cons_append, own?_cons_eq_some_iff, own?_cons_eq_some_iff, hSetting,
      ih]

theorem general_erase (hSets : setting? earlier call = some (component, verbosity))
    (start : Severity) (later : List Call) :
    general start (later ++ call :: earlier) = general start (later ++ earlier) := by
  induction later with
  | nil =>
    cases call with
    | setGeneral _ _ => simp [setting?] at hSets
    | _ => rfl
  | cons newer later ih =>
    cases newer with
    | setGeneral _ _ => rfl
    | _ => exact ih

/-- The verbosity that counts, read off the history. -/
theorem verbosity_config (start : Severity) (calls : List Call) (component : Option Component) :
    (config start calls).verbosity component =
      (component.bind (own? · calls)).getD (general start calls) := by
  obtain ⟨hGeneral, hOwn⟩ := verbosities_config start calls
  rw [Config.verbosity, hGeneral]
  cases component with
  | none => rfl
  | some component =>
    rw [Option.bind_some, Option.bind_some, hOwn]
    cases own? component calls <;> rfl

/-- Which messages pass after any calls. A component has the verbosity that was set for it last,
directly or by a name that stood for it then, unless a reset has come later; without one of its own
it has the general verbosity that was set last, and so have messages that no component speaks for. A
message passes just if it has a severity at all and that is, as a number, not above the verbosity.
Setting a verbosity by a name that was never registered fails and changes nothing. Where a call sets
the verbosity of a component, those of other enumerations answer as if it had not been made, and it
does not matter whether they have the same number. -/
theorem messages_pass_by_history (start : Severity) (calls : List Call) :
    let config := History.config start calls
    let passesUpTo (component : Option Component) (verbosity : Severity) :=
      ∀ severity : Severity, config.shouldLog severity component = true ↔
        severity ≠ .silent ∧ severity.level ≤ verbosity.level
    (∀ component verbosity, LastSet component verbosity calls →
        passesUpTo (some component) verbosity) ∧
      (∀ component, (∀ verbosity, ¬ LastSet component verbosity calls) →
        passesUpTo (some component) (general start calls)) ∧
      passesUpTo none (general start calls) ∧
      (∀ name verbosity, (∀ component, (component, Config.normalize name) ∉ registrations calls) →
        config.setVerbosityByName name verbosity = (config, false)) ∧
      ∀ later call earlier other verbosity, calls = later ++ call :: earlier →
        setting? earlier call = some (other, verbosity) →
        ∀ component : Component, component.family ≠ other.family →
        ∀ severity, config.shouldLog severity (some component) =
          (History.config start (later ++ earlier)).shouldLog severity (some component) := by
  intro config passesUpTo
  have hPasses (component : Option Component) :
      passesUpTo component (config.verbosity component) := by
    intro severity
    simp [Config.shouldLog, Severity.passes]
  refine ⟨fun component verbosity hLast => ?_, fun component hNone => ?_, ?_, ?_, ?_⟩
  · have hVerbosity : config.verbosity (some component) = verbosity := by
      rw [verbosity_config, Option.bind_some, own?_eq_some_iff.mpr hLast, Option.getD_some]
    exact hVerbosity ▸ hPasses (some component)
  · have hVerbosity : config.verbosity (some component) = general start calls := by
      rw [verbosity_config, Option.bind_some, own?_eq_none_iff.mpr hNone, Option.getD_none]
    exact hVerbosity ▸ hPasses (some component)
  · have hVerbosity : config.verbosity none = general start calls :=
      verbosity_config start calls none
    exact hVerbosity ▸ hPasses none
  · intro name verbosity hNever
    rw [setVerbosityByName_config]
    cases hComponent : component? name calls with
    | none => rfl
    | some component => exact absurd (mem_of_component? hComponent) (hNever component)
  · rintro later call earlier other verbosity rfl hSets component hFamily severity
    have hOther : other ≠ component := by
      rintro rfl
      exact hFamily rfl
    rw [Config.shouldLog, Config.shouldLog, verbosity_config, verbosity_config, Option.bind_some,
      Option.bind_some, own?_erase hSets hOther, general_erase hSets]

/-- Two enumerations have a component of number 3. One has been set by its name after a reset, the
other one directly; all others are left with the general verbosity. -/
theorem messages_pass_by_history_of_shared_number :
    let calls : List Call :=
      [.setVerbosityByName "lib_buf".toList .trace, .setVerbosity ⟨"other", 3⟩ .fatal,
        .registerAll Component.standardFamily Component.standardNames "lib".toList,
        .setGeneral .warning true, .setVerbosity .util .data]
    let config := History.config .info calls
    config.shouldLog .trace (some .buffer) = true ∧
      config.shouldLog .error (some ⟨"other", 3⟩) = false ∧
      (History.config .info (calls.drop 1)).shouldLog .error (some ⟨"other", 3⟩) = false ∧
      config.shouldLog .warning (some .util) = true ∧ config.shouldLog .info none = false ∧
      config.setVerbosityByName "buf".toList .data = (config, false) := by
  intro calls config
  obtain ⟨hSet, hUnset, hNone, hUnknown, hOther⟩ := messages_pass_by_history .info calls
  have hBuffer : LastSet .buffer .trace calls := own?_eq_some_iff.mp (by decide +kernel)
  have hThird : LastSet ⟨"other", 3⟩ .fatal calls := own?_eq_some_iff.mp (by decide +kernel)
  have hUtil : ∀ verbosity, ¬ LastSet .util verbosity calls :=
    own?_eq_none_iff.mp (by decide +kernel)
  have hName : component? "buf".toList calls = none := by decide +kernel
  have hNever (component : Component) :
      (component, Config.normalize "buf".toList) ∉ registrations calls := by
    intro hGiven
    obtain ⟨found, hFound⟩ := exists_component?_iff.mpr ⟨component, hGiven⟩
    rw [hName] at hFound
    cases hFound
  have hSilent : config.shouldLog .error (some ⟨"other", 3⟩) = false := by
    rw [Bool.eq_false_iff, ne_eq, hSet _ _ hThird .error]
    decide
  have hSame := hOther [] _ _ .buffer .trace rfl (by decide +kernel) ⟨"other", 3⟩ (by decide) .error
  refine ⟨(hSet _ _ hBuffer .trace).mpr (by decide), hSilent, hSame.symm.trans hSilent,
    (hUnset _ hUtil .warning).mpr (by decide), ?_, hUnknown _ .data hNever⟩
  rw [Bool.eq_false_iff, ne_eq, hNone .info]
  decide

end History

end ByteQueue.Log
